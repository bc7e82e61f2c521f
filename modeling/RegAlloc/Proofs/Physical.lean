import RegAlloc.Proofs.Preservation
import RegAlloc.Proofs.Totality
import RegAlloc.Proofs.UniformLifetimes

/-!
# Compiled code is physical

The registers of compiled code are physical, and each of them is accounted for: it is one that may be given out, or
one that the function mentions, or one of the two that hold the frame (`compile_physical`). The pseudo instructions
for the frame are spelled out, and no move is from memory to memory.

Operands come into the code on several ways: from the instructions and phis of the function (`within_place`), from the
splits of its registers (`within_storage`, `physical_transferCode`), and from the moves on edges, which may use
registers in between (`Sequencer.physical_run`). All of them are followed for an arbitrary set `R` of registers.
-/

namespace RegAlloc

variable {R : PhysReg → Prop}

namespace Operand

/-- The registers that an operand mentions: the one that it is, or those of its address. -/
def registers (o : Operand) : List Register :=
  match o.content with
  | .imm _ => []
  | .reg r => [r]
  | .mem m => m.registers

/-- The registers of the operand are physical ones of which `R` holds. -/
def Within (R : PhysReg → Prop) (o : Operand) : Prop := ∀ r ∈ o.registers, ∃ q, r = .phys q ∧ R q

theorem within_imm (w : Width) (n : Int) : (imm w n).Within R := List.forall_mem_nil _

/-- A physical register that `R` holds of is within it. -/
theorem within_phys {q : PhysReg} (h : R q) (w : Width) : (phys w q).Within R := List.forall_mem_singleton.2 ⟨q, rfl, h⟩

/-- The width of an operand has no part in its registers. -/
theorem Within.withWidth {o : Operand} (h : o.Within R) (w : Width) : (o.withWidth w).Within R := h

/-- What is read to access an operand are registers of the operand. -/
theorem register_mem_of_reads {o : Operand} {output memoryOk : Bool} {x : Access} (h : x ∈ o.reads output memoryOk) :
    x.register ∈ o.registers := by
  obtain ⟨w, c⟩ := o
  cases c with
  | imm n => cases h
  | reg r =>
    rw [reads] at h
    dsimp only at h
    split_ifs at h
    · cases h
    · rw [List.mem_singleton.1 h]
      exact List.mem_singleton_self r
  | mem m =>
    obtain ⟨r, hr, rfl⟩ := List.mem_map.1 h
    exact hr

end Operand

/-- Whether the machine has the instruction: the ones for the frame stand for others, and there is no move from memory
to memory. -/
def Instruction.isMachine : Instruction → Bool
  | .enter | .leave => false
  | .mov src dest => !(src.isMemory && dest.isMemory)
  | _ => true

/-- The machine has the instruction, and its registers are physical ones of which `R` holds. -/
structure Instruction.Physical (R : PhysReg → Prop) (i : Instruction) : Prop where
  operands : ∀ o ∈ i.operands, o.Within R
  machine : i.isMachine

/-- A move is physical if its operands are within and not both in memory. -/
theorem Instruction.physical_mov {src dest : Operand} (hsrc : src.Within R) (hdest : dest.Within R)
    (h : (src.isMemory && dest.isMemory) = false) : (Instruction.mov src dest).Physical R :=
  ⟨List.forall_mem_cons.2 ⟨hsrc, List.forall_mem_singleton.2 hdest⟩, by rw [isMachine, h]; rfl⟩

/-- A push of such an operand is physical. -/
theorem Instruction.physical_push {o : Operand} (h : o.Within R) : (Instruction.push o).Physical R :=
  ⟨List.forall_mem_singleton.2 h, rfl⟩

theorem Instruction.physical_pop {o : Operand} (h : o.Within R) : (Instruction.pop o).Physical R :=
  ⟨List.forall_mem_singleton.2 h, rfl⟩

/-- Moving between such operands is physical, also from memory to memory. -/
theorem physical_moveCode {src dest : Operand} (hsrc : src.Within R) (hdest : dest.Within R) :
    ∀ i ∈ moveCode src dest, i.Physical R := by
  rw [moveCode]
  split_ifs with hmem
  · exact List.forall_mem_cons.2 ⟨Instruction.physical_push (hsrc.withWidth _),
      List.forall_mem_singleton.2 (Instruction.physical_pop (hdest.withWidth _))⟩
  · exact List.forall_mem_singleton.2 (Instruction.physical_mov hsrc hdest (Bool.eq_false_iff.2 hmem))

theorem physical_fixup {input output : Operand} (hinput : input.Within R) (houtput : output.Within R) :
    ∀ i ∈ fixup input output, i.Physical R := by
  rw [fixup]
  split_ifs
  · exact List.forall_mem_nil _
  · exact physical_moveCode hinput houtput

/-! ## Code in place -/

namespace Allocation

/-- `R` holds of the registers that splits have and of those of the frame. -/
structure Provides (R : PhysReg → Prop) (a : Allocation) : Prop where
  homes : ∀ v p q, a.registerAt? (.virt v) p = some q → R q
  transfers : ∀ p, ∀ z ∈ a.transfersAt p, R z.home
  base : R a.target.frameBase
  top : R a.target.stackPointer

variable {a : Allocation} {p read write : Position} {o o' : Operand}

/-- A slot is addressed by the frame base. -/
theorem within_slotCell (ha : a.Provides R) (slot : Nat) (w : Width) : (a.slotCell slot w).Within R :=
  List.forall_mem_singleton.2 ⟨_, rfl, ha.base⟩

/-- What a register is stored in is within, if it is one when it is physical. -/
theorem within_storage (ha : a.Provides R) {r : Register} {w : Width} (hr : ∀ q, r = .phys q → R q)
    (h : a.storage w r p = .ok o') : o'.Within R := by
  cases r with
  | phys q =>
    obtain rfl := Except.ok.inj h
    exact Operand.within_phys (hr q rfl) w
  | virt v =>
    rw [storage] at h
    split at h
    · rename_i q hq
      obtain rfl := Except.ok.inj h
      exact Operand.within_phys (ha.homes v p q hq) w
    · split at h
      · rename_i cell hcell
        obtain ⟨slot, -, rfl⟩ := Option.map_eq_some_iff.1 hcell
        obtain rfl := Except.ok.inj h
        exact within_slotCell ha slot w
      · cases h

theorem within_addressPart (ha : a.Provides R) {part part' : Option Register} (hr : ∀ q, .phys q ∈ part.toList → R q)
    (h : a.addressPart p part = .ok part') : ∀ r ∈ part'.toList, ∃ q, r = .phys q ∧ R q := by
  cases part with
  | none =>
    obtain rfl := Except.ok.inj h
    exact List.forall_mem_nil _
  | some r =>
    obtain ⟨r', hr', h⟩ := bind_eq_ok h
    obtain rfl := Except.ok.inj h
    refine List.forall_mem_singleton.2 ?_
    cases r with
    | phys q =>
      obtain rfl := Except.ok.inj hr'
      exact ⟨q, rfl, hr q (List.mem_singleton_self _)⟩
    | virt v =>
      rw [addressRegister] at hr'
      split at hr'
      · rename_i q hq
        obtain rfl := Except.ok.inj hr'
        exact ⟨q, rfl, ha.homes v p q hq⟩
      · cases hr'

/-- An operand in its place mentions registers that splits have, those of the frame, and those that it mentioned
before. -/
theorem within_place (ha : a.Provides R) (ho : ∀ q, .phys q ∈ o.registers → R q) (h : a.place p o = .ok o') :
    o'.Within R := by
  obtain ⟨w, c⟩ := o
  cases c with
  | imm n =>
    obtain rfl := Except.ok.inj h
    exact Operand.within_imm w n
  | reg r => exact within_storage ha (fun q hq => ho q (List.mem_singleton.2 hq.symm)) h
  | mem m =>
    obtain ⟨base, hbase, h⟩ := bind_eq_ok h
    obtain ⟨index, hindex, h⟩ := bind_eq_ok h
    obtain rfl := Except.ok.inj h
    intro r hr
    rcases List.mem_append.1 hr with hr | hr
    · exact within_addressPart ha (fun q hq => ho q (List.mem_append_left _ hq)) hbase r hr
    · exact within_addressPart ha (fun q hq => ho q (List.mem_append_right _ hq)) hindex r hr

/-- Transfers are physical: they are between registers of splits and slots. -/
theorem physical_transferCode (ha : a.Provides R) (p : Position) : ∀ i ∈ a.transferCodeAt p, i.Physical R := by
  intro i hi
  obtain ⟨z, hz, rfl⟩ := List.mem_map.1 hi
  have hhome := Operand.within_phys (ha.transfers p z hz) z.register.width
  have hcell := within_slotCell ha z.slot z.register.width
  rw [transferCode]
  cases z.kind with
  | spill => exact Instruction.physical_mov hhome hcell rfl
  | reload => exact Instruction.physical_mov hcell hhome rfl

theorem physical_enterCode (ha : a.Provides R) {code : List Instruction} (h : a.enterCode = .ok code) :
    ∀ i ∈ code, i.Physical R := by
  obtain ⟨size, -, h⟩ := bind_eq_ok h
  obtain rfl := Except.ok.inj h
  have hbase := Operand.within_phys ha.base .quad
  have htop := Operand.within_phys ha.top .quad
  refine List.forall_mem_cons.2 ⟨Instruction.physical_push hbase, List.forall_mem_cons.2
    ⟨Instruction.physical_mov htop hbase rfl, List.forall_mem_singleton.2 ?_⟩⟩
  exact ⟨List.forall_mem_cons.2 ⟨Operand.within_imm _ _, List.forall_mem_singleton.2 htop⟩, rfl⟩

theorem physical_leaveCode (ha : a.Provides R) : ∀ i ∈ a.leaveCode, i.Physical R :=
  List.forall_mem_cons.2 ⟨Instruction.physical_mov (Operand.within_phys ha.base _) (Operand.within_phys ha.top _) rfl,
    List.forall_mem_singleton.2 (Instruction.physical_pop (Operand.within_phys ha.base _))⟩

/-- Calls are not put in place, and so may not hold virtual registers. -/
theorem physical_placeInstruction (ha : a.Provides R) {i : Instruction}
    (hi : ∀ o ∈ i.operands, ∀ q, .phys q ∈ o.registers → R q)
    (hcall : i.isCall → ∀ o ∈ i.operands, ∀ r ∈ o.registers, r.virt? = none) {code : List Instruction}
    (h : a.placeInstruction read write i = .ok code) : ∀ j ∈ code, j.Physical R := by
  have hone : ∀ {j : Instruction}, (∀ o ∈ j.operands, o.Within R) → j.isMachine → ∀ k ∈ [j], k.Physical R :=
    fun hj hmachine => List.forall_mem_singleton.2 ⟨hj, hmachine⟩
  cases i with
  | arith op left right =>
    obtain ⟨left', hleft, h⟩ := bind_eq_ok h
    obtain ⟨input, hinput, h⟩ := bind_eq_ok h
    obtain ⟨output, houtput, h⟩ := bind_eq_ok h
    obtain rfl := Except.ok.inj h
    have hleft := within_place ha (hi left (by simp [Instruction.operands])) hleft
    have hinput := within_place ha (hi right (by simp [Instruction.operands])) hinput
    have houtput := within_place ha (hi right (by simp [Instruction.operands])) houtput
    exact List.forall_mem_cons.2 ⟨⟨List.forall_mem_cons.2 ⟨hleft, List.forall_mem_singleton.2 hinput⟩, rfl⟩,
      physical_fixup hinput houtput⟩
  | neg operand =>
    obtain ⟨input, hinput, h⟩ := bind_eq_ok h
    obtain ⟨output, houtput, h⟩ := bind_eq_ok h
    obtain rfl := Except.ok.inj h
    have hinput := within_place ha (hi operand (List.mem_singleton_self _)) hinput
    have houtput := within_place ha (hi operand (List.mem_singleton_self _)) houtput
    exact List.forall_mem_cons.2 ⟨⟨List.forall_mem_singleton.2 hinput, rfl⟩, physical_fixup hinput houtput⟩
  | mov src dest =>
    obtain ⟨src', hsrc, h⟩ := bind_eq_ok h
    obtain ⟨dest', hdest, h⟩ := bind_eq_ok h
    obtain rfl := Except.ok.inj h
    exact physical_moveCode (within_place ha (hi src (by simp [Instruction.operands])) hsrc)
      (within_place ha (hi dest (by simp [Instruction.operands])) hdest)
  | compare op left right | xchg left right =>
    obtain ⟨left', hleft, h⟩ := bind_eq_ok h
    obtain ⟨right', hright, h⟩ := bind_eq_ok h
    obtain rfl := Except.ok.inj h
    have hleft := within_place ha (hi left (by simp [Instruction.operands])) hleft
    have hright := within_place ha (hi right (by simp [Instruction.operands])) hright
    exact hone (List.forall_mem_cons.2 ⟨hleft, List.forall_mem_singleton.2 hright⟩) rfl
  | setcc relation operand | idiv operand | push operand | pop operand =>
    obtain ⟨operand', hoperand, h⟩ := bind_eq_ok h
    obtain rfl := Except.ok.inj h
    exact hone (List.forall_mem_singleton.2 (within_place ha (hi operand (List.mem_singleton_self _)) hoperand)) rfl
  | call callee arguments =>
    obtain rfl := Except.ok.inj h
    refine hone (fun o ho r hr => ?_) rfl
    cases r with
    | virt v => cases hcall rfl o ho _ hr
    | phys q => exact ⟨q, rfl, hi o ho q hr⟩
  | enter => exact physical_enterCode ha h
  | leave =>
    obtain rfl := Except.ok.inj h
    exact physical_leaveCode ha
  | cqto | jmp | jcc | label | ret =>
    obtain rfl := Except.ok.inj h
    exact hone (List.forall_mem_nil _) rfl

end Allocation

/-! ## Moves on edges -/

namespace Sequencer

open Move

variable {s : Sequencer} {x : Move}

/-- What is pending mentions registers of which `R` holds, and so do the registers for other use. -/
structure Within (R : PhysReg → Prop) (s : Sequencer) : Prop where
  pending : ∀ x ∈ s.pending, x.src.Within R ∧ x.dest.Within R
  scratch : ∀ q ∈ s.scratch, R q

/-- What moves read is within if their operands are. -/
theorem readBy_within {l : List Move} (h : ∀ x ∈ l, x.src.Within R ∧ x.dest.Within R) {q : PhysReg}
    (hq : q ∈ readBy l) : R q := by
  obtain ⟨x, hx, access, hread, hphys⟩ := mem_readBy.1 hq
  have hwithin : ∃ q', access.register = .phys q' ∧ R q' := by
    rcases hread with hread | hread
    · exact (h x hx).1 _ (Operand.register_mem_of_reads hread)
    · exact (h x hx).2 _ (Operand.register_mem_of_reads hread)
  obtain ⟨q', hq', hR⟩ := hwithin
  cases hphys.symm.trans hq'
  exact hR

/-- After a move was made, what is left to do is within. -/
theorem within_settle (h : s.Within R) (s' : Sequencer) (hpending : ∀ x ∈ s'.pending, x.src.Within R ∧ x.dest.Within R)
    (hscratch : s'.scratch = s.scratch) (dest : Operand) : (s'.settle s.pending dest).Within R := by
  refine ⟨hpending, fun q hq => ?_⟩
  simp only [settle, List.mem_filter, Bool.and_eq_true, Bool.or_eq_true, List.contains_eq_mem, decide_eq_true_eq,
    hscratch] at hq
  obtain ⟨-, ⟨hq | ⟨hq, -⟩, -⟩, -⟩ := hq
  · exact h.scratch q hq
  · exact readBy_within h.pending hq

/-- Sending a move to where a value went keeps it within. -/
theorem within_redirect {y : Move} (hx : x.src.Within R ∧ x.dest.Within R) (hy : y.src.Within R ∧ y.dest.Within R) :
    (redirect x y).src.Within R ∧ (redirect x y).dest.Within R := by
  rw [redirect]
  split_ifs
  · exact ⟨hx.1.withWidth _, hy.2⟩
  · exact ⟨hx.2.withWidth _, hy.2⟩
  · exact hy

/-- A move through a scratch register is physical. -/
theorem physical_throughScratch {scratch : List PhysReg} (h : ∀ q ∈ scratch, R q)
    (hx : x.src.Within R ∧ x.dest.Within R) :
    ∀ i ∈ throughScratch scratch x, i.Physical R := by
  cases scratch with
  | cons q rest =>
    have hq : (Operand.phys x.dest.width q).Within R := Operand.within_phys (h q List.mem_cons_self) _
    exact List.forall_mem_cons.2 ⟨Instruction.physical_mov hx.1 hq (Bool.and_false _),
      List.forall_mem_singleton.2 (Instruction.physical_mov hq hx.2 rfl)⟩
  | nil =>
    exact List.forall_mem_cons.2 ⟨Instruction.physical_push (hx.1.withWidth _),
      List.forall_mem_singleton.2 (Instruction.physical_pop (hx.2.withWidth _))⟩

theorem physical_exchangeCells (hx : x.src.Within R ∧ x.dest.Within R) : ∀ i ∈ exchangeCells x, i.Physical R :=
  List.forall_mem_cons.2 ⟨Instruction.physical_push (hx.1.withWidth _), List.forall_mem_cons.2
    ⟨Instruction.physical_push (hx.2.withWidth _), List.forall_mem_cons.2 ⟨Instruction.physical_pop (hx.1.withWidth _),
      List.forall_mem_singleton.2 (Instruction.physical_pop (hx.2.withWidth _))⟩⟩⟩

/-- One move is carried out by physical instructions, and what is left mentions nothing else. -/
theorem physical_step (h : s.Within R) (hx : x ∈ s.pending) :
    (∀ i ∈ (s.perform x).1, i.Physical R) ∧ ((s.perform x).2.settle s.pending x.dest).Within R := by
  have hwithin := h.pending x hx
  have hrest : ∀ y ∈ s.pending.erase x, y.src.Within R ∧ y.dest.Within R := fun y hy =>
    h.pending y (List.mem_of_mem_erase hy)
  have hexchanged : ∀ y ∈ ({ s with pending := s.pending.erase x }.exchanged x).pending, y.src.Within R ∧
    y.dest.Within R := by
    intro z hz
    obtain ⟨y, hy, rfl, -⟩ := mem_exchanged_pending.1 hz
    exact within_redirect hwithin (hrest y hy)
  rcases s.perform_cases x with ⟨-, hmem, heq⟩ | ⟨-, -, -, heq⟩ | ⟨-, -, -, -, heq⟩ | ⟨-, -, heq⟩
  · rw [heq]
    exact ⟨List.forall_mem_singleton.2 (Instruction.physical_mov hwithin.1 hwithin.2 hmem),
      within_settle h { s with pending := s.pending.erase x } hrest rfl x.dest⟩
  · rw [heq]
    exact ⟨physical_throughScratch h.scratch hwithin, within_settle h { s with pending := s.pending.erase x }
      hrest rfl x.dest⟩
  · rw [heq]
    exact ⟨physical_exchangeCells hwithin, within_settle h _ hexchanged rfl x.dest⟩
  · rw [heq]
    exact ⟨List.forall_mem_singleton.2 ⟨List.forall_mem_cons.2 ⟨hwithin.1, List.forall_mem_singleton.2 hwithin.2⟩, rfl⟩,
      within_settle h _ hexchanged rfl x.dest⟩

/-- Making all moves is physical, by induction on their number. -/
theorem physical_run (n : Nat) (h : s.Within R) : ∀ i ∈ run n s, i.Physical R := by
  induction n generalizing s with
  | zero => exact List.forall_mem_nil _
  | succ n ih =>
    rw [run]
    split
    · exact List.forall_mem_nil _
    · rename_i x hx
      obtain ⟨hcode, hnext⟩ := physical_step h (next?_some hx).1
      exact List.forall_mem_append.2 ⟨hcode, ih hnext⟩

end Sequencer

/-- The code of moves is physical if the operands are within. -/
theorem Move.physical_sequence {moves : List Move} (h : ∀ x ∈ moves, x.src.Within R ∧ x.dest.Within R)
    {code : List Instruction} (hcode : sequence moves = .ok code) : ∀ i ∈ code, i.Physical R := by
  rw [sequence] at hcode
  split at hcode
  · cases hcode
  · obtain rfl := Except.ok.inj hcode
    exact Sequencer.physical_run _ ⟨fun x hx => h x (List.mem_of_mem_filter hx), List.forall_mem_nil _⟩

/-! ## The code of a function -/

namespace Function

/-- The operands of the instructions and phis of a function. -/
def operands (f : Function) : List Operand :=
  f.blocks.flatMap (fun blk => blk.phis.flatMap (fun φ => φ.output :: φ.inputs.map (·.2)) ++
    blk.code.flatMap Instruction.operands)

/-- The function mentions a physical register. -/
def Mentions (f : Function) (q : PhysReg) : Prop := ∃ o ∈ f.operands, .phys q ∈ o.registers

variable {f : Function} {blk : Block} {q : PhysReg}

/-- A register of an instruction is mentioned. -/
theorem mentions_of_code {i : Instruction} {o : Operand} (hblk : blk ∈ f.blocks) (hi : i ∈ blk.code)
    (ho : o ∈ i.operands) (hq : .phys q ∈ o.registers) : f.Mentions q :=
  ⟨o, List.mem_flatMap.2 ⟨blk, hblk, List.mem_append_right _ (List.mem_flatMap.2 ⟨i, hi, ho⟩)⟩, hq⟩

/-- A register of an input of a phi is mentioned. -/
theorem mentions_of_phi {φ : Phi} {e : BlockId × Operand} (hblk : blk ∈ f.blocks) (hφ : φ ∈ blk.phis)
    (he : e ∈ φ.inputs) (hq : .phys q ∈ e.2.registers) : f.Mentions q :=
  ⟨e.2, List.mem_flatMap.2 ⟨blk, hblk, List.mem_append_left _
    (List.mem_flatMap.2 ⟨φ, hφ, List.mem_cons_of_mem _ (List.mem_map_of_mem he)⟩)⟩, hq⟩

/-- The arguments of calls mention no virtual registers. -/
def PhysicalCalls (f : Function) : Prop :=
  ∀ blk ∈ f.blocks, ∀ i ∈ blk.code, i.isCall → ∀ o ∈ i.operands, ∀ r ∈ o.registers, r.virt? = none

instance (f : Function) : Decidable f.PhysicalCalls :=
  inferInstanceAs
    (Decidable (∀ blk ∈ f.blocks, ∀ i ∈ blk.code, i.isCall → ∀ o ∈ i.operands, ∀ r ∈ o.registers, r.virt? = none))

end Function

namespace Layout

variable {f : Function} {a : Allocation} {placed : List PlacedBlock} {pb : PlacedBlock}

/-- The code of a block in place. -/
theorem physical_body (ha : a.Provides R) (hf : ∀ q, f.Mentions q → R q) (hcalls : f.PhysicalCalls) {b : BlockId}
    (h : Allocation.placeBlock f a b = .ok pb) : ∀ i ∈ pb.body, i.Physical R := by
  rw [Allocation.placeBlock] at h
  cases hb : f.block? b with
  | none =>
    rw [hb] at h
    cases h
  | some blk =>
    rw [hb] at h
    obtain ⟨phis, -, h⟩ := bind_eq_ok h
    obtain ⟨codes, hcodes, h⟩ := bind_eq_ok h
    obtain rfl := Except.ok.inj h
    have hblk : blk ∈ f.blocks := List.mem_of_getElem? hb
    refine List.forall_mem_append.2 ⟨List.forall_mem_append.2 ⟨Allocation.physical_transferCode ha _, ?_⟩,
      Allocation.physical_transferCode ha _⟩
    intro i hi
    obtain ⟨code, hcode, hi⟩ := List.mem_flatten.1 hi
    obtain ⟨e, he, hplaced⟩ := exists_of_result hcodes hcode
    obtain ⟨own, hown, hplaced⟩ := bind_eq_ok hplaced
    obtain rfl := Except.ok.inj hplaced
    have hmem : e.1 ∈ blk.code := List.mem_of_getElem? (List.mem_zipIdx_iff_getElem?.1 he)
    have hphysical :=
      Allocation.physical_placeInstruction ha (fun o ho q hq => hf q (Function.mentions_of_code hblk hmem ho hq))
      (hcalls blk hblk e.1 hmem) hown
    exact List.forall_mem_append.2 ⟨List.forall_mem_append.2 ⟨Allocation.physical_transferCode ha _, hphysical⟩,
      Allocation.physical_transferCode ha _⟩ i hi

/-- The inputs of the phis of a block in place. -/
theorem within_input (ha : a.Provides R) (hf : ∀ q, f.Mentions q → R q) {b pred : BlockId} {v : VirtReg} {o : Operand}
    (h : Allocation.placeBlock f a b = .ok pb) (ho : pb.input? v pred = some o) : o.Within R := by
  rw [Allocation.placeBlock] at h
  cases hb : f.block? b with
  | none =>
    rw [hb] at h
    cases h
  | some blk =>
    rw [hb] at h
    obtain ⟨phis, hphis, h⟩ := bind_eq_ok h
    obtain ⟨codes, -, h⟩ := bind_eq_ok h
    obtain rfl := Except.ok.inj h
    obtain ⟨φ', hφ', ho⟩ := Option.bind_eq_some_iff.1 ho
    -- The phi that is kept comes from a phi of the block, and its input from an input of that phi.
    have hmem : (v, φ') ∈ phis.filterMap id := by
      rcases mem_of_mem_insertAllBy (mem_of_lookupBy hφ') with hmem | hmem
      · exact hmem
      · cases hmem
    obtain ⟨x, hx, rfl⟩ := List.mem_filterMap.1 hmem
    obtain ⟨φ, hφ, hplaced⟩ := exists_of_result hphis hx
    rw [Allocation.placePhi, Allocation.virt?_of_placePhi hplaced] at hplaced
    dsimp only at hplaced
    split_ifs at hplaced
    · obtain ⟨output, -, hplaced⟩ := bind_eq_ok hplaced
      obtain ⟨inputs, hinputs, hplaced⟩ := bind_eq_ok hplaced
      cases hplaced
      obtain ⟨e, he, hinput⟩ := exists_of_result hinputs (mem_of_lookupBy ho)
      obtain ⟨stop, -, hinput⟩ := bind_eq_ok hinput
      obtain ⟨o', ho', hinput⟩ := bind_eq_ok hinput
      cases hinput
      exact Allocation.within_place ha (fun q hq =>
        hf q (Function.mentions_of_phi (List.mem_of_getElem? hb) hφ he hq)) ho'
    · cases hplaced

/-- The moves on an edge. -/
theorem within_edgeMoves (ha : a.Provides R) (hf : ∀ q, f.Mentions q → R q) (hplaced : a.placeBlocks f = .ok placed)
    {pred succ : BlockId} {moves : List Move} (h : edgeMoves f a placed pred succ = .ok moves) :
    ∀ x ∈ moves, x.src.Within R ∧ x.dest.Within R := by
  intro x hx
  obtain ⟨y, -, hmove⟩ := exists_of_result (edgeMoves_eq_ok.1 h).2 hx
  have hvirt : ∀ q, Register.virt y.interval.register = .phys q → R q := fun q hq => Register.noConfusion hq
  obtain ⟨dest, hdest, hmove⟩ := bind_eq_ok hmove
  have hdest := Allocation.within_storage ha hvirt hdest
  split at hmove
  · rename_i input hinput
    obtain rfl := Except.ok.inj hmove
    obtain ⟨pb, hpb, hinput⟩ := Option.bind_eq_some_iff.1 hinput
    obtain ⟨b, -, hplace⟩ := exists_of_result hplaced (List.mem_of_getElem? hpb)
    exact ⟨(within_input ha hf hplace hinput).withWidth _, hdest⟩
  · obtain ⟨stop, -, hmove⟩ := bind_eq_ok hmove
    obtain ⟨src, hsrc, hmove⟩ := bind_eq_ok hmove
    obtain rfl := Except.ok.inj hmove
    exact ⟨Allocation.within_storage ha hvirt hsrc, hdest⟩

theorem physical_exitCode (f : Function) (b : BlockId) (e : Exit) : ∀ i ∈ exitCode f b e, i.Physical R := by
  have hjmp : ∀ name, (Instruction.jmp name).Physical R := fun name => ⟨List.forall_mem_nil _, rfl⟩
  have hjcc : ∀ relation name, (Instruction.jcc relation name).Physical R := fun relation name =>
    ⟨List.forall_mem_nil _, rfl⟩
  cases e with
  | ret => exact List.forall_mem_singleton.2 ⟨List.forall_mem_nil _, rfl⟩
  | goto target =>
    rw [exitCode]
    split_ifs
    · exact List.forall_mem_nil _
    · exact List.forall_mem_singleton.2 (hjmp _)
  | branch relation yes no =>
    rw [exitCode]
    split_ifs
    · exact List.forall_mem_singleton.2 (hjcc _ _)
    · exact List.forall_mem_singleton.2 (hjcc _ _)
    · exact List.forall_mem_cons.2 ⟨hjcc _ _, List.forall_mem_singleton.2 (hjmp _)⟩

/-- The code of a function for which registers were chosen. -/
theorem physical_ofAllocation (ha : a.Provides R) (hf : ∀ q, f.Mentions q → R q) (hcalls : f.PhysicalCalls)
    {layout : Layout} (h : ofAllocation f a = .ok layout) : ∀ i ∈ layout.code, i.Physical R := by
  obtain ⟨placed, hplaced, h⟩ := bind_eq_ok h
  obtain ⟨ps, hps, h⟩ := bind_eq_ok h
  obtain rfl := Except.ok.inj h
  have hadded : ∀ b atEntry, ∀ i ∈ added ps b atEntry, i.Physical R := by
    intro b atEntry i hi
    obtain ⟨patch, hpatch, hi⟩ := List.mem_flatMap.1 hi
    obtain ⟨p, s, -, moves, hmoves, hcode, -⟩ := mem_patches hps (List.mem_of_mem_filter hpatch)
    exact Move.physical_sequence (within_edgeMoves ha hf hplaced hmoves) hcode i hi
  intro i hi
  obtain ⟨pb, hpb, hi⟩ := List.mem_flatMap.1 hi
  obtain ⟨b, -, hplace⟩ := exists_of_result hplaced hpb
  rcases List.mem_cons.1 hi with rfl | hi
  · exact ⟨List.forall_mem_nil _, rfl⟩
  · have hbody := List.forall_mem_append.2 ⟨hadded pb.id true, physical_body ha hf hcalls hplace⟩
    exact List.forall_mem_append.2 ⟨List.forall_mem_append.2 ⟨hbody, hadded _ _⟩, physical_exitCode f _ _⟩ i hi

end Layout

/-- Splits have registers that may be given out, and so do transfers. -/
theorem Allocation.provides_ofLifetimes {lt : Lifetimes} {t : Target} {a : Allocation} (hlt : lt.WellFormed)
    (ht : t.Valid) (h : ofLifetimes lt t = .ok a) (hallocatable : ∀ q ∈ t.allocatable, R q) (hbase : R t.frameBase)
    (htop : R t.stackPointer) :
    a.Provides R := by
  obtain ⟨-, -, htarget, -⟩ := ofLifetimes_eq_ok h
  have hsplit : ∀ e ∈ a.splits, ∀ x ∈ e.2, ∀ q, x.register = some q → R q := fun e he x hx q hq =>
    hallocatable q (register_allowed hlt ht h he hx hq).1
  refine ⟨fun v p q hq => ?_, fun p z hz => ?_, htarget ▸ hbase, htarget ▸ htop⟩
  · obtain ⟨x, hx, hq⟩ := Option.bind_eq_some_iff.1 hq
    obtain ⟨e, he, -, hx⟩ := exists_entry (List.mem_of_find?_eq_some hx)
    exact hsplit e he x hx q hq
  · obtain ⟨e, he, k, l, -, hl, hz⟩ := (ofLifetimes_transfers h).2 p z hz
    cases hxs : e.2 with
    | nil =>
      rw [hxs] at hl
      obtain rfl := Except.ok.inj hl
      cases hz
    | cons x xs =>
      rw [hxs] at hl
      obtain ⟨-, -, hmoves | ⟨y, hy, hmoves⟩⟩ := (Transfer.mem_ofSplits hl).1 hz
      · exact hsplit e he x (hxs ▸ List.mem_cons_self ..) _ hmoves.2.1
      · exact hsplit e he y (hxs ▸ List.mem_cons_of_mem _ hy) _ hmoves.2.1

/-- A register may be mentioned in the code of a function. -/
def Target.Allows (t : Target) (f : Function) (q : PhysReg) : Prop :=
  q ∈ t.allocatable ∨ f.Mentions q ∨ q = t.frameBase ∨ q = t.stackPointer

/-- **Physical code.** The instructions of compiled code are physical, and mention no other registers than those that
may be given out, those that the function mentions, and those of the frame. -/
theorem compile_physical {f : Function} {t : Target} {c : Compiled} (hcalls : f.PhysicalCalls)
    (h : compile f t = .ok c) :
    ∀ i ∈ c.code, i.Physical (t.Allows f) := by
  obtain ⟨hvalid, -, a, layout, ha, hlayout, hcode, -⟩ := compile_eq_ok h
  have hprovides : a.Provides (t.Allows f) :=
    Allocation.provides_ofLifetimes (Lifetimes.wellFormed_compute f t) (Target.valid_of_validate hvalid) ha
      (fun q hq => .inl hq) (.inr (.inr (.inl rfl))) (.inr (.inr (.inr rfl)))
  rw [hcode]
  exact Layout.physical_ofAllocation hprovides (fun q hq => .inr (.inl hq)) hcalls hlayout

/-- In the example with one allocatable register, the code is made of physical registers. -/
theorem compile_physical_tally :
    tally.PhysicalCalls ∧ ∃ c, compile tally (.withAllocatable [.b]) = .ok c ∧
      ∀ i ∈ c.code, i.Physical (Target.Allows (.withAllocatable [.b]) tally) :=
  ⟨by decide, _, rfl, compile_physical (by decide) rfl⟩

end RegAlloc
