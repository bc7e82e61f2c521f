import RegAlloc.Proofs.ParallelMove
import RegAlloc.Proofs.Semantics
import RegAlloc.Proofs.Transfers

/-!
# One instruction in place

An instruction of a function and the instructions that are made of it, run side by side. If the machine that runs the
code has the values that the instruction reads in their places (`Supplies`), then the code does what the instruction
does: both fault, or afterwards what the instruction writes is in its place, and nothing else has changed but the
places that the written registers had before (`placed_mirrors`).
-/

namespace RegAlloc

open Machine

/-- An instruction that computes: its operands are registers and constants, and the arguments of a call are physical
registers. -/
def Instruction.isOrdinary : Instruction → Bool
  | .arith _ left right | .compare _ left right | .mov left right => !left.isMemory && !right.isMemory
  | .neg operand | .setcc _ operand | .idiv operand => !operand.isMemory
  | .cqto _ => true
  | .call _ arguments => arguments.all (fun o => o.phys?.isSome)
  | _ => false

/-- An instruction that decides where the run goes on. -/
def Instruction.isControl : Instruction → Bool
  | .jmp _ | .jcc _ _ | .label _ | .ret => true
  | _ => false

/-- An instruction that writes one operand overwrites a physical register if the operand is that register. -/
theorem overwrites_iff {i : Instruction} {o : Operand} {t : Target} {r : PhysReg}
    (hdefs : i.defs = (o.writes false).toList) (hcall : i.isCall = false) :
    i.overwrites t r = true ↔ o.content = .reg (.phys r) := by
  rw [Instruction.overwrites, hdefs, hcall, Operand.writes]
  cases o.content with
  | imm n => simp
  | mem m => simp
  | reg r => simp

/-- Extending the sign overwrites the register of the upper half. -/
theorem overwrites_cqto {width : Width} {t : Target} {r : PhysReg} :
    (Instruction.cqto width).overwrites t r = true ↔ r = .d := by
  simp [Instruction.overwrites, Instruction.defs, Instruction.pinned, Instruction.isCall, eq_comm]

/-- A division overwrites the registers of the quotient and the remainder. -/
theorem overwrites_idiv {divisor : Operand} {t : Target} {r : PhysReg} :
    (Instruction.idiv divisor).overwrites t r = true ↔ r = .a ∨ r = .d := by
  simp only [Instruction.overwrites, Instruction.defs, Instruction.pinned, Instruction.isCall, List.any_cons,
    List.any_nil, Bool.or_false, Bool.false_and, Bool.or_eq_true, decide_eq_true_eq, Register.phys.injEq]
  exact or_congr eq_comm eq_comm

namespace Machine

variable {base top : PhysReg} {slots : Set Int} {m m' : Machine} {c d : Content} {src dest : Operand} {w : World}

theorem isMemory_of_isImmediate (h : dest.isImmediate = true) : dest.isMemory = false := by
  rw [Operand.isImmediate] at h
  rw [Operand.isMemory]
  cases hc : dest.content with
  | imm n => rfl
  | reg r => rfl
  | mem a =>
    rw [hc] at h
    cases h

/-- A copy without scratch registers changes only the place it writes. -/
theorem Copied.changesOnly (h : Copied base top slots ∅ c d m m') (hd : Place base top slots d) :
    m.ChangesOnly base top slots {d} m' ∧ m'.flags = m.flags ∧ m'.calls = m.calls := by
  have hregs : ∀ p ∈ regsOf d ∪ ∅, p ≠ base ∧ p ≠ top := by
    rintro p (hp | hp)
    · cases hd with
      | reg q hbase htop =>
        cases hp
        exact ⟨hbase, htop⟩
      | slot => cases hp
    · cases hp
  refine ⟨⟨h.agree.sameFrame (fun hb => (hregs _ hb).1 rfl) (fun ht => (hregs _ ht).2 rfl), ?_⟩,
    h.agree.flags, h.agree.calls⟩
  exact fun e he hne => h.others e (.inl he) hne nofun

/-- A move between places, through the stack if both are memory. -/
theorem copied_moveCode (src : Operand) (htop : w.stackPointer = top) (hbase : base ≠ top)
    (hf : Framed base top slots m) (hd : Place base top slots dest.content) :
    ∃ m', m.execAll w (moveCode src dest) = some m' ∧ Copied base top slots ∅ src.content dest.content m m' := by
  subst htop
  rw [moveCode]
  split_ifs with hmem
  · have hnone : ∀ p ∈ ([] : List PhysReg), p ≠ base ∧ p ≠ w.stackPointer := nofun
    obtain ⟨m', hrun, hcopied⟩ :=
      copied_throughScratch (x := ⟨src, dest⟩) hbase hf hd (Bool.and_eq_true_iff.1 hmem).2 hnone
    exact ⟨m', hrun, hcopied.target, fun c hc hne _ => hcopied.others c hc hne nofun,
      hcopied.agree.mono (Set.union_subset_union_right _ nofun) (subset_refl _)⟩
  · exact copied_mov hf hd (Bool.eq_false_iff.2 hmem)

end Machine

namespace Allocation

variable {f : Function} {t : Target} {a : Allocation} {v : VirtReg} {p : Position} {o o' src dest : Operand}
  {r : PhysReg} {sm tm sm' tm' : Machine} {w : World} {i : Instruction}

/-- An operand and what stands in its place at a position. -/
inductive Located (a : Allocation) (p : Position) (o o' : Operand) : Prop where
  | imm {n : Int} (h : o.content = .imm n) (h' : o' = o)
  | phys {r : PhysReg} (h : o.content = .reg (.phys r)) (h' : o'.content = .reg (.phys r))
  | virt {v : VirtReg} (h : o.content = .reg (.virt v)) (h' : a.Keeps v p o'.content)

/-- An operand that is placed is a constant, or it is found where its register is kept. -/
theorem located_of_place (hm : o.isMemory = false) (hv : ∀ v, o.content = .reg (.virt v) → (a.splitAt? v p).isSome)
    (h : a.place p o = .ok o') : a.Located p o o' := by
  rw [place] at h
  cases hc : o.content with
  | imm n =>
    rw [hc] at h
    exact .imm hc (Except.ok.inj h).symm
  | mem m =>
    rw [Operand.isMemory, hc] at hm
    cases hm
  | reg r =>
    rw [hc] at h
    cases r with
    | phys r =>
      obtain rfl := Except.ok.inj h
      exact .phys hc rfl
    | virt v => exact .virt hc (keeps_of_storage (hv v hc) h)

/-- The word of an operand is in its place. -/
theorem Located.value_eq (h : a.Located p o o')
    (hvirt : ∀ v, o.content = .reg (.virt v) → ∀ c, a.Keeps v p c → tm.get c = sm.regs (.virt v))
    (hphys : ∀ r, o.content = .reg (.phys r) → tm.regs (.phys r) = sm.regs (.phys r)) : tm.value o' = sm.value o := by
  rw [value, value]
  cases h with
  | imm h h' => rw [h', h]; rfl
  | phys h h' => rw [h', h]; exact hphys _ h
  | virt h h' => rw [h]; exact hvirt _ h _ h'

/-- What a machine supplies to an instruction in place: the values that the instruction reads are in their places,
flags and calls are as they should be. -/
structure Supplies (a : Allocation) (read write : Position) (i : Instruction) (sm tm : Machine) : Prop where
  live : ∀ v ∈ virtRegs i.uses, (a.splitAt? v read).isSome
  written : ∀ v ∈ virtRegs i.defs, (a.splitAt? v write).isSome
  virt : ∀ v ∈ virtRegs i.uses, ∀ c, a.Keeps v read c → tm.get c = sm.regs (.virt v)
  phys : ∀ r, i.inspects r → tm.regs (.phys r) = sm.regs (.phys r)
  flags : tm.flags = sm.flags
  calls : tm.calls = sm.calls

/-- The places that an instruction in place may change: those of the registers that it writes, before and after, and
the physical registers that it overwrites. -/
def Touches (a : Allocation) (t : Target) (read write : Position) (i : Instruction) : Set Content :=
  {c | (∃ v ∈ virtRegs i.defs, a.Keeps v read c ∨ a.Keeps v write c) ∨ ∃ r, i.overwrites t r ∧ c = .reg (.phys r)}

/-- What an instruction wrote is in its place, and nothing but its places has changed. -/
structure Follows (a : Allocation) (t : Target) (read write : Position) (i : Instruction) (sm' tm tm' : Machine) :
    Prop where
  virt : ∀ v ∈ virtRegs i.defs, ∀ c, a.Keeps v write c → tm'.get c = sm'.regs (.virt v)
  phys : ∀ r, i.overwrites t r → tm'.regs (.phys r) = sm'.regs (.phys r)
  changes : tm.ChangesOnly t.frameBase t.stackPointer a.cells (a.Touches t read write i) tm'
  flags : tm'.flags = sm'.flags
  calls : tm'.calls = sm'.calls

/-- Code does what an instruction does: its first instruction faults, or all of it is carried out and follows the
instruction. -/
structure Mirrors (a : Allocation) (t : Target) (w : World) (read write : Position) (i : Instruction)
    (code : List Instruction) (sm tm : Machine) : Prop where
  faults : sm.exec w i = none → ∃ j rest, code = j :: rest ∧ j.isControl = false ∧ tm.exec w j = none
  follows : ∀ sm', sm.exec w i = some sm' → ∃ tm', tm.execAll w code = some tm' ∧ a.Follows t read write i sm' tm tm'

namespace Supplies

variable {read write : Position} {x : Word} {S : Set Content}

/-- An operand that the instruction reads. -/
theorem value_eq {memoryOk : Bool} (h : a.Supplies read write i sm tm) (hread : o.reads false memoryOk ⊆ i.uses)
    (hm : o.isMemory = false) (hplace : a.place read o = .ok o') : a.Located read o o' ∧ tm.value o' = sm.value o := by
  have hread : ∀ r, o.content = .reg r → ∃ u ∈ i.uses, u.register = r := fun r hr =>
    ⟨⟨r, memoryOk⟩, hread (by simp [Operand.reads, hr]), rfl⟩
  have hvirt : ∀ v, o.content = .reg (.virt v) → v ∈ virtRegs i.uses := fun v hv => mem_virtRegs.2 (hread _ hv)
  have hloc := located_of_place hm (fun v hv => h.live v (hvirt v hv)) hplace
  refine ⟨hloc, hloc.value_eq (fun v hv => h.virt v (hvirt v hv)) fun r hr => h.phys r ?_⟩
  obtain ⟨u, hu, heq⟩ := hread _ hr
  exact List.any_eq_true.2 ⟨u, hu, decide_eq_true heq⟩

/-- The operand that the instruction writes. -/
theorem located_write (h : a.Supplies read write i sm tm) (hdefs : i.defs = (o.writes false).toList)
    (hm : o.isMemory = false) (hplace : a.place write o = .ok o') : a.Located write o o' := by
  refine located_of_place hm (fun v hv => h.written v ?_) hplace
  rw [hdefs]
  exact mem_virtRegs_writes.2 hv

/-- An instruction that writes one operand, and code that writes the same word to its place. -/
theorem follows_put (h : a.Supplies read write i sm tm) (hdefs : i.defs = (o.writes false).toList)
    (hcall : i.isCall = false) (hloc : a.Located write o o') (hput : sm.put o x = some sm')
    (hx : tm'.get o'.content = x) (hchanges : tm.ChangesOnly t.frameBase t.stackPointer a.cells S tm')
    (hS : ∀ c ∈ S, c = o'.content ∨ ∃ v, o.content = .reg (.virt v) ∧ a.Keeps v read c) (hflags : tm'.flags = tm.flags)
    (hcalls : tm'.calls = tm.calls) : a.Follows t read write i sm' tm tm' := by
  obtain ⟨himm, hsm'⟩ := put_eq_some.1 hput
  have hvirt : ∀ v, v ∈ virtRegs i.defs ↔ o.content = .reg (.virt v) := fun v => by
    rw [hdefs]
    exact mem_virtRegs_writes
  have hphys : ∀ r, i.overwrites t r = true ↔ o.content = .reg (.phys r) := fun r => overwrites_iff hdefs hcall
  have hget : ∀ r, o.content = .reg r → sm'.regs r = x := by
    intro r hr
    rw [hsm', hr]
    simp
  refine ⟨fun v hv c hc => ?_, fun r hr => ?_, hchanges.mono fun c hc => ?_, ?_, ?_⟩
  · have hv := (hvirt v).1 hv
    rw [hget _ hv, ← hx]
    cases hloc with
    | imm h' => cases hv.symm.trans h'
    | phys h' => cases hv.symm.trans h'
    | virt h' hk =>
      cases hv.symm.trans h'
      rw [hc.unique hk]
  · have hr := (hphys r).1 hr
    rw [hget _ hr, ← hx]
    cases hloc with
    | imm h' => cases hr.symm.trans h'
    | virt h' => cases hr.symm.trans h'
    | phys h' hk =>
      cases hr.symm.trans h'
      rw [hk]
      rfl
  · rcases hS c hc with rfl | ⟨v, hv, hk⟩
    · cases hloc with
      | imm h' =>
        rw [Operand.isImmediate, h'] at himm
        cases himm
      | virt h' hk => exact .inl ⟨_, (hvirt _).2 h', .inr hk⟩
      | phys h' hk => exact .inr ⟨_, (hphys _).2 h', hk⟩
    · exact .inl ⟨v, (hvirt v).2 hv, .inl hk⟩
  · rw [hflags, hsm', set_flags, h.flags]
  · rw [hcalls, hsm', set_calls, h.calls]

/-- The arguments of a call. -/
theorem map_value_eq {callee : String} {arguments : List Operand}
    (h : a.Supplies read write (.call callee arguments) sm tm) (hphys : ∀ o ∈ arguments, o.phys?.isSome) :
    arguments.map tm.value = arguments.map sm.value := by
  refine List.map_congr_left fun o ho => ?_
  obtain ⟨r, hr⟩ := Option.isSome_iff_exists.1 (hphys o ho)
  have hc : o.content = .reg (.phys r) := Sequencer.mem_phys?.1 hr
  rw [value, value, hc]
  refine h.phys r (List.any_eq_true.2 ⟨⟨.phys r, false⟩, List.mem_flatMap.2 ⟨o, ho, ?_⟩, decide_eq_true rfl⟩)
  simp [Operand.reads, hc]

end Supplies

/-- What is written to is a place. -/
theorem Located.place (h : a.Located p o o') (ha : a.Serves f t) (himm : o.isImmediate = false)
    (hframe : ∀ r, o.content = .reg (.phys r) → r ≠ t.frameBase ∧ r ≠ t.stackPointer) :
    Place t.frameBase t.stackPointer a.cells o'.content := by
  cases h with
  | imm h' =>
    rw [Operand.isImmediate, h'] at himm
    cases himm
  | phys h' hk =>
    obtain ⟨hbase, htop⟩ := hframe _ h'
    rw [hk]
    exact .reg _ hbase htop
  | virt h' hk => exact hk.place ha

theorem Located.isImmediate_eq (h : a.Located p o o') : o'.isImmediate = o.isImmediate := by
  rw [Operand.isImmediate, Operand.isImmediate]
  cases h with
  | imm h h' => rw [h', h]
  | phys h h' => rw [h', h]
  | virt h h' =>
    rw [h]
    generalize o'.content = c at h'
    cases h' <;> rfl

section Cases

variable {answer : List Call → PhysReg → Word} {read write : Position} {code : List Instruction}

/-- An instruction that writes one operand, for which one instruction stands that writes its place. -/
theorem mirrors_put {j : Instruction} {x : Word} (ha : a.Serves f t) (h : a.Supplies read write i sm tm)
    (hdefs : i.defs = (o.writes false).toList) (hcall : i.isCall = false) (hj : j.isControl = false)
    (hloc : a.Located write o o') (hframe : ∀ r, i.overwrites t r → r ≠ t.frameBase ∧ r ≠ t.stackPointer)
    (htm : tm.Framed t.frameBase t.stackPointer a.cells) (hs : sm.exec w i = sm.put o x)
    (ht : tm.exec w j = tm.put o' x) :
    a.Mirrors t w read write i [j] sm tm := by
  have himm := hloc.isImmediate_eq
  refine ⟨fun hnone => ⟨j, [], rfl, hj, ?_⟩, fun sm' hsome => ?_⟩
  · rw [hs, put_eq_none] at hnone
    rw [ht, put_eq_none, himm, hnone]
  · rw [hs] at hsome
    obtain ⟨hi, -⟩ := put_eq_some.1 hsome
    have hplace := hloc.place ha hi fun r hr => hframe r ((overwrites_iff hdefs hcall).2 hr)
    refine ⟨tm.set o'.content x, ?_, h.follows_put hdefs hcall hloc hsome (get_set_self hplace tm x)
      (changesOnly_set htm hplace x) (fun c hc => .inl hc) (set_flags _ _ _) (set_calls _ _ _)⟩
    rw [execAll, ht, put_place hplace, Option.bind_some, execAll]

/-- A move, which takes one instruction or goes through the stack. -/
theorem mirrors_mov {src' dest' : Operand} (ha : a.Serves f t) (htop : t.stackPointer = .sp)
    (hbase : t.frameBase ≠ t.stackPointer) (h : a.Supplies read write (.mov src dest) sm tm)
    (hsrc : src.isMemory = false) (hloc : a.Located write dest dest')
    (hframe : ∀ r, (Instruction.mov src dest).overwrites t r → r ≠ t.frameBase ∧ r ≠ t.stackPointer)
    (htm : tm.Framed t.frameBase t.stackPointer a.cells) (hvalue : tm.value src' = sm.value src) :
    a.Mirrors t (t.world answer) read write (.mov src dest) (moveCode src' dest') sm tm := by
  have himm := hloc.isImmediate_eq
  have hs : sm.exec (t.world answer) (.mov src dest) = sm.put dest (sm.value src) := by rw [exec, hsrc]; rfl
  refine ⟨fun hnone => ?_, fun sm' hsome => ?_⟩
  · rw [hs, put_eq_none] at hnone
    have hi' := himm.trans hnone
    have hmem : (src'.isMemory && dest'.isMemory) = false := by rw [isMemory_of_isImmediate hi', Bool.and_false]
    refine ⟨.mov src' dest', [], ?_, rfl, ?_⟩
    · rw [moveCode, hmem]
      rfl
    · rw [exec, hmem, if_neg Bool.false_ne_true, put_eq_none, hi']
  · rw [hs] at hsome
    obtain ⟨hi, -⟩ := put_eq_some.1 hsome
    have hplace := hloc.place ha hi fun r hr => hframe r ((overwrites_iff rfl rfl).2 hr)
    obtain ⟨tm', hrun, hcopied⟩ :=
      copied_moveCode src' (congrArg World.stackPointer (Target.world_eq htop answer)) hbase htm hplace
    obtain ⟨hchanges, hflags, hcalls⟩ := hcopied.changesOnly hplace
    exact ⟨tm', hrun, h.follows_put rfl rfl hloc hsome (hcopied.target.trans hvalue) hchanges
      (fun c hc => .inl hc) hflags hcalls⟩

/-- An instruction that updates an operand: the place that the operand is read from is updated, and the result is
moved to the place where it is written. -/
theorem mirrors_update {j : Instruction} {input output : Operand} {x : Word} (ha : a.Serves f t)
    (htop : t.stackPointer = .sp) (hbase : t.frameBase ≠ t.stackPointer) (h : a.Supplies read write i sm tm)
    (hdefs : i.defs = (o.writes false).toList) (hcall : i.isCall = false) (hj : j.isControl = false)
    (hin : a.Located read o input) (hout : a.Located write o output)
    (hframe : ∀ r, i.overwrites t r → r ≠ t.frameBase ∧ r ≠ t.stackPointer)
    (htm : tm.Framed t.frameBase t.stackPointer a.cells) (hs : sm.exec (t.world answer) i = sm.put o x)
    (ht : tm.exec (t.world answer) j = tm.put input x) :
    a.Mirrors t (t.world answer) read write i (j :: fixup input output) sm tm := by
  refine ⟨fun hnone => ⟨j, _, rfl, hj, ?_⟩, fun sm' hsome => ?_⟩
  · rw [hs, put_eq_none] at hnone
    rw [ht, put_eq_none, hin.isImmediate_eq, hnone]
  · rw [hs] at hsome
    obtain ⟨hi, -⟩ := put_eq_some.1 hsome
    have hphys : ∀ r, o.content = .reg (.phys r) → r ≠ t.frameBase ∧ r ≠ t.stackPointer := fun r hr =>
      hframe r ((overwrites_iff hdefs hcall).2 hr)
    have hplace := hin.place ha hi hphys
    have hplace' := hout.place ha hi hphys
    have hone := changesOnly_set htm hplace x
    -- Where the operand was read is a place of the written register, unless it is the place that is written.
    have hS : ∀ c ∈ ({input.content, output.content} : Set Content),
        c = output.content ∨ ∃ v, o.content = .reg (.virt v) ∧ a.Keeps v read c := by
      rintro c (rfl | rfl)
      · cases hin with
        | imm h' =>
          rw [Operand.isImmediate, h'] at hi
          cases hi
        | virt h' hk => exact .inr ⟨_, h', hk⟩
        | phys h' hk =>
          cases hout with
          | imm h'' => cases h'.symm.trans h''
          | virt h'' => cases h'.symm.trans h''
          | phys h'' hk' =>
            cases h'.symm.trans h''
            exact .inl (hk.trans hk'.symm)
      · exact .inl rfl
    have hfirst : tm.exec (t.world answer) j = some (tm.set input.content x) := by rw [ht, put_place hplace]
    have hchanges := hone.mono (Set.singleton_subset_iff.2 (Set.mem_insert input.content {output.content}))
    rw [fixup]
    split_ifs with hsame
    · have hsame : input.content = output.content := of_decide_eq_true hsame
      refine ⟨tm.set input.content x, ?_, h.follows_put hdefs hcall hout hsome (hsame ▸ get_set_self hplace tm x)
        hchanges hS (set_flags _ _ _) (set_calls _ _ _)⟩
      rw [execAll, hfirst, Option.bind_some, execAll]
    · obtain ⟨tm', hrun, hcopied⟩ :=
        copied_moveCode input (congrArg World.stackPointer (Target.world_eq htop answer)) hbase
        (htm.of_same hone.frame) hplace'
      obtain ⟨hmoved, hflags, hcalls⟩ := hcopied.changesOnly hplace'
      have hmoved := hmoved.mono (Set.subset_insert input.content {output.content})
      refine ⟨tm', ?_, h.follows_put hdefs hcall hout hsome ?_ (hchanges.trans hmoved) hS ?_ ?_⟩
      · rw [execAll, hfirst, Option.bind_some, hrun]
      · rw [hcopied.target, get_set_self hplace]
      · rw [hflags, set_flags]
      · rw [hcalls, set_calls]

/-- An instruction that writes physical registers only, and leaves memory alone. -/
theorem follows_regs (hdefs : virtRegs i.defs = [])
    (hframe : ∀ r, i.overwrites t r → r ≠ t.frameBase ∧ r ≠ t.stackPointer) (hmemory : tm'.memory = tm.memory)
    (hregs : ∀ r, ¬i.overwrites t r → tm'.regs (.phys r) = tm.regs (.phys r))
    (hphys : ∀ r, i.overwrites t r → tm'.regs (.phys r) = sm'.regs (.phys r)) (hflags : tm'.flags = sm'.flags)
    (hcalls : tm'.calls = sm'.calls) : a.Follows t read write i sm' tm tm' := by
  have hbase := hregs t.frameBase fun hr => (hframe _ hr).1 rfl
  refine ⟨?_, hphys, ⟨⟨hbase, hregs _ fun hr => (hframe _ hr).2 rfl⟩, fun c hc hnot => ?_⟩, hflags, hcalls⟩
  · rw [hdefs]
    exact nofun
  · cases hc with
    | reg r => exact hregs r fun hr => hnot (.inr ⟨r, hr, rfl⟩)
    | slot d => rw [get_slotAt, get_slotAt, hmemory, hbase]

/-- A comparison. -/
theorem mirrors_compare {op : CompareOp} {left right left' right' : Operand}
    (h : a.Supplies read write (.compare op left right) sm tm)
    (hframe : ∀ r, (Instruction.compare op left right).overwrites t r → r ≠ t.frameBase ∧ r ≠ t.stackPointer)
    (hleft : tm.value left' = sm.value left) (hright : tm.value right' = sm.value right) :
    a.Mirrors t w read write (.compare op left right) [.compare op left' right'] sm tm := by
  refine ⟨fun hnone => (by cases hnone), fun sm' hsome => ⟨_, rfl, ?_⟩⟩
  obtain rfl := Option.some.inj hsome
  refine follows_regs rfl hframe rfl (fun _ _ => rfl) (fun _ hr => by cases hr) ?_ h.calls
  rw [hleft, hright]

/-- The sign of the dividend goes to the upper half of it. -/
theorem mirrors_cqto {width : Width} (h : a.Supplies read write (.cqto width) sm tm)
    (hframe : ∀ r, (Instruction.cqto width).overwrites t r → r ≠ t.frameBase ∧ r ≠ t.stackPointer) :
    a.Mirrors t w read write (.cqto width) [.cqto width] sm tm := by
  refine ⟨fun hnone => (by cases hnone), fun sm' hsome => ⟨_, rfl, ?_⟩⟩
  obtain rfl := Option.some.inj hsome
  have hva : tm.regs (.phys .a) = sm.regs (.phys .a) := h.phys _ rfl
  refine follows_regs rfl hframe rfl (fun r hr => ?_) (fun r hr => ?_) h.flags h.calls
  · rw [overwrites_cqto] at hr
    simp [hr]
  · rw [overwrites_cqto.1 hr]
    simp [hva]

/-- A division, which faults on both machines or on none. -/
theorem mirrors_idiv {divisor divisor' : Operand} (h : a.Supplies read write (.idiv divisor) sm tm)
    (hframe : ∀ r, (Instruction.idiv divisor).overwrites t r → r ≠ t.frameBase ∧ r ≠ t.stackPointer)
    (hv : tm.value divisor' = sm.value divisor) : a.Mirrors t w read write (.idiv divisor) [.idiv divisor'] sm tm := by
  have hva : tm.regs (.phys .a) = sm.regs (.phys .a) :=
    h.phys _ (by simp [Instruction.inspects, Instruction.uses, Instruction.pinned])
  have hvd : tm.regs (.phys .d) = sm.regs (.phys .d) :=
    h.phys _ (by simp [Instruction.inspects, Instruction.uses, Instruction.pinned])
  refine ⟨fun hnone => ⟨_, _, rfl, rfl, ?_⟩, fun sm' hsome => ?_⟩
  · rw [exec_idiv, Option.map_eq_none_iff] at hnone ⊢
    rw [hva, hvd, hv, hnone]
  · rw [exec_idiv] at hsome
    obtain ⟨e, he, rfl⟩ := Option.map_eq_some_iff.1 hsome
    refine ⟨(tm.setReg (.phys .a) e.1).setReg (.phys .d) e.2, ?_, ?_⟩
    · rw [execAll, exec_idiv, hva, hvd, hv, he]
      rfl
    · refine follows_regs rfl hframe rfl (fun r hr => ?_) (fun r hr => ?_) h.flags h.calls
      · rw [overwrites_idiv, not_or] at hr
        simp [hr]
      · rcases overwrites_idiv.1 hr with rfl | rfl <;> simp

/-- A call, which leaves the same words behind since the calls before it were the same. -/
theorem mirrors_call {callee : String} {arguments : List Operand}
    (h : a.Supplies read write (.call callee arguments) sm tm)
    (hframe : ∀ r, (Instruction.call callee arguments).overwrites t r → r ≠ t.frameBase ∧ r ≠ t.stackPointer)
    (hphys : ∀ o ∈ arguments, o.phys?.isSome) :
    a.Mirrors t (t.world answer) read write (.call callee arguments) [.call callee arguments] sm tm := by
  have hargs := h.map_value_eq hphys
  have hover : ∀ r, (Instruction.call callee arguments).overwrites t r = t.callerSaved.contains r := fun r => rfl
  refine ⟨fun hnone => (by cases hnone), fun sm' hsome => ⟨_, rfl, ?_⟩⟩
  obtain rfl := Option.some.inj hsome
  refine follows_regs rfl hframe rfl (fun r hr => ?_) (fun r hr => ?_) h.flags ?_
  · rw [hover, Bool.not_eq_true] at hr
    simp only [call, Target.world, hr, Bool.false_eq_true, if_false]
  · rw [hover] at hr
    simp only [call, Target.world, hr, if_true, hargs, h.calls]
  · simp only [call, hargs, h.calls]

/-- **An instruction in place.** Code that was made of an instruction does what the instruction does. -/
theorem placed_mirrors (answer : List Call → PhysReg → Word) (ha : a.Serves f t) (htop : t.stackPointer = .sp)
    (hbase : t.frameBase ≠ t.stackPointer) (hi : i.isOrdinary) (hcode : a.placeInstruction read write i = .ok code)
    (h : a.Supplies read write i sm tm) (hframe : ∀ r, i.overwrites t r → r ≠ t.frameBase ∧ r ≠ t.stackPointer)
    (htm : tm.Framed t.frameBase t.stackPointer a.cells) : a.Mirrors t (t.world answer) read write i code sm tm := by
  cases i with
  | arith op left right =>
    obtain ⟨hleft, hright⟩ : left.isMemory = false ∧ right.isMemory = false := by
      simpa [Instruction.isOrdinary] using hi
    obtain ⟨left', hl, hcode⟩ := bind_eq_ok hcode
    obtain ⟨input, hin, hcode⟩ := bind_eq_ok hcode
    obtain ⟨output, hout, hcode⟩ := bind_eq_ok hcode
    obtain rfl := Except.ok.inj hcode
    obtain ⟨-, hvl⟩ := h.value_eq (List.subset_append_left _ _) hleft hl
    obtain ⟨hloc, hvr⟩ := h.value_eq (List.subset_append_right _ _) hright hin
    refine mirrors_update (o := right) ha htop hbase h rfl rfl rfl hloc (h.located_write rfl hright hout)
      hframe htm rfl ?_
    rw [exec, hvl, hvr]
  | neg operand =>
    have hm : operand.isMemory = false := by simpa [Instruction.isOrdinary] using hi
    obtain ⟨input, hin, hcode⟩ := bind_eq_ok hcode
    obtain ⟨output, hout, hcode⟩ := bind_eq_ok hcode
    obtain rfl := Except.ok.inj hcode
    obtain ⟨hloc, hv⟩ := h.value_eq (List.Subset.refl _) hm hin
    refine mirrors_update (o := operand) ha htop hbase h rfl rfl rfl hloc (h.located_write rfl hm hout)
      hframe htm rfl ?_
    rw [exec, hv]
  | mov src dest =>
    obtain ⟨hsrc, hdest⟩ : src.isMemory = false ∧ dest.isMemory = false := by simpa [Instruction.isOrdinary] using hi
    obtain ⟨src', hs, hcode⟩ := bind_eq_ok hcode
    obtain ⟨dest', hd, hcode⟩ := bind_eq_ok hcode
    obtain rfl := Except.ok.inj hcode
    obtain ⟨-, hv⟩ := h.value_eq (List.subset_append_left _ _) hsrc hs
    exact mirrors_mov ha htop hbase h hsrc (h.located_write rfl hdest hd) hframe htm hv
  | setcc relation output =>
    have hm : output.isMemory = false := by simpa [Instruction.isOrdinary] using hi
    obtain ⟨output', ho, hcode⟩ := bind_eq_ok hcode
    obtain rfl := Except.ok.inj hcode
    refine mirrors_put (o := output) ha h rfl rfl rfl (h.located_write rfl hm ho) hframe htm rfl ?_
    rw [exec, h.flags]
  | compare op left right =>
    obtain ⟨hleft, hright⟩ : left.isMemory = false ∧ right.isMemory = false := by
      simpa [Instruction.isOrdinary] using hi
    obtain ⟨left', hl, hcode⟩ := bind_eq_ok hcode
    obtain ⟨right', hr, hcode⟩ := bind_eq_ok hcode
    obtain rfl := Except.ok.inj hcode
    obtain ⟨-, hvl⟩ := h.value_eq (List.subset_append_left _ _) hleft hl
    obtain ⟨-, hvr⟩ := h.value_eq (List.subset_append_right _ _) hright hr
    exact mirrors_compare h hframe hvl hvr
  | cqto width =>
    obtain rfl := Except.ok.inj hcode
    exact mirrors_cqto h hframe
  | idiv divisor =>
    have hm : divisor.isMemory = false := by simpa [Instruction.isOrdinary] using hi
    obtain ⟨divisor', hd, hcode⟩ := bind_eq_ok hcode
    obtain rfl := Except.ok.inj hcode
    obtain ⟨-, hv⟩ := h.value_eq (List.subset_append_left _ _) hm hd
    exact mirrors_idiv h hframe hv
  | call callee arguments =>
    obtain rfl := Except.ok.inj hcode
    exact mirrors_call h hframe (List.all_eq_true.1 hi)
  | enter | leave | push | pop | xchg | jmp | jcc | label | ret => cases hi

end Cases

end Allocation

/-- What an instruction of a function leaves alone: memory, and the registers that it does not write. -/
structure Instruction.Keeps (i : Instruction) (t : Target) (m m' : Machine) : Prop where
  virt : ∀ v, v ∉ virtRegs i.defs → m'.regs (.virt v) = m.regs (.virt v)
  phys : ∀ r, ¬i.overwrites t r → m'.regs (.phys r) = m.regs (.phys r)
  memory : m'.memory = m.memory

namespace Instruction

variable {i : Instruction} {o : Operand} {t : Target} {m m' : Machine} {x : Word} {answer : List Call → PhysReg → Word}

/-- Writing one operand keeps what the instruction does not write. -/
theorem keeps_put (hm : o.isMemory = false) (hdefs : i.defs = (o.writes false).toList) (hcall : i.isCall = false)
    (h : m.put o x = some m') : i.Keeps t m m' := by
  obtain ⟨himm, rfl⟩ := put_eq_some.1 h
  have hvirt : ∀ v, v ∈ virtRegs i.defs ↔ o.content = .reg (.virt v) := fun v => by
    rw [hdefs]
    exact mem_virtRegs_writes
  rw [Operand.isMemory] at hm
  rw [Operand.isImmediate] at himm
  cases hc : o.content with
  | imm n =>
    rw [hc] at himm
    cases himm
  | mem a =>
    rw [hc] at hm
    cases hm
  | reg r =>
    refine ⟨fun v hv => ?_, fun p hp => ?_, rfl⟩
    · rw [hvirt, hc, Content.reg.injEq] at hv
      rw [set_reg, setReg_regs, if_neg (Ne.symm hv)]
    · rw [overwrites_iff hdefs hcall, hc, Content.reg.injEq] at hp
      rw [set_reg, setReg_regs, if_neg (Ne.symm hp)]

/-- An instruction that computes writes only the registers that it says it writes. -/
theorem keeps_exec (hi : i.isOrdinary) (h : m.exec (t.world answer) i = some m') : i.Keeps t m m' := by
  cases i with
  | arith op left right =>
    have hm : left.isMemory = false ∧ right.isMemory = false := by simpa [isOrdinary] using hi
    exact keeps_put hm.2 rfl rfl h
  | neg operand =>
    have hm : operand.isMemory = false := by simpa [isOrdinary] using hi
    exact keeps_put hm rfl rfl h
  | mov src dest =>
    have hm : src.isMemory = false ∧ dest.isMemory = false := by simpa [isOrdinary] using hi
    rw [exec, hm.1] at h
    exact keeps_put hm.2 rfl rfl h
  | setcc relation output =>
    have hm : output.isMemory = false := by simpa [isOrdinary] using hi
    exact keeps_put hm rfl rfl h
  | compare op left right =>
    obtain rfl := Option.some.inj h
    exact ⟨fun _ _ => rfl, fun _ _ => rfl, rfl⟩
  | cqto width =>
    obtain rfl := Option.some.inj h
    refine ⟨fun v _ => rfl, fun r hr => ?_, rfl⟩
    rw [overwrites_cqto] at hr
    simp [hr]
  | idiv divisor =>
    rw [exec_idiv] at h
    obtain ⟨e, -, rfl⟩ := Option.map_eq_some_iff.1 h
    refine ⟨fun v _ => rfl, fun r hr => ?_, rfl⟩
    rw [overwrites_idiv, not_or] at hr
    simp [hr]
  | call callee arguments =>
    obtain rfl := Option.some.inj h
    refine ⟨fun v _ => rfl, fun r hr => ?_, rfl⟩
    have hr : t.callerSaved.contains r = false := Bool.eq_false_iff.2 hr
    simp only [Machine.call, Target.world, hr, Bool.false_eq_true, if_false]
  | enter | leave | push | pop | xchg | jmp | jcc | label | ret => cases hi

end Instruction

end RegAlloc
