import RegAlloc.Proofs.Allocation
import RegAlloc.Proofs.Slots
import RegAlloc.Proofs.UniformLifetimes

/-!
# Numbers that occur at several widths

Lifetimes are found by number, and all occurrences of a number are taken for its first one. Code is put in place by
number and width: the splits and slots of an allocation are those of canonical registers only
(`Allocation.canonical_ofLifetimes`), and a register at another width is nowhere. So a function is compiled like its
uniform function, or an operand of it is missed (`compile_uniform`).

Two kinds of operands are not looked up and are assumed to be canonical already: the arguments of calls, which stay as
they are, and the outputs of phis. A phi whose output is at another width is taken for one that is never read, and is
left out without an error; its register then keeps what was in its place before (`compile_mixed`).
-/

namespace RegAlloc

open Liveness

/-- The error says that a register is nowhere, and the register is not at the width of the first occurrence of its
number. -/
inductive Error.Misses (names : List VirtReg) : Error → Prop where
  | location {v : VirtReg} {p : Position} (h : canonical names v ≠ v) : Misses names (.missingLocation v p)
  | address {v : VirtReg} {p : Position} (h : canonical names v ≠ v) : Misses names (.spilledAddressRegister v p)

/-- The first outcome is the second one, unless a register at another width is missed. -/
def Tracks (names : List VirtReg) {α : Type} (x y : Except Error α) : Prop := x = y ∨ ∃ e, e.Misses names ∧ x = .error e

namespace Tracks

variable {names : List VirtReg} {α β : Type}

theorem refl (x : Except Error α) : Tracks names x x := .inl rfl

/-- Computations that track each other can be followed by such computations. -/
theorem bind {x y : Except Error α} {g h : α → Except Error β} (hxy : Tracks names x y)
    (hg : ∀ a, Tracks names (g a) (h a)) :
    Tracks names (x >>= g) (y >>= h) := by
  rcases hxy with rfl | ⟨e, he, rfl⟩
  · cases x with
    | error e => exact .inl rfl
    | ok a => exact hg a
  · exact .inr ⟨e, he, rfl⟩

/-- A list of computations tracks another one if they do so one by one. -/
theorem mapM {l : List α} {g h : α → Except Error β} (hg : ∀ a ∈ l, Tracks names (g a) (h a)) :
    Tracks names (l.mapM g) (l.mapM h) := by
  induction l with
  | nil => exact .refl _
  | cons a l ih =>
    rw [List.mapM_cons, List.mapM_cons]
    refine (hg a List.mem_cons_self).bind fun b => ?_
    exact (ih fun c hc => hg c (List.mem_cons_of_mem _ hc)).bind fun _ => .refl _

end Tracks

/-! ## Registers of lifetimes -/

namespace Note

variable {names : List VirtReg} {p : Position} {b : BlockId} {f : Function} {live : Live} {note : Note}

/-- The register that a note is about. -/
def register : Note → VirtReg
  | .alive v _ _ => v
  | .write v _ _ => v
  | .read v _ _ => v
  | .linkStart v _ => v
  | .linkStop v _ => v

/-- The note is about a canonical register. -/
def Canonical (names : List VirtReg) (note : Note) : Prop := canonical names note.register = note.register

/-- What is noted where an instruction writes is noted of canonical registers. -/
theorem canonical_of_mem_writes {hints : List Register} {accesses : List Access}
    (h : note ∈ writes names p hints accesses) :
    note.Canonical names := by
  obtain ⟨⟨r, memoryOk⟩, -, h⟩ := List.mem_flatMap.1 h
  cases r with
  | phys q => cases h
  | virt v =>
    rcases List.mem_cons.1 h with rfl | h
    · exact canonical_canonical
    · split_ifs at h
      · rw [List.mem_singleton.1 h]
        exact canonical_canonical
      · cases h

theorem canonical_of_mem_reads {hints : List Register} {accesses : List Access}
    (h : note ∈ reads names p hints accesses live) :
    note.Canonical names := by
  induction accesses generalizing live with
  | nil => cases h
  | cons a rest ih =>
    obtain ⟨r, memoryOk⟩ := a
    cases r with
    | phys q => exact ih h
    | virt v =>
      rcases List.mem_cons.1 h with rfl | h
      · exact canonical_canonical
      · rcases List.mem_append.1 h with h | h
        · split_ifs at h
          · rw [List.mem_singleton.1 h]
            exact canonical_canonical
          · cases h
        · exact ih h

/-- Notes on code are about canonical registers. -/
theorem canonical_of_mem_code {l : List (Instruction × Nat)} (h : note ∈ code names b l live) :
    note.Canonical names := by
  induction l generalizing live with
  | nil => cases h
  | cons e l ih =>
    rcases List.mem_append.1 h with h | h
    · rcases List.mem_append.1 h with h | h
      · exact canonical_of_mem_writes h
      · exact canonical_of_mem_reads h
    · exact ih h

theorem canonical_of_mem_phiReads (h : note ∈ phiReads f names b p) : note.Canonical names := by
  obtain ⟨s, -, h⟩ := List.mem_flatMap.1 h
  obtain ⟨φ, -, h⟩ := List.mem_flatMap.1 h
  obtain ⟨⟨r, memoryOk⟩, -, h⟩ := List.mem_flatMap.1 h
  cases r with
  | phys q => cases h
  | virt v =>
    rcases List.mem_cons.1 h with rfl | h
    · exact canonical_canonical
    · split_ifs at h
      · rw [List.mem_singleton.1 h]
        exact canonical_canonical
      · cases h

/-- Notes on what phis write are about canonical registers. -/
theorem canonical_of_mem_phiWrites {phis : List Phi} (h : note ∈ phiWrites names b phis live) :
    note.Canonical names := by
  induction phis generalizing live with
  | nil => cases h
  | cons φ phis ih =>
    rw [phiWrites] at h
    split at h
    · exact ih h
    · split_ifs at h
      · rcases List.mem_cons.1 h with rfl | h
        · exact canonical_canonical
        · rcases List.mem_cons.1 h with rfl | h
          · exact canonical_canonical
          · exact ih h
      · exact ih h

/-- Registers that are live in a whole block are canonical if the live set holds canonical ones. -/
theorem canonical_of_mem_wholeBlock (hlive : Fixed names live) (h : note ∈ wholeBlock f live b) :
    note.Canonical names := by
  obtain ⟨v, hv, rfl⟩ := List.mem_map.1 h
  exact hlive v hv

/-- All notes on a function are about canonical registers. -/
theorem canonical_of_mem_all (h : note ∈ all f names) : note.Canonical names := by
  obtain ⟨⟨blk, b⟩, -, h⟩ := List.mem_flatMap.1 h
  rcases List.mem_append.1 h with h | h
  · rcases List.mem_append.1 h with h | h
    · rcases List.mem_append.1 h with h | h
      · rcases List.mem_append.1 h with h | h
        · exact canonical_of_mem_phiReads h
        · exact canonical_of_mem_wholeBlock (fixed_atExit f b _) h
      · exact canonical_of_mem_code h
    · exact canonical_of_mem_phiWrites h
  · obtain ⟨c, -, h⟩ := List.mem_flatMap.1 h
    exact canonical_of_mem_wholeBlock (fixed_atEntry f b blk _) h

/-- A note touches the interval of its register, which is added if there is none. -/
theorem map_register_apply (l : List Interval) (note : Note) :
    (apply l note).map Interval.register = insertBy id note.register (l.map Interval.register) := by
  have hkey : ∀ v, (interval l v).register = v := fun v => interval_register
  cases note <;> rw [apply, update, map_insertBy] <;> exact congrArg (insertBy id · _) (hkey _)

/-- Every interval is of a register that some note is about. -/
theorem exists_note {notes : List Note} {l : List Interval} {v : VirtReg}
    (h : v ∈ (notes.foldl apply l).map Interval.register) :
    v ∈ l.map Interval.register ∨ ∃ note ∈ notes, note.register = v := by
  induction notes generalizing l with
  | nil => exact .inl h
  | cons note notes ih =>
    rcases ih h with h | ⟨note', hmem, hv⟩
    · rw [map_register_apply, mem_insertBy_id] at h
      rcases h with rfl | h
      · exact .inr ⟨note, List.mem_cons_self, rfl⟩
      · exact .inl h
    · exact .inr ⟨note', List.mem_cons_of_mem _ hmem, hv⟩

end Note

/-- The intervals of a function are those of canonical registers. -/
theorem Lifetimes.canonical_compute {f : Function} {t : Target} {v : VirtReg}
    (h : v ∈ (compute f t).intervals.map Interval.register) : canonical f.mentions v = v := by
  rcases Note.exists_note h with h | ⟨note, hnote, rfl⟩
  · cases h
  · exact Note.canonical_of_mem_all hnote

/-! ## Code in place -/

/-- The splits and slots of an allocation are those of canonical registers. -/
structure Allocation.Canonical (names : List VirtReg) (a : Allocation) : Prop where
  splits : ∀ v, a.hasRegister v → canonical names v = v
  slots : ∀ v k, a.slot? v = some k → canonical names v = v

namespace Allocation

variable {names : List VirtReg} {a : Allocation} {f : Function} {t : Target} {v : VirtReg}

/-- So the allocation for a function knows canonical registers only. -/
theorem canonical_ofLifetimes (h : ofLifetimes (Lifetimes.compute f t) t = .ok a) : a.Canonical f.mentions := by
  obtain ⟨s, hs, -, hsplits, hslots⟩ := ofLifetimes_eq_ok h
  constructor
  · intro v hv
    rw [hasRegister, lookupBy_isSome, hsplits] at hv
    obtain ⟨e, he, rfl⟩ := List.mem_map.1 hv
    obtain ⟨i, hi, rfl⟩ := List.mem_map.1 (List.mem_filter.1 he).1
    exact Lifetimes.canonical_compute (List.mem_map_of_mem hi)
  · intro v k hk
    rw [slot?, hslots] at hk
    exact Lifetimes.canonical_compute (Scan.mem_of_slot? hs hk)

/-- A register at another width is nowhere. -/
theorem Canonical.nowhere (ha : a.Canonical names) (hv : canonical names v ≠ v) (p : Position) :
    a.registerAt? (.virt v) p = none ∧ a.slot? v = none := by
  constructor
  · have hnone : lookupBy v a.splits = none := by
      cases hl : lookupBy v a.splits with
      | none => rfl
      | some l => exact absurd (ha.splits v (by rw [hasRegister, hl]; rfl)) hv
    rw [registerAt?, splitAt?, splitsFor, hnone]
    rfl
  · cases hk : a.slot? v with
    | none => rfl
    | some k => exact absurd (ha.slots v k hk) hv

/-- A register that is not canonical is not found, and one that is has the storage of its canonical register. -/
theorem Canonical.storage (ha : a.Canonical names) (w : Width) (r : Register) (p : Position) :
    Tracks names (a.storage w r p) (a.storage w (canonicalRegister names r) p) := by
  cases r with
  | phys q => exact .refl _
  | virt v =>
    by_cases hv : canonical names v = v
    · rw [canonicalRegister_virt, hv]
      exact .refl _
    · obtain ⟨hregister, hslot⟩ := ha.nowhere hv p
      refine .inr ⟨.missingLocation v p, .location hv, ?_⟩
      simp only [Allocation.storage, hregister, slotOf?, hslot, Option.map_none]

theorem Canonical.addressPart (ha : a.Canonical names) (p : Position) (part : Option Register) :
    Tracks names (a.addressPart p part) (a.addressPart p (part.map (canonicalRegister names))) := by
  cases part with
  | none => exact .refl _
  | some r =>
    refine Tracks.bind ?_ fun _ => .refl _
    cases r with
    | phys q => exact .refl _
    | virt v =>
      by_cases hv : canonical names v = v
      · rw [canonicalRegister_virt, hv]
        exact .refl _
      · refine .inr ⟨.spilledAddressRegister v p, .address hv, ?_⟩
        simp only [addressRegister, (ha.nowhere hv p).1]

/-- An operand is put where the uniform operand is put, or a register that is not canonical is not found. -/
theorem Canonical.place (ha : a.Canonical names) (p : Position) (o : Operand) :
    Tracks names (a.place p o) (a.place p (o.uniform names)) := by
  obtain ⟨w, content⟩ := o
  cases content with
  | imm n => exact .refl _
  | reg r => exact ha.storage w r p
  | mem m => exact (ha.addressPart p m.base).bind fun base => (ha.addressPart p m.index).bind fun _ => .refl _

/-- An instruction is put in place like the uniform one, or a register of it is missed. -/
theorem Canonical.placeInstruction (ha : a.Canonical names) (read write : Position) (i : Instruction)
    (hi : ∀ callee arguments, i = .call callee arguments → arguments.map (Operand.uniform names) = arguments) :
    Tracks names (a.placeInstruction read write i) (a.placeInstruction read write (i.uniform names)) := by
  cases i with
  | arith op left right =>
    exact (ha.place read left).bind fun _ => (ha.place read right).bind fun _ =>
      (ha.place write right).bind fun _ => .refl _
  | compare op left right => exact (ha.place read left).bind fun _ => (ha.place read right).bind fun _ => .refl _
  | mov src dest => exact (ha.place read src).bind fun _ => (ha.place write dest).bind fun _ => .refl _
  | neg operand => exact (ha.place read operand).bind fun _ => (ha.place write operand).bind fun _ => .refl _
  | setcc relation output => exact (ha.place write output).bind fun _ => .refl _
  | idiv divisor => exact (ha.place read divisor).bind fun _ => .refl _
  | push operand => exact (ha.place read operand).bind fun _ => .refl _
  | pop operand => exact (ha.place write operand).bind fun _ => .refl _
  | xchg left right => exact (ha.place read left).bind fun _ => (ha.place read right).bind fun _ => .refl _
  | call callee arguments =>
    rw [Instruction.uniform, hi callee arguments rfl]
    exact .refl _
  | _ => exact .refl _

end Allocation

namespace Function

variable {names : List VirtReg} (f : Function) (b : BlockId)

theorem blockIds_uniformBy : (f.uniformBy names).blockIds = f.blockIds :=
  by simp only [blockIds, uniformBy, List.length_map]

theorem label_uniformBy : (f.uniformBy names).label b = f.label b := by
  rw [label, block?_uniformBy, Option.map_map, label]
  rfl

/-- The blocks end at the same positions. -/
theorem stop_uniformBy : (f.uniformBy names).stop b = f.stop b := by
  rw [stop, block?_uniformBy, stop]
  cases f.block? b with
  | none => rfl
  | some blk => exact congrArg (fun n => Except.ok (Position.exit b n)) (List.length_map _)

/-- The blocks have the same predecessors. -/
theorem predecessors_uniformBy : (f.uniformBy names).predecessors b = f.predecessors b := by
  simp only [predecessors, blockIds_uniformBy, successors_uniformBy]

/-- The blocks follow each other in the same order. -/
theorem next?_uniformBy : (f.uniformBy names).next? b = f.next? b := by
  simp only [next?, uniformBy, List.length_map]

/-- What is left as it is, the arguments of calls and the outputs of phis, is canonical. -/
structure Settled (names : List VirtReg) (f : Function) : Prop where
  outputs : ∀ blk ∈ f.blocks, ∀ φ ∈ blk.phis, ∀ v, φ.virt? = some v → canonical names v = v
  arguments : ∀ blk ∈ f.blocks, ∀ callee arguments, .call callee arguments ∈ blk.code →
    ∀ o ∈ arguments, o.uniform names = o

end Function

namespace Allocation

variable {names : List VirtReg} {a : Allocation} {f : Function}

/-- A phi of a canonical register is placed like the uniform phi. -/
theorem Canonical.placePhi (ha : a.Canonical names) (f : Function) (b : BlockId) (φ : Phi)
    (hφ : ∀ v, φ.virt? = some v → canonical names v = v) :
    Tracks names (placePhi f a b φ) (placePhi (f.uniformBy names) a b (φ.uniform names)) := by
  have hvirt : (φ.uniform names).virt? = φ.virt? := by
    rw [Phi.virt?_uniform]
    cases h : φ.virt? with
    | none => rfl
    | some v => rw [Option.map_some, hφ v h]
  rw [Allocation.placePhi, Allocation.placePhi, hvirt]
  cases φ.virt? with
  | none => exact .refl _
  | some v =>
    simp only
    split_ifs
    · refine (ha.place (.entry b) φ.output).bind fun output => Tracks.bind ?_ fun _ => .refl _
      rw [Phi.uniform, List.mapM_map]
      refine .mapM fun e _ => ?_
      simp only [Function.comp_apply, placeInput, Function.stop_uniformBy]
      exact (Tracks.refl _).bind fun stop => (ha.place stop e.2).bind fun _ => .refl _
    · exact .refl _

/-- A block is placed like the uniform block. -/
theorem Canonical.placeBlock (ha : a.Canonical names) (hf : f.Settled names) (b : BlockId) :
    Tracks names (placeBlock f a b) (placeBlock (f.uniformBy names) a b) := by
  rw [Allocation.placeBlock, Allocation.placeBlock, Function.block?_uniformBy]
  cases hb : f.block? b with
  | none => exact .refl _
  | some blk =>
    have hblk : blk ∈ f.blocks := List.mem_of_getElem? hb
    have hstop : (blk.uniform names).stop b = blk.stop b := by simp [Block.stop, Block.uniform]
    simp only [Option.map_some, hstop]
    have hphis : Tracks names (blk.phis.mapM (Allocation.placePhi f a b))
        ((blk.uniform names).phis.mapM (Allocation.placePhi (f.uniformBy names) a b)) := by
      rw [Block.uniform, List.mapM_map]
      exact .mapM fun φ hφ => ha.placePhi f b φ (hf.outputs blk hblk φ hφ)
    refine hphis.bind fun phis => Tracks.bind ?_ fun code => .refl _
    rw [Block.uniform, List.zipIdx_map, List.mapM_map]
    refine .mapM fun e he => ?_
    refine (ha.placeInstruction _ _ e.1 fun callee arguments hcall => ?_).bind fun _ => .refl _
    have hmem : .call callee arguments ∈ blk.code := hcall ▸ (List.mem_zipIdx he).2.2 ▸ List.getElem_mem _
    exact (List.map_congr_left (hf.arguments blk hblk callee arguments hmem)).trans (List.map_id arguments)

end Allocation

/-- Code is laid out like that of the uniform function, or a register is missed. -/
theorem Allocation.Canonical.layout {names : List VirtReg} {a : Allocation} {f : Function} (ha : a.Canonical names)
    (hf : f.Settled names) : Tracks names (Layout.ofAllocation f a) (Layout.ofAllocation (f.uniformBy names) a) := by
  have hmoves : Layout.edgeMoves (f.uniformBy names) a = Layout.edgeMoves f a := by
    funext placed pred succ
    have hmove : Layout.edgeMove (f.uniformBy names) a placed pred succ = Layout.edgeMove f a placed pred succ := by
      funext x
      simp only [Layout.edgeMove, Function.stop_uniformBy]
    rw [Layout.edgeMoves, hmove, Layout.edgeMoves, Function.block?_uniformBy]
    cases f.block? succ <;> rfl
  have hpatches : Layout.patches (f.uniformBy names) a = Layout.patches f a := by
    funext placed
    have hbranch : ∀ pred,
        Layout.branchPatch (f.uniformBy names) a placed pred = Layout.branchPatch f a placed pred := by
      intro pred
      funext succ
      simp only [Layout.branchPatch, hmoves, Function.predecessors_uniformBy, Function.label_uniformBy]
    have hfrom : Layout.patchesFrom (f.uniformBy names) a placed = Layout.patchesFrom f a placed := by
      funext pred
      simp only [Layout.patchesFrom, Function.successors_uniformBy, hmoves, hbranch]
    rw [Layout.patches, hfrom, Function.blockIds_uniformBy, Layout.patches]
  have hcode : Layout.blockCode (f.uniformBy names) = Layout.blockCode f := by
    funext patches b
    have hexit : Layout.exitCode (f.uniformBy names) b.id = Layout.exitCode f b.id := by
      funext exit
      cases exit <;> simp only [Layout.exitCode, Function.next?_uniformBy, Function.label_uniformBy]
    have hblock : ((f.uniformBy names).block? b.id).map (·.exit) = (f.block? b.id).map (·.exit) := by
      rw [Function.block?_uniformBy, Option.map_map]
      rfl
    rw [Layout.blockCode, hexit, hblock, Layout.blockCode]
  rw [Layout.ofAllocation, Layout.ofAllocation, hpatches, hcode, Allocation.placeBlocks, Allocation.placeBlocks,
    Function.blockIds_uniformBy]
  exact Tracks.bind (.mapM fun b _ => ha.placeBlock hf b) fun _ => .refl _

/-! ## Functions -/

/-- What is left to do once registers are given to the lifetimes of a function, which are as many as stated. -/
def finish (f : Function) (registers : Nat) (a : Allocation) : Except Error Compiled := do
  let layout ← Layout.ofAllocation f a
  let size ← a.frameSize
  return ⟨f.name, layout.code,
    ⟨registers, a.splitCount, a.slotCount, a.count .spill, a.count .reload, layout.moves, size⟩⟩

/-- Compiling is validating, finding the lifetimes, allocating, and laying out what was decided. -/
theorem compile_eq (f : Function) (t : Target) :
    compile f t = t.validate >>= fun _ => Lifetimes.ofFunction f t >>= fun lt =>
      Allocation.ofLifetimes lt t >>= finish f lt.intervals.length := rfl

/-- Hints of a register to itself make no difference to the code. -/
theorem finish_unlinked (f : Function) (registers : Nat) (a : Allocation) :
    finish f registers a.unlinked = finish f registers a := by
  have hsplits : a.unlinked.splitCount = a.splitCount := by
    simp only [Allocation.splitCount, Allocation.unlinked, List.flatMap_map, List.length_flatMap, List.length_map]
  rw [finish, Layout.ofAllocation_unlinked, hsplits]
  rfl

/-- Computations with the same results in some view fail both, with the same error, or succeed both. -/
theorem eq_or_eq_of_map_eq {ε α β : Type} {x y : Except ε α} {g : α → β} (h : x.map g = y.map g) :
    (∃ e, x = .error e ∧ y = .error e) ∨ ∃ a b, x = .ok a ∧ y = .ok b ∧ g a = g b := by
  cases x with
  | error e =>
    cases y with
    | error e' => exact .inl ⟨e, rfl, congrArg Except.error (Except.error.inj h).symm⟩
    | ok b => cases h
  | ok a =>
    cases y with
    | error e' => cases h
    | ok b => exact .inr ⟨a, b, rfl, rfl, Except.ok.inj h⟩

/-- Compiling a function tracks compiling its uniform function. -/
theorem tracks_compile (f : Function) (t : Target) (hf : f.Settled f.mentions) :
    Tracks f.mentions (compile f t) (compile f.uniform t) := by
  rw [compile_eq, compile_eq]
  refine (Tracks.refl _).bind fun _ => ?_
  have hstray : f.uniform.strayBlock? = f.strayBlock? := f.strayBlock?_uniformBy
  rw [Lifetimes.ofFunction, Lifetimes.ofFunction, hstray]
  cases f.strayBlock? with
  | some b => exact .refl _
  | none =>
    have hlength : (Lifetimes.compute f.uniform t).intervals.length = (Lifetimes.compute f t).intervals.length := by
      have hintervals := congrArg (·.intervals.length) (Lifetimes.compute_uniform f t)
      simpa only [Lifetimes.unlinked, List.length_map] using hintervals
    -- Registers are given in the same way, up to hints of registers to themselves.
    have hsame : (Allocation.ofLifetimes (Lifetimes.compute f t) t).map Allocation.unlinked =
        (Allocation.ofLifetimes (Lifetimes.compute f.uniform t) t).map Allocation.unlinked := by
      rw [Allocation.ofLifetimes_unlinked, Allocation.ofLifetimes_unlinked, Lifetimes.compute_uniform]
    change Tracks f.mentions (Allocation.ofLifetimes (Lifetimes.compute f t) t >>= finish f _)
      (Allocation.ofLifetimes (Lifetimes.compute f.uniform t) t >>= finish f.uniform _)
    rw [hlength]
    rcases eq_or_eq_of_map_eq hsame with ⟨e, ha, ha'⟩ | ⟨a, a', ha, ha', heq⟩
    · rw [ha, ha']
      exact .refl _
    · rw [ha, ha']
      change Tracks f.mentions (finish f _ a) (finish f.uniform _ a')
      rw [← finish_unlinked f.uniform, ← heq, finish_unlinked]
      exact ((Allocation.canonical_ofLifetimes ha).layout hf).bind fun _ => .refl _

/-- A function is compiled like the function in which all occurrences of a number have the width of the first one, or
it is refused because a register at another width is nowhere. -/
theorem compile_uniform (f : Function) (t : Target) (hf : f.Settled f.mentions) :
    compile f t = compile f.uniform t ∨ ∃ v p, canonical f.mentions v ≠ v ∧
      (compile f t = .error (.missingLocation v p) ∨ compile f t = .error (.spilledAddressRegister v p)) := by
  rcases tracks_compile f t hf with h | ⟨e, he, h⟩
  · exact .inl h
  · cases he with
    | location hv => exact .inr ⟨_, _, hv, .inl h⟩
    | address hv => exact .inr ⟨_, _, hv, .inr h⟩

/-- A register of eight bytes, of which the lower four are moved to another one. -/
def narrow : Function :=
  ⟨"narrow", [⟨"start", [],
    [.mov (.imm .quad 5) (.reg .quad (.virt ⟨0, .quad⟩)), .mov (.reg .long (.virt ⟨0, .long⟩)) (.phys .long .a)], .ret,
      []⟩]⟩

/-- In the example, copies are of one width and phis write canonical registers. -/
theorem narrow_settled : narrow.Settled narrow.mentions := by
  constructor
  · intro blk hblk φ hφ
    obtain rfl := List.mem_singleton.1 hblk
    cases hφ
  · intro blk hblk callee arguments hcall
    obtain rfl := List.mem_singleton.1 hblk
    simp at hcall

/-- It is refused because of the second occurrence. -/
theorem compile_uniform_narrow :
    narrow.Settled narrow.mentions ∧ canonical narrow.mentions ⟨0, .long⟩ ≠ ⟨0, .long⟩ ∧
      (compile narrow .standard = compile narrow.uniform .standard ∨ ∃ v p, canonical narrow.mentions v ≠ v ∧
        (compile narrow .standard = .error (.missingLocation v p) ∨
          compile narrow .standard = .error (.spilledAddressRegister v p))) :=
  ⟨narrow_settled, by decide, compile_uniform narrow .standard narrow_settled⟩

/-- A loop that takes the value of one register from another, over and over. The second phi writes `%v2` at four
bytes, where the first one reads it at eight, so it is left out. -/
def stale : Function :=
  ⟨"stale",
    [⟨"start", [], [.enter, .mov (.imm .quad 1) (.reg .quad (.virt ⟨1, .quad⟩))], .goto 1, []⟩,
      ⟨"header",
        [⟨.reg .quad (.virt ⟨0, .quad⟩), [(0, .reg .quad (.virt ⟨1, .quad⟩)), (2, .reg .quad (.virt ⟨2, .quad⟩))]⟩],
        [.compare .cmp (.imm .quad 0) (.reg .quad (.virt ⟨0, .quad⟩))], .branch .equal 3 2, [1, 2]⟩,
      ⟨"body", [⟨.reg .quad (.virt ⟨2, .long⟩), [(1, .reg .quad (.virt ⟨0, .quad⟩))]⟩], [.call "tick" []], .goto 1, []⟩,
      ⟨"end", [], [.leave], .ret, []⟩]⟩

/-- Widths that differ between occurrences of a number can make a function that compiles otherwise be refused, and
they can change what its code does: in the second function the body of the loop begins by loading a stack slot that
was not written. -/
theorem compile_mixed :
    (compile narrow .standard = .error (.missingLocation ⟨0, .long⟩ ⟨0, 3⟩) ∧
      ∃ c, compile narrow.uniform .standard = .ok c) ∧ ∃ c c', compile stale .standard = .ok c ∧
      compile stale.uniform .standard = .ok c' ∧
      c.code[9]? = some (.mov (.mem .quad (.offset (.phys .bp) (-8))) (.phys .quad .a)) ∧
      c'.code[9]? = some (.mov (.phys .quad .a) (.mem .quad (.offset (.phys .bp) (-8)))) := by
  have hnarrow : (compile narrow.uniform .standard).toOption.map (·.code.length) = some 4 := rfl
  have hstale : (compile stale .standard).toOption.map (·.code[9]?) =
      some (some (.mov (.mem .quad (.offset (.phys .bp) (-8))) (.phys .quad .a))) := rfl
  have huniform : (compile stale.uniform .standard).toOption.map (·.code[9]?) =
      some (some (.mov (.phys .quad .a) (.mem .quad (.offset (.phys .bp) (-8))))) := rfl
  obtain ⟨c₀, hc₀, -⟩ := Option.map_eq_some_iff.1 hnarrow
  obtain ⟨c, hc, hcode⟩ := Option.map_eq_some_iff.1 hstale
  obtain ⟨c', hc', hcode'⟩ := Option.map_eq_some_iff.1 huniform
  exact ⟨⟨rfl, c₀, Allocation.ok_of_toOption hc₀⟩, c, c', Allocation.ok_of_toOption hc,
    Allocation.ok_of_toOption hc', hcode, hcode'⟩

end RegAlloc
