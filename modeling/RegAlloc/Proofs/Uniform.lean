import RegAlloc.Proofs.Liveness

/-!
# One width for each number

`Function.uniform` gives every occurrence of a virtual register the width of the first occurrence of its number. The
lifetimes of a function are found by number, so they are those of the uniform function, except that a register may get
a hint to itself: an instruction that copies a register, and computes an address from the same number at another
width, links the two only when the widths agree. So the live sets of the two functions are the same
(`Liveness.entries_uniform`), and their notes are the same up to such links (`Note.alike_all`).
-/

namespace RegAlloc

open Liveness

/-! ## The uniform function -/

/-- An access by the canonical register. -/
def Access.uniform (names : List VirtReg) (a : Access) : Access :=
  { a with register := canonicalRegister names a.register }

/-- An address over canonical registers. -/
def Address.uniform (names : List VirtReg) (m : Address) : Address :=
  { m with base := m.base.map (canonicalRegister names), index := m.index.map (canonicalRegister names) }

/-- An operand over canonical registers. Its own width stays. -/
def Operand.uniform (names : List VirtReg) (o : Operand) : Operand :=
  match o.content with
  | .imm _ => o
  | .reg r => .reg o.width (canonicalRegister names r)
  | .mem m => .mem o.width (m.uniform names)

/-- An instruction over canonical registers. -/
def Instruction.uniform (names : List VirtReg) : Instruction → Instruction
  | .arith op left right => .arith op (left.uniform names) (right.uniform names)
  | .compare op left right => .compare op (left.uniform names) (right.uniform names)
  | .mov src dest => .mov (src.uniform names) (dest.uniform names)
  | .neg operand => .neg (operand.uniform names)
  | .setcc relation output => .setcc relation (output.uniform names)
  | .cqto width => .cqto width
  | .idiv divisor => .idiv (divisor.uniform names)
  | .call callee arguments => .call callee (arguments.map (Operand.uniform names))
  | .enter => .enter
  | .leave => .leave
  | .push operand => .push (operand.uniform names)
  | .pop operand => .pop (operand.uniform names)
  | .xchg left right => .xchg (left.uniform names) (right.uniform names)
  | .jmp target => .jmp target
  | .jcc relation target => .jcc relation target
  | .label name => .label name
  | .ret => .ret

/-- A phi over canonical registers. -/
def Phi.uniform (names : List VirtReg) (φ : Phi) : Phi :=
  ⟨φ.output.uniform names, φ.inputs.map (fun e => (e.1, e.2.uniform names))⟩

/-- A block over canonical registers. -/
def Block.uniform (names : List VirtReg) (blk : Block) : Block :=
  { blk with phis := blk.phis.map (Phi.uniform names), code := blk.code.map (Instruction.uniform names) }

namespace Function

/-- A function with every virtual register replaced by the canonical one among the given registers. -/
def uniformBy (names : List VirtReg) (f : Function) : Function :=
  { f with blocks := f.blocks.map (Block.uniform names) }

/-- A function with every virtual register at the width of the first occurrence of its number. -/
def uniform (f : Function) : Function := f.uniformBy f.mentions

end Function

variable {names names' : List VirtReg} {v : VirtReg}

/-! ## Canonical registers -/

/-- The canonical register has the number of the register it stands for. -/
theorem canonical_id : (canonical names v).id = v.id := by
  rw [canonical]
  cases hf : names.find? (fun w => w.id = v.id) with
  | none => rfl
  | some w => simpa using List.find?_some hf

/-- The canonical register is found by number. -/
theorem canonical_eq_of_id {w : VirtReg} (hw : w ∈ names) (h : v.id = w.id) :
    canonical names v = canonical names w := by
  rw [canonical, canonical, h]
  cases hf : names.find? (fun u => u.id = w.id) with
  | none => simpa using List.find?_eq_none.1 hf w hw
  | some u => rfl

/-- Canonical registers stand for themselves, also in the order in which the registers they stand for are met. -/
theorem canonical_map : canonical (names.map (canonical names)) = canonical names := by
  funext v
  rw [canonical, List.find?_map]
  have hid : (fun w : VirtReg => decide (w.id = v.id)) ∘ canonical names = fun w => decide (w.id = v.id) :=
    funext fun w => by simp [canonical_id]
  rw [hid]
  cases hf : names.find? (fun w => w.id = v.id) with
  | none => rw [canonical, hf]; rfl
  | some w =>
    have hwid : w.id = v.id := by simpa using List.find?_some hf
    exact (canonical_eq_of_id (List.mem_of_find?_eq_some hf) hwid.symm).symm

@[simp] theorem canonicalRegister_virt : canonicalRegister names (.virt v) = .virt (canonical names v) := rfl

@[simp] theorem canonicalRegister_phys (r : PhysReg) : canonicalRegister names (.phys r) = .phys r := rfl

/-- A canonical register is virtual where the register it stands for is. -/
theorem virt?_canonicalRegister (r : Register) : (canonicalRegister names r).virt? = r.virt?.map (canonical names) := by
  cases r <;> rfl

/-! ## What instructions and phis access -/

/-- To access an operand over canonical registers, their canonical registers are read. -/
theorem Operand.reads_uniform (o : Operand) (output memoryOk : Bool) :
    (o.uniform names).reads output memoryOk = (o.reads output memoryOk).map (Access.uniform names) := by
  obtain ⟨w, content⟩ := o
  cases content with
  | imm n => rfl
  | reg r => cases output <;> rfl
  | mem m =>
    obtain ⟨d, base, index, scale⟩ := m
    cases base <;> cases index <;> rfl

/-- An operand over canonical registers writes the canonical register, if any. -/
theorem Operand.writes_uniform (o : Operand) (memoryOk : Bool) :
    ((o.uniform names).writes memoryOk).toList = (o.writes memoryOk).toList.map (Access.uniform names) := by
  obtain ⟨w, content⟩ := o
  cases content <;> rfl

/-- Whether an operand is memory does not depend on widths of registers. -/
@[simp] theorem Operand.isMemory_uniform (o : Operand) : (o.uniform names).isMemory = o.isMemory := by
  obtain ⟨w, content⟩ := o
  cases content <;> rfl

/-- An operand that is a register is its canonical register. -/
theorem Operand.register?_uniform (o : Operand) :
    (o.uniform names).register? = o.register?.map (canonicalRegister names) := by
  obtain ⟨w, content⟩ := o
  cases content <;> rfl

/-- An instruction over canonical registers reads the canonical registers of what it reads. -/
theorem Instruction.uses_uniform (i : Instruction) : (i.uniform names).uses = i.uses.map (Access.uniform names) := by
  cases i <;>
    simp [uniform, uses, Operand.reads_uniform, List.flatMap_map, List.map_flatMap, Access.uniform, pinned]

/-- It writes the canonical registers of what it writes. -/
theorem Instruction.defs_uniform (i : Instruction) : (i.uniform names).defs = i.defs.map (Access.uniform names) := by
  cases i <;> simp [uniform, defs, Operand.writes_uniform, Access.uniform, pinned]

/-- It links the canonical registers of what it links. -/
theorem Instruction.hints_uniform (i : Instruction) :
    (i.uniform names).hints = i.hints.map (canonicalRegister names) := by
  cases i <;> simp [uniform, hints, Operand.register?_uniform, Option.toList_map]

@[simp] theorem Instruction.isCall_uniform (i : Instruction) : (i.uniform names).isCall = i.isCall := by cases i <;> rfl

/-- The virtual registers among uniform accesses are the canonical ones. -/
theorem virtRegs_uniform (l : List Access) :
    virtRegs (l.map (Access.uniform names)) = (virtRegs l).map (canonical names) := by
  rw [virtRegs, List.filterMap_map, virtRegs, List.map_filterMap]
  exact congrArg (List.filterMap · l) (funext fun a => virt?_canonicalRegister a.register)

/-- The input of a uniform phi for a predecessor is the uniform input. -/
theorem Phi.input?_uniform (φ : Phi) (pred : BlockId) :
    (φ.uniform names).input? pred = (φ.input? pred).map (Operand.uniform names) := by
  rw [input?, uniform, lookupBy, List.find?_map, input?, lookupBy, Option.map_map, Option.map_map]
  rfl

/-- A uniform phi links the canonical registers of what it links. -/
theorem Phi.hints_uniform (φ : Phi) : (φ.uniform names).hints = φ.hints.map (canonicalRegister names) := by
  simp only [hints, uniform, Operand.register?_uniform, Option.toList_map, List.filterMap_map, List.map_append,
    List.map_filterMap, Function.comp_def]

theorem Phi.hintsFrom_uniform (φ : Phi) (pred : BlockId) :
    (φ.uniform names).hintsFrom pred = (φ.hintsFrom pred).map (canonicalRegister names) := by
  rw [hintsFrom, hintsFrom, input?_uniform]
  simp only [uniform, Operand.register?_uniform, List.map_append, ← Option.toList_map]
  cases φ.input? pred with
  | none => rfl
  | some o => exact congrArg (_ ++ Option.toList ·) (Operand.register?_uniform o)

/-- A uniform phi writes the canonical register. -/
theorem Phi.virt?_uniform (φ : Phi) : (φ.uniform names).virt? = φ.virt?.map (canonical names) := by
  rw [virt?, uniform, Operand.register?_uniform, virt?]
  cases φ.output.register? with
  | none => rfl
  | some r => exact virt?_canonicalRegister r

/-- A uniform phi mentions the canonical registers of those mentioned. -/
theorem Phi.mentions_uniform (φ : Phi) : (φ.uniform names).mentions = φ.mentions.map (canonical names) := by
  have hhints : ∀ l : List Register,
      (l.map (canonicalRegister names)).filterMap Register.virt? =
        (l.filterMap Register.virt?).map (canonical names) := by
    intro l
    rw [List.filterMap_map, List.map_filterMap]
    exact congrArg (List.filterMap · l) (funext virt?_canonicalRegister)
  rw [mentions, hints_uniform, hhints, mentions, List.map_append, List.map_flatMap]
  simp only [uniform, List.flatMap_map, Operand.reads_uniform, virtRegs_uniform]

/-- A uniform function mentions the canonical registers of those mentioned, in the same order. -/
theorem Function.mentions_uniformBy (f : Function) :
    (f.uniformBy names).mentions = f.mentions.map (canonical names) := by
  have hblock : ∀ blk : Block, (blk.uniform names).mentions = blk.mentions.map (canonical names) := by
    intro blk
    simp only [Block.mentions, Block.uniform, List.flatMap_map, Phi.mentions_uniform, Instruction.uses_uniform,
      Instruction.defs_uniform, ← List.map_append, virtRegs_uniform]
    rw [List.map_append, List.map_flatMap, List.map_flatMap]
  simp only [mentions, uniformBy, List.flatMap_map, hblock, List.map_flatMap]

/-- So both functions have the same canonical registers. -/
theorem Function.canonical_uniform (f : Function) : canonical f.uniform.mentions = canonical f.mentions := by
  rw [uniform, mentions_uniformBy, canonical_map]

/-- In the uniform function every number has one width. -/
theorem Function.oneWidth_uniform (f : Function) : f.uniform.OneWidth := by
  rw [OneWidth, uniform, mentions_uniformBy]
  intro v hv w hw hid
  obtain ⟨x, hx, rfl⟩ := List.mem_map.1 hv
  obtain ⟨y, hy, rfl⟩ := List.mem_map.1 hw
  rw [canonical_id, canonical_id] at hid
  exact canonical_eq_of_id hy hid

/-! ## Blocks -/

namespace Function

variable (f : Function) (b : BlockId)

/-- The blocks of a uniform function are the uniform blocks. -/
theorem block?_uniformBy : (f.uniformBy names).block? b = (f.block? b).map (Block.uniform names) := List.getElem?_map

theorem successors_uniformBy : (f.uniformBy names).successors b = f.successors b := by
  rw [successors, block?_uniformBy, Option.map_map, successors]
  rfl

theorem strayBlock?_uniformBy : (f.uniformBy names).strayBlock? = f.strayBlock? := by
  simp only [strayBlock?, uniformBy, List.flatMap_map, List.length_map]
  rfl

end Function

/-! ## Live sets -/

section Live

variable (hc : canonical names' = canonical names)

include hc

/-- A canonical register stands for itself. -/
theorem canonicalRegister_uniform (r : Register) :
    canonicalRegister names' (canonicalRegister names r) = canonicalRegister names r := by
  cases r with
  | phys p => rfl
  | virt v => rw [canonicalRegister_virt, canonicalRegister_virt, hc, canonical_canonical]

namespace Liveness

/-- Live sets hold canonical registers, so they grow the same way in both functions. -/
theorem add_congr (vs live : List VirtReg) : add names' vs live = add names vs live := by simp only [add, hc]

/-- Adding the canonical registers adds what the registers stand for. -/
theorem add_uniform (vs live : List VirtReg) : add names' (vs.map (canonical names)) live = add names vs live := by
  simp only [add, List.foldl_map, hc, canonical_canonical]

/-- Removing the canonical registers removes what the registers stand for. -/
theorem remove_uniform (vs live : List VirtReg) :
    remove names' (vs.map (canonical names)) live = remove names vs live := by
  simp only [remove, List.foldl_map, hc, canonical_canonical]

/-- An instruction changes a live set the same way in both functions. -/
theorem through_uniform (i : Instruction) (live : Live) :
    through names' (i.uniform names) live = through names i live := by
  rw [through, Instruction.uses_uniform, Instruction.defs_uniform, virtRegs_uniform, virtRegs_uniform, add_uniform hc,
    remove_uniform hc, through]

omit hc in
/-- The phis of a uniform block read the canonical registers on an edge. -/
theorem phiReads_uniform (blk : Block) (pred : BlockId) :
    phiReads (blk.uniform names) pred = (phiReads blk pred).map (canonical names) := by
  have hinput : ∀ φ : Phi, virtRegs ((((φ.uniform names).input? pred).map (fun o => o.reads false true)).getD []) =
      (virtRegs (((φ.input? pred).map (fun o => o.reads false true)).getD [])).map (canonical names) := by
    intro φ
    rw [Phi.input?_uniform]
    cases φ.input? pred with
    | none => rfl
    | some o =>
      rw [Option.map_some, Option.map_some, Option.getD_some, Operand.reads_uniform, virtRegs_uniform]
      rfl
  simp only [phiReads, Block.uniform, List.flatMap_map, hinput, List.map_flatMap]

/-- The same registers are live at the end of a block, given those of the later blocks. -/
theorem atExit_uniform (f : Function) (b : BlockId) (later : List Live) :
    atExit (f.uniformBy names) names' b later = atExit f names b later := by
  have hstep : ∀ (live : Live) (s : BlockId),
      add names' ((((f.uniformBy names).block? s).map (fun blk => phiReads blk b)).getD [])
          (add names' (seenFrom b later s) live) =
        add names (((f.block? s).map (fun blk => phiReads blk b)).getD [])
          (add names (seenFrom b later s) live) := by
    intro live s
    rw [add_congr hc (seenFrom b later s), Function.block?_uniformBy]
    cases f.block? s with
    | none => exact add_congr hc _ _
    | some blk => exact (congrArg (add names' · _) (phiReads_uniform blk b)).trans (add_uniform hc _ _)
  simp only [atExit, Function.successors_uniformBy, hstep]

/-- The code of a block changes a live set the same way in both functions. -/
theorem throughCode_uniform (blk : Block) (live : Live) :
    throughCode names' (blk.uniform names) live = throughCode names blk live := by
  simp only [throughCode, Block.uniform, List.foldr_map, through_uniform hc]

/-- The same registers are live at the start of a block. -/
theorem atEntry_uniform (f : Function) (b : BlockId) (blk : Block) (later : List Live) :
    atEntry (f.uniformBy names) names' b (blk.uniform names) later = atEntry f names b blk later := by
  have hphis : (blk.uniform names).phis.filterMap Phi.virt? = (blk.phis.filterMap Phi.virt?).map (canonical names) := by
    rw [Block.uniform, List.filterMap_map, List.map_filterMap]
    exact congrArg (List.filterMap · blk.phis) (funext Phi.virt?_uniform)
  rw [atEntry, hphis, remove_uniform hc, throughCode_uniform hc, atExit_uniform hc, atEntry]

/-- The live sets at the starts of all blocks are the same in both functions. -/
theorem entries_uniform (f : Function) : entries (f.uniformBy names) names' = entries f names := by
  rw [entries, entries, Function.uniformBy, List.zipIdx_map, List.foldr_map]
  refine congrArg (List.foldr · [] f.blocks.zipIdx) (funext fun e => funext fun later => ?_)
  exact congrArg (· :: later) (atEntry_uniform hc f e.2 e.1 later)

end Liveness

/-! ## Notes -/

namespace Note

/-- The same notes, except that in the second list a register that is read may be linked to itself. -/
inductive Alike : List Note → List Note → Prop where
  | nil : Alike [] []
  | same (note : Note) {l l' : List Note} (h : Alike l l') : Alike (note :: l) (note :: l')
  | echo (v : VirtReg) (p : Position) (memoryOk : Bool) {l l' : List Note} (h : Alike l l') :
      Alike (.read v p memoryOk :: l) (.read v p memoryOk :: .linkStop v [.virt v] :: l')

variable {l l' m m' : List Note} {a : Access} {p : Position} {hints : List Register} {b : BlockId} {f : Function}

omit hc in
theorem Alike.refl (l : List Note) : Alike l l := by
  induction l with
  | nil => exact .nil
  | cons note l ih => exact .same note ih

omit hc in
/-- Lists of notes that are alike can be put one after the other. -/
theorem Alike.append (h : Alike l l') (h' : Alike m m') : Alike (l ++ m) (l' ++ m') := by
  induction h with
  | nil => exact h'
  | same note _ ih => exact .same note ih
  | echo v p memoryOk _ ih => exact .echo v p memoryOk ih

omit hc in
/-- Notes made for each of several things are alike if those for each thing are. -/
theorem Alike.flatMap {α : Type} {xs : List α} {g g' : α → List Note} (h : ∀ x ∈ xs, Alike (g x) (g' x)) :
    Alike (xs.flatMap g) (xs.flatMap g') := by
  induction xs with
  | nil => exact .nil
  | cons x xs ih => exact (h x List.mem_cons_self).append (ih fun y hy => h y (List.mem_cons_of_mem _ hy))

/-- What is written is written at the destination of a copy, or nothing is copied. -/
theorem writes_uniform {accesses : List Access} (h : ∀ a ∈ accesses, a.register ∈ hints ∨ hints = []) :
    writes names' p (hints.map (canonicalRegister names)) (accesses.map (Access.uniform names)) =
      writes names p hints accesses := by
  rw [writes, writes, List.flatMap_map]
  refine List.flatMap_congr fun a ha => ?_
  obtain ⟨r, memoryOk⟩ := a
  cases r with
  | phys q => rfl
  | virt v =>
    have hlinks :
        (hints.map (canonicalRegister names)).contains (.virt (canonical names v)) = hints.contains (.virt v) := by
      rcases h _ ha with hmem | rfl
      · rw [List.contains_iff_mem.2 hmem]
        exact List.contains_iff_mem.2 (List.mem_map_of_mem (f := canonicalRegister names) hmem)
      · rfl
    simp only [Access.uniform, canonicalRegister_virt, hc, canonical_canonical, hlinks, List.map_map, Function.comp_def,
      canonicalRegister_uniform hc]

omit hc in
/-- The notes on one register that is read. Where they differ, the only hint is the register itself at another width. -/
theorem alike_read (h : .virt v ∈ hints ∨ hints.length ≤ 1) (p : Position) (memoryOk fresh : Bool) :
    Alike (.read (canonical names v) p memoryOk :: if fresh && hints.contains (.virt v) then
        [.linkStop (canonical names v) (hints.map (canonicalRegister names))] else [])
      (.read (canonical names v) p memoryOk ::
        if fresh && (hints.map (canonicalRegister names)).contains (.virt (canonical names v)) then
          [.linkStop (canonical names v) (hints.map (canonicalRegister names))] else []) := by
  by_cases hmem : .virt v ∈ hints
  · have hmem' : .virt (canonical names v) ∈ hints.map (canonicalRegister names) :=
      List.mem_map_of_mem (f := canonicalRegister names) hmem
    rw [List.contains_iff_mem.2 hmem, List.contains_iff_mem.2 hmem']
    exact .refl _
  · have hnone : (fresh && hints.contains (.virt v)) = false := by simp [hmem]
    rw [hnone, if_neg Bool.false_ne_true]
    split_ifs with hecho
    · obtain ⟨r, hr, hrv⟩ := List.mem_map.1 (List.contains_iff_mem.1 (Bool.and_eq_true _ _ ▸ hecho).2)
      obtain ⟨x, rfl⟩ : ∃ x, hints = [x] :=
        List.length_eq_one_iff.1 (Nat.le_antisymm (h.resolve_left hmem) (List.length_pos_of_mem hr))
      rw [List.map_singleton, ← List.mem_singleton.1 hr, hrv]
      exact .echo _ _ _ .nil
    · exact .refl _

/-- Notes on what an instruction reads are alike if each register read is linked to, or there is at most one link. -/
theorem alike_reads {accesses : List Access} (h : ∀ a ∈ accesses, a.register ∈ hints ∨ hints.length ≤ 1) (live : Live) :
    Alike (reads names p hints accesses live)
      (reads names' p (hints.map (canonicalRegister names)) (accesses.map (Access.uniform names)) live) := by
  induction accesses generalizing live with
  | nil => exact .nil
  | cons a rest ih =>
    have hrest := fun live => ih (fun x hx => h x (List.mem_cons_of_mem _ hx)) live
    obtain ⟨r, memoryOk⟩ := a
    cases r with
    | phys q => exact hrest live
    | virt v =>
      rw [List.map_cons, reads, reads]
      simp only [Access.uniform, canonicalRegister_virt, hc, canonical_canonical, List.map_map, Function.comp_def,
        canonicalRegister_uniform hc]
      rw [← List.cons_append, ← List.cons_append]
      exact (alike_read (h _ List.mem_cons_self) p memoryOk _).append (hrest _)

omit hc in
/-- A register that is read to access an operand is the operand, or the operand is no register. -/
theorem register?_of_mem_reads {o : Operand} {output memoryOk : Bool} (h : a ∈ o.reads output memoryOk) :
    o.register? = some a.register ∨ o.register? = none := by
  obtain ⟨w, content⟩ := o
  cases content with
  | imm n => exact .inr rfl
  | mem m => exact .inr rfl
  | reg r =>
    cases output with
    | true => cases h
    | false => exact .inl (by rw [List.mem_singleton.1 h]; rfl)

omit hc in
/-- What is read for one of two operands is linked to, or there is at most one link. -/
theorem linked_or_single {left right : Operand} {output memoryOk : Bool}
    (h : a ∈ left.reads output memoryOk ∨ a ∈ right.reads output memoryOk) :
    a.register ∈ left.register?.toList ++ right.register?.toList ∨
      (left.register?.toList ++ right.register?.toList).length ≤ 1 := by
  rcases h with h | h
  · rcases register?_of_mem_reads h with h | h
    · exact .inl (by simp [h])
    · exact .inr (by cases right.register? <;> simp [h])
  · rcases register?_of_mem_reads h with h | h
    · exact .inl (by simp [h])
    · exact .inr (by cases left.register? <;> simp [h])

/-- The notes on an instruction are alike. -/
theorem alike_instruction (b : BlockId) (n : Nat) (i : Instruction) (live : Live) :
    Alike (instruction names b n i live) (instruction names' b n (i.uniform names) live) := by
  have hdefs : ∀ a ∈ i.defs, a.register ∈ i.hints ∨ i.hints = [] := by
    have hwrites : ∀ (o : Operand) (l : List Register),
        ∀ a ∈ (o.writes false).toList, a.register ∈ l ++ o.register?.toList := by
      intro o l a ha
      obtain ⟨w, content⟩ := o
      cases content with
      | imm n => cases ha
      | mem m => cases ha
      | reg r =>
        rw [List.mem_singleton.1 ha]
        exact List.mem_append_right _ (List.mem_singleton.2 rfl)
    cases i with
    | arith op left right => exact fun a ha => .inl (hwrites right _ a ha)
    | mov src dest => exact fun a ha => .inl (hwrites dest _ a ha)
    | _ => exact fun _ _ => .inr rfl
  have huses : ∀ a ∈ i.uses, a.register ∈ i.hints ∨ i.hints.length ≤ 1 := by
    cases i with
    | arith op left right =>
      intro a ha
      rcases List.mem_append.1 ha with ha | ha
      · exact linked_or_single (.inl ha)
      · exact linked_or_single (.inr ha)
    | mov src dest =>
      intro a ha
      rcases List.mem_append.1 ha with ha | ha
      · exact linked_or_single (.inl ha)
      · exact linked_or_single (.inr ha)
    | _ => exact fun _ _ => .inr (Nat.zero_le 1)
  rw [instruction, instruction, Instruction.uses_uniform, Instruction.defs_uniform, Instruction.hints_uniform,
    virtRegs_uniform, remove_uniform hc, writes_uniform hc hdefs]
  exact (Alike.refl _).append (alike_reads hc huses _)

/-- The notes on code are alike, by induction from the last instruction on. -/
theorem alike_code (b : BlockId) (l : List (Instruction × Nat)) (live : Live) :
    Alike (code names b l live) (code names' b (l.map (Prod.map (Instruction.uniform names) id)) live) := by
  induction l generalizing live with
  | nil => exact .nil
  | cons e l ih =>
    rw [code, List.map_cons, Prod.map, code, through_uniform hc]
    exact (alike_instruction hc b e.2 e.1 live).append (ih _)

/-- The notes on what phis of the successors read at the end of a block are alike. -/
theorem alike_phiReads (f : Function) (b : BlockId) (stop : Position) :
    Alike (phiReads f names b stop) (phiReads (f.uniformBy names) names' b stop) := by
  rw [phiReads, phiReads, Function.successors_uniformBy]
  refine .flatMap fun s _ => ?_
  have hphis : (((f.uniformBy names).block? s).map (·.phis)).getD [] =
      (((f.block? s).map (·.phis)).getD []).map (Phi.uniform names) := by
    rw [Function.block?_uniformBy]
    cases f.block? s <;> rfl
  rw [hphis, List.flatMap_map]
  refine .flatMap fun φ _ => ?_
  have hinput : (((φ.uniform names).input? b).map (fun o => o.reads false true)).getD [] =
      (((φ.input? b).map (fun o => o.reads false true)).getD []).map (Access.uniform names) := by
    rw [Phi.input?_uniform]
    cases φ.input? b with
    | none => rfl
    | some o => exact Operand.reads_uniform o false true
  rw [hinput, List.flatMap_map]
  refine .flatMap fun a ha => ?_
  have hlinks : a.register ∈ φ.hintsFrom b ∨ (φ.hintsFrom b).length ≤ 1 := by
    rw [Phi.hintsFrom]
    cases hi : φ.input? b with
    | none =>
      rw [hi] at ha
      cases ha
    | some o =>
      rw [hi] at ha
      exact linked_or_single (.inr ha)
  obtain ⟨r, memoryOk⟩ := a
  cases r with
  | phys q => exact .nil
  | virt v =>
    simp only [Access.uniform, canonicalRegister_virt, hc, canonical_canonical, Phi.hintsFrom_uniform, List.map_map,
      Function.comp_def, canonicalRegister_uniform hc]
    exact alike_read hlinks stop memoryOk true

/-- Phis make the same notes where they write. -/
theorem phiWrites_uniform (b : BlockId) (phis : List Phi) (live : Live) :
    phiWrites names' b (phis.map (Phi.uniform names)) live = phiWrites names b phis live := by
  induction phis generalizing live with
  | nil => rfl
  | cons φ phis ih =>
    rw [List.map_cons, phiWrites, phiWrites, Phi.virt?_uniform]
    cases φ.virt? with
    | none => exact ih live
    | some v =>
      have hremove : remove names' [canonical names v] live = remove names [v] live := remove_uniform hc [v] live
      simp only [Option.map_some, hc, canonical_canonical, Phi.hints_uniform, List.map_map, Function.comp_def,
        canonicalRegister_uniform hc, hremove, ih]

/-- The notes on a block are alike. -/
theorem alike_block (f : Function) (b : BlockId) (blk : Block) (later : List Live) :
    Alike (block f names b blk later) (block (f.uniformBy names) names' b (blk.uniform names) later) := by
  have hwhole : wholeBlock (f.uniformBy names) = wholeBlock f := by
    funext live b
    rw [wholeBlock, wholeBlock, Function.block?_uniformBy]
    cases f.block? b with
    | none => rfl
    | some blk => simp [Block.uniform]
  have hstop : (blk.uniform names).stop b = blk.stop b := by simp [Block.stop, Block.uniform]
  have hcode : (blk.uniform names).code.zipIdx.reverse =
      blk.code.zipIdx.reverse.map (Prod.map (Instruction.uniform names) id) := by
    rw [Block.uniform, List.zipIdx_map, List.map_reverse]
  rw [block, block, hstop, hwhole, atExit_uniform hc, throughCode_uniform hc, atEntry_uniform hc, hcode]
  refine (((alike_phiReads hc f b _).append (.refl _)).append (alike_code hc b _ _)).append ?_ |>.append (.refl _)
  rw [Block.uniform, phiWrites_uniform hc]
  exact .refl _

/-- The notes on the whole function are alike. -/
theorem alike_all (f : Function) : Alike (all f names) (all (f.uniformBy names) names') := by
  rw [all, all, entries_uniform hc, blocks, blocks]
  have hblocks : (f.uniformBy names).blocks.zipIdx.reverse =
      f.blocks.zipIdx.reverse.map (Prod.map (Block.uniform names) id) := by
    rw [Function.uniformBy, List.zipIdx_map, List.map_reverse]
  rw [hblocks, List.flatMap_map]
  exact .flatMap fun e _ => alike_block hc f e.2 e.1 _

end Note

end Live

end RegAlloc
