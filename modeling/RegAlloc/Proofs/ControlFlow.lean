import RegAlloc.Proofs.Preservation

/-!
# Laid out code goes where the exits lead

The code of a function is the code of its blocks in order, each with its label first and the jumps of its exit last.
`Layout.Follows` says that the two have the same control flow: from the end of the own code of a block, jumps alone
lead to the label of the block that the exit names, whichever block stands next, and control does not run past the end
of the code. It holds of the code of every function whose blocks have different labels and no instructions about
control (`Layout.ofAllocation_follows`).

Where control goes from a block is `Laid.exit`; that it cannot leave the code is due to the last instruction, which is
a return or an unconditional jump because no block stands next to the last one (`Laid.getLast?_isBarrier`).
-/

namespace RegAlloc

/-- The name of a label. -/
def Instruction.label? : Instruction → Option String
  | .label name => some name
  | _ => none

/-- An instruction after which control does not go on with the next one. -/
def Instruction.isBarrier : Instruction → Bool
  | .jmp _ | .ret => true
  | _ => false

/-- The instruction that an exit leads to: a return, or the label of the block where control goes on. -/
def Exit.goal (f : Function) (flags : Word × Word) : Exit → Instruction
  | .ret => .ret
  | .goto target => .label (f.label target)
  | .branch relation yes no => .label (f.label (if relation.holds flags then yes else no))

/-- Control goes to the label of the block that the exit chooses, or returns. -/
theorem Exit.goal_eq (f : Function) (e : Exit) (m : Machine) :
    e.goal f m.flags = ((e.next? m).map (fun s => Instruction.label (f.label s))).getD .ret := by
  cases e <;> rfl

namespace Code

/-- The names of the labels of code, in order. -/
def labels (code : List Instruction) : List String := code.filterMap Instruction.label?

variable {code : List Instruction} {w : World} {s : State}

/-- A step does not leave code that ends with a barrier. -/
theorem pc_step_lt (hlast : ∀ i, code.getLast? = some i → i.isBarrier) (h : s.pc < code.length) :
    (step code w s).pc < code.length := by
  have hjump : ∀ name, (jump code name s).pc < code.length := by
    intro name
    rw [jump]
    split
    · rename_i hfind
      exact (List.findIdx?_eq_some_iff_getElem.1 hfind).1
    · exact h
  -- An instruction that goes on with the next one is not the last.
  have hnext : ∀ i, code[s.pc]? = some i → i.isBarrier = false → s.pc + 1 < code.length := by
    intro i hi hbarrier
    refine Nat.lt_of_le_of_ne h fun heq => ?_
    have hend := hlast i (by rw [List.getLast?_eq_getElem?, ← heq, Nat.add_sub_cancel, hi])
    rw [hbarrier] at hend
    cases hend
  rw [step]
  split
  · exact h
  · exact h
  · split
    · exact h
    · rename_i hi
      exact hnext _ hi rfl
    · exact hjump _
    · rename_i hi
      split_ifs
      · exact hjump _
      · exact hnext _ hi rfl
    · exact h
    · rename_i i hlabel hjmp hjcc hret hi
      split
      · refine hnext i hi ?_
        cases i with
        | jmp name => exact absurd rfl (hjmp name)
        | ret => exact absurd rfl hret
        | _ => rfl
      · exact h

/-- A run does not leave code that ends with a barrier. -/
theorem pc_run_lt (hlast : ∀ i, code.getLast? = some i → i.isBarrier) (h : s.pc < code.length) (n : Nat) :
    (run code w n s).pc < code.length := by
  induction n with
  | zero => exact h
  | succ n ih => exact pc_step_lt hlast ih

end Code

namespace Layout

/-- The place of the first instruction after the own code of a block: after the code of the blocks before it, its
label and its own code. -/
def exitAt (f : Function) (ps : List Patch) (placed : List PlacedBlock) (b : BlockId) : Nat :=
  ((placed.take b).flatMap (blockCode f ps)).length + (1 + (((placed[b]?).map (ownCode ps)).getD []).length)

/-- Code has the control flow of a function. -/
structure Follows (f : Function) (placed : List PlacedBlock) (ps : List Patch) (code : List Instruction) : Prop where
  /-- Every block has its label in the code once, in the order of the blocks, and there are no other labels. -/
  labels : Code.labels code = f.blocks.map Block.label
  /-- After the own code of a block, jumps alone lead to where the exit leads. -/
  exits : ∀ b blk, f.block? b = some blk → ∀ (w : World) (m : Machine),
    ∃ pc, Code.Jumps code w m (exitAt f ps placed b) pc ∧ code[pc]? = some (blk.exit.goal f m.flags)
  /-- A block has an unconditional jump only if it needs one. -/
  jumps : ∀ (b : BlockId) pb, placed[b]? = some pb →
    ((∃ name, .jmp name ∈ blockCode f ps pb) ↔ f.successors b ≠ [] ∧ ∀ s ∈ f.successors b, f.next? b ≠ some s)
  /-- Control that is inside the code stays there. -/
  inside : ∀ (w : World) (s : Code.State), s.pc < code.length → ∀ n, (Code.run code w n s).pc < code.length

/-- An exit needs a jump if there is a successor and none of them is the next block. -/
theorem jmp_mem_exitCode {f : Function} {b : BlockId} {e : Exit} :
    (∃ name, .jmp name ∈ exitCode f b e) ↔ e.successors ≠ [] ∧ ∀ s ∈ e.successors, f.next? b ≠ some s := by
  cases e with
  | ret => simp [exitCode, Exit.successors]
  | goto target =>
    by_cases hfall : f.next? b = some target
    · simp [exitCode, Exit.successors, hfall]
    · simp [exitCode, Exit.successors, hfall]
  | branch relation yes no =>
    have hmem : ∀ s, s ∈ (Exit.branch relation yes no).successors ↔ s = yes ∨ s = no := by
      intro s
      rw [Exit.successors]
      split_ifs with heq
      · simp [heq]
      · simp
    have hne : (Exit.branch relation yes no).successors ≠ [] := List.ne_nil_of_mem ((hmem yes).2 (.inl rfl))
    simp only [hmem, forall_eq_or_imp, forall_eq, ne_eq, hne, not_false_eq_true, true_and]
    by_cases hno : f.next? b = some no
    · simp [exitCode, hno]
    · by_cases hyes : f.next? b = some yes
      · rw [exitCode, if_neg hno, if_pos hyes]
        simp [hyes]
      · simp [exitCode, hno, hyes]

/-- The jumps of a block that no other one stands next to end with a barrier. -/
theorem getLast?_exitCode {f : Function} {b : BlockId} (h : f.next? b = none) (e : Exit) :
    ∃ i, (exitCode f b e).getLast? = some i ∧ i.isBarrier := by
  cases e with
  | ret => exact ⟨_, rfl, rfl⟩
  | goto target => simp [exitCode, h, Instruction.isBarrier]
  | branch relation yes no => simp [exitCode, h, Instruction.isBarrier]

namespace Laid

variable {f : Function} {a : Allocation} {placed : List PlacedBlock} {ps : List Patch} {code : List Instruction}
  {b s : BlockId} {blk : Block} {pb : PlacedBlock}

/-- Edges lead to blocks of the function. -/
theorem exists_block (h : Laid f a placed ps code) (hs : s ∈ f.successors b) : ∃ next, f.block? s = some next := by
  obtain ⟨moves, hmoves, -⟩ := h.edge hs
  exact Option.isSome_iff_exists.1 (edgeMoves_eq_ok.1 hmoves).1

/-- The labels of the code are those of the blocks, in order. -/
theorem labels_eq (h : Laid f a placed ps code) : Code.labels code = f.blocks.map Block.label := by
  have hblock : ∀ pb ∈ placed, (blockCode f ps pb).filterMap Instruction.label? = [pb.label] := by
    intro pb hpb
    rw [blockCode, List.filterMap_cons_some (show Instruction.label? (.label pb.label) = some pb.label from rfl),
      List.cons.injEq, List.filterMap_eq_nil_iff]
    refine ⟨rfl, ?_⟩
    intro i hi
    cases i with
    | label name => exact absurd hi (h.label_not_mem hpb _ name)
    | _ => rfl
  rw [← h.map_label, h.code_eq, codeFrom, List.drop_zero, Code.labels, List.filterMap_flatMap,
    List.flatMap_congr hblock, List.map_eq_flatMap]

/-- What stands after the own code of a block. -/
theorem drop_exitAt (h : Laid f a placed ps code) (hb : f.block? b = some blk) :
    code.drop (exitAt f ps placed b) = exitCode f b blk.exit ++ codeFrom f ps placed (b + 1) := by
  obtain ⟨pb, hpb, -⟩ := h.exists_placed hb
  have hcode : code.drop 0 = (placed.take b).flatMap (blockCode f ps) ++ codeFrom f ps placed b := by
    rw [List.drop_zero, codeFrom, ← List.flatMap_append, List.take_append_drop, h.code_eq, codeFrom, List.drop_zero]
  have hblock := Code.drop_append_length hcode
  rw [h.codeFrom_cons hb hpb] at hblock
  have hexit := Code.drop_append_length hblock
  rw [exitAt, hpb]
  rwa [Nat.zero_add, List.length_cons, Nat.add_comm _ 1] at hexit

/-- From the exit of a block, jumps lead to the label of the block that the exit chooses. -/
theorem jumps_exitAt (h : Laid f a placed ps code) (hb : f.block? b = some blk) (w : World) (m : Machine) :
    ∃ pc, Code.Jumps code w m (exitAt f ps placed b) pc ∧ code[pc]? = some (blk.exit.goal f m.flags) := by
  have hdrop := h.drop_exitAt hb
  rw [Exit.goal_eq]
  cases hnext : blk.exit.next? m with
  | none =>
    cases hexit : blk.exit with
    | ret =>
      rw [hexit] at hdrop
      exact ⟨_, .refl, Code.getElem?_of_drop hdrop⟩
    | goto | branch =>
      rw [hexit] at hnext
      cases hnext
  | some s =>
    obtain ⟨next, hs⟩ := h.exists_block (Function.successors_eq hb ▸ Exit.mem_successors_of_next? hnext)
    obtain ⟨pc, hjumps, hpc⟩ := h.exit (w := w) hdrop hnext hs
    obtain ⟨pb, hpb, -⟩ := h.exists_placed hs
    have hlabel : f.label s = next.label := by rw [Function.label, hs, Option.map_some, Option.getD_some]
    rw [h.codeFrom_cons hs hpb] at hpc
    rw [Option.map_some, Option.getD_some, hlabel]
    exact ⟨pc, hjumps, Code.getElem?_of_drop hpc⟩

/-- The code of a block has a jump if the block has successors and none of them is the next block. -/
theorem jmp_mem_blockCode (h : Laid f a placed ps code) (hpb : placed[b]? = some pb) :
    (∃ name, .jmp name ∈ blockCode f ps pb) ↔ f.successors b ≠ [] ∧ ∀ s ∈ f.successors b, f.next? b ≠ some s := by
  obtain ⟨blk, hb⟩ := Function.exists_block_of_lt (f := f) (h.length_placed ▸ (List.getElem?_eq_some_iff.1 hpb).1)
  rw [Function.successors_eq hb, ← jmp_mem_exitCode, h.blockCode_eq hb hpb]
  refine exists_congr fun name => ?_
  rw [List.mem_append, List.mem_cons, or_iff_right]
  rintro (heq | hmem)
  · cases heq
  · cases h.straight_ownCode (List.mem_of_getElem? hpb) _ hmem

/-- The last instruction is a return or an unconditional jump. -/
theorem getLast?_isBarrier (h : Laid f a placed ps code) {i : Instruction} (hi : code.getLast? = some i) :
    i.isBarrier := by
  cases hlen : f.blocks.length with
  | zero =>
    have hnil : placed = [] := List.length_eq_zero_iff.1 (h.length_placed.trans hlen)
    rw [h.code_eq, codeFrom, hnil] at hi
    cases hi
  | succ b =>
    -- No block stands next to the last one, and no code stands after it.
    have hlt : b < f.blocks.length := hlen ▸ Nat.lt_succ_self b
    obtain ⟨blk, hb⟩ := Function.exists_block_of_lt (f := f) hlt
    have hdrop := h.drop_exitAt hb
    have hnext : f.next? b = none := by rw [Function.next?, hlen, if_neg (Nat.lt_irrefl _)]
    have hrest : codeFrom f ps placed (b + 1) = [] := by
      rw [codeFrom, List.drop_eq_nil_of_le (by rw [h.length_placed, hlen]), List.flatMap_nil]
    obtain ⟨j, hj, hbarrier⟩ := getLast?_exitCode hnext blk.exit
    rw [hrest, List.append_nil] at hdrop
    rw [← List.take_append_drop (exitAt f ps placed b) code, hdrop, List.getLast?_append, hj] at hi
    obtain rfl := Option.some.inj hi
    exact hbarrier

end Laid

/-- **Control flow.** Whatever registers are chosen, the code of a function has its control flow, if the blocks of the
function have different labels and their instructions are not about control. -/
theorem ofAllocation_follows {f : Function} {a : Allocation} {layout : Layout}
    (hlabels : (f.blocks.map Block.label).Nodup) (hstraight : ∀ blk ∈ f.blocks, ∀ i ∈ blk.code, i.isControl = false)
    (h : ofAllocation f a = .ok layout) :
    ∃ placed ps, a.placeBlocks f = .ok placed ∧ patches f a placed = .ok ps ∧
      layout.code = placed.flatMap (blockCode f ps) ∧ Follows f placed ps layout.code := by
  obtain ⟨placed, ps, hl⟩ := exists_laid hstraight hlabels h
  exact ⟨placed, ps, hl.blocks, hl.edges, hl.code_eq, hl.labels_eq, fun b blk hb => hl.jumps_exitAt hb,
    fun b pb hpb => hl.jmp_mem_blockCode hpb, fun w s hs => Code.pc_run_lt (fun i => hl.getLast?_isBarrier) hs⟩

/-- In the example with a loop, the code has the labels and jumps that its blocks call for. -/
theorem ofAllocation_follows_tally :
    (tally.blocks.map Block.label).Nodup ∧ (∀ blk ∈ tally.blocks, ∀ i ∈ blk.code, i.isControl = false) ∧
      ∃ lifetimes a layout, Lifetimes.ofFunction tally (.withAllocatable [.b]) = .ok lifetimes ∧
        Allocation.ofLifetimes lifetimes (.withAllocatable [.b]) = .ok a ∧ ofAllocation tally a = .ok layout ∧
        ∃ placed ps, a.placeBlocks tally = .ok placed ∧ patches tally a placed = .ok ps ∧
          layout.code = placed.flatMap (blockCode tally ps) ∧ Follows tally placed ps layout.code :=
  ⟨by decide, by decide, _, _, _, rfl, rfl, rfl, ofAllocation_follows (by decide) (by decide) rfl⟩

end Layout

end RegAlloc
