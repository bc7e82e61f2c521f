import RegAlloc.Proofs.Edges
import RegAlloc.Proofs.Runs

/-!
# The code of a function as a whole

Where the code of a block is in the code of a function (`Laid.codeFrom_eq`, `Laid.findIdx?_label`), what an edge adds
to the blocks at its two ends (`Laid.edge`), and where the jumps at the end of a block lead to (`Laid.exit`): control
comes to the block that the exit of the block names, and nothing else happens on the way.
-/

namespace RegAlloc

/-! ## Code that goes on with what stands after it -/

theorem straight_moveCode (src dest : Operand) : Straight (moveCode src dest) := by
  rw [moveCode]
  split_ifs
  · exact (straight_nil.cons rfl).cons rfl
  · exact straight_nil.cons rfl

/-- A move takes at least one instruction. -/
theorem moveCode_ne_nil (src dest : Operand) : moveCode src dest ≠ [] := by
  rw [moveCode]
  split_ifs <;> exact List.cons_ne_nil _ _

/-- Copying an operand, if it is needed, makes no jump. -/
theorem straight_fixup (input output : Operand) : Straight (fixup input output) := by
  rw [fixup]
  split_ifs
  · exact straight_nil
  · exact straight_moveCode input output

namespace Sequencer

open Move

theorem straight_perform (s : Sequencer) (x : Move) : Straight (s.perform x).1 := by
  rcases s.perform_cases x with ⟨-, -, h⟩ | ⟨-, -, -, h⟩ | ⟨-, -, -, -, h⟩ | ⟨-, -, h⟩
  · rw [h]
    exact straight_nil.cons rfl
  · rw [h]
    cases s.scratch with
    | nil => exact (straight_nil.cons rfl).cons rfl
    | cons r rest => exact (straight_nil.cons rfl).cons rfl
  · rw [h]
    exact (((straight_nil.cons rfl).cons rfl).cons rfl).cons rfl
  · rw [h]
    exact straight_nil.cons rfl

theorem straight_run (n : Nat) (s : Sequencer) : Straight (run n s) := by
  induction n generalizing s with
  | zero => exact straight_nil
  | succ n ih =>
    rw [run]
    split
    · exact straight_nil
    · exact (s.straight_perform _).append (ih _)

end Sequencer

/-- Moves on an edge make no jump. -/
theorem Move.straight_sequence {moves : List Move} {code : List Instruction} (h : sequence moves = .ok code) :
    Straight code := by
  rw [sequence] at h
  split at h
  · cases h
  · obtain rfl := Except.ok.inj h
    exact Sequencer.straight_run _ _

namespace Allocation

variable {a : Allocation} {read write p : Position} {i : Instruction} {code : List Instruction}

/-- Transfers make no jump. -/
theorem straight_transferCodeAt (a : Allocation) (p : Position) : Straight (a.transferCodeAt p) := by
  intro i hi
  obtain ⟨z, -, rfl⟩ := List.mem_map.1 hi
  rw [transferCode]
  split <;> rfl

/-- An instruction in place is some code that goes on with what stands after it. -/
theorem straight_placeInstruction (hi : i.isControl = false) (h : a.placeInstruction read write i = .ok code) :
    code ≠ [] ∧ Straight code := by
  cases i with
  | arith op left right =>
    obtain ⟨left', -, h⟩ := bind_eq_ok h
    obtain ⟨input, -, h⟩ := bind_eq_ok h
    obtain ⟨output, -, h⟩ := bind_eq_ok h
    obtain rfl := Except.ok.inj h
    exact ⟨List.cons_ne_nil _ _, (straight_fixup input output).cons rfl⟩
  | neg operand =>
    obtain ⟨input, -, h⟩ := bind_eq_ok h
    obtain ⟨output, -, h⟩ := bind_eq_ok h
    obtain rfl := Except.ok.inj h
    exact ⟨List.cons_ne_nil _ _, (straight_fixup input output).cons rfl⟩
  | mov src dest =>
    obtain ⟨src', -, h⟩ := bind_eq_ok h
    obtain ⟨dest', -, h⟩ := bind_eq_ok h
    obtain rfl := Except.ok.inj h
    exact ⟨moveCode_ne_nil src' dest', straight_moveCode src' dest'⟩
  | compare op left right =>
    obtain ⟨left', -, h⟩ := bind_eq_ok h
    obtain ⟨right', -, h⟩ := bind_eq_ok h
    obtain rfl := Except.ok.inj h
    exact ⟨List.cons_ne_nil _ _, straight_nil.cons rfl⟩
  | xchg left right =>
    obtain ⟨left', -, h⟩ := bind_eq_ok h
    obtain ⟨right', -, h⟩ := bind_eq_ok h
    obtain rfl := Except.ok.inj h
    exact ⟨List.cons_ne_nil _ _, straight_nil.cons rfl⟩
  | setcc | idiv | push | pop =>
    obtain ⟨operand', -, h⟩ := bind_eq_ok h
    obtain rfl := Except.ok.inj h
    exact ⟨List.cons_ne_nil _ _, straight_nil.cons rfl⟩
  | enter =>
    obtain ⟨size, -, h⟩ := bind_eq_ok h
    obtain rfl := Except.ok.inj h
    exact ⟨List.cons_ne_nil _ _, ((straight_nil.cons rfl).cons rfl).cons rfl⟩
  | leave =>
    obtain rfl := Except.ok.inj h
    exact ⟨List.cons_ne_nil _ _, (straight_nil.cons rfl).cons rfl⟩
  | cqto | call =>
    obtain rfl := Except.ok.inj h
    exact ⟨List.cons_ne_nil _ _, straight_nil.cons rfl⟩
  | jmp | jcc | label | ret => cases hi

/-- An instruction that makes no jump is placed as code that makes none, and is not dropped. -/
theorem straight_placeNumbered {b : BlockId} {e : Instruction × Nat} (hi : e.1.isControl = false)
    (h : a.placeNumbered b e = .ok code) : code ≠ [] ∧ Straight code := by
  obtain ⟨placed, hplaced, h⟩ := bind_eq_ok h
  obtain rfl := Except.ok.inj h
  obtain ⟨hne, hstraight⟩ := straight_placeInstruction hi hplaced
  refine ⟨fun hnil => hne ?_, ((a.straight_transferCodeAt _).append hstraight).append (a.straight_transferCodeAt _)⟩
  exact (List.append_eq_nil_iff.1 (List.append_eq_nil_iff.1 hnil).1).2

/-- The parts of a block in place. -/
theorem placeBlock_eq_ok {f : Function} {b : BlockId} {blk : Block} {pb : PlacedBlock} (h : placeBlock f a b = .ok pb)
    (hb : f.block? b = some blk) :
    pb.id = b ∧ pb.label = blk.label ∧ ∃ codes, blk.code.zipIdx.mapM (a.placeNumbered b) = .ok codes ∧
      pb.body = a.transferCodeAt (.entry b) ++ codes.flatten ++ a.transferCodeAt (blk.stop b) := by
  rw [placeBlock, hb] at h
  obtain ⟨phis, -, h⟩ := bind_eq_ok h
  obtain ⟨codes, hcodes, h⟩ := bind_eq_ok h
  obtain rfl := Except.ok.inj h
  exact ⟨rfl, rfl, codes, hcodes, rfl⟩

end Allocation

namespace Exit

theorem mem_successors_of_next? {m : Machine} {e : Exit} {s : BlockId} (h : e.next? m = some s) : s ∈ e.successors := by
  cases e with
  | ret => cases h
  | goto target => exact List.mem_singleton.2 (Option.some.inj h).symm
  | branch relation yes no =>
    obtain rfl := Option.some.inj h
    rw [successors]
    split_ifs <;> simp [*]

/-- Control returns only where there is no successor. -/
theorem ret_of_next? {m : Machine} {e : Exit} (h : e.next? m = none) : e = .ret := by
  cases e with
  | ret => rfl
  | _ => cases h

end Exit

namespace Layout

/-- If all members of a list but one give nothing, what the list gives is what that one gives. -/
theorem flatMap_eq_of_getElem? {α β : Type} {l : List α} {g : α → List β} {n : Nat} {x : α} (hx : l[n]? = some x)
    (h : ∀ k y, k ≠ n → l[k]? = some y → g y = []) : l.flatMap g = g x := by
  induction l generalizing n with
  | nil => cases hx
  | cons y l ih =>
    rw [List.flatMap_cons]
    cases n with
    | zero =>
      obtain rfl := Option.some.inj hx
      have hnil : l.flatMap g = [] := by
        rw [List.flatMap_eq_nil_iff]
        intro z hz
        obtain ⟨k, hk⟩ := List.getElem?_of_mem hz
        exact h (k + 1) z (Nat.succ_ne_zero k) hk
      rw [hnil, List.append_nil]
    | succ n =>
      rw [h 0 y (Nat.succ_ne_zero n).symm rfl, List.nil_append]
      exact ih hx fun k z hk hz => h (k + 1) z (fun heq => hk (Nat.succ.inj heq)) hz

/-! ## What edges add to blocks -/

section Patches

variable {f : Function} {a : Allocation} {placed : List PlacedBlock} {ps : List Patch} {b s p : BlockId}
  {atEntry : Bool}

/-- What several lists of patches add is what they add one by one. -/
theorem added_flatten (l : List (List Patch)) :
    added l.flatten b atEntry = l.flatMap (fun ps => added ps b atEntry) := by
  induction l with
  | nil => rfl
  | cons ps l ih =>
    rw [List.flatten_cons, added, List.filter_append, List.flatMap_append, List.flatMap_cons, ← ih, added, added]

theorem added_filterMap (l : List (Option Patch)) :
    added (l.filterMap id) b atEntry = l.flatMap (fun r => added r.toList b atEntry) := by
  rw [← List.flatMap_map Option.toList (fun ps => added ps b atEntry), ← added_flatten, ← List.flatMap_def,
    List.filterMap_eq_flatMap_toList]
  rfl

/-- An edge out of a block with two successors adds nothing if nothing has to be moved, and otherwise the moves at the
start of the second block, which then has no other predecessor. -/
theorem branchPatch_eq_ok {r : Option Patch} (h : branchPatch f a placed p s = .ok r) :
    ∃ moves, edgeMoves f a placed p s = .ok moves ∧ (r = none ∧ (∀ x ∈ moves, x.isNoop) ∨
      ∃ code, r = some ⟨s, true, code⟩ ∧ Move.sequence moves = .ok code ∧ (f.predecessors s).length ≤ 1) := by
  obtain ⟨moves, hmoves, h⟩ := bind_eq_ok h
  refine ⟨moves, hmoves, ?_⟩
  simp only at h
  split_ifs at h with hneeded hpreds
  · obtain rfl := Except.ok.inj h
    refine .inl ⟨rfl, fun x hx => ?_⟩
    simpa using List.countP_eq_zero.1 hneeded x hx
  · obtain ⟨code, hcode, h⟩ := bind_eq_ok h
    obtain rfl := Except.ok.inj h
    exact .inr ⟨code, rfl, hcode, Nat.not_lt.1 hpreds⟩

/-- The edges out of a block: a single one adds moves at the end of the block. -/
theorem patchesFrom_eq_ok (h : patchesFrom f a placed p = .ok ps) :
    (∃ s moves code, f.successors p = [s] ∧ edgeMoves f a placed p s = .ok moves ∧ Move.sequence moves = .ok code ∧
      ps = [⟨p, false, code⟩]) ∨
    (∀ s, f.successors p ≠ [s]) ∧ ∃ l, (f.successors p).mapM (branchPatch f a placed p) = .ok l ∧
      ps = l.filterMap id := by
  rw [patchesFrom] at h
  split at h
  · rename_i s hs
    obtain ⟨moves, hmoves, h⟩ := bind_eq_ok h
    obtain ⟨code, hcode, h⟩ := bind_eq_ok h
    obtain rfl := Except.ok.inj h
    exact .inl ⟨s, moves, code, hs, hmoves, hcode, rfl⟩
  · rename_i hs
    obtain ⟨l, hl, h⟩ := bind_eq_ok h
    obtain rfl := Except.ok.inj h
    exact .inr ⟨hs, l, hl, rfl⟩

/-- What the edges out of a block add, patch by patch. -/
theorem mem_patchesFrom (h : patchesFrom f a placed p = .ok ps) {patch : Patch} (hp : patch ∈ ps) :
    ∃ s ∈ f.successors p, ∃ moves, edgeMoves f a placed p s = .ok moves ∧ Move.sequence moves = .ok patch.code ∧
      (patch.atEntry = false ∧ patch.block = p ∧ f.successors p = [s] ∨
        patch.atEntry = true ∧ patch.block = s ∧ (f.predecessors s).length ≤ 1 ∧ ∀ s', f.successors p ≠ [s']) := by
  rcases patchesFrom_eq_ok h with ⟨s, moves, code, hs, hmoves, hcode, rfl⟩ | ⟨hs, l, hl, rfl⟩
  · obtain rfl := List.mem_singleton.1 hp
    exact ⟨s, hs ▸ List.mem_singleton.2 rfl, moves, hmoves, hcode, .inl ⟨rfl, rfl, hs⟩⟩
  · obtain ⟨r, hr, rfl⟩ := List.mem_filterMap.1 hp
    obtain ⟨s, hmem, hbranch⟩ := exists_of_result hl hr
    obtain ⟨moves, hmoves, ⟨hnone, -⟩ | ⟨code, hsome, hcode, hpreds⟩⟩ := branchPatch_eq_ok hbranch
    · cases hnone
    · cases hsome
      exact ⟨s, hmem, moves, hmoves, hcode, .inr ⟨rfl, rfl, hpreds, hs⟩⟩

/-- Every patch comes from an edge. -/
theorem mem_patches (h : patches f a placed = .ok ps) {patch : Patch} (hp : patch ∈ ps) :
    ∃ p, ∃ s ∈ f.successors p, ∃ moves, edgeMoves f a placed p s = .ok moves ∧ Move.sequence moves = .ok patch.code ∧
      (patch.atEntry = false ∧ patch.block = p ∧ f.successors p = [s] ∨
        patch.atEntry = true ∧ patch.block = s ∧ (f.predecessors s).length ≤ 1 ∧ ∀ s', f.successors p ≠ [s']) := by
  obtain ⟨l, hl, h⟩ := bind_eq_ok h
  obtain rfl := Except.ok.inj h
  obtain ⟨qs, hqs, hp⟩ := List.mem_flatten.1 hp
  obtain ⟨p, -, hfrom⟩ := exists_of_result hl hqs
  exact ⟨p, mem_patchesFrom hfrom hp⟩

/-- Patches for other places add nothing. -/
theorem added_eq_nil (h : ∀ patch ∈ ps, patch.block = b → patch.atEntry ≠ atEntry) : added ps b atEntry = [] := by
  have hfilter : ps.filter (fun p => p.block = b && p.atEntry = atEntry) = [] := by
    rw [List.filter_eq_nil_iff]
    intro patch hp hboth
    simp only [Bool.and_eq_true, decide_eq_true_eq] at hboth
    exact h patch hp hboth.1 hboth.2
  rw [added, hfilter, List.flatMap_nil]

end Patches

/-! ## Where the blocks are -/

/-- The code of a block between its label and the jumps of its exit: its instructions in place, and the moves that
edges add before and after them. -/
def ownCode (ps : List Patch) (b : PlacedBlock) : List Instruction :=
  added ps b.id true ++ b.body ++ added ps b.id false

/-- The code from a block on. -/
def codeFrom (f : Function) (ps : List Patch) (placed : List PlacedBlock) (b : BlockId) : List Instruction :=
  (placed.drop b).flatMap (blockCode f ps)

/-- The code of a function, with what it is made of. The blocks of the function have different labels, and their
instructions are not about control. -/
structure Laid (f : Function) (a : Allocation) (placed : List PlacedBlock) (ps : List Patch)
    (code : List Instruction) : Prop where
  straight : ∀ blk ∈ f.blocks, Straight blk.code
  labels : (f.blocks.map Block.label).Nodup
  blocks : a.placeBlocks f = .ok placed
  edges : patches f a placed = .ok ps
  code_eq : code = codeFrom f ps placed 0

/-- Code is laid out if the blocks have different labels and no instructions about control. -/
theorem exists_laid {f : Function} {a : Allocation} {layout : Layout} (hstraight : ∀ blk ∈ f.blocks, Straight blk.code)
    (hlabels : (f.blocks.map Block.label).Nodup) (h : ofAllocation f a = .ok layout) :
    ∃ placed ps, Laid f a placed ps layout.code := by
  obtain ⟨placed, hplaced, h⟩ := bind_eq_ok h
  obtain ⟨ps, hps, h⟩ := bind_eq_ok h
  obtain rfl := Except.ok.inj h
  exact ⟨placed, ps, hstraight, hlabels, hplaced, hps, rfl⟩

/-- A block with at most one predecessor is reached from one block. -/
theorem eq_of_predecessors {f : Function} {b p s : BlockId} (h : (f.predecessors s).length ≤ 1)
    (hp : s ∈ f.successors p) (hb : s ∈ f.successors b) : p = b := by
  have hp := Function.mem_predecessors.2 hp
  have hb := Function.mem_predecessors.2 hb
  match hl : f.predecessors s with
  | [] =>
    rw [hl] at hp
    cases hp
  | [q] =>
    rw [hl, List.mem_singleton] at hp hb
    rw [hp, hb]
  | _ :: _ :: _ =>
    rw [hl] at h
    exact absurd h (by simp)

theorem successors_nodup (f : Function) (b : BlockId) : (f.successors b).Nodup := by
  rw [Function.successors]
  cases f.block? b with
  | none => exact List.nodup_nil
  | some blk =>
    cases hexit : blk.exit with
    | ret => simp [hexit, Exit.successors]
    | goto target => simp [hexit, Exit.successors]
    | branch relation yes no =>
      by_cases heq : yes = no
      · simp [hexit, Exit.successors, heq]
      · simp [hexit, Exit.successors, heq]

/-- Code in which every block begins with its label, and has no other labels: the first label of a block's name is
where the block begins. -/
theorem exists_findIdx? {l : List PlacedBlock} {g : PlacedBlock → List Instruction}
    (hg : ∀ pb ∈ l, ∃ rest, g pb = .label pb.label :: rest ∧ ∀ name, .label name ∉ rest)
    (hnd : (l.map PlacedBlock.label).Nodup) {n : Nat} {pb : PlacedBlock} (hn : l[n]? = some pb) :
    ∃ pc, (l.flatMap g).findIdx? (fun i => i = .label pb.label) = some pc ∧
      (l.flatMap g).drop pc = (l.drop n).flatMap g := by
  induction l generalizing n with
  | nil => cases hn
  | cons x l ih =>
    rw [List.map_cons, List.nodup_cons] at hnd
    obtain ⟨rest, hx, hrest⟩ := hg x (List.mem_cons_self ..)
    cases n with
    | zero =>
      obtain rfl := Option.some.inj hn
      refine ⟨0, ?_, rfl⟩
      rw [List.flatMap_cons, hx, List.cons_append, List.findIdx?_cons, if_pos (by simp)]
    | succ n =>
      rw [List.getElem?_cons_succ] at hn
      obtain ⟨pc, hfind, hdrop⟩ := ih (fun y hy => hg y (List.mem_cons_of_mem x hy)) hnd.2 hn
      have hne : x.label ≠ pb.label := fun heq => hnd.1 (heq ▸ List.mem_map_of_mem (List.mem_of_getElem? hn))
      have hnone : (g x).findIdx? (fun i => i = .label pb.label) = none := by
        rw [List.findIdx?_eq_none_iff, hx]
        intro i hi
        refine decide_eq_false fun heq => ?_
        rcases List.mem_cons.1 hi with rfl | hi
        · exact hne (Instruction.label.inj heq)
        · exact hrest _ (heq ▸ hi)
      refine ⟨pc + (g x).length, ?_, ?_⟩
      · rw [List.flatMap_cons, List.findIdx?_append, hnone, hfind]
        rfl
      · rw [List.flatMap_cons, Nat.add_comm, ← List.drop_drop, List.drop_left, hdrop, List.drop_succ_cons]

namespace Laid

variable {f : Function} {a : Allocation} {placed : List PlacedBlock} {ps : List Patch} {code : List Instruction}
  {b s : BlockId} {blk : Block} {w : World} {pc : Nat} {m : Machine}

/-- What the edges out of the blocks add, block by block. -/
theorem exists_patchesFrom (h : Laid f a placed ps code) : ∃ l : List (List Patch), ps = l.flatten ∧
    (∀ p < f.blocks.length, ∃ qs, l[p]? = some qs) ∧ ∀ (p : BlockId) qs, l[p]? = some qs →
      patchesFrom f a placed p = .ok qs := by
  obtain ⟨l, hl, hps⟩ := bind_eq_ok h.edges
  have hindex : ∀ p < f.blocks.length, ∃ qs, l[p]? = some qs ∧ patchesFrom f a placed p = .ok qs := fun p hp =>
    getElem?_mapM hl (List.getElem?_range hp)
  refine ⟨l, (Except.ok.inj hps).symm, fun p hp => (hindex p hp).imp fun _ hqs => hqs.1, fun p qs hqs => ?_⟩
  have hlen : f.blocks.length = l.length := by
    rw [← (mapM_eq_ok hl).length_eq, Function.blockIds, List.length_range]
  obtain ⟨qs', hqs', hfrom⟩ := hindex p (hlen ▸ (List.getElem?_eq_some_iff.1 hqs).1)
  obtain rfl := Option.some.inj (hqs.symm.trans hqs')
  exact hfrom

/-- What is added on edges makes no jump. -/
theorem straight_added (h : Laid f a placed ps code) (atEntry : Bool) : Straight (added ps b atEntry) := by
  intro i hi
  obtain ⟨patch, hpatch, hi⟩ := List.mem_flatMap.1 hi
  obtain ⟨p, s, -, moves, -, hcode, -⟩ := mem_patches h.edges (List.mem_of_mem_filter hpatch)
  exact Move.straight_sequence hcode i hi

/-- Nothing is added at the start of a block that no edge leads to. -/
theorem added_start (h : Laid f a placed ps code) (hs : ∀ p, s ∉ f.successors p) : added ps s true = [] := by
  refine added_eq_nil fun patch hp hblock hentry => ?_
  obtain ⟨p, s', hs', moves, -, -, ⟨hfalse, -⟩ | ⟨-, hblock', -⟩⟩ := mem_patches h.edges hp
  · cases hfalse.symm.trans hentry
  · exact hs p (hblock.symm.trans hblock' ▸ hs')

/-- Nothing is added at the end of a block that no edge leads from. -/
theorem added_end (h : Laid f a placed ps code) (hb : f.successors b = []) : added ps b false = [] := by
  refine added_eq_nil fun patch hp hblock hentry => ?_
  obtain ⟨p, s', hs', moves, -, -, ⟨-, hblock', -⟩ | ⟨htrue, -⟩⟩ := mem_patches h.edges hp
  · obtain rfl := hblock.symm.trans hblock'
    rw [hb] at hs'
    cases hs'
  · cases htrue.symm.trans hentry

/-- What an edge adds: the moves of the edge, at the end of the first block or at the start of the second one, and
nothing at the other of the two. -/
theorem edge (h : Laid f a placed ps code) (hs : s ∈ f.successors b) :
    ∃ moves, edgeMoves f a placed b s = .ok moves ∧ (Move.Makes (added ps b false) moves ∧ added ps s true = [] ∨
      added ps b false = [] ∧ Move.Makes (added ps s true) moves) := by
  obtain ⟨l, hps, hindex, hfrom⟩ := h.exists_patchesFrom
  obtain ⟨qs, hqs⟩ := hindex b (Function.lt_length_of_mem_successors hs)
  rcases patchesFrom_eq_ok (hfrom b qs hqs) with ⟨s', moves, edgeCode, hsucc, hmoves, hcode, rfl⟩
    | ⟨hsucc, results, hresults, rfl⟩
  · obtain rfl : s = s' := List.mem_singleton.1 (hsucc ▸ hs)
    refine ⟨moves, hmoves, .inl ⟨.inl ?_, ?_⟩⟩
    · have hrest : ∀ k y, k ≠ b → l[k]? = some y → added y b false = [] := by
        refine fun k y hk hy => added_eq_nil fun patch hp hblock hentry => ?_
        obtain ⟨_, -, _, -, -, ⟨-, hblock', -⟩ | ⟨htrue, -⟩⟩ := mem_patchesFrom (hfrom k y hy) hp
        · exact hk (hblock'.symm.trans hblock)
        · cases htrue.symm.trans hentry
      rw [hps, added_flatten, flatMap_eq_of_getElem? hqs hrest, hcode]
      simp [added]
    · refine added_eq_nil fun patch hp hblock hentry => ?_
      obtain ⟨p, s', hs', _, -, -, ⟨hfalse, -⟩ | ⟨-, hblock', hpreds, hnot⟩⟩ := mem_patches h.edges hp
      · cases hfalse.symm.trans hentry
      · obtain rfl := hblock.symm.trans hblock'
        exact hnot s (eq_of_predecessors hpreds hs' hs ▸ hsucc)
  · obtain ⟨n, hn⟩ := List.getElem?_of_mem hs
    obtain ⟨r, hr, hbranch⟩ := getElem?_mapM hresults hn
    have hend : added ps b false = [] := by
      refine added_eq_nil fun patch hp hblock hentry => ?_
      obtain ⟨p, s', -, _, -, -, ⟨-, hblock', hone⟩ | ⟨htrue, -⟩⟩ := mem_patches h.edges hp
      · exact hsucc s' (hblock'.symm.trans hblock ▸ hone)
      · cases htrue.symm.trans hentry
    have hrest : ∀ k y, k ≠ b → l[k]? = some y → added y s true = [] := by
      refine fun k y hk hy => added_eq_nil fun patch hp hblock hentry => ?_
      obtain ⟨s', hs', _, -, -, ⟨hfalse, -⟩ | ⟨-, hblock', hpreds, -⟩⟩ := mem_patchesFrom (hfrom k y hy) hp
      · cases hfalse.symm.trans hentry
      · obtain rfl := hblock.symm.trans hblock'
        exact hk (eq_of_predecessors hpreds hs' hs)
    have hother : ∀ k y, k ≠ n → results[k]? = some y → added y.toList s true = [] := by
      refine fun k y hk hy => added_eq_nil fun patch hp hblock hentry => hk ?_
      have hklt : k < (f.successors b).length := (mapM_eq_ok hresults).length_eq ▸ (List.getElem?_eq_some_iff.1 hy).1
      obtain ⟨y', hy', hbranch⟩ := getElem?_mapM hresults (List.getElem?_eq_getElem hklt)
      obtain rfl := Option.some.inj (hy.symm.trans hy')
      obtain ⟨_, -, ⟨rfl, -⟩ | ⟨_, rfl, -⟩⟩ := branchPatch_eq_ok hbranch
      · cases hp
      · obtain rfl := List.mem_singleton.1 hp
        obtain ⟨hnlt, hn⟩ := List.getElem?_eq_some_iff.1 hn
        exact (successors_nodup f b).getElem_inj_iff.1 (hblock.trans hn.symm)
    have hstart : added ps s true = added r.toList s true := by
      rw [hps, added_flatten, flatMap_eq_of_getElem? hqs hrest, added_filterMap, flatMap_eq_of_getElem? hr hother]
    obtain ⟨moves, hmoves, hcases⟩ := branchPatch_eq_ok hbranch
    refine ⟨moves, hmoves, .inr ⟨hend, ?_⟩⟩
    rw [hstart]
    rcases hcases with ⟨rfl, hnoop⟩ | ⟨edgeCode, rfl, hcode, -⟩
    · exact .inr ⟨rfl, hnoop⟩
    · refine .inl (hcode.trans ?_)
      simp [added]

/-- A block in place is where the block is in the function. -/
theorem exists_placed (h : Laid f a placed ps code) (hb : f.block? b = some blk) :
    ∃ pb, placed[b]? = some pb ∧ pb.id = b ∧ pb.label = blk.label ∧
      ∃ codes, blk.code.zipIdx.mapM (a.placeNumbered b) = .ok codes ∧
        pb.body = a.transferCodeAt (.entry b) ++ codes.flatten ++ a.transferCodeAt (blk.stop b) := by
  obtain ⟨pb, hpb, hplace⟩ := Allocation.placed_getElem? h.blocks hb
  exact ⟨pb, hpb, Allocation.placeBlock_eq_ok hplace hb⟩

/-- There are as many blocks in the layout as in the function. -/
theorem length_placed (h : Laid f a placed ps code) : placed.length = f.blocks.length := by
  rw [← (mapM_eq_ok h.blocks).length_eq, Function.blockIds, List.length_range]

/-- They have the same labels, in the same order. -/
theorem map_label (h : Laid f a placed ps code) : placed.map PlacedBlock.label = f.blocks.map Block.label := by
  refine List.ext_getElem? fun n => ?_
  rw [List.getElem?_map, List.getElem?_map]
  cases hb : f.blocks[n]? with
  | none =>
    rw [List.getElem?_eq_none (h.length_placed ▸ List.getElem?_eq_none_iff.1 hb)]
    rfl
  | some blk =>
    obtain ⟨pb, hpb, -, hlabel, -⟩ := h.exists_placed hb
    rw [hpb, Option.map_some, Option.map_some, hlabel]

/-- The code of a block is its label, its own code and its exit. -/
theorem blockCode_eq (h : Laid f a placed ps code) (hb : f.block? b = some blk) {pb : PlacedBlock}
    (hpb : placed[b]? = some pb) :
    blockCode f ps pb = (.label blk.label :: ownCode ps pb) ++ exitCode f b blk.exit := by
  obtain ⟨pb', hpb', hid, hlabel, -⟩ := h.exists_placed hb
  obtain rfl := Option.some.inj (hpb.symm.trans hpb')
  have hexit : ((f.block? pb.id).map (·.exit)).getD .ret = blk.exit := by
    rw [hid, hb, Option.map_some, Option.getD_some]
  rw [blockCode, hexit, hlabel, hid, ownCode, hid]
  rfl

/-- The code from a block on is that of the block, followed by that of the later blocks. -/
theorem codeFrom_cons (h : Laid f a placed ps code) (hb : f.block? b = some blk) {pb : PlacedBlock}
    (hpb : placed[b]? = some pb) :
    codeFrom f ps placed b = (.label blk.label :: ownCode ps pb) ++
      (exitCode f b blk.exit ++ codeFrom f ps placed (b + 1)) := by
  obtain ⟨hlt, hget⟩ := List.getElem?_eq_some_iff.1 hpb
  rw [codeFrom, List.drop_eq_getElem_cons hlt, List.flatMap_cons, hget, h.blockCode_eq hb hpb,
    List.append_assoc, codeFrom]

/-- The code of a block, and what stands after it. -/
theorem codeFrom_eq (h : Laid f a placed ps code) (hb : f.block? b = some blk) :
    ∃ codes, blk.code.zipIdx.mapM (a.placeNumbered b) = .ok codes ∧
      codeFrom f ps placed b = .label blk.label :: (added ps b true ++ (a.transferCodeAt (.entry b) ++ (codes.flatten ++
        (a.transferCodeAt (blk.stop b) ++
          (added ps b false ++ (exitCode f b blk.exit ++ codeFrom f ps placed (b + 1))))))) := by
  obtain ⟨pb, hpb, hid, -, codes, hcodes, hbody⟩ := h.exists_placed hb
  refine ⟨codes, hcodes, ?_⟩
  rw [h.codeFrom_cons hb hpb, ownCode, hid, hbody]
  simp only [List.append_assoc, List.cons_append]

/-- The instructions of a block make no jump in place. -/
theorem straight_codes (h : Laid f a placed ps code) (hb : f.block? b = some blk) {codes : List (List Instruction)}
    (hcodes : blk.code.zipIdx.mapM (a.placeNumbered b) = .ok codes) : Straight codes.flatten := by
  intro i hi
  obtain ⟨c, hc, hi⟩ := List.mem_flatten.1 hi
  obtain ⟨e, he, hplace⟩ := exists_of_result hcodes hc
  have hcontrol :=
    h.straight blk (List.mem_of_getElem? hb) e.1 (List.mem_of_getElem? (List.mem_zipIdx_iff_getElem?.1 he))
  exact (Allocation.straight_placeNumbered hcontrol hplace).2 i hi

/-- What stands between the label of a block and the jumps of its exit is not about control. -/
theorem straight_ownCode (h : Laid f a placed ps code) {pb : PlacedBlock} (hpb : pb ∈ placed) :
    Straight (ownCode ps pb) := by
  obtain ⟨n, hn⟩ : ∃ n, placed[n]? = some pb := List.getElem?_of_mem hpb
  obtain ⟨blk, hb⟩ := Function.exists_block_of_lt (f := f) (h.length_placed ▸ (List.getElem?_eq_some_iff.1 hn).1)
  obtain ⟨pb', hn', -, -, codes, hcodes, hbody⟩ := h.exists_placed hb
  obtain rfl := Option.some.inj (hn.symm.trans hn')
  rw [ownCode, hbody]
  exact ((h.straight_added true).append (((a.straight_transferCodeAt _).append (h.straight_codes hb hcodes)).append
    (a.straight_transferCodeAt _))).append (h.straight_added false)

/-- A block begins with its label, and holds no other one. -/
theorem label_not_mem (h : Laid f a placed ps code) {pb : PlacedBlock} (hpb : pb ∈ placed) (e : Exit) (name : String) :
    .label name ∉ ownCode ps pb ++ exitCode f pb.id e := by
  intro hmem
  rcases List.mem_append.1 hmem with hmem | hmem
  · cases h.straight_ownCode hpb _ hmem
  · cases e with
    | ret => simp [exitCode] at hmem
    | goto target =>
      rw [exitCode] at hmem
      split_ifs at hmem <;> simp at hmem
    | branch relation yes no =>
      rw [exitCode] at hmem
      split_ifs at hmem <;> simp at hmem

/-- The first label with the name of a block is where the block begins. -/
theorem findIdx?_label (h : Laid f a placed ps code) (hb : f.block? b = some blk) :
    ∃ pc, code.findIdx? (fun i => i = .label (f.label b)) = some pc ∧ code.drop pc = codeFrom f ps placed b := by
  obtain ⟨pb, hpb, -, hlabel, -⟩ := h.exists_placed hb
  have hname : f.label b = pb.label := by rw [Function.label, hb, hlabel, Option.map_some, Option.getD_some]
  rw [h.code_eq, hname]
  exact exists_findIdx? (fun qb hqb => ⟨_, rfl, h.label_not_mem hqb _⟩) (h.map_label ▸ h.labels) hpb

/-- A jump to the label of a block. -/
theorem jump_label (h : Laid f a placed ps code) (hb : f.block? b = some blk) (pc : Nat) (m : Machine) :
    ∃ pc', Code.jump code (f.label b) ⟨.running, pc, m⟩ = ⟨.running, pc', m⟩ ∧
      code.drop pc' = codeFrom f ps placed b := by
  obtain ⟨pc', hfind, hdrop⟩ := h.findIdx?_label hb
  refine ⟨pc', ?_, hdrop⟩
  rw [Code.jump, hfind]

/-- The next block is the one with the next number. -/
theorem next?_eq_some (h : f.next? b = some s) : s = b + 1 := by
  rw [Function.next?] at h
  split_ifs at h
  exact (Option.some.inj h).symm

/-- **Exits.** From the jumps at the end of a block control comes to the block that the exit leads to. -/
theorem exit (h : Laid f a placed ps code) (hpc : code.drop pc = exitCode f b blk.exit ++ codeFrom f ps placed (b + 1))
    (hnext : blk.exit.next? m = some s) {next : Block} (hs : f.block? s = some next) :
    ∃ pc', Code.Jumps code w m pc pc' ∧ code.drop pc' = codeFrom f ps placed s := by
  -- Control falls through to the next block, maybe past one jump that is not taken.
  have hpast : ∀ {i pc}, code.drop pc = i :: codeFrom f ps placed (b + 1) →
      code.drop (pc + 1) = codeFrom f ps placed (b + 1) :=
    fun {i pc} hi => Code.drop_append_length (show code.drop pc = [i] ++ _ from hi)
  cases hexit : blk.exit with
  | ret =>
    rw [hexit] at hnext
    cases hnext
  | goto target =>
    rw [hexit] at hnext hpc
    obtain rfl := Option.some.inj hnext
    rw [exitCode] at hpc
    split_ifs at hpc with hfall
    · exact ⟨pc, .refl, next?_eq_some hfall ▸ hpc⟩
    · obtain ⟨pc', hjump, hdrop⟩ := h.jump_label hs pc m
      exact ⟨pc', .single (Code.hop_jmp hpc hjump), hdrop⟩
  | branch relation yes no =>
    rw [hexit] at hnext hpc
    obtain rfl := Option.some.inj hnext
    rw [exitCode] at hpc
    by_cases hholds : relation.holds m.flags
    · rw [if_pos hholds] at hs ⊢
      obtain ⟨pc', hjump, hdrop⟩ := h.jump_label hs pc m
      split_ifs at hpc with hno hyes
      · exact ⟨pc', .single (Code.hop_jcc hpc hholds hjump), hdrop⟩
      · refine ⟨pc + 1, .single (Code.hop_past hpc ?_), next?_eq_some hyes ▸ hpast hpc⟩
        simp [Relation.holds_negated, hholds]
      · exact ⟨pc', .single (Code.hop_jcc hpc hholds hjump), hdrop⟩
    · rw [if_neg hholds] at hs ⊢
      split_ifs at hpc with hno hyes
      · exact ⟨pc + 1, .single (Code.hop_past hpc hholds), next?_eq_some hno ▸ hpast hpc⟩
      · obtain ⟨pc', hjump, hdrop⟩ := h.jump_label hs pc m
        refine ⟨pc', .single (Code.hop_jcc hpc ?_ hjump), hdrop⟩
        simp [Relation.holds_negated, hholds]
      · obtain ⟨pc', hjump, hdrop⟩ := h.jump_label hs (pc + 1) m
        have hjmp : code.drop (pc + 1) = .jmp (f.label no) :: codeFrom f ps placed (b + 1) :=
          Code.drop_append_length (show code.drop pc = [.jcc relation (f.label yes)] ++ _ from hpc)
        exact ⟨pc', .tail (.single (Code.hop_past hpc hholds)) (Code.hop_jmp hjmp hjump), hdrop⟩

end Laid

end Layout

end RegAlloc
