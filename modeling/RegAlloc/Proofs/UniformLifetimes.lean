import RegAlloc.Proofs.Pinned
import RegAlloc.Proofs.SelfHints
import RegAlloc.Proofs.Uniform
import Mathlib.Data.Sum.Order

/-!
# The lifetimes of the uniform function

Notes that are the same up to links of registers to themselves make intervals that are the same up to hints of
registers to themselves (`Note.Alike.foldl`): hints are kept in order, and what a register is linked to through
another does not depend on the other's hint to itself. So a function and its uniform function have the same lifetimes
without such hints (`Lifetimes.compute_uniform`). In particular the lifetimes of every function are well formed,
whatever its widths (`Lifetimes.wellFormed_compute`).
-/

namespace RegAlloc

variable {names : List VirtReg} {v : VirtReg}

/-! ## Hints -/

namespace Register

/-- A register as one of two kinds, of which the virtual ones come first. -/
def toSum : Register → VirtReg ⊕ PhysReg
  | .virt v => .inl v
  | .phys r => .inr r

/-- Registers are told apart by kind and register. -/
theorem toSum_injective : Function.Injective toSum := by
  intro x y h
  cases x <;> cases y <;> simp_all [toSum]

/-- The order of registers is that of the two kinds, one after the other. -/
theorem lex_toSum {x y : Register} : Sum.Lex (· < ·) (· < ·) x.toSum y.toSum ↔ x < y := by
  have hlt : x < y ↔ x.before y = true := Iff.rfl
  rw [hlt]
  cases x <;> cases y <;> simp [toSum, before]

instance : IsStrictTotalOrder (VirtReg ⊕ PhysReg) (Sum.Lex (· < ·) (· < ·)) where

instance : IsStrictTotalOrder Register (· < ·) := RelEmbedding.isStrictTotalOrder ⟨⟨toSum, toSum_injective⟩, lex_toSum⟩

end Register

section Sets

variable {κ : Type} [LT κ] [DecidableLT κ] [DecidableEq κ] {k x : κ} {l l' : List κ}

omit [DecidableLT κ] [DecidableEq κ] in
/-- Ordered lists with the same members are equal. -/
theorem Ascending.ext [IsStrictTotalOrder κ (· < ·)] (h : Ascending id l) (h' : Ascending id l')
    (hmem : ∀ x, x ∈ l ↔ x ∈ l') : l = l' := by
  have hnodup : ∀ {l : List κ}, Ascending id l → l.Nodup := fun {l} h => by simpa using h.nodup_keys
  have hperm : l.Perm l' := (List.perm_ext_iff_of_nodup (hnodup h) (hnodup h')).2 hmem
  refine hperm.eq_of_pairwise (fun a b _ _ hab hba => ?_) h h'
  exact absurd hba (asymm_of (· < ·) hab)

theorem mem_insertBy_id : x ∈ insertBy id k l ↔ x = k ∨ x ∈ l := by
  have hmem := @mem_map_insertBy _ _ _ _ _ id k l x
  rwa [List.map_id, List.map_id] at hmem

theorem mem_insertAllBy_id {new : List κ} : x ∈ insertAllBy id new l ↔ x ∈ new ∨ x ∈ l := by
  induction new generalizing l with
  | nil => simp [insertAllBy]
  | cons k new ih =>
    have hcons : insertAllBy id (k :: new) l = insertAllBy id new (insertBy id k l) := rfl
    rw [hcons, ih, mem_insertBy_id, List.mem_cons]
    exact or_left_comm.trans or_assoc.symm

/-- Putting in what is there already changes nothing. -/
theorem insertBy_id_of_mem [IsStrictTotalOrder κ (· < ·)] (h : Ascending id l) (hk : k ∈ l) : insertBy id k l = l := by
  refine Ascending.ext (ascending_insertBy h) h fun x => mem_insertBy_id.trans ?_
  exact ⟨fun hx => hx.elim (fun heq => heq ▸ hk) id, .inr⟩

/-- The keys of a list are inserted like its elements. -/
theorem map_insertBy {α : Type} {key : α → κ} {a : α} {l : List α} :
    (insertBy key a l).map key = insertBy id (key a) (l.map key) := by
  induction l with
  | nil => rfl
  | cons b l ih =>
    rw [insertBy, List.map_cons, insertBy]
    simp only [id_eq]
    split_ifs with hlt heq
    · rfl
    · rw [List.map_cons]
    · rw [List.map_cons, ih]

end Sets

/-- Two ordered lists of hints that differ at most in the hint to a register. -/
structure SameHints (v : VirtReg) (l l' : List Register) : Prop where
  left : Ascending id l
  right : Ascending id l'
  mem : ∀ r, r ≠ .virt v → (r ∈ l ↔ r ∈ l')

/-- Adding hints that are the same but for the register keeps them so. -/
theorem SameHints.insertAll {l l' new new' : List Register} (h : SameHints v l l')
    (hnew : ∀ r, r ≠ .virt v → (r ∈ new ↔ r ∈ new')) : SameHints v (insertAllBy id new l) (insertAllBy id new' l') where
  left := ascending_insertAllBy h.left
  right := ascending_insertAllBy h.right
  mem r hr := by rw [mem_insertAllBy_id, mem_insertAllBy_id, hnew r hr, h.mem r hr]

/-- Hints are the same once the hint to the register is left out. -/
theorem SameHints.filter_eq {l l' : List Register} (h : SameHints v l l') :
    l.filter (fun r => r ≠ .virt v) = l'.filter (fun r => r ≠ .virt v) := by
  refine Ascending.ext (h.left.filter _) (h.right.filter _) fun r => ?_
  rw [List.mem_filter, List.mem_filter]
  exact and_congr_left fun hr => h.mem r (of_decide_eq_true hr)

/-- Two intervals that differ at most in hints of their register to itself. -/
structure Interval.Like (i j : Interval) : Prop where
  register : i.register = j.register
  range : i.range = j.range
  sites : i.sites = j.sites
  start : SameHints i.register i.startHints j.startHints
  stop : SameHints i.register i.stopHints j.stopHints

/-- Intervals that are alike are the same without hints to themselves. -/
theorem Interval.Like.unlinked_eq {i j : Interval} (h : i.Like j) : i.unlinked = j.unlinked := by
  obtain ⟨hregister, hrange, hsites, hstart, hstop⟩ := h
  have hstarts := hstart.filter_eq
  have hstops := hstop.filter_eq
  rw [Interval.unlinked, Interval.unlinked, ← hregister, hrange, hsites, hstarts, hstops]

/-- Two tables of intervals that differ at most in hints of registers to themselves. -/
structure Note.Like (l l' : List Interval) : Prop where
  registers : l.map Interval.register = l'.map Interval.register
  intervals : ∀ v, (interval l v).Like (interval l' v)

namespace Note

variable {l l' : List Interval} {note : Note}

/-- Changing the intervals of a register in a like way keeps the tables alike. -/
theorem Like.update (h : Like l l') (v : VirtReg) (g g' : Interval → Interval) (hg : ∀ i, (g i).register = i.register)
    (hg' : ∀ i, (g' i).register = i.register) (hlike : (g (interval l v)).Like (g' (interval l' v))) :
    Like (update l v g) (update l' v g') := by
  constructor
  · rw [Note.update, Note.update, map_insertBy, map_insertBy, hg, hg', interval_register,
      interval_register, h.registers]
  · intro w
    rw [interval_update hg, interval_update hg']
    split_ifs with hw
    · exact hw ▸ hlike
    · exact h.intervals w

/-- A register is linked to itself, to the hints, and to what virtual registers among them are linked to. -/
theorem mem_linked (hints : List Register) (r : Register) :
    r ∈ linked l v hints ↔ r = .virt v ∨ r ∈ hints ∨ ∃ w, .virt w ∈ hints ∧ w ≠ v ∧
      (r ∈ (interval l w).stopHints ∨ r ∈ (interval l w).startHints) := by
  rw [linked, List.mem_cons, List.mem_flatMap]
  refine or_congr_right ⟨?_, ?_⟩
  · rintro ⟨h, hmem, hr⟩
    cases h with
    | phys q => exact .inl (List.mem_singleton.1 hr ▸ hmem)
    | virt w =>
      simp only at hr
      split_ifs at hr with hw
      · exact .inl (List.mem_singleton.1 hr ▸ hmem)
      · rcases List.mem_cons.1 hr with rfl | hr
        · exact .inl hmem
        · exact .inr ⟨w, hmem, hw, List.mem_append.1 hr⟩
  · rintro (hr | ⟨w, hmem, hw, hr⟩)
    · refine ⟨r, hr, ?_⟩
      cases r with
      | phys q => exact List.mem_singleton.2 rfl
      | virt w =>
        simp only
        split_ifs
        · exact List.mem_singleton.2 rfl
        · exact List.mem_cons_self
    · refine ⟨.virt w, hmem, ?_⟩
      simp only [if_neg hw]
      exact List.mem_cons_of_mem _ (List.mem_append.2 hr)

/-- What a register is linked to through others does not depend on their hints to themselves, since they are hints as
well. -/
theorem Like.linked_iff (h : Like l l') (hints : List Register) (r : Register) :
    r ∈ linked l v hints ↔ r ∈ linked l' v hints := by
  rw [mem_linked, mem_linked]
  by_cases hr : r ∈ hints
  · simp [hr]
  · refine or_congr_right (or_congr_right (exists_congr fun w => and_congr_right fun hw => and_congr_right fun _ => ?_))
    have hne : r ≠ .virt (interval l w).register := by
      rw [interval_register]
      exact fun heq => hr (heq ▸ hw)
    exact or_congr ((h.intervals w).stop.mem r hne) ((h.intervals w).start.mem r hne)

/-- A note does the same to both tables. -/
theorem Like.apply (h : Like l l') (note : Note) : Like (apply l note) (apply l' note) := by
  cases note with
  | alive v b n =>
    obtain ⟨hregister, hrange, hsites, hstart, hstop⟩ := h.intervals v
    refine h.update v (·.addBlock b n) (·.addBlock b n) (fun _ => rfl)
      (fun _ => rfl) ⟨hregister, ?_, hsites, hstart, hstop⟩
    simp only [Interval.addBlock, hrange]
  | write v p memoryOk =>
    obtain ⟨hregister, hrange, hsites, hstart, hstop⟩ := h.intervals v
    refine h.update v (·.addDef p memoryOk) (·.addDef p memoryOk) (fun _ => rfl)
      (fun _ => rfl) ⟨hregister, ?_, ?_, hstart, hstop⟩
    · simp only [Interval.addDef, Interval.addSite, Interval.defRange, Interval.inBlock?, hrange]
    · simp only [Interval.addDef, Interval.addSite, hsites]
  | read v p memoryOk =>
    obtain ⟨hregister, hrange, hsites, hstart, hstop⟩ := h.intervals v
    refine h.update v (·.addUse p memoryOk) (·.addUse p memoryOk) (fun _ => rfl)
      (fun _ => rfl) ⟨hregister, ?_, ?_, hstart, hstop⟩
    · simp only [Interval.addUse, Interval.addSite, Interval.useRange, Interval.inBlock?, hrange]
    · simp only [Interval.addUse, Interval.addSite, hsites]
  | linkStart v hints =>
    obtain ⟨hregister, hrange, hsites, hstart, hstop⟩ := h.intervals v
    exact h.update v (·.addStartHints (linked l v hints)) (·.addStartHints (linked l' v hints)) (fun _ => rfl)
      (fun _ => rfl) ⟨hregister, hrange, hsites, hstart.insertAll fun r _ => h.linked_iff hints r, hstop⟩
  | linkStop v hints =>
    obtain ⟨hregister, hrange, hsites, hstart, hstop⟩ := h.intervals v
    exact h.update v (·.addStopHints (linked l v hints)) (·.addStopHints (linked l' v hints)) (fun _ => rfl)
      (fun _ => rfl) ⟨hregister, hrange, hsites, hstart, hstop.insertAll fun r _ => h.linked_iff hints r⟩

/-- A register of the table that is linked to itself gets a hint to itself and nothing else. -/
theorem Like.echo (h : Like l l') (hasc : Ascending Interval.register l') (hv : v ∈ l'.map Interval.register) :
    Like l (Note.apply l' (.linkStop v [.virt v])) := by
  constructor
  · have hkeys : Ascending id (l'.map Interval.register) := List.pairwise_map.2 hasc
    rw [Note.apply, Note.update, map_insertBy, Interval.addStopHints, interval_register,
      insertBy_id_of_mem hkeys hv, h.registers]
  · intro w
    rw [Note.apply, interval_update (g := fun i => i.addStopHints (linked l' v [.virt v])) (fun _ => rfl)]
    split_ifs with hw
    · subst hw
      obtain ⟨hregister, hrange, hsites, hstart, hstop⟩ := h.intervals w
      refine ⟨hregister, hrange, hsites, hstart, ?_⟩
      have hnone : ∀ r, r ≠ .virt (interval l w).register → (r ∈ ([] : List Register) ↔ r ∈ linked l' w [.virt w]) := by
        intro r hr
        rw [interval_register] at hr
        rw [mem_linked]
        simp only [List.not_mem_nil, List.mem_singleton, false_iff, not_or, not_exists, not_and]
        exact ⟨hr, hr, fun u hu hne => absurd (Register.virt.inj hu) hne⟩
      exact hstop.insertAll hnone
    · exact h.intervals w

/-- Lists of notes that differ in echoes give intervals that differ in hints of registers to themselves. -/
theorem Alike.foldl {notes notes' : List Note} (h : Alike notes notes') (hl : Like l l')
    (hasc : Ascending Interval.register l') :
    Like (notes.foldl apply l) (notes'.foldl apply l') := by
  induction h generalizing l l' with
  | nil => exact hl
  | same note _ ih => exact ih (hl.apply note) (ascending_apply hasc note)
  | echo v p memoryOk _ ih =>
    have hread := ascending_apply hasc (.read v p memoryOk)
    have hmem : v ∈ (apply l' (.read v p memoryOk)).map Interval.register := by
      rw [Note.apply, Note.update, mem_map_insertBy]
      exact .inl interval_register.symm
    exact ih ((hl.apply (.read v p memoryOk)).echo hread hmem) (ascending_apply hread _)

/-- Tables that are alike are the same without such hints. -/
theorem Like.map_unlinked (h : Like l l') (hl : Ascending Interval.register l) (hl' : Ascending Interval.register l') :
    l.map Interval.unlinked = l'.map Interval.unlinked := by
  have hmap : ∀ {l : List Interval}, Ascending Interval.register l →
      l.map Interval.unlinked = (l.map Interval.register).map (fun v => (interval l v).unlinked) := by
    intro l hl
    rw [List.map_map]
    exact List.map_congr_left fun i hi => by rw [Function.comp_apply, interval_of_mem hl hi]
  rw [hmap hl, hmap hl', h.registers]
  exact List.map_congr_left fun v _ => (h.intervals v).unlinked_eq

end Note

/-! ## Lifetimes -/

/-- Pins do not depend on widths. -/
theorem Function.pinned_uniformBy (f : Function) (t : Target) (r : PhysReg) :
    (f.uniformBy names).pinned t r = f.pinned t r := by
  have hphys : ∀ (l : List Access) (r : PhysReg), (l.map (Access.uniform names)).any (fun a => a.register = .phys r) =
      l.any (fun a => a.register = .phys r) := by
    intro l r
    rw [List.any_map]
    refine congrArg (List.any l) (funext fun a => ?_)
    obtain ⟨s, memoryOk⟩ := a
    cases s <;> simp [Access.uniform]
  have hwrite : ∀ i : Instruction, (i.uniform names).overwrites t r = i.overwrites t r := by
    intro i
    rw [Instruction.overwrites, Instruction.defs_uniform, hphys, Instruction.isCall_uniform, Instruction.overwrites]
  have hread : ∀ i : Instruction, (i.uniform names).inspects r = i.inspects r := by
    intro i
    rw [Instruction.inspects, Instruction.uses_uniform, hphys, Instruction.inspects]
  have hinstruction : ∀ (b : BlockId) (range : LiveRange) (e : Instruction × Nat),
      pinInstruction t r b range (Prod.map (Instruction.uniform names) id e) = pinInstruction t r b range e := by
    intro b range e
    unfold pinInstruction
    rw [Prod.map_fst, Prod.map_snd, hwrite, hread]
    rfl
  have hblock : ∀ (range : LiveRange) (e : Block × BlockId),
      pinBlock t r range (Prod.map (Block.uniform names) id e) = pinBlock t r range e := by
    intro range e
    simp only [pinBlock, Prod.map_fst, Prod.map_snd, id_eq, Block.uniform, List.zipIdx_map, ← List.map_reverse,
      List.foldl_map, hinstruction]
  simp only [pinned, uniformBy, List.zipIdx_map, ← List.map_reverse, List.foldl_map, hblock]

namespace Lifetimes

variable (f : Function) (t : Target)

/-- The lifetimes of a function are those of the uniform function, up to hints of registers to themselves. -/
theorem compute_uniform : (compute f.uniform t).unlinked = (compute f t).unlinked := by
  have hlike :
      Note.Like ((Note.all f f.mentions).foldl Note.apply [])
        ((Note.all f.uniform f.uniform.mentions).foldl Note.apply []) :=
    (Note.alike_all f.canonical_uniform f).foldl ⟨rfl, fun v => ⟨rfl, rfl, rfl, ⟨.nil, .nil, fun _ _ => Iff.rfl⟩,
      ⟨.nil, .nil, fun _ _ => Iff.rfl⟩⟩⟩ .nil
  have hasc := fun (f : Function) => Note.ascending_foldl (l := []) .nil (Note.all f f.mentions)
  simp only [unlinked, compute, Function.uniform, Function.pinned_uniformBy]
  rw [Lifetimes.mk.injEq]
  exact ⟨(hlike.map_unlinked (hasc f) (hasc f.uniform)).symm, rfl⟩

variable {f t} in
/-- Well-formedness does not depend on hints. -/
theorem wellFormed_of_unlinked {lt : Lifetimes} (h : lt.unlinked.WellFormed) : lt.WellFormed where
  registers := (List.pairwise_map (f := Interval.unlinked)).1 h.registers
  intervals i hi := by
    obtain ⟨hrange, hsites⟩ := h.intervals i.unlinked (List.mem_map_of_mem hi)
    exact ⟨hrange, hsites⟩
  pinned := h.pinned
  ranges := h.ranges

/-- The lifetimes of every function are well formed. -/
theorem wellFormed_compute : (compute f t).WellFormed := by
  obtain ⟨hregisters, hintervals, hpinned, hranges⟩ := Function.compute_wellFormed f.oneWidth_uniform t
  refine wellFormed_of_unlinked ?_
  rw [← compute_uniform]
  refine ⟨List.pairwise_map.2 hregisters, fun i hi => ?_, hpinned, hranges⟩
  obtain ⟨j, hj, rfl⟩ := List.mem_map.1 hi
  exact ⟨(hintervals j hj).range, (hintervals j hj).sites⟩

variable {f t} in
/-- The lifetimes of every function are well formed. -/
theorem wellFormed_ofFunction {lt : Lifetimes} (h : ofFunction f t = .ok lt) : lt.WellFormed := by
  rw [ofFunction] at h
  split at h
  · cases h
  · obtain rfl := Except.ok.inj h
    exact wellFormed_compute f t

end Lifetimes

end RegAlloc
