import RegAlloc.Proofs.Tiling

/-!
# What notes make of an interval

Notes are carried out on a table of intervals, but a note changes the interval of one register only, and of that at
most one segment, the one of its own block. So a list of notes is read as two folds. `Note.onSegment` follows the
segment of one register in one block (`segment?_foldl`), and `Note.onSites` follows its sites (`sites_foldl`). Along
the way a range keeps at most one segment for each block (`OnePerBlock`), in the order of the blocks, which makes it
well formed.
-/

namespace RegAlloc

section Ordered

variable {α κ : Type} [LT κ] [DecidableLT κ] [DecidableEq κ] {key : α → κ} {a : α} {l : List α} {k : κ}

/-- The element of a key, after one was put in. -/
theorem find?_insertBy :
    (insertBy key a l).find? (fun x => key x = k) = if key a = k then some a else l.find? (fun x => key x = k) := by
  induction l with
  | nil => by_cases hk : key a = k <;> simp [insertBy, hk]
  | cons b rest ih =>
    rw [insertBy]
    by_cases hk : key a = k
    · rw [if_pos hk]
      split_ifs with hlt heq
      · rw [List.find?_cons_of_pos (by simpa using hk)]
      · rw [List.find?_cons_of_pos (by simpa using hk)]
      · rw [List.find?_cons_of_neg (by simpa using fun hb : key b = k => heq (hk.trans hb.symm)), ih, if_pos hk]
    · rw [if_neg hk] at ih ⊢
      split_ifs with hlt heq
      · rw [List.find?_cons_of_neg (by simpa using hk)]
      · rw [List.find?_cons_of_neg (by simpa using hk), List.find?_cons_of_neg (by simpa [← heq] using hk)]
      · rw [List.find?_cons, List.find?_cons, ih]

theorem mem_map_insertBy : k ∈ (insertBy key a l).map key ↔ k = key a ∨ k ∈ l.map key := by
  induction l with
  | nil => simp [insertBy]
  | cons b rest ih =>
    rw [insertBy]
    split_ifs with hlt heq
    · simp
    · simp [heq]
    · rw [List.map_cons, List.mem_cons, ih, List.map_cons, List.mem_cons]
      exact or_left_comm

end Ordered

@[simp] theorem Segment.withFirst_block (s : Segment) (n : Nat) : (s.withFirst n).block = s.block := rfl

namespace LiveRange

/-- There is at most one segment for each block, in the order of the blocks. -/
def OnePerBlock (r : LiveRange) : Prop := r.segments.Pairwise (fun s t => @LT.lt Nat _ s.block t.block)

/-- The segment of a block. -/
def segment? (r : LiveRange) (b : BlockId) : Option Segment := (r.inBlock b).head?

/-- The range with the given segment for its block. -/
def withSegment (r : LiveRange) (s : Segment) : LiveRange := (r.eraseBlock s.block).insert s

variable {r : LiveRange} {s : Segment} {b : BlockId} {p : Position}

/-- The empty range has at most one segment in each block. -/
theorem onePerBlock_empty : OnePerBlock .empty := List.Pairwise.nil

/-- Segments of one block are the same segment. -/
theorem OnePerBlock.eq_of_block (h : r.OnePerBlock) {t : Segment} (hs : s ∈ r.segments) (ht : t ∈ r.segments)
    (heq : s.block = t.block) : s = t := by
  by_contra hne
  have hget := List.pairwise_iff_getElem.1 h
  obtain ⟨i, hi, rfl⟩ := List.getElem_of_mem hs
  obtain ⟨j, hj, rfl⟩ := List.getElem_of_mem ht
  rcases Nat.lt_trichotomy i j with hij | rfl | hij
  · exact absurd heq (Nat.ne_of_lt (hget i j hi hj hij))
  · exact hne rfl
  · exact absurd heq.symm (Nat.ne_of_lt (hget j i hj hi hij))

/-- The segment of a block is the one that lies in it. -/
theorem OnePerBlock.segment?_eq_some (h : r.OnePerBlock) : r.segment? b = some s ↔ s ∈ r.segments ∧ s.block = b := by
  constructor
  · intro hs
    simpa [inBlock] using List.mem_of_mem_head? hs
  · rintro ⟨hs, rfl⟩
    have hmem : s ∈ r.inBlock s.block := List.mem_filter.2 ⟨hs, decide_eq_true rfl⟩
    rw [segment?]
    cases hl : r.inBlock s.block with
    | nil =>
      rw [hl] at hmem
      cases hmem
    | cons t l =>
      have ht : t ∈ r.inBlock s.block := hl ▸ List.mem_cons_self
      obtain ⟨ht, hblock⟩ := List.mem_filter.1 ht
      rw [List.head?_cons, h.eq_of_block ht hs (by simpa using hblock)]

/-- There is none if no segment lies in the block. -/
theorem OnePerBlock.segment?_eq_none (h : r.OnePerBlock) : r.segment? b = none ↔ ∀ s ∈ r.segments, s.block ≠ b := by
  rw [Option.eq_none_iff_forall_ne_some]
  simp only [ne_eq, h.segment?_eq_some, not_and]

/-- A position is covered if it is in the segment of its block. -/
theorem OnePerBlock.covers_iff_segment? (h : r.OnePerBlock) :
    r.covers p = true ↔ ∃ s, r.segment? p.block = some s ∧ s.first ≤ p.slot ∧ p.slot ≤ s.last := by
  simp only [covers, List.any_eq_true, Segment.contains, Bool.and_eq_true, decide_eq_true_eq, h.segment?_eq_some]
  constructor
  · rintro ⟨s, hs, ⟨hb, h1⟩, h2⟩
    exact ⟨s, ⟨hs, hb.symm⟩, h1, h2⟩
  · rintro ⟨s, ⟨hs, hb⟩, h1, h2⟩
    exact ⟨s, hs, ⟨hb.symm, h1⟩, h2⟩

/-- A range with one segment in each block is well formed if its segments have slots. -/
theorem OnePerBlock.wellFormed (h : r.OnePerBlock) (hb : ∀ s ∈ r.segments, s.first ≤ s.last) : r.WellFormed :=
  ⟨hb, List.Pairwise.imp (fun {s t} hlt => (Position.lt_def (p := s.stop) (q := t.start)).2 (.inl hlt)) h⟩

/-- Setting a segment replaces the one of its block. -/
theorem withSegment_perm : (r.withSegment s).segments.Perm (s :: (r.eraseBlock s.block).segments) := by
  refine insertBy_perm fun t ht heq => ?_
  have hne : t.block ≠ s.block := by simpa using (List.mem_filter.1 ht).2
  exact hne (Position.eq_def.1 heq).1.symm

/-- The segments are then the new one and those of other blocks. -/
theorem mem_withSegment {t : Segment} :
    t ∈ (r.withSegment s).segments ↔ t = s ∨ t ∈ r.segments ∧ t.block ≠ s.block := by
  rw [withSegment_perm.mem_iff, List.mem_cons, eraseBlock, List.mem_filter, decide_eq_true_eq]

/-- Setting a segment keeps one segment in each block. -/
theorem OnePerBlock.set (h : r.OnePerBlock) (s : Segment) : (r.withSegment s).OnePerBlock := by
  have herase : (r.eraseBlock s.block).OnePerBlock := h.filter _
  have hne : ∀ t ∈ (r.eraseBlock s.block).segments, t.block ≠ s.block := fun t ht => by
    simpa using (List.mem_filter.1 ht).2
  -- Among segments of other blocks the order of the starts is the order of the blocks.
  have hstart : Ascending Segment.start (r.eraseBlock s.block).segments :=
    List.Pairwise.imp (fun {s t} hlt => (Position.lt_def (p := s.start) (q := t.start)).2 (.inl hlt)) herase
  have hins : Ascending Segment.start (r.withSegment s).segments := ascending_insertBy hstart
  refine List.Pairwise.imp_of_mem (fun {x y} hx hy hlt => ?_) hins
  rcases Position.lt_def.1 hlt with hlt' | ⟨heq, hslot⟩
  · exact hlt'
  · exfalso
    rcases mem_withSegment.1 hx with rfl | ⟨hx, hxs⟩
    · rcases mem_withSegment.1 hy with rfl | ⟨hy, hys⟩
      · exact Nat.lt_irrefl _ hslot
      · exact hys heq.symm
    · rcases mem_withSegment.1 hy with rfl | ⟨hy, hys⟩
      · exact hxs heq
      · rw [h.eq_of_block hx hy heq] at hslot
        exact Nat.lt_irrefl _ hslot

/-- Setting a segment changes the segment of its block only. -/
theorem OnePerBlock.segment?_withSegment (h : r.OnePerBlock) :
    (r.withSegment s).segment? b = if s.block = b then some s else r.segment? b := by
  split_ifs with hb
  · exact (h.set s).segment?_eq_some.2 ⟨mem_withSegment.2 (.inl rfl), hb⟩
  · refine Option.ext fun t => ?_
    rw [(h.set s).segment?_eq_some, h.segment?_eq_some, mem_withSegment]
    constructor
    · rintro ⟨rfl | ⟨ht, _⟩, hbt⟩
      · exact absurd hbt hb
      · exact ⟨ht, hbt⟩
    · rintro ⟨ht, rfl⟩
      exact ⟨.inr ⟨ht, fun heq => hb heq.symm⟩, rfl⟩

/-- Replacing the segment of a block, found by its start. -/
theorem OnePerBlock.erase_insert (h : r.OnePerBlock) (hs : r.segment? b = some s) {s' : Segment} (hb : s'.block = b) :
    (r.erase s).insert s' = r.withSegment s' := by
  obtain ⟨hmem, hblock⟩ := h.segment?_eq_some.1 hs
  have herase : r.erase s = r.eraseBlock s'.block := by
    rw [erase, eraseBlock, LiveRange.mk.injEq]
    refine List.filter_congr fun t ht => ?_
    rw [decide_eq_decide, not_iff_not]
    constructor
    · intro heq
      exact (Position.eq_def.1 heq).1.trans (hblock.trans hb.symm)
    · intro heq
      rw [h.eq_of_block ht hmem (heq.trans (hb.trans hblock.symm))]
  rw [LiveRange.withSegment, herase]

/-- Adding a segment to a block that has none. -/
theorem OnePerBlock.insert_eq (h : r.OnePerBlock) (hs : r.segment? s.block = none) : r.insert s = r.withSegment s := by
  have herase : r.eraseBlock s.block = r := by
    rw [eraseBlock]
    congr 1
    exact List.filter_eq_self.2 fun t ht => decide_eq_true (h.segment?_eq_none.1 hs t ht)
  rw [LiveRange.withSegment, herase]

end LiveRange

namespace Note

/-- The segment of a register in a block after a note. -/
def onSegment (v : VirtReg) (b : BlockId) (o : Option Segment) : Note → Option Segment
  | .alive w c n => if w = v ∧ c = b then some (.whole b n) else o
  | .write w p _ => if w = v ∧ p.block = b then some ((o.map (·.withFirst p.slot)).getD ⟨b, p.slot, p.slot⟩) else o
  | .read w p _ =>
    if w = v ∧ p.block = b then
      some ((o.map (fun s => if p.slot < s.first then s.withFirst 0 else s)).getD ⟨b, 0, p.slot⟩)
    else o
  | .linkStart _ _ => o
  | .linkStop _ _ => o

/-- The sites of a register after a note. -/
def onSites (v : VirtReg) (l : List Site) : Note → List Site
  | .write w p memoryOk => if w = v then Interval.insertSite l ⟨p, memoryOk⟩ else l
  | .read w p memoryOk => if w = v then Interval.insertSite l ⟨p, memoryOk⟩ else l
  | .alive _ _ _ => l
  | .linkStart _ _ => l
  | .linkStop _ _ => l

variable {l : List Interval} {v w : VirtReg} {g : Interval → Interval} {b : BlockId} {p : Position}

/-- The interval of a register is one of that register. -/
theorem interval_register : (interval l v).register = v := by
  rw [interval]
  cases h : l.find? (fun i => i.register = v) with
  | none => rfl
  | some i => simpa using List.find?_some h

/-- Changing the interval of a register changes no other interval. -/
theorem interval_update (hg : ∀ i, (g i).register = i.register) :
    interval (update l w g) v = if v = w then g (interval l v) else interval l v := by
  have hkey : (g (interval l w)).register = w := (hg _).trans interval_register
  rw [interval, update, find?_insertBy, hkey]
  split_ifs with h1 h2 h2
  · subst h1
    rfl
  · exact absurd h1.symm h2
  · exact absurd h2.symm h1
  · rfl

/-- A note keeps the intervals in order. -/
theorem ascending_apply (h : Ascending Interval.register l) (note : Note) :
    Ascending Interval.register (apply l note) := by
  cases note <;> exact ascending_insertBy h

theorem ascending_foldl (h : Ascending Interval.register l) (notes : List Note) :
    Ascending Interval.register (notes.foldl apply l) := by
  induction notes generalizing l with
  | nil => exact h
  | cons note notes ih => exact ih (ascending_apply h note)

/-- The intervals of an ordered table are those of their registers. -/
theorem interval_of_mem (h : Ascending Interval.register l) {i : Interval} (hi : i ∈ l) :
    interval l i.register = i := by
  rw [interval]
  cases hf : l.find? (fun j => j.register = i.register) with
  | none => simpa using List.find?_eq_none.1 hf i hi
  | some j =>
    have hj : j.register = i.register := by simpa using List.find?_some hf
    exact List.inj_on_of_nodup_map h.nodup_keys (List.mem_of_find?_eq_some hf) hi hj

/-- A write cuts the segment of its block off at its slot, or makes one of the slot alone. -/
theorem defRange_eq {i : Interval} (h : i.range.OnePerBlock) (p : Position) :
    i.defRange p = i.range.withSegment
      (((i.range.segment? p.block).map (·.withFirst p.slot)).getD ⟨p.block, p.slot, p.slot⟩) := by
  rw [Interval.defRange, Interval.inBlock?]
  cases hs : i.range.segment? p.block with
  | none =>
    rw [LiveRange.segment?] at hs
    rw [hs]
    exact h.insert_eq hs
  | some s =>
    have hblock : s.block = p.block := (h.segment?_eq_some.1 hs).2
    rw [LiveRange.segment?] at hs
    rw [hs]
    exact h.erase_insert hs hblock

/-- A write keeps one segment in each block. -/
theorem onePerBlock_defRange {i : Interval} (h : i.range.OnePerBlock) (p : Position) : (i.defRange p).OnePerBlock :=
  defRange_eq h p ▸ h.set _

/-- A value written at a position starts there in its block; nothing changes in the other blocks. -/
theorem segment?_defRange {i : Interval} (h : i.range.OnePerBlock) (p : Position) (b : BlockId) :
    (i.defRange p).segment? b = if p.block = b then
      some (((i.range.segment? b).map (·.withFirst p.slot)).getD ⟨b, p.slot, p.slot⟩) else i.range.segment? b := by
  have hblock : (((i.range.segment? p.block).map (fun s => s.withFirst p.slot)).getD
      (⟨p.block, p.slot, p.slot⟩ : Segment)).block = p.block := by
    cases hs : i.range.segment? p.block with
    | none => rfl
    | some s => exact (h.segment?_eq_some.1 hs).2
  rw [defRange_eq h, h.segment?_withSegment, hblock]
  split_ifs with hb
  · subst hb
    rfl
  · rfl

/-- A read extends the segment of its block to the start, unless it lies within; without a segment, it makes one up to
its slot. -/
theorem useRange_eq {i : Interval} (h : i.range.OnePerBlock) (p : Position) :
    i.useRange p = match i.range.segment? p.block with
      | some s => if p.slot < s.first then i.range.withSegment (s.withFirst 0) else i.range
      | none => i.range.withSegment ⟨p.block, 0, p.slot⟩ := by
  rw [Interval.useRange, Interval.inBlock?]
  cases hs : i.range.segment? p.block with
  | none =>
    rw [LiveRange.segment?] at hs
    rw [hs]
    exact h.insert_eq hs
  | some s =>
    have hblock : s.block = p.block := (h.segment?_eq_some.1 hs).2
    rw [LiveRange.segment?] at hs
    rw [hs]
    refine if_congr Iff.rfl ?_ rfl
    exact h.erase_insert hs hblock

/-- A read keeps one segment in each block. -/
theorem onePerBlock_useRange {i : Interval} (h : i.range.OnePerBlock) (p : Position) : (i.useRange p).OnePerBlock := by
  rw [useRange_eq h]
  split
  · split_ifs
    · exact h.set _
    · exact h
  · exact h.set _

/-- A value read at a position is alive from the start of its block, unless it is alive before the position already;
nothing changes in the other blocks. -/
theorem segment?_useRange {i : Interval} (h : i.range.OnePerBlock) (p : Position) (b : BlockId) :
    (i.useRange p).segment? b = if p.block = b then
      some (((i.range.segment? b).map (fun s => if p.slot < s.first then s.withFirst 0 else s)).getD ⟨b, 0, p.slot⟩)
    else i.range.segment? b := by
  rw [useRange_eq h]
  split
  · rename_i s hs
    have hblock : s.block = p.block := (h.segment?_eq_some.1 hs).2
    by_cases hlt : p.slot < s.first
    · rw [if_pos hlt, h.segment?_withSegment, Segment.withFirst_block, hblock]
      split_ifs with hb
      · subst hb
        simp [hs, hlt]
      · rfl
    · rw [if_neg hlt]
      split_ifs with hb
      · subst hb
        simp [hs, hlt]
      · rfl
  · rename_i hs
    rw [h.segment?_withSegment]
    split_ifs with hb
    · subst hb
      simp [hs]
    · rfl

/-- What one note does to a register: it keeps one segment for each block, and changes segments and sites as stated. -/
theorem interval_apply (h : (interval l v).range.OnePerBlock) (note : Note) :
    (interval (apply l note) v).range.OnePerBlock ∧
      (∀ b, (interval (apply l note) v).range.segment? b = note.onSegment v b ((interval l v).range.segment? b)) ∧
      (interval (apply l note) v).sites = note.onSites v (interval l v).sites := by
  cases note with
  | alive w c n =>
    rw [apply, interval_update (g := fun i => i.addBlock c n) (fun _ => rfl)]
    by_cases hw : v = w
    · subst hw
      rw [if_pos rfl]
      refine ⟨h.set _, fun b => ?_, rfl⟩
      refine (h.segment?_withSegment (s := .whole c n)).trans ?_
      by_cases hb : c = b
      · subst hb
        simp [onSegment, Segment.whole]
      · simp [onSegment, Segment.whole, hb]
    · rw [if_neg hw]
      exact ⟨h, fun b => by simp [onSegment, Ne.symm hw], rfl⟩
  | write w p memoryOk =>
    rw [apply, interval_update (g := fun i => i.addDef p memoryOk) (fun _ => rfl)]
    by_cases hw : v = w
    · subst hw
      rw [if_pos rfl]
      refine ⟨onePerBlock_defRange h p, fun b => ?_, by simp [onSites, Interval.addDef, Interval.addSite]⟩
      simp only [onSegment, true_and]
      exact segment?_defRange h p b
    · rw [if_neg hw]
      exact ⟨h, fun b => by simp [onSegment, Ne.symm hw], by simp [onSites, Ne.symm hw]⟩
  | read w p memoryOk =>
    rw [apply, interval_update (g := fun i => i.addUse p memoryOk) (fun _ => rfl)]
    by_cases hw : v = w
    · subst hw
      rw [if_pos rfl]
      refine ⟨onePerBlock_useRange h p, fun b => ?_, by simp [onSites, Interval.addUse, Interval.addSite]⟩
      simp only [onSegment, true_and]
      exact segment?_useRange h p b
    · rw [if_neg hw]
      exact ⟨h, fun b => by simp [onSegment, Ne.symm hw], by simp [onSites, Ne.symm hw]⟩
  | linkStart w hints =>
    rw [apply, interval_update (g := fun i => i.addStartHints (linked l w hints)) (fun _ => rfl)]
    split_ifs <;> exact ⟨h, fun _ => rfl, rfl⟩
  | linkStop w hints =>
    rw [apply, interval_update (g := fun i => i.addStopHints (linked l w hints)) (fun _ => rfl)]
    split_ifs <;> exact ⟨h, fun _ => rfl, rfl⟩

/-- What a list of notes does to a register. -/
theorem interval_foldl (notes : List Note) (h : (interval l v).range.OnePerBlock) :
    (interval (notes.foldl apply l) v).range.OnePerBlock ∧
      (∀ b, (interval (notes.foldl apply l) v).range.segment? b =
        notes.foldl (onSegment v b) ((interval l v).range.segment? b)) ∧
      (interval (notes.foldl apply l) v).sites = notes.foldl (onSites v) (interval l v).sites := by
  induction notes generalizing l with
  | nil => exact ⟨h, fun _ => rfl, rfl⟩
  | cons note notes ih =>
    obtain ⟨hone, hsegment, hsites⟩ := interval_apply h note
    obtain ⟨hone', hsegment', hsites'⟩ := ih hone
    refine ⟨hone', fun b => ?_, ?_⟩
    · rw [List.foldl_cons, List.foldl_cons, hsegment', hsegment]
    · rw [List.foldl_cons, List.foldl_cons, hsites', hsites]

/-- Adding a site keeps the sites in order. -/
theorem ascending_insertSite {l : List Site} (h : Ascending Site.position l) (w : VirtReg) (s : Site) :
    Ascending Site.position (if w = v then Interval.insertSite l s else l) := by
  split_ifs
  · exact ascending_insertBy h
  · exact h

theorem ascending_onSites {l : List Site} (h : Ascending Site.position l) (notes : List Note) :
    Ascending Site.position (notes.foldl (onSites v) l) := by
  induction notes generalizing l with
  | nil => exact h
  | cons note notes ih =>
    refine ih ?_
    cases note with
    | write w p memoryOk => exact ascending_insertSite h w _
    | read w p memoryOk => exact ascending_insertSite h w _
    | alive w c n => exact h
    | linkStart w hints => exact h
    | linkStop w hints => exact h

/-- Whether a note makes a position a site of a register. -/
def Marks (v : VirtReg) (p : Position) (note : Note) : Prop :=
  ∃ memoryOk, note = .write v p memoryOk ∨ note = .read v p memoryOk

/-- The sites of a register are the positions where notes say that it is accessed. -/
theorem mem_sites_foldl {l : List Site} (notes : List Note) :
    p ∈ (notes.foldl (onSites v) l).map Site.position ↔ p ∈ l.map Site.position ∨ ∃ note ∈ notes, note.Marks v p := by
  have hone : ∀ (l : List Site) (note : Note),
      p ∈ (onSites v l note).map Site.position ↔ p ∈ l.map Site.position ∨ note.Marks v p := by
    intro l note
    have hmark : ∀ (w : VirtReg) (q : Position) (memoryOk : Bool),
        (p ∈ (if w = v then Interval.insertSite l ⟨q, memoryOk⟩ else l).map Site.position) ↔
          p ∈ l.map Site.position ∨ w = v ∧ q = p := by
      intro w q memoryOk
      split_ifs with hw
      · rw [Interval.insertSite, mem_map_insertBy]
        simp only [hw, true_and]
        rw [or_comm, eq_comm (a := p)]
      · simp [hw]
    cases note with
    | write w q memoryOk =>
      rw [onSites, hmark]
      simp [Marks]
    | read w q memoryOk =>
      rw [onSites, hmark]
      simp [Marks]
    | alive w c n => simp [onSites, Marks]
    | linkStart w hints => simp [onSites, Marks]
    | linkStop w hints => simp [onSites, Marks]
  induction notes generalizing l with
  | nil => simp
  | cons note notes ih =>
    refine (ih (l := onSites v l note)).trans ?_
    rw [hone]
    simp only [List.mem_cons, exists_eq_or_imp, or_assoc]

end Note

end RegAlloc
