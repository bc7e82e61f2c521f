import RegAlloc.Proofs.LiveRange
import Mathlib.Order.Bounds.Basic

/-!
# Ranges as sets of positions

What the operations on ranges give depends on the positions that are covered, and not on how these are divided into
segments. `firstMeeting` is the least common position, whichever of the two ranges comes first. `union` joins all
segments that touch (`fuse_separated`), and only one range without touching segments covers a given set of positions
(`eq_of_covers`): so it does not matter in which order, or in which groups, ranges are added up (`Grouping`).
-/

namespace RegAlloc

/-- A segment touches the one that begins in the next slot of its block. -/
theorem Segment.touches_iff {s t : Segment} : s.touches t = true ↔ @Eq Nat s.block t.block ∧ s.last + 1 = t.first := by
  simp [touches]

namespace LiveRange

variable {r s : LiveRange}

/-! ## The first meeting -/

/-- The first common position is the least of the common ones. -/
theorem IsFirstCommon.eq_some_iff {o : Option Position} (h : IsFirstCommon r s o) (p : Position) :
    o = some p ↔ IsLeast {q | r.covers q ∧ s.covers q} p := by
  constructor
  · rintro rfl
    exact ⟨⟨h.1, h.2.1⟩, fun q hq => h.2.2 q hq.1 hq.2⟩
  · rintro ⟨⟨hr, hs⟩, hle⟩
    cases o with
    | none => exact absurd hs (h p hr)
    | some p' => rw [le_antisymm (h.2.2 p hr hs) (hle ⟨h.1, h.2.1⟩)]

/-- There is no first common position if there is none at all. -/
theorem IsFirstCommon.eq_none_iff {o : Option Position} (h : IsFirstCommon r s o) : o = none ↔ r.Disjoint s := by
  cases o with
  | none => exact ⟨fun _ => h, fun _ => rfl⟩
  | some p =>
    refine ⟨fun hnone => ?_, fun hd => absurd h.2.1 (hd p h.1)⟩
    cases hnone

/-- **The first meeting of two ranges is their least common position.** There is none exactly if the ranges cover no
common position, and it is the same from both sides. -/
theorem firstMeeting_isLeast (hr : r.WellFormed) (hs : s.WellFormed) :
    (∀ p, r.firstMeeting s = some p ↔ IsLeast {q | r.covers q ∧ s.covers q} p) ∧
      (r.firstMeeting s = none ↔ ∀ q, ¬(r.covers q ∧ s.covers q)) ∧ r.firstMeeting s = s.firstMeeting r := by
  have hrs := firstMeeting_spec hr hs
  have hsr := firstMeeting_spec hs hr
  refine ⟨hrs.eq_some_iff, hrs.eq_none_iff.trans ⟨fun h q hq => h q hq.1 hq.2, fun h q hqr hqs => h q ⟨hqr, hqs⟩⟩, ?_⟩
  apply Option.ext
  intro p
  rw [hrs.eq_some_iff, hsr.eq_some_iff]
  simp only [and_comm]

/-- Two ranges over three blocks, with segments that touch, that first meet in the last of them. -/
theorem firstMeeting_isLeast_skipping :
    IsLeast {q | covers ⟨[⟨0, 0, 1⟩, ⟨0, 2, 3⟩, ⟨0, 8, 12⟩, ⟨2, 0, 7⟩]⟩ q ∧
      covers ⟨[⟨0, 4, 7⟩, ⟨1, 0, 9⟩, ⟨2, 5, 6⟩]⟩ q} ⟨2, 5⟩ :=
  ((firstMeeting_isLeast ⟨by decide, by decide⟩ ⟨by decide, by decide⟩).1 ⟨2, 5⟩).1 (by decide)

/-! ## Ranges without touching segments -/

/-- No segment begins in the slot after the one where another ends. -/
def Separated (r : LiveRange) : Prop := ∀ x ∈ r.segments, ∀ y ∈ r.segments, x.touches y = false

instance : DecidablePred Separated := fun r =>
  inferInstanceAs (Decidable (∀ x ∈ r.segments, ∀ y ∈ r.segments, x.touches y = false))

/-- A range is separated if its first segment touches none of the others, and they are separated. -/
theorem separated_cons {x : Segment} {l : List Segment} (h : WellFormed ⟨x :: l⟩) :
    Separated ⟨x :: l⟩ ↔ (∀ y ∈ l, x.touches y = false) ∧ Separated ⟨l⟩ := by
  obtain ⟨hx, hxl, hl⟩ := wellFormed_cons.1 h
  constructor
  · intro hsep
    exact ⟨fun y hy => hsep x List.mem_cons_self y (List.mem_cons_of_mem _ hy),
      fun y hy z hz => hsep y (List.mem_cons_of_mem _ hy) z (List.mem_cons_of_mem _ hz)⟩
  · rintro ⟨hhead, htail⟩ y hy z hz
    rw [Bool.eq_false_iff]
    intro htouch
    obtain ⟨hblock, hnext⟩ := Segment.touches_iff.1 htouch
    rcases List.mem_cons.1 hz with rfl | hz'
    · -- The first segment would have to begin after the stop of one that does not begin before it.
      have hle : z.start ≤ y.stop := by
        rcases List.mem_cons.1 hy with rfl | hy
        · exact Segment.start_le_stop hx
        · exact le_trans (le_of_lt (lt_of_le_of_lt (Segment.start_le_stop hx) (hxl y hy)))
            (Segment.start_le_stop (hl.bounds y hy))
      simp only [Position.le_def, Segment.start, Segment.stop] at hle
      omega
    · rcases List.mem_cons.1 hy with rfl | hy
      · rw [hhead z hz'] at htouch
        cases htouch
      · rw [htail y hy z hz'] at htouch
        cases htouch

/-- The slot after the first segment is not covered. -/
theorem Separated.not_covers_next {x : Segment} {l : List Segment} (hsep : Separated ⟨x :: l⟩)
    (h : WellFormed ⟨x :: l⟩) :
    ¬covers ⟨x :: l⟩ x.stop.next := by
  intro hcov
  rcases covers_cons.1 hcov with ⟨-, hle⟩ | hcov
  · exact absurd (Position.lt_next x.stop) (not_lt.2 hle)
  · obtain ⟨y, hy, hle, -⟩ := covers_iff.1 hcov
    have hlt := (wellFormed_cons.1 h).2.1 y hy
    have htouch : x.touches y = true := by
      simp only [Position.le_def, Position.lt_def, Position.next, Segment.start, Segment.stop] at hle hlt
      exact Segment.touches_iff.2 (by omega)
    rw [((separated_cons h).1 hsep).1 y hy] at htouch
    cases htouch

/-- A range without touching segments begins with the longest segment that its positions allow. -/
theorem Separated.stop_le {x y : Segment} {l m : List Segment} (hsep : Separated ⟨x :: l⟩) (h : WellFormed ⟨x :: l⟩)
    (hstart : x.start = y.start) (hcov : ∀ p, covers ⟨y :: m⟩ p → covers ⟨x :: l⟩ p) : y.stop ≤ x.stop := by
  obtain ⟨hx, -⟩ := wellFormed_cons.1 h
  refine not_lt.1 fun hlt => hsep.not_covers_next h (hcov _ (covers_cons.2 (.inl ?_)))
  rw [Position.eq_def] at hstart
  simp only [Position.le_def, Position.lt_def, Position.next, Segment.start, Segment.stop] at hlt hstart ⊢
  omega

/-- Ranges that begin with the same segment and cover the same cover the same after it. -/
theorem covers_tail_iff {x : Segment} {l m : List Segment} (hl : WellFormed ⟨x :: l⟩) (hm : WellFormed ⟨x :: m⟩)
    (hcov : ∀ p, covers ⟨x :: l⟩ p = true ↔ covers ⟨x :: m⟩ p = true) (p : Position) :
    covers ⟨l⟩ p = true ↔ covers ⟨m⟩ p = true := by
  have hp := hcov p
  rw [covers_cons, covers_cons] at hp
  constructor
  · intro h
    exact (hp.1 (.inr h)).resolve_left fun hx => absurd (hl.lt_of_covers h) (not_lt.2 hx.2)
  · intro h
    exact (hp.2 (.inr h)).resolve_left fun hx => absurd (hm.lt_of_covers h) (not_lt.2 hx.2)

/-- Ranges without touching segments that cover the same positions are equal. -/
theorem eq_of_covers (hr : r.WellFormed) (hs : s.WellFormed) (hrsep : r.Separated) (hssep : s.Separated)
    (hcov : ∀ p, r.covers p = true ↔ s.covers p = true) : r = s := by
  obtain ⟨l⟩ := r
  obtain ⟨m⟩ := s
  congr
  induction l generalizing m with
  | nil =>
    cases m with
    | nil => rfl
    | cons y m => exact absurd ((hcov y.start).2 (hs.start?_eq_some rfl).1) (by simp [covers_nil])
  | cons x l ih =>
    cases m with
    | nil => exact absurd ((hcov x.start).1 (hr.start?_eq_some rfl).1) (by simp [covers_nil])
    | cons y m =>
      have hstart : x.start = y.start := by
        apply le_antisymm
        · exact hr.start_le_of_covers ((hcov y.start).2 (hs.start?_eq_some rfl).1)
        · exact hs.start_le_of_covers ((hcov x.start).1 (hr.start?_eq_some rfl).1)
      have hstop : x.stop = y.stop := by
        apply le_antisymm
        · exact hssep.stop_le hs hstart.symm fun p => (hcov p).1
        · exact hrsep.stop_le hr hstart fun p => (hcov p).2
      obtain rfl : x = y := by
        obtain ⟨b, first, last⟩ := x
        obtain ⟨b', first', last'⟩ := y
        simp only [Segment.start, Segment.stop, Position.mk.injEq] at hstart hstop
        rw [hstart.1, hstart.2, hstop.2]
      rw [ih (wellFormed_cons.1 hr).2.2 ((separated_cons hr).1 hrsep).2 m (wellFormed_cons.1 hs).2.2
        ((separated_cons hs).1 hssep).2 (covers_tail_iff hr hs hcov)]

/-! ## The union -/

/-- No two segments touch after those that touch were joined. -/
theorem fuse_separated {l : List Segment} (h : WellFormed ⟨l⟩) : Separated ⟨Segment.fuse l⟩ := by
  induction l with
  | nil => exact fun x hx => absurd hx List.not_mem_nil
  | cons x l ih =>
    have hwf := (fuse_spec h).1
    have hl := (wellFormed_cons.1 h).2.2
    have ih := ih hl
    have ihwf := (fuse_spec hl).1
    rw [Segment.fuse] at hwf ⊢
    cases hf : Segment.fuse l with
    | nil =>
      rw [hf] at hwf ih
      exact (separated_cons hwf).2 ⟨fun y hy => absurd hy List.not_mem_nil, ih⟩
    | cons y more =>
      rw [hf] at hwf ih ihwf
      obtain ⟨hy, hmore⟩ := (separated_cons ihwf).1 ih
      dsimp only at hwf ⊢
      split at hwf
      · -- The joined segment ends where the second one did.
        rename_i htouch
        rw [if_pos htouch]
        refine (separated_cons hwf).2 ⟨fun z hz => ?_, hmore⟩
        rw [← hy z hz, Bool.eq_iff_iff, Segment.touches_iff, Segment.touches_iff, ← (Segment.touches_iff.1 htouch).1]
        rfl
      · rename_i htouch
        rw [if_neg htouch]
        refine (separated_cons hwf).2 ⟨fun z hz => ?_, ih⟩
        rcases List.mem_cons.1 hz with rfl | hz
        · exact Bool.eq_false_iff.2 htouch
        · -- A segment after the second one begins too late to touch the first.
          rw [Bool.eq_false_iff]
          intro htouch'
          obtain ⟨hblock, hnext⟩ := Segment.touches_iff.1 htouch'
          have h1 := (wellFormed_cons.1 hwf).2.1 y List.mem_cons_self
          have h2 := (wellFormed_cons.1 ihwf).2.1 z hz
          have h3 := (wellFormed_cons.1 ihwf).1
          simp only [Position.lt_def, Segment.start, Segment.stop] at h1 h2
          omega

/-- The union of disjoint ranges is separated: touching segments are fused. -/
theorem union_separated (hr : r.WellFormed) (hs : s.WellFormed) (hd : r.Disjoint s) : (r.union s).Separated :=
  fuse_separated (merge_spec hr hs hd).2

/-- A union is the only range without touching segments that covers its positions. -/
theorem union_eq_of_covers {t : LiveRange} (hr : r.WellFormed) (hs : s.WellFormed) (hd : r.Disjoint s)
    (ht : t.WellFormed) (htsep : t.Separated) (hcov : ∀ p, t.covers p = true ↔ r.covers p = true ∨ s.covers p = true) :
    r.union s = t := by
  refine eq_of_covers (hr.union hs hd) ht (union_separated hr hs hd) htsep fun p => ?_
  rw [covers_union hr hs hd, hcov]

/-- A way to add ranges up: in which order, and in which groups. -/
inductive Grouping where
  | one (r : LiveRange)
  | both (g h : Grouping)

namespace Grouping

/-- The ranges that are added up. -/
def ranges : Grouping → List LiveRange
  | one r => [r]
  | both g h => g.ranges ++ h.ranges

/-- What they add up to. -/
def total : Grouping → LiveRange
  | one r => r
  | both g h => g.total.union h.total

/-- The ranges are well formed, and no two of them cover a common position. -/
structure Admissible (g : Grouping) : Prop where
  wellFormed : ∀ r ∈ g.ranges, r.WellFormed
  disjoint : g.ranges.Pairwise LiveRange.Disjoint

variable {g h : Grouping}

/-- Grouping the same ranges in another way is admissible, too. -/
theorem Admissible.perm (hg : g.Admissible) (hperm : g.ranges.Perm h.ranges) : h.Admissible :=
  ⟨fun r hr => hg.wellFormed r (hperm.mem_iff.2 hr), (hperm.pairwise_iff (fun hd => hd.symm)).1 hg.disjoint⟩

/-- A part of an admissible grouping is admissible. -/
theorem Admissible.left (hgh : (both g h).Admissible) : g.Admissible :=
  ⟨fun r hr => hgh.wellFormed r (List.mem_append_left _ hr), (List.pairwise_append.1 hgh.disjoint).1⟩

theorem Admissible.right (hgh : (both g h).Admissible) : h.Admissible :=
  ⟨fun r hr => hgh.wellFormed r (List.mem_append_right _ hr), (List.pairwise_append.1 hgh.disjoint).2.1⟩

/-- Groups with no range in common cover no common position. -/
theorem Admissible.total_disjoint (hgh : (both g h).Admissible)
    (hg : ∀ p, g.total.covers p = true ↔ ∃ r ∈ g.ranges, r.covers p = true)
    (hh : ∀ p, h.total.covers p = true ↔ ∃ r ∈ h.ranges, r.covers p = true) : g.total.Disjoint h.total := by
  intro p hp hp'
  obtain ⟨r, hr, hrp⟩ := (hg p).1 hp
  obtain ⟨s, hs, hsp⟩ := (hh p).1 hp'
  exact (List.pairwise_append.1 hgh.disjoint).2.2 r hr s hs p hrp hsp

/-- The total is well formed and covers what any of the ranges covers. -/
theorem Admissible.total_spec (hg : g.Admissible) :
    g.total.WellFormed ∧ ∀ p, g.total.covers p = true ↔ ∃ r ∈ g.ranges, r.covers p = true := by
  induction g with
  | one r =>
    refine ⟨hg.wellFormed r List.mem_cons_self, fun p => ?_⟩
    simp only [total, ranges, List.mem_singleton, exists_eq_left]
  | both g h ihg ihh =>
    obtain ⟨hgwf, hgcov⟩ := ihg hg.left
    obtain ⟨hhwf, hhcov⟩ := ihh hg.right
    have hd := hg.total_disjoint hgcov hhcov
    refine ⟨hgwf.union hhwf hd, fun p => ?_⟩
    rw [total, covers_union hgwf hhwf hd, hgcov, hhcov]
    simp only [ranges, List.mem_append, or_and_right, exists_or]

/-- Where something was added, the total has no touching segments. -/
theorem Admissible.total_separated (hgh : (both g h).Admissible) : (both g h).total.Separated := by
  obtain ⟨hgwf, hgcov⟩ := hgh.left.total_spec
  obtain ⟨hhwf, hhcov⟩ := hgh.right.total_spec
  exact union_separated hgwf hhwf (hgh.total_disjoint hgcov hhcov)

theorem ranges_length_pos (g : Grouping) : 0 < g.ranges.length := by
  induction g with
  | one r => exact Nat.one_pos
  | both g h ihg _ =>
    rw [ranges, List.length_append]
    omega

/-- A single range is not the sum of two groups. -/
theorem not_perm_append (r : LiveRange) (g h : Grouping) : ¬[r].Perm (g.ranges ++ h.ranges) := by
  intro hperm
  have hlen := hperm.length_eq
  have hg := g.ranges_length_pos
  have hh := h.ranges_length_pos
  rw [List.length_append, List.length_singleton] at hlen
  omega

/-- The union of all ranges does not depend on how they are grouped. -/
theorem Admissible.total_eq_of_perm (hg : g.Admissible) (hperm : g.ranges.Perm h.ranges) : g.total = h.total := by
  have hh := hg.perm hperm
  cases g with
  | one r =>
    cases h with
    | one s => exact List.singleton_perm_singleton.1 hperm
    | both h₁ h₂ => exact absurd hperm (not_perm_append r h₁ h₂)
  | both g₁ g₂ =>
    cases h with
    | one s => exact absurd hperm.symm (not_perm_append s g₁ g₂)
    | both h₁ h₂ =>
      refine eq_of_covers hg.total_spec.1 hh.total_spec.1 hg.total_separated hh.total_separated fun p => ?_
      rw [hg.total_spec.2, hh.total_spec.2]
      simp only [hperm.mem_iff]

end Grouping

/-- **Adding ranges up is canonical.** The union of well-formed ranges that cover no common position is well formed,
covers what either of them covers, and no two of its segments touch. Unions that cover the same positions are
therefore equal, whatever ranges they were made of and whichever of these came first; and the total of ranges of which
no two cover a common position does not depend on the order or the groups in which they are added up. -/
theorem union_canonical :
    (∀ r s : LiveRange, r.WellFormed → s.WellFormed → r.Disjoint s →
      (r.union s).WellFormed ∧ (r.union s).Separated ∧ (∀ p, (r.union s).covers p ↔ r.covers p ∨ s.covers p) ∧
        r.union s = s.union r ∧
        ∀ r' s' : LiveRange, r'.WellFormed → s'.WellFormed → r'.Disjoint s' →
          (∀ p, (r.covers p ∨ s.covers p) ↔ (r'.covers p ∨ s'.covers p)) → r.union s = r'.union s') ∧
      ∀ g h : Grouping, g.Admissible → g.ranges.Perm h.ranges → g.total = h.total := by
  refine ⟨fun r s hr hs hd => ?_, fun g h hg hperm => hg.total_eq_of_perm hperm⟩
  have hcov := fun p => covers_union hr hs hd (p := p)
  refine ⟨hr.union hs hd, union_separated hr hs hd, hcov, ?_, fun r' s' hr' hs' hd' hsame => ?_⟩
  · refine union_eq_of_covers hr hs hd (hs.union hr hd.symm) (union_separated hs hr hd.symm) fun p => ?_
    rw [covers_union hs hr hd.symm, or_comm]
  · refine union_eq_of_covers hr hs hd (hr'.union hs' hd') (union_separated hr' hs' hd') fun p => ?_
    rw [covers_union hr' hs' hd', hsame p]

/-- Three ranges whose segments interleave and touch in two blocks, added up in two ways. -/
theorem union_canonical_interleaved :
    (union ⟨[⟨0, 0, 3⟩, ⟨1, 5, 6⟩]⟩ ⟨[⟨0, 4, 7⟩, ⟨1, 0, 4⟩]⟩).Separated ∧
      (Grouping.both (.one ⟨[⟨0, 0, 3⟩, ⟨1, 5, 6⟩]⟩)
      (.both (.one ⟨[⟨0, 4, 7⟩, ⟨1, 0, 4⟩]⟩) (.one ⟨[⟨1, 7, 8⟩]⟩))).total = (Grouping.both
      (.both (.one ⟨[⟨1, 7, 8⟩]⟩) (.one ⟨[⟨0, 0, 3⟩, ⟨1, 5, 6⟩]⟩)) (.one ⟨[⟨0, 4, 7⟩, ⟨1, 0, 4⟩]⟩)).total := by
  have hr : WellFormed ⟨[⟨0, 0, 3⟩, ⟨1, 5, 6⟩]⟩ := ⟨by decide, by decide⟩
  have hs : WellFormed ⟨[⟨0, 4, 7⟩, ⟨1, 0, 4⟩]⟩ := ⟨by decide, by decide⟩
  have ht : WellFormed ⟨[⟨1, 7, 8⟩]⟩ := ⟨by decide, by decide⟩
  have hrs := (firstMeeting_spec hr hs).eq_none_iff.1 (by decide)
  have hrt := (firstMeeting_spec hr ht).eq_none_iff.1 (by decide)
  have hst := (firstMeeting_spec hs ht).eq_none_iff.1 (by decide)
  refine ⟨(union_canonical.1 _ _ hr hs hrs).2.1, union_canonical.2 _ _ ⟨?_, ?_⟩ (by decide)⟩
  · simpa [Grouping.ranges] using ⟨hr, hs, ht⟩
  · simpa [Grouping.ranges] using ⟨⟨hrs, hrt⟩, hst⟩

end LiveRange

end RegAlloc
