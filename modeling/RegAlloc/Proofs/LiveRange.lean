import RegAlloc.Proofs.Order

/-!
# What the operations on live ranges cover

A range is well formed when its segments are not empty and each ends before the next one starts. For well-formed
ranges the operations are the operations on sets of positions that their names say: `before` and `after` divide a
range at a position (`covers_before`, `covers_after`) and its size with it (`size_before_add_size_after`), `union`
covers what either of two ranges covers (`covers_union`), and `firstMeeting` is the least position that two ranges
have in common (`firstMeeting_spec`).
-/

namespace RegAlloc

namespace Segment

/-- A segment holds the positions from its start to its stop. -/
theorem contains_iff {s : Segment} {p : Position} : s.contains p = true ↔ s.start ≤ p ∧ p ≤ s.stop := by
  have hb : p.block = s.block ↔ @Eq Nat p.block s.block := Iff.rfl
  simp only [contains, Bool.and_eq_true, decide_eq_true_eq, Position.le_def, start, stop, hb]
  omega

/-- A segment that has slots starts before it ends. -/
theorem start_le_stop {s : Segment} (h : s.first ≤ s.last) : s.start ≤ s.stop := Position.le_def.2 (.inr ⟨rfl, h⟩)

/-- A segment that starts before it ends has slots. -/
theorem first_le_last {s : Segment} (h : s.start ≤ s.stop) : s.first ≤ s.last := by
  rcases Position.le_def.1 h with h | h
  · exact absurd h (Nat.lt_irrefl _)
  · exact h.2

end Segment

namespace LiveRange

/-- No segment is empty, and each ends before the next one starts. -/
structure WellFormed (r : LiveRange) : Prop where
  bounds : ∀ s ∈ r.segments, s.first ≤ s.last
  ordered : r.segments.Pairwise (fun s t => s.stop < t.start)

/-- Two ranges cover no common position. -/
def Disjoint (r s : LiveRange) : Prop := ∀ p, r.covers p → ¬s.covers p

theorem Disjoint.symm {r s : LiveRange} (h : r.Disjoint s) : s.Disjoint r := fun p hs hr => h p hr hs

/-- A range covers the positions of its segments. -/
theorem covers_iff {r : LiveRange} {p : Position} :
    r.covers p = true ↔ ∃ s ∈ r.segments, s.start ≤ p ∧ p ≤ s.stop := by
  simp only [covers, List.any_eq_true, Segment.contains_iff]

theorem covers_nil {p : Position} : covers ⟨[]⟩ p = false := rfl

/-- A range covers what its first segment contains and what the others cover. -/
theorem covers_cons {s : Segment} {l : List Segment} {p : Position} :
    covers ⟨s :: l⟩ p = true ↔ (s.start ≤ p ∧ p ≤ s.stop) ∨ covers ⟨l⟩ p = true := by
  simp only [covers_iff, List.mem_cons, exists_eq_or_imp]

theorem wellFormed_nil : WellFormed ⟨[]⟩ := ⟨by simp, List.Pairwise.nil⟩

/-- A range is well formed if its first segment has slots and ends before the others, and they are well formed. -/
theorem wellFormed_cons {s : Segment} {l : List Segment} :
    WellFormed ⟨s :: l⟩ ↔ s.first ≤ s.last ∧ (∀ t ∈ l, s.stop < t.start) ∧ WellFormed ⟨l⟩ := by
  constructor
  · intro h
    obtain ⟨hs, hl⟩ := List.pairwise_cons.1 h.ordered
    exact ⟨h.bounds s List.mem_cons_self, hs, fun t ht => h.bounds t (List.mem_cons_of_mem _ ht), hl⟩
  · rintro ⟨hs, hst, hl⟩
    refine ⟨fun t ht => ?_, List.pairwise_cons.2 ⟨hst, hl.ordered⟩⟩
    rcases List.mem_cons.1 ht with rfl | ht
    · exact hs
    · exact hl.bounds t ht

/-- What follows the first segment lies after it. -/
theorem WellFormed.lt_of_covers {s : Segment} {l : List Segment} {p : Position} (h : WellFormed ⟨s :: l⟩)
    (hp : covers ⟨l⟩ p) : s.stop < p := by
  obtain ⟨t, ht, hle, _⟩ := covers_iff.1 hp
  exact lt_of_lt_of_le ((wellFormed_cons.1 h).2.1 t ht) hle

theorem WellFormed.start_le_of_covers {s : Segment} {l : List Segment} {p : Position} (h : WellFormed ⟨s :: l⟩)
    (hp : covers ⟨s :: l⟩ p) : s.start ≤ p := by
  rcases covers_cons.1 hp with hp | hp
  · exact hp.1
  · exact le_trans (Segment.start_le_stop (wellFormed_cons.1 h).1) (le_of_lt (h.lt_of_covers hp))

/-- The start of a range is the first position that it covers. -/
theorem WellFormed.start?_eq_some {r : LiveRange} {p : Position} (h : r.WellFormed) (hp : r.start? = some p) :
    r.covers p ∧ ∀ q, r.covers q → p ≤ q := by
  obtain ⟨segments⟩ := r
  cases segments with
  | nil => cases hp
  | cons s l =>
    obtain rfl : s.start = p := Option.some.inj hp
    refine ⟨covers_cons.2 (.inl ⟨le_rfl, Segment.start_le_stop (wellFormed_cons.1 h).1⟩), fun q hq => ?_⟩
    exact h.start_le_of_covers hq

/-- The stop of a range is the last position that it covers. -/
theorem WellFormed.stop?_eq_some {r : LiveRange} {p : Position} (h : r.WellFormed) (hp : r.stop? = some p) :
    r.covers p ∧ ∀ q, r.covers q → q ≤ p := by
  obtain ⟨s, hs, rfl⟩ := Option.map_eq_some_iff.1 hp
  obtain ⟨l, hl⟩ := List.getLast?_eq_some_iff.1 hs
  have hmem : s ∈ r.segments := by simp [hl]
  refine ⟨covers_iff.2 ⟨s, hmem, Segment.start_le_stop (h.bounds s hmem), le_rfl⟩, fun q hq => ?_⟩
  obtain ⟨t, ht, _, hle⟩ := covers_iff.1 hq
  have hord := h.ordered
  rw [hl] at ht hord
  rcases List.mem_append.1 ht with ht | ht
  · have hlt := (List.pairwise_append.1 hord).2.2 t ht s (by simp)
    exact le_trans hle (le_trans (le_of_lt hlt) (Segment.start_le_stop (h.bounds s hmem)))
  · rw [List.mem_singleton.1 ht] at hle
    exact hle

/-- A range is not empty if it has segments. -/
theorem isEmpty_eq_false_iff {r : LiveRange} : r.isEmpty = false ↔ r.segments ≠ [] := by
  simp [isEmpty, List.isEmpty_eq_false_iff]

/-- A range that is not empty covers a position. -/
theorem WellFormed.isEmpty_eq_false_iff_covers {r : LiveRange} (h : r.WellFormed) :
    r.isEmpty = false ↔ ∃ p, r.covers p := by
  rw [isEmpty_eq_false_iff]
  obtain ⟨segments⟩ := r
  cases segments with
  | nil => simp [covers_nil]
  | cons s l => simpa using ⟨s.start, (h.start?_eq_some rfl).1⟩

section Cut

variable {r : LiveRange} {p : Position}

/-- A segment that starts before a position, up to the position. -/
theorem mem_before {s' : Segment} (h : s' ∈ (r.before p).segments) :
    ∃ s ∈ r.segments, s.start < p ∧ s' = if s.contains p then s.withLast (p.slot - 1) else s := by
  simp only [before, List.mem_map, List.mem_filter, decide_eq_true_eq] at h
  obtain ⟨s, ⟨hs, hlt⟩, rfl⟩ := h
  exact ⟨s, hs, hlt, rfl⟩

/-- Trimming a segment at its end keeps its start. -/
theorem trim_start {s : Segment} :
    (if s.contains p then s.withLast (p.slot - 1) else s).start = s.start := by
  split <;> rfl

/-- Where a segment that is cut before a position stops. -/
theorem trim_stop {s : Segment} (hlt : s.start < p) :
    (if s.contains p then s.withLast (p.slot - 1) else s).stop < p ∧
      ∀ q, q < p → (q ≤ (if s.contains p then s.withLast (p.slot - 1) else s).stop ↔ q ≤ s.stop) := by
  split
  · rename_i hp
    obtain ⟨_, hle⟩ := Segment.contains_iff.1 hp
    simp only [Position.lt_def, Position.le_def, Segment.start, Segment.stop, Segment.withLast] at hlt hle ⊢
    refine ⟨by omega, fun q hq => by omega⟩
  · rename_i hp
    have hstop : s.stop < p := by
      by_contra hle
      exact hp (Segment.contains_iff.2 ⟨le_of_lt hlt, not_lt.1 hle⟩)
    exact ⟨hstop, fun q _ => Iff.rfl⟩

theorem trim_stop_le {s : Segment} (hlt : s.start < p) :
    (if s.contains p then s.withLast (p.slot - 1) else s).stop ≤ s.stop :=
  ((trim_stop hlt).2 _ (trim_stop hlt).1).1 le_rfl

/-- The part before a position covers what of the range lies before it. -/
theorem covers_before {q : Position} : (r.before p).covers q = true ↔ r.covers q = true ∧ q < p := by
  rw [covers_iff, covers_iff]
  constructor
  · rintro ⟨s', hs', hle, hle'⟩
    obtain ⟨s, hs, hlt, rfl⟩ := mem_before hs'
    have hq : q < p := lt_of_le_of_lt hle' (trim_stop hlt).1
    rw [trim_start] at hle
    exact ⟨⟨s, hs, hle, ((trim_stop hlt).2 q hq).1 hle'⟩, hq⟩
  · rintro ⟨⟨s, hs, hle, hle'⟩, hq⟩
    have hlt : s.start < p := lt_of_le_of_lt hle hq
    refine ⟨_, List.mem_map.2 ⟨s, List.mem_filter.2 ⟨hs, decide_eq_true hlt⟩, rfl⟩, ?_, ((trim_stop hlt).2 q hq).2 hle'⟩
    rw [trim_start]
    exact hle

/-- What lies before a position of a well-formed range is well formed. -/
theorem WellFormed.before (h : r.WellFormed) (p : Position) : (r.before p).WellFormed := by
  constructor
  · intro s' hs'
    obtain ⟨s, hs, hlt, rfl⟩ := mem_before hs'
    apply Segment.first_le_last
    rw [trim_start]
    exact ((trim_stop hlt).2 _ hlt).2 (Segment.start_le_stop (h.bounds s hs))
  · rw [LiveRange.before, List.pairwise_map]
    refine (h.ordered.filter _).imp_of_mem fun {s t} hs _ hst => ?_
    rw [trim_start]
    exact lt_of_le_of_lt (trim_stop_le (by simpa using (List.mem_filter.1 hs).2)) hst

/-- A segment that does not stop before a position, from the position on. -/
theorem mem_after {s' : Segment} (h : s' ∈ (r.after p).segments) :
    ∃ s ∈ r.segments, (s.contains p || decide (p ≤ s.start)) = true ∧
      s' = if s.contains p then s.withFirst p.slot else s := by
  simp only [after, List.mem_map, List.mem_filter] at h
  obtain ⟨s, ⟨hs, hle⟩, rfl⟩ := h
  exact ⟨s, hs, hle, rfl⟩

/-- Trimming a segment at its start keeps its end. -/
theorem skip_stop {s : Segment} : (if s.contains p then s.withFirst p.slot else s).stop = s.stop := by
  split <;> rfl

/-- Where a segment that is cut before a position goes on. -/
theorem skip_start {s : Segment} (hle : (s.contains p || decide (p ≤ s.start)) = true) :
    p ≤ (if s.contains p then s.withFirst p.slot else s).start ∧
      ∀ q, p ≤ q → ((if s.contains p then s.withFirst p.slot else s).start ≤ q ↔ s.start ≤ q) := by
  split
  · rename_i hp
    obtain ⟨hle, hle'⟩ := Segment.contains_iff.1 hp
    simp only [Position.le_def, Segment.start, Segment.stop, Segment.withFirst] at hle hle' ⊢
    refine ⟨by omega, fun q hq => by omega⟩
  · rename_i hp
    simp only [hp, Bool.false_or, decide_eq_true_eq] at hle
    exact ⟨hle, fun q _ => Iff.rfl⟩

/-- A segment that is trimmed at its start starts no earlier. -/
theorem le_skip_start {s : Segment} (hle : (s.contains p || decide (p ≤ s.start)) = true) :
    s.start ≤ (if s.contains p then s.withFirst p.slot else s).start :=
  ((skip_start hle).2 _ (skip_start hle).1).1 le_rfl

/-- The part from a position on covers what of the range does not lie before it. -/
theorem covers_after {q : Position} : (r.after p).covers q = true ↔ r.covers q = true ∧ p ≤ q := by
  rw [covers_iff, covers_iff]
  constructor
  · rintro ⟨s', hs', hle, hle'⟩
    obtain ⟨s, hs, hcut, rfl⟩ := mem_after hs'
    have hq : p ≤ q := le_trans (skip_start hcut).1 hle
    rw [skip_stop] at hle'
    exact ⟨⟨s, hs, ((skip_start hcut).2 q hq).1 hle, hle'⟩, hq⟩
  · rintro ⟨⟨s, hs, hle, hle'⟩, hq⟩
    have hcut : (s.contains p || decide (p ≤ s.start)) = true := by
      rcases lt_or_ge p s.start with hlt | hge
      · simp [le_of_lt hlt]
      · simp [Segment.contains_iff.2 ⟨hge, le_trans hq hle'⟩]
    refine ⟨_, List.mem_map.2 ⟨s, List.mem_filter.2 ⟨hs, hcut⟩, rfl⟩, ((skip_start hcut).2 q hq).2 hle, ?_⟩
    rw [skip_stop]
    exact hle'

/-- What lies after a position of a well-formed range is well formed. -/
theorem WellFormed.after (h : r.WellFormed) (p : Position) : (r.after p).WellFormed := by
  constructor
  · intro s' hs'
    obtain ⟨s, hs, hcut, rfl⟩ := mem_after hs'
    have hs' := Segment.start_le_stop (h.bounds s hs)
    have hp : p ≤ s.stop := by
      rcases Bool.or_eq_true_iff.1 hcut with hp | hp
      · exact (Segment.contains_iff.1 hp).2
      · exact le_trans (of_decide_eq_true hp) hs'
    apply Segment.first_le_last
    rw [skip_stop]
    exact ((skip_start hcut).2 _ hp).2 hs'
  · rw [LiveRange.after, List.pairwise_map]
    refine (h.ordered.filter _).imp_of_mem fun {s t} _ ht hst => ?_
    rw [skip_stop]
    exact lt_of_lt_of_le hst (le_skip_start (List.mem_filter.1 ht).2)

end Cut

section Size

/-- The size is the sum of the sizes of the segments. -/
theorem size_cons (s : Segment) (l : List Segment) : size ⟨s :: l⟩ = s.size + size ⟨l⟩ := rfl

/-- What lies before a position is found segment by segment. -/
theorem before_cons (s : Segment) (l : List Segment) (p : Position) :
    (before ⟨s :: l⟩ p).segments =
      if s.start < p then (if s.contains p then s.withLast (p.slot - 1) else s) :: (before ⟨l⟩ p).segments
      else (before ⟨l⟩ p).segments := by
  by_cases h : s.start < p <;> simp [before, h]

theorem after_cons (s : Segment) (l : List Segment) (p : Position) :
    (after ⟨s :: l⟩ p).segments =
      if s.contains p || decide (p ≤ s.start) then
        (if s.contains p then s.withFirst p.slot else s) :: (after ⟨l⟩ p).segments
      else (after ⟨l⟩ p).segments := by
  rw [after, after, List.filter_cons]
  split <;> rfl

/-- A cut divides the positions of a range between its two parts. -/
theorem size_before_add_size_after {r : LiveRange} (h : r.WellFormed) (p : Position) :
    (r.before p).size + (r.after p).size = r.size := by
  obtain ⟨segments⟩ := r
  induction segments with
  | nil => rfl
  | cons s l ih =>
    obtain ⟨hs, _, hl⟩ := wellFormed_cons.1 h
    have ih := ih hl
    have hb : size (before ⟨s :: l⟩ p) = size ⟨(before ⟨s :: l⟩ p).segments⟩ := rfl
    have ha : size (after ⟨s :: l⟩ p) = size ⟨(after ⟨s :: l⟩ p).segments⟩ := rfl
    rw [hb, ha, before_cons, after_cons, size_cons]
    have hb : size (before ⟨l⟩ p) = size ⟨(before ⟨l⟩ p).segments⟩ := rfl
    have ha : size (after ⟨l⟩ p) = size ⟨(after ⟨l⟩ p).segments⟩ := rfl
    rw [hb, ha] at ih
    rcases lt_or_ge s.start p with hlt | hge
    · have hge : ¬p ≤ s.start := not_le.2 hlt
      by_cases hp : s.contains p = true
      · -- The position lies in the segment, which is cut in two.
        obtain ⟨_, hle⟩ := Segment.contains_iff.1 hp
        simp only [hp, hlt, Bool.true_or, if_true, size_cons, Segment.size, Segment.withLast, Segment.withFirst]
        simp only [Position.lt_def, Position.le_def, Segment.start, Segment.stop] at hlt hle
        omega
      · simp only [hp, hlt, hge, decide_false, Bool.or_false, Bool.false_eq_true, if_true, if_false, size_cons]
        omega
    · have hlt : ¬s.start < p := not_lt.2 hge
      by_cases hp : s.contains p = true
      · -- The segment starts at the position.
        obtain ⟨hle, _⟩ := Segment.contains_iff.1 hp
        have hslot : s.first = p.slot := (Position.eq_def.1 (le_antisymm hle hge)).2
        simp only [hp, hlt, Bool.true_or, if_true, if_false, size_cons, Segment.size, Segment.withFirst, ← hslot]
        omega
      · simp only [hp, hlt, hge, decide_true, Bool.or_true, Bool.false_eq_true, if_true, if_false, size_cons]
        omega

/-- A range that is not empty has a size. -/
theorem WellFormed.size_pos {r : LiveRange} (h : r.WellFormed) (hne : r.isEmpty = false) : 0 < r.size := by
  obtain ⟨segments⟩ := r
  cases segments with
  | nil => cases hne
  | cons s l =>
    have := (wellFormed_cons.1 h).1
    rw [size_cons, Segment.size]
    omega

end Size

section Meeting

/-- A position is the first that two ranges have in common, or they have none in common. -/
def IsFirstCommon (r s : LiveRange) : Option Position → Prop
  | some p => r.covers p ∧ s.covers p ∧ ∀ q, r.covers q → s.covers q → p ≤ q
  | none => r.Disjoint s

/-- The first common position depends on the common positions only. -/
theorem IsFirstCommon.congr {r s r' s' : LiveRange} {o : Option Position}
    (hcongr : ∀ q, (r.covers q = true ∧ s.covers q = true) ↔ (r'.covers q = true ∧ s'.covers q = true))
    (h : IsFirstCommon r s o) : IsFirstCommon r' s' o := by
  cases o with
  | none => exact fun q hr hs => h q ((hcongr q).2 ⟨hr, hs⟩).1 ((hcongr q).2 ⟨hr, hs⟩).2
  | some p =>
    obtain ⟨hr, hs, hle⟩ := h
    refine ⟨((hcongr p).1 ⟨hr, hs⟩).1, ((hcongr p).1 ⟨hr, hs⟩).2, fun q hr hs => ?_⟩
    exact hle q ((hcongr q).2 ⟨hr, hs⟩).1 ((hcongr q).2 ⟨hr, hs⟩).2

/-- Segments that overlap first do so at the later of their starts. -/
theorem overlap?_eq_some {s t c : Segment} (h : s.overlap? t = some c) :
    s.start ≤ c.start ∧ c.start ≤ s.stop ∧ t.start ≤ c.start ∧ c.start ≤ t.stop ∧
      ∀ q, s.start ≤ q → t.start ≤ q → c.start ≤ q := by
  rw [Segment.overlap?] at h
  split at h
  · rename_i hc
    obtain rfl := Option.some.inj h
    obtain ⟨hblock, hle⟩ := hc
    have hblock : @Eq Nat s.block t.block := hblock
    simp only [Position.le_def, Segment.start, Segment.stop, true_and]
    refine ⟨by omega, by omega, by omega, by omega, fun q hsq htq => by omega⟩
  · cases h

/-- Segments without overlap have no position in common. -/
theorem overlap?_eq_none {s t : Segment} (h : s.overlap? t = none) {q : Position} (hs : s.start ≤ q) (hs' : q ≤ s.stop)
    (ht : t.start ≤ q) : ¬q ≤ t.stop := by
  rw [Segment.overlap?] at h
  split at h
  · cases h
  · rename_i hc
    intro ht'
    apply hc
    simp only [Position.le_def, Segment.start, Segment.stop] at hs hs' ht ht'
    have hblock : @Eq Nat s.block t.block := by omega
    exact ⟨hblock, by omega⟩

/-- Walking two ranges in step finds the first position they have in common. -/
theorem meet_spec {ss ts : List Segment} (hs : WellFormed ⟨ss⟩) (ht : WellFormed ⟨ts⟩) :
    IsFirstCommon ⟨ss⟩ ⟨ts⟩ (Segment.meet ss ts) := by
  induction ss generalizing ts with
  | nil => exact fun q hq => absurd hq (by simp [covers_nil])
  | cons s ss ih =>
    induction ts with
    | nil => exact fun q _ => by simp [covers_nil]
    | cons t ts ih' =>
      obtain ⟨_, _, hss⟩ := wellFormed_cons.1 hs
      obtain ⟨_, _, hts⟩ := wellFormed_cons.1 ht
      rw [Segment.meet, Segment.meetOne]
      split
      · rename_i c hc
        obtain ⟨h1, h2, h3, h4, hleast⟩ := overlap?_eq_some hc
        refine ⟨covers_cons.2 (.inl ⟨h1, h2⟩), covers_cons.2 (.inl ⟨h3, h4⟩), fun q hq hq' => ?_⟩
        exact hleast q (hs.start_le_of_covers hq) (ht.start_le_of_covers hq')
      · rename_i hc
        split
        · -- The first segment of the left range is over first: it meets nothing on the right.
          rename_i hlt
          refine (ih hss ht).congr fun q => ⟨fun h => ⟨covers_cons.2 (.inr h.1), h.2⟩, fun h => ⟨?_, h.2⟩⟩
          rcases covers_cons.1 h.1 with hq | hq
          · rcases covers_cons.1 h.2 with hq' | hq'
            · exact absurd hq'.2 (overlap?_eq_none hc hq.1 hq.2 hq'.1)
            · exact absurd (lt_of_le_of_lt hq.2 (lt_trans hlt (ht.lt_of_covers hq'))) (lt_irrefl q)
          · exact hq
        · -- The first segment of the right range is over first.
          rename_i hge
          refine (ih' hts).congr fun q => ⟨fun h => ⟨h.1, covers_cons.2 (.inr h.2)⟩, fun h => ⟨h.1, ?_⟩⟩
          rcases covers_cons.1 h.2 with hq' | hq'
          · rcases covers_cons.1 h.1 with hq | hq
            · exact absurd hq'.2 (overlap?_eq_none hc hq.1 hq.2 hq'.1)
            · exact absurd (lt_of_le_of_lt (le_trans hq'.2 (not_lt.1 hge)) (hs.lt_of_covers hq)) (lt_irrefl q)
          · exact hq'

/-- Dropping segments at the front keeps a range well formed. -/
theorem WellFormed.dropWhile {l : List Segment} (h : WellFormed ⟨l⟩) (g : Segment → Bool) :
    WellFormed ⟨l.dropWhile g⟩ :=
  ⟨fun s hs => h.bounds s ((List.dropWhile_suffix g).subset hs), h.ordered.sublist (List.dropWhile_suffix g).sublist⟩

/-- Segments that stop before a position do not matter from there on. -/
theorem covers_dropWhile {l : List Segment} {m q : Position} (hq : m ≤ q) :
    covers ⟨l.dropWhile (fun t => t.stop < m)⟩ q = true ↔ covers ⟨l⟩ q = true := by
  induction l with
  | nil => rfl
  | cons s l ih =>
    rw [List.dropWhile_cons]
    split
    · rename_i hlt
      rw [ih, covers_cons]
      refine ⟨.inr, fun h => h.resolve_left fun h => ?_⟩
      exact absurd (lt_of_le_of_lt (le_trans hq h.2) (of_decide_eq_true hlt)) (lt_irrefl m)
    · rfl

/-- The first meeting of two ranges is the least position that both cover, and there is none if they are disjoint. -/
theorem firstMeeting_spec {r s : LiveRange} (hr : r.WellFormed) (hs : s.WellFormed) :
    IsFirstCommon r s (r.firstMeeting s) := by
  rw [firstMeeting]
  split
  · rename_i p q hp hq
    have hspec := meet_spec (hr.dropWhile (fun t => t.stop < p.later q)) (hs.dropWhile (fun t => t.stop < p.later q))
    have hlater : ∀ x, r.covers x → s.covers x → p.later q ≤ x := by
      intro x hrx hsx
      exact Position.later_le_iff.2 ⟨(hr.start?_eq_some hp).2 x hrx, (hs.start?_eq_some hq).2 x hsx⟩
    -- What is left out on one side of the later start is not common to both.
    cases hm : Segment.meet (r.segments.dropWhile (fun t => t.stop < p.later q))
      (s.segments.dropWhile (fun t => t.stop < p.later q)) with
    | none =>
      rw [hm] at hspec
      exact fun x hrx hsx => hspec x ((covers_dropWhile (hlater x hrx hsx)).2 hrx)
        ((covers_dropWhile (hlater x hrx hsx)).2 hsx)
    | some c =>
      rw [hm] at hspec
      obtain ⟨hrc, hsc, hle⟩ := hspec
      have hsub : ∀ {l : List Segment} {g : Segment → Bool}, covers ⟨l.dropWhile g⟩ c → covers ⟨l⟩ c := by
        intro l g h
        obtain ⟨x, hx, hc⟩ := covers_iff.1 h
        exact covers_iff.2 ⟨x, (List.dropWhile_suffix g).subset hx, hc⟩
      exact ⟨hsub hrc, hsub hsc, fun x hrx hsx => hle x ((covers_dropWhile (hlater x hrx hsx)).2 hrx)
        ((covers_dropWhile (hlater x hrx hsx)).2 hsx)⟩
  · rename_i hnone
    -- One of the two has no start, hence no segment.
    intro x hrx hsx
    obtain ⟨a, ha, _⟩ := covers_iff.1 hrx
    obtain ⟨b, hb, _⟩ := covers_iff.1 hsx
    obtain ⟨p, hp⟩ : ∃ p, r.start? = some p := by
      cases hl : r.segments with
      | nil => simp [hl] at ha
      | cons c l => exact ⟨c.start, by simp [start?, hl]⟩
    obtain ⟨q, hq⟩ : ∃ q, s.start? = some q := by
      cases hl : s.segments with
      | nil => simp [hl] at hb
      | cons c l => exact ⟨c.start, by simp [start?, hl]⟩
    exact hnone p q hp hq

end Meeting

section Union

/-- The positions of two segments do not mix: one segment lies before the other. -/
def Apart (s t : Segment) : Prop := s.stop < t.start ∨ t.stop < s.start

theorem Apart.symm {s t : Segment} (h : Apart s t) : Apart t s := Or.symm h

/-- Segments without a common position lie apart. -/
theorem apart_of_no_common {s t : Segment} (hs : s.first ≤ s.last) (ht : t.first ≤ t.last)
    (h : ∀ q, s.start ≤ q → q ≤ s.stop → t.start ≤ q → ¬q ≤ t.stop) : Apart s t := by
  have hs := Segment.start_le_stop hs
  have ht := Segment.start_le_stop ht
  rcases le_total s.start t.start with hle | hle
  · refine .inl (not_le.1 fun hle' => ?_)
    exact h t.start hle hle' le_rfl ht
  · refine .inr (not_le.1 fun hle' => ?_)
    exact h s.start le_rfl hs hle hle'

/-- Segments that lie apart and are in the order of their starts make a well-formed range. -/
theorem wellFormed_of_ascending {l : List Segment} (hb : ∀ s ∈ l, s.first ≤ s.last) (ha : l.Pairwise Apart)
    (ho : Ascending Segment.start l) : WellFormed ⟨l⟩ := by
  refine ⟨hb, (ha.and ho).imp_of_mem fun {s t} _ ht h => ?_⟩
  obtain ⟨hlt | hlt, hst⟩ := h
  · exact hlt
  · exact absurd (lt_of_le_of_lt (Segment.start_le_stop (hb t ht)) hlt) (not_lt.2 (le_of_lt hst))

variable {r s : LiveRange}

/-- The segments of two disjoint ranges lie apart. -/
theorem apart_append (hr : r.WellFormed) (hs : s.WellFormed) (hd : r.Disjoint s) :
    (s.segments ++ r.segments).Pairwise Apart := by
  refine List.pairwise_append.2 ⟨hs.ordered.imp .inl, hr.ordered.imp .inl, fun x hx y hy => ?_⟩
  refine apart_of_no_common (hs.bounds x hx) (hr.bounds y hy) fun q h1 h2 h3 h4 => ?_
  exact hd q (covers_iff.2 ⟨y, hy, h3, h4⟩) (covers_iff.2 ⟨x, hx, h1, h2⟩)

/-- Merging the segments of disjoint ranges keeps them all, in order. -/
theorem merge_spec (hr : r.WellFormed) (hs : s.WellFormed) (hd : r.Disjoint s) :
    (insertAllBy Segment.start s.segments r.segments).Perm (s.segments ++ r.segments) ∧
      WellFormed ⟨insertAllBy Segment.start s.segments r.segments⟩ := by
  have ha := apart_append hr hs hd
  have hb : ∀ x ∈ s.segments ++ r.segments, x.first ≤ x.last := by
    intro x hx
    rcases List.mem_append.1 hx with hx | hx
    · exact hs.bounds x hx
    · exact hr.bounds x hx
  have hperm : (insertAllBy Segment.start s.segments r.segments).Perm (s.segments ++ r.segments) := by
    refine insertAllBy_perm (List.pairwise_map.2 (ha.imp_of_mem fun {x y} hx hy h heq => ?_))
    have hx := Segment.start_le_stop (hb x hx)
    have hy := Segment.start_le_stop (hb y hy)
    rcases h with h | h
    · exact absurd (lt_of_le_of_lt hx h) (heq ▸ lt_irrefl _)
    · exact absurd (lt_of_le_of_lt hy h) (heq ▸ lt_irrefl _)
  have hasc : Ascending Segment.start r.segments := hr.ordered.imp_of_mem fun {x y} hx _ h =>
    lt_of_le_of_lt (Segment.start_le_stop (hr.bounds x hx)) h
  refine ⟨hperm, wellFormed_of_ascending (fun x hx => hb x (hperm.subset hx)) ?_ (ascending_insertAllBy hasc)⟩
  exact (hperm.pairwise_iff (fun h => Apart.symm h)).2 ha

/-- Joining segments that touch changes neither what is covered nor where the first one starts. -/
theorem fuse_spec {l : List Segment} (h : WellFormed ⟨l⟩) :
    WellFormed ⟨Segment.fuse l⟩ ∧ (∀ p, covers ⟨Segment.fuse l⟩ p = true ↔ covers ⟨l⟩ p = true) ∧
      (Segment.fuse l).head?.map Segment.start = l.head?.map Segment.start := by
  induction l with
  | nil => exact ⟨h, fun _ => Iff.rfl, rfl⟩
  | cons s l ih =>
    obtain ⟨hs, hsl, hl⟩ := wellFormed_cons.1 h
    obtain ⟨ihwf, ihcov, ihhead⟩ := ih hl
    have hlt : ∀ q, covers ⟨Segment.fuse l⟩ q → s.stop < q := fun q hq => h.lt_of_covers ((ihcov q).1 hq)
    have hcov : ∀ p, covers ⟨s :: Segment.fuse l⟩ p = true ↔ covers ⟨s :: l⟩ p = true := by
      intro p
      rw [covers_cons, covers_cons, ihcov]
    rw [Segment.fuse]
    cases hf : Segment.fuse l with
    | nil =>
      rw [hf] at hcov
      exact ⟨wellFormed_cons.2 ⟨hs, by simp, wellFormed_nil⟩, hcov, rfl⟩
    | cons t more =>
      rw [hf] at ihwf hlt hcov
      obtain ⟨ht, htm, hmore⟩ := wellFormed_cons.1 ihwf
      have hst : s.stop < t.start := hlt t.start (ihwf.start?_eq_some rfl).1
      dsimp only
      split
      · -- The joined segment covers the slots of both, which follow each other.
        rename_i htouch
        obtain ⟨hblock, hnext⟩ : @Eq Nat s.block t.block ∧ s.last + 1 = t.first := by
          simpa [Segment.touches] using htouch
        have hjoin : ∀ p, (s.start ≤ p ∧ p ≤ (s.withLast t.last).stop) ↔
            (s.start ≤ p ∧ p ≤ s.stop) ∨ (t.start ≤ p ∧ p ≤ t.stop) := by
          intro p
          simp only [Position.le_def, Segment.start, Segment.stop, Segment.withLast]
          omega
        refine ⟨wellFormed_cons.2 ⟨?_, fun x hx => ?_, hmore⟩, fun p => ?_, rfl⟩
        · simp only [Segment.withLast]
          omega
        · have := htm x hx
          simp only [Position.lt_def, Segment.start, Segment.stop, Segment.withLast] at this ⊢
          omega
        · rw [← hcov, covers_cons, covers_cons, covers_cons, ← or_assoc, ← hjoin]
          rfl
      · refine ⟨wellFormed_cons.2 ⟨hs, fun x hx => ?_, ihwf⟩, hcov, rfl⟩
        rcases List.mem_cons.1 hx with rfl | hx
        · exact hst
        · exact lt_of_lt_of_le hst (le_of_lt (lt_of_le_of_lt (Segment.start_le_stop ht) (htm x hx)))

/-- The union of disjoint ranges is well formed. -/
theorem WellFormed.union (hr : r.WellFormed) (hs : s.WellFormed) (hd : r.Disjoint s) : (r.union s).WellFormed :=
  (fuse_spec (merge_spec hr hs hd).2).1

/-- The union of disjoint ranges covers what either of them covers. -/
theorem covers_union (hr : r.WellFormed) (hs : s.WellFormed) (hd : r.Disjoint s) {p : Position} :
    (r.union s).covers p = true ↔ r.covers p = true ∨ s.covers p = true := by
  obtain ⟨hperm, hwf⟩ := merge_spec hr hs hd
  refine ((fuse_spec hwf).2.1 p).trans ?_
  simp only [covers_iff, hperm.mem_iff, List.mem_append, or_and_right, exists_or]
  exact or_comm

end Union

end LiveRange

end RegAlloc
