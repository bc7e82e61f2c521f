import RegAlloc.Proofs.LiveRange

/-!
# Pieces that tile intervals

`Tiles whole pieces` says that a list of pieces divides a list of intervals: the pieces of one register lie one before
the other, in what they cover and in their sites, together they cover each position as often as the intervals do, and
they share out the sites. It does not depend on the order of the pieces. Cutting a piece in two keeps it
(`Tiles.cut`), and so does joining neighbours that hold no site (`joinIdle_tiles`).
-/

namespace RegAlloc

namespace Interval

/-- The range is well formed, and there is at most one site at a position. -/
structure WellFormed (i : Interval) : Prop where
  range : i.range.WellFormed
  sites : Ascending Site.position i.sites

/-- A well-formed interval that covers something. -/
structure Live (i : Interval) : Prop extends WellFormed i where
  nonempty : i.range.isEmpty = false

/-- Every site is at a position that the interval covers. -/
def Inside (i : Interval) : Prop := ∀ s ∈ i.sites, i.covers s.position

variable {i j : Interval} {p q : Position}

/-- The start of an interval is that of its range. -/
theorem Live.start?_eq (h : i.Live) : i.range.start? = some i.start := by
  rw [start, LiveRange.start?]
  cases hs : i.range.segments with
  | nil => exact absurd hs (LiveRange.isEmpty_eq_false_iff.1 h.nonempty)
  | cons s l => rfl

/-- The end of an interval is that of its range. -/
theorem Live.stop?_eq (h : i.Live) : i.range.stop? = some i.stop := by
  rw [stop, LiveRange.stop?]
  have hne := LiveRange.isEmpty_eq_false_iff.1 h.nonempty
  rw [List.getLast?_eq_some_getLast hne]
  rfl

theorem Live.covers_start (h : i.Live) : i.covers i.start := (h.range.start?_eq_some h.start?_eq).1

theorem Live.start_le (h : i.Live) (hp : i.covers p) : i.start ≤ p := (h.range.start?_eq_some h.start?_eq).2 p hp

theorem Live.covers_stop (h : i.Live) : i.covers i.stop := (h.range.stop?_eq_some h.stop?_eq).1

theorem Live.le_stop (h : i.Live) (hp : i.covers p) : p ≤ i.stop := (h.range.stop?_eq_some h.stop?_eq).2 p hp

/-- An interval does not end before it starts. -/
theorem Live.start_le_stop (h : i.Live) : i.start ≤ i.stop := h.start_le h.covers_stop

/-- An interval that covers something is live. -/
theorem live_of_covers (h : i.WellFormed) (hp : i.covers p) : i.Live :=
  ⟨h, h.range.isEmpty_eq_false_iff_covers.2 ⟨p, hp⟩⟩

/-- All of the first interval lies before all of the second. -/
structure Before (i j : Interval) : Prop where
  range : i.stop < j.start
  sites : ∀ x ∈ i.sites, ∀ y ∈ j.sites, x.position < y.position

/-- What lies before a position covers what is covered before it. -/
theorem covers_before : (i.before p).covers q = true ↔ i.covers q = true ∧ q < p := LiveRange.covers_before

/-- What lies after a position covers what is covered from it on. -/
theorem covers_after : (i.after p).covers q = true ↔ i.covers q = true ∧ p ≤ q := LiveRange.covers_after

/-- Where a cut succeeds, and what its two parts are. -/
theorem splitBefore_eq_ok {a b : Interval} :
    i.splitBefore p = .ok (a, b) ↔ i.start < p ∧ p ≤ i.stop ∧ a = i.before p ∧ b = i.after p := by
  rw [splitBefore]
  split_ifs with h
  · simp only [false_iff]
    rintro ⟨h1, h2, _⟩
    rcases h with h | h
    · exact absurd h1 (not_lt.2 h)
    · exact absurd h (not_lt.2 h2)
  · rw [not_or, not_le, not_lt] at h
    rw [Except.ok.injEq, Prod.mk.injEq]
    exact ⟨fun ⟨ha, hb⟩ => ⟨h.1, h.2, ha.symm, hb.symm⟩, fun ⟨_, _, ha, hb⟩ => ⟨ha.symm, hb.symm⟩⟩

/-- What lies before a position of a well-formed interval is well formed. -/
theorem WellFormed.before (h : i.WellFormed) (p : Position) : (i.before p).WellFormed :=
  ⟨h.range.before p, h.sites.filter _⟩

theorem WellFormed.after (h : i.WellFormed) (p : Position) : (i.after p).WellFormed :=
  ⟨h.range.after p, h.sites.filter _⟩

/-- Before a position after the start, something is left. -/
theorem Live.before (h : i.Live) (hp : i.start < p) : (i.before p).Live :=
  live_of_covers (h.toWellFormed.before p) (covers_before.2 ⟨h.covers_start, hp⟩)

/-- From a position up to the end on, something is left. -/
theorem Live.after (h : i.Live) (hp : p ≤ i.stop) : (i.after p).Live :=
  live_of_covers (h.toWellFormed.after p) (covers_after.2 ⟨h.covers_stop, hp⟩)

/-- The first part starts where the interval does. -/
theorem Live.start_before (h : i.Live) (hp : i.start < p) : (i.before p).start = i.start := by
  have hb := h.before hp
  apply le_antisymm
  · exact hb.start_le (covers_before.2 ⟨h.covers_start, hp⟩)
  · exact h.start_le (covers_before.1 hb.covers_start).1

/-- The first part ends before the position. -/
theorem Live.stop_before_lt (h : i.Live) (hp : i.start < p) : (i.before p).stop < p :=
  (covers_before.1 (h.before hp).covers_stop).2

/-- The first part ends no later than the interval. -/
theorem Live.stop_before_le (h : i.Live) (hp : i.start < p) : (i.before p).stop ≤ i.stop :=
  h.le_stop (covers_before.1 (h.before hp).covers_stop).1

/-- The second part starts at the position or later. -/
theorem Live.le_start_after (h : i.Live) (hp : p ≤ i.stop) : p ≤ (i.after p).start :=
  (covers_after.1 (h.after hp).covers_start).2

/-- The second part starts no earlier than the interval. -/
theorem Live.start_le_start_after (h : i.Live) (hp : p ≤ i.stop) : i.start ≤ (i.after p).start :=
  h.start_le (covers_after.1 (h.after hp).covers_start).1

/-- The second part ends where the interval does. -/
theorem Live.stop_after (h : i.Live) (hp : p ≤ i.stop) : (i.after p).stop = i.stop := by
  have ha := h.after hp
  apply le_antisymm
  · exact h.le_stop (covers_after.1 ha.covers_stop).1
  · exact ha.le_stop (covers_after.2 ⟨h.covers_stop, hp⟩)

/-- The two parts of a cut lie one before the other. -/
theorem Live.before_before_after (h : i.Live) (hs : i.start < p) (hp : p ≤ i.stop) :
    (i.before p).Before (i.after p) := by
  refine ⟨lt_of_lt_of_le (h.stop_before_lt hs) (h.le_start_after hp), fun x hx y hy => ?_⟩
  have hx : x.position < p := by simpa using (List.mem_filter.1 hx).2
  have hy : p ≤ y.position := by simpa using (List.mem_filter.1 hy).2
  exact lt_of_lt_of_le hx hy

/-- What lies on one side of an interval lies on that side of its two parts. -/
theorem Before.cut_right (h : j.Before i) (hi : i.Live) (hs : i.start < p) (hp : p ≤ i.stop) :
    j.Before (i.before p) ∧ j.Before (i.after p) := by
  refine ⟨⟨?_, fun x hx y hy => h.sites x hx y (List.mem_filter.1 hy).1⟩,
    ⟨lt_of_lt_of_le h.range (hi.start_le_start_after hp), fun x hx y hy => h.sites x hx y (List.mem_filter.1 hy).1⟩⟩
  rw [hi.start_before hs]
  exact h.range

/-- Both parts of an interval lie before what the interval lies before. -/
theorem Before.cut_left (h : i.Before j) (hi : i.Live) (hs : i.start < p) (hp : p ≤ i.stop) :
    (i.before p).Before j ∧ (i.after p).Before j := by
  refine ⟨⟨lt_of_le_of_lt (hi.stop_before_le hs) h.range, fun x hx => h.sites x (List.mem_filter.1 hx).1⟩,
    ⟨?_, fun x hx => h.sites x (List.mem_filter.1 hx).1⟩⟩
  rw [hi.stop_after hp]
  exact h.range

/-- Sites of the first part lie where it is live. -/
theorem Inside.before (h : i.Inside) (p : Position) : (i.before p).Inside := by
  intro s hs
  obtain ⟨hs, hlt⟩ := List.mem_filter.1 hs
  exact covers_before.2 ⟨h s hs, by simpa using hlt⟩

theorem Inside.after (h : i.Inside) (p : Position) : (i.after p).Inside := by
  intro s hs
  obtain ⟨hs, hle⟩ := List.mem_filter.1 hs
  exact covers_after.2 ⟨h s hs, by simpa using hle⟩

/-- One interval lies before the other. -/
def Apart (i j : Interval) : Prop := i.Before j ∨ j.Before i

theorem Apart.symm (h : i.Apart j) : j.Apart i := Or.symm h

/-- Both parts of an interval lie apart from what the interval lies apart from. -/
theorem Apart.cut (h : i.Apart j) (hi : i.Live) (hs : i.start < p) (hp : p ≤ i.stop) :
    (i.before p).Apart j ∧ (i.after p).Apart j := by
  rcases h with h | h
  · obtain ⟨hb, ha⟩ := h.cut_left hi hs hp
    exact ⟨.inl hb, .inl ha⟩
  · obtain ⟨hb, ha⟩ := h.cut_right hi hs hp
    exact ⟨.inr hb, .inr ha⟩

/-- A cut divides the sites between the two parts. -/
theorem sites_before_append_sites_after_perm (i : Interval) (p : Position) :
    ((i.before p).sites ++ (i.after p).sites).Perm i.sites := by
  have hnot : (fun s : Site => decide (p ≤ s.position)) = fun s => !decide (s.position < p) := by
    funext s
    rw [← decide_not]
    simp only [not_lt]
  rw [before, after, hnot]
  exact List.filter_append_perm _ _

end Interval

/-- The number of positions that intervals cover. -/
def totalSize (l : List Interval) : Nat := l.foldr (fun i n => i.range.size + n) 0

/-- The total size is the sum of the sizes. -/
@[simp] theorem totalSize_cons (i : Interval) (l : List Interval) : totalSize (i :: l) = i.range.size + totalSize l :=
  rfl

/-- Intervals that all cover something are no more than the positions they cover. -/
theorem length_le_totalSize {l : List Interval} (hl : ∀ x ∈ l, 0 < x.range.size) : l.length ≤ totalSize l := by
  induction l with
  | nil => exact Nat.le_refl 0
  | cons x l ih =>
    have hx := hl x List.mem_cons_self
    have hl := ih fun y hy => hl y (List.mem_cons_of_mem _ hy)
    rw [List.length_cons, totalSize_cons]
    omega

/-- The total size does not depend on the order. -/
theorem totalSize_perm {l l' : List Interval} (h : l.Perm l') : totalSize l = totalSize l' := by
  induction h with
  | nil => rfl
  | cons i _ ih => simp [ih]
  | swap i j l =>
    simp only [totalSize_cons]
    omega
  | trans _ _ ih ih' => exact ih.trans ih'

/-- The pieces divide the intervals `whole`. -/
structure Tiles (whole pieces : List Interval) : Prop where
  live : ∀ x ∈ pieces, x.Live
  /-- Pieces of one register lie one before the other. -/
  apart : pieces.Pairwise (fun x y => x.register = y.register → x.Apart y)
  /-- Each position is covered as often as before. -/
  covers : ∀ v p, pieces.countP (fun x => x.register = v && x.covers p) =
    whole.countP (fun x => x.register = v && x.covers p)
  /-- No site is lost, and none is added. -/
  sites : ∀ v, ((pieces.filter (fun x => x.register = v)).flatMap Interval.sites).Perm
    ((whole.filter (fun x => x.register = v)).flatMap Interval.sites)
  /-- The pieces cover as many positions as the intervals. -/
  size : totalSize pieces = totalSize whole
  /-- A site stays with the piece that covers it. -/
  inside : ∀ v, (∀ x ∈ whole, x.register = v → x.Inside) → ∀ x ∈ pieces, x.register = v → x.Inside

namespace Tiles

variable {whole pieces rest : List Interval} {x : Interval} {p : Position}

/-- A piece is one of an interval of the same register. -/
theorem exists_whole (h : Tiles whole pieces) {x : Interval} (hx : x ∈ pieces) :
    ∃ i ∈ whole, i.register = x.register := by
  have hpos : 0 < pieces.countP (fun y => y.register = x.register && y.covers x.start) :=
    List.countP_pos_iff.2 ⟨x, hx, by simp [(h.live x hx).covers_start]⟩
  rw [h.covers] at hpos
  obtain ⟨i, hi, hand⟩ := List.countP_pos_iff.1 hpos
  exact ⟨i, hi, of_decide_eq_true (Bool.and_eq_true_iff.1 hand).1⟩

/-- A division does not depend on the order of the pieces. -/
theorem perm {pieces' : List Interval} (h : Tiles whole pieces) (hperm : pieces'.Perm pieces) :
    Tiles whole pieces' where
  live x hx := h.live x (hperm.subset hx)
  apart := (hperm.pairwise_iff (fun hxy heq => (hxy heq.symm).symm)).2 h.apart
  covers v p := (hperm.countP_eq _).trans (h.covers v p)
  sites v := ((hperm.filter _).flatMap_right _).trans (h.sites v)
  size := (totalSize_perm hperm).trans h.size
  inside v hv x hx := h.inside v hv x (hperm.subset hx)

/-- Cutting one of the pieces in two. -/
theorem cut (h : Tiles whole (x :: rest)) (hs : x.start < p) (hp : p ≤ x.stop) :
    Tiles whole (x.before p :: x.after p :: rest) := by
  have hx : x.Live := h.live x List.mem_cons_self
  obtain ⟨hxr, hrest⟩ := List.pairwise_cons.1 h.apart
  constructor
  case live =>
    intro y hy
    rcases List.mem_cons.1 hy with rfl | hy
    · exact hx.before hs
    rcases List.mem_cons.1 hy with rfl | hy
    · exact hx.after hp
    · exact h.live y (List.mem_cons_of_mem _ hy)
  case apart =>
    refine List.pairwise_cons.2 ⟨fun y hy heq => ?_, List.pairwise_cons.2 ⟨fun y hy heq => ?_, hrest⟩⟩
    · rcases List.mem_cons.1 hy with rfl | hy
      · exact .inl (hx.before_before_after hs hp)
      · exact ((hxr y hy heq).cut hx hs hp).1
    · exact ((hxr y hy heq).cut hx hs hp).2
  case covers =>
    intro v q
    rw [← h.covers v q, List.countP_cons, List.countP_cons, List.countP_cons]
    have hb : (x.before p).covers q = (x.covers q && decide (q < p)) := by
      rw [Bool.eq_iff_iff, Interval.covers_before, Bool.and_eq_true, decide_eq_true_eq]
    have ha : (x.after p).covers q = (x.covers q && decide (p ≤ q)) := by
      rw [Bool.eq_iff_iff, Interval.covers_after, Bool.and_eq_true, decide_eq_true_eq]
    have hreg : (x.before p).register = x.register ∧ (x.after p).register = x.register := ⟨rfl, rfl⟩
    rw [hb, ha, hreg.1, hreg.2]
    -- The position is covered by the part on its side of the cut.
    rcases lt_or_ge q p with hq | hq
    · simp [hq, not_le.2 hq]
    · simp [hq, not_lt.2 hq]
  case sites =>
    intro v
    refine List.Perm.trans ?_ (h.sites v)
    have hreg : (x.before p).register = x.register ∧ (x.after p).register = x.register := ⟨rfl, rfl⟩
    by_cases hv : x.register = v
    · simp only [List.filter_cons, hreg.1, hreg.2, hv, decide_true, if_true, List.flatMap_cons, ← List.append_assoc]
      exact (x.sites_before_append_sites_after_perm p).append_right _
    · simp only [List.filter_cons, hreg.1, hreg.2, hv, decide_false, Bool.false_eq_true, if_false]
      exact .refl _
  case size =>
    rw [← h.size, totalSize_cons, totalSize_cons, totalSize_cons, ← Nat.add_assoc]
    exact congrArg (· + _) (LiveRange.size_before_add_size_after hx.range p)
  case inside =>
    intro v hv y hy hyv
    rcases List.mem_cons.1 hy with rfl | hy
    · exact (h.inside v hv x List.mem_cons_self hyv).before p
    rcases List.mem_cons.1 hy with rfl | hy
    · exact (h.inside v hv x List.mem_cons_self hyv).after p
    · exact h.inside v hv y (List.mem_cons_of_mem _ hy) hyv

end Tiles

/-- The pieces divide one interval and are in order. -/
structure Divides (i : Interval) (pieces : List Interval) : Prop where
  live : ∀ x ∈ pieces, x.Live
  ordered : pieces.Pairwise Interval.Before
  covers : ∀ p, pieces.countP (fun x => x.covers p) = if i.covers p then 1 else 0
  sites : pieces.flatMap Interval.sites = i.sites
  inside : i.Inside → ∀ x ∈ pieces, x.Inside

/-- The sites of pieces that follow each other are in order. -/
theorem ascending_flatMap_sites {l : List Interval} (hl : ∀ x ∈ l, x.Live) (ho : l.Pairwise Interval.Before) :
    Ascending Site.position (l.flatMap Interval.sites) := by
  induction l with
  | nil => exact List.Pairwise.nil
  | cons x l ih =>
    obtain ⟨hx, hol⟩ := List.pairwise_cons.1 ho
    rw [List.flatMap_cons]
    refine List.pairwise_append.2 ⟨(hl x List.mem_cons_self).sites, ?_, fun a ha b hb => ?_⟩
    · exact ih (fun y hy => hl y (List.mem_cons_of_mem _ hy)) hol
    · obtain ⟨y, hy, hb⟩ := List.mem_flatMap.1 hb
      exact (hx y hy).sites a ha b hb

/-- The pieces of a register that has one interval, in the order of their starts, divide that interval. -/
theorem Tiles.divides {whole pieces l : List Interval} {i : Interval} (h : Tiles whole pieces) (hi : i.WellFormed)
    (hwhole : whole.filter (fun x => x.register = i.register) = [i])
    (hl : l.Perm (pieces.filter (fun x => x.register = i.register)))
    (ho : l.Pairwise (fun x y => ¬y.start < x.start)) : Divides i l := by
  have hlive : ∀ x ∈ l, x.Live := fun x hx => h.live x (List.mem_filter.1 (hl.subset hx)).1
  have hcount : ∀ (l' : List Interval) (p : Position),
      l'.countP (fun x => decide (x.register = i.register) && x.covers p) =
        (l'.filter (fun x => x.register = i.register)).countP (fun x => x.covers p) := by
    intro l' p
    rw [List.countP_filter]
    exact List.countP_congr fun x _ => by rw [Bool.and_comm]
  have hapart : l.Pairwise Interval.Apart := by
    refine (hl.pairwise_iff (fun h => h.symm)).2 ((h.apart.filter _).imp_of_mem fun {x y} hx hy hxy => hxy ?_)
    have hx : x.register = i.register := by simpa using (List.mem_filter.1 hx).2
    have hy : y.register = i.register := by simpa using (List.mem_filter.1 hy).2
    rw [hx, hy]
  have hord : l.Pairwise Interval.Before := by
    refine (hapart.and ho).imp_of_mem fun {x y} _ hy hxy => hxy.1.resolve_right fun hyx => hxy.2 ?_
    exact lt_of_le_of_lt (hlive y hy).start_le_stop hyx.range
  refine ⟨hlive, hord, fun p => ?_, ?_, fun hin x hx => ?_⟩
  · rw [hl.countP_eq, ← hcount, h.covers, hcount, hwhole]
    simp [List.countP_cons]
  · have hsites := h.sites i.register
    rw [hwhole, List.flatMap_cons, List.flatMap_nil, List.append_nil] at hsites
    refine ((hl.flatMap_right _).trans hsites).eq_of_pairwise ?_ (ascending_flatMap_sites hlive hord) hi.sites
    exact fun a b _ _ hab hba => absurd (lt_trans hab hba) (lt_irrefl _)
  · obtain ⟨hx, hreg⟩ := List.mem_filter.1 (hl.subset hx)
    refine h.inside i.register (fun y hy hyi => ?_) x hx (by simpa using hreg)
    have hmem : y ∈ whole.filter (fun x => x.register = i.register) := List.mem_filter.2 ⟨hy, by simpa using hyi⟩
    rw [hwhole, List.mem_singleton] at hmem
    rwa [hmem]

section Join

variable {i j : Interval} {p : Position}

/-- Intervals of which one lies before the other are disjoint. -/
theorem Interval.Before.disjoint (hi : i.Live) (hj : j.Live) (h : i.Before j) : i.range.Disjoint j.range :=
  fun _ hp hp' =>
  absurd (lt_of_le_of_lt (hi.le_stop hp) h.range) (not_lt.2 (hj.start_le hp'))

/-- The joined interval covers what the two cover. -/
theorem Interval.covers_join (hi : i.Live) (hj : j.Live) (h : i.Before j) :
    (i.join j).covers p = true ↔ i.covers p = true ∨ j.covers p = true :=
  LiveRange.covers_union hi.range hj.range (h.disjoint hi hj)

/-- Joining an interval without sites adds none. -/
theorem Interval.sites_join (hj : j.sites = []) : (i.join j).sites = i.sites := by
  rw [join, hj, List.foldl_nil]

theorem Interval.Live.join (hi : i.Live) (hj : j.Live) (h : i.Before j) (hs : j.sites = []) : (i.join j).Live := by
  have hwf : (i.join j).WellFormed := by
    refine ⟨hi.range.union hj.range (h.disjoint hi hj), ?_⟩
    rw [sites_join hs]
    exact hi.sites
  exact live_of_covers hwf ((covers_join hi hj h).2 (.inl hi.covers_start))

/-- The joined interval starts where the first one does. -/
theorem Interval.start_join (hi : i.Live) (hj : j.Live) (h : i.Before j) (hs : j.sites = []) :
    (i.join j).start = i.start := by
  have hlive := hi.join hj h hs
  apply le_antisymm
  · exact hlive.start_le ((covers_join hi hj h).2 (.inl hi.covers_start))
  · rcases (covers_join hi hj h).1 hlive.covers_start with hp | hp
    · exact hi.start_le hp
    · exact le_trans hi.start_le_stop (le_of_lt (lt_of_lt_of_le h.range (hj.start_le hp)))

theorem Interval.stop_join (hi : i.Live) (hj : j.Live) (h : i.Before j) (hs : j.sites = []) :
    (i.join j).stop = j.stop := by
  have hlive := hi.join hj h hs
  apply le_antisymm
  · rcases (covers_join hi hj h).1 hlive.covers_stop with hp | hp
    · exact le_of_lt (lt_of_le_of_lt (hi.le_stop hp) (lt_of_lt_of_le h.range hj.start_le_stop))
    · exact hj.le_stop hp
  · exact hlive.le_stop ((covers_join hi hj h).2 (.inr hj.covers_stop))

/-- Joining neighbours that hold no site. -/
theorem Divides.join {whole x y : Interval} {l m : List Interval} (h : Divides whole (l ++ x :: y :: m))
    (hx : x.sites = []) (hy : y.sites = []) : Divides whole (l ++ x.join y :: m) := by
  have hxl : x.Live := h.live x (by simp)
  have hyl : y.Live := h.live y (by simp)
  obtain ⟨hol, hom, hcross⟩ := List.pairwise_append.1 h.ordered
  obtain ⟨hxm, hym⟩ := List.pairwise_cons.1 hom
  obtain ⟨hym', hm⟩ := List.pairwise_cons.1 hym
  have hxy : x.Before y := hxm y List.mem_cons_self
  have hnil : (x.join y).sites = [] := (Interval.sites_join hy).trans hx
  constructor
  case live =>
    intro z hz
    rcases List.mem_append.1 hz with hz | hz
    · exact h.live z (by simp [hz])
    rcases List.mem_cons.1 hz with rfl | hz
    · exact hxl.join hyl hxy hy
    · exact h.live z (by simp [hz])
  case ordered =>
    refine List.pairwise_append.2 ⟨hol, List.pairwise_cons.2 ⟨fun z hz => ⟨?_, by simp [hnil]⟩, hm⟩,
      fun a ha b hb => ?_⟩
    · rw [Interval.stop_join hxl hyl hxy hy]
      exact (hym' z hz).range
    · rcases List.mem_cons.1 hb with rfl | hb
      · refine ⟨?_, by simp [hnil]⟩
        rw [Interval.start_join hxl hyl hxy hy]
        exact (hcross a ha x (by simp)).range
      · exact hcross a ha b (by simp [hb])
  case covers =>
    intro p
    rw [← h.covers p]
    simp only [List.countP_append, List.countP_cons]
    have hjoin : (x.join y).covers p = (x.covers p || y.covers p) := by
      rw [Bool.eq_iff_iff, Interval.covers_join hxl hyl hxy, Bool.or_eq_true]
    have hdisj := hxy.disjoint hxl hyl p
    rw [hjoin]
    cases hpx : x.covers p <;> cases hpy : y.covers p <;> simp
    exact hdisj hpx hpy
  case sites =>
    rw [← h.sites]
    simp [hnil, hx, hy]
  case inside =>
    intro hin z hz
    rcases List.mem_append.1 hz with hz | hz
    · exact h.inside hin z (by simp [hz])
    rcases List.mem_cons.1 hz with rfl | hz
    · simp [Interval.Inside, hnil]
    · exact h.inside hin z (by simp [hz])

/-- The final joining of neighbours without sites keeps the splits a division of their interval. -/
theorem Divides.joinIdle {whole : Interval} {xs : List Split} {idle : Option Split} {l : List Interval}
    (hidle : ∀ y ∈ idle, y.interval.sites = []) (h : Divides whole (l ++ (idle.toList ++ xs).map Split.interval)) :
    Divides whole (l ++ (Allocation.joinIdle idle xs).map Split.interval) := by
  induction xs generalizing idle l with
  | nil => simpa [Allocation.joinIdle] using h
  | cons x rest ih =>
    unfold Allocation.joinIdle
    split_ifs with hx
    · -- A split with sites stays as it is, and so does what was joined before it.
      have hnext : Divides whole ((l ++ (idle.toList ++ [x]).map Split.interval) ++
          ((none : Option Split).toList ++ rest).map Split.interval) := by simpa using h
      simpa using ih (by simp) hnext
    · have hx : x.interval.sites = [] := by simpa [Interval.hasSites] using hx
      cases idle with
      | none => exact ih (by simpa using hx) (by simpa using h)
      | some y =>
        have hy : y.interval.sites = [] := hidle y rfl
        have hnil : (y.interval.join x.interval).sites = [] := (Interval.sites_join hx).trans hy
        refine ih (by simpa using hnil) ?_
        have hjoin := Divides.join (x := y.interval) (y := x.interval)
          (m := rest.map Split.interval) (by simpa using h) hy hx
        simpa using hjoin

end Join

end RegAlloc
