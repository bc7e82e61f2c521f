import RegAlloc.Proofs.Canonical
import RegAlloc.Proofs.Tiling

/-!
# Cutting an interval into pieces and joining them

A cut is refused exactly if nothing of the interval lies on one side of it (`Interval.splitBefore_eq_error_iff`). Cut
as often as one likes, the pieces of an interval join to the interval that was cut, if no two of its segments touch
(`Interval.Cuts.joinAll_eq`): the joined range covers what the interval covers, and there is only one such range.
Joining goes from the first piece to the last, and cutting goes on in the last piece; `Interval.Cuts.foldl_join` is
what makes the two meet.
-/

namespace RegAlloc

namespace LiveRange

variable {r x : LiveRange} {p : Position}

/-- What lies before a position and what lies after it are disjoint. -/
theorem before_disjoint_after (r : LiveRange) (p : Position) : (r.before p).Disjoint (r.after p) := fun _ hb ha =>
  absurd (covers_before.1 hb).2 (not_lt.2 (covers_after.1 ha).2)

/-- A range covers what its two parts cover. -/
theorem covers_iff_before_or_after {q : Position} :
    r.covers q = true ↔ (r.before p).covers q = true ∨ (r.after p).covers q = true := by
  rw [covers_before, covers_after, ← and_or_left]
  exact ⟨fun h => ⟨h, lt_or_ge q p⟩, And.left⟩

/-- The two parts of a range without touching segments make up the range. -/
theorem before_union_after (h : r.WellFormed) (hsep : r.Separated) (p : Position) :
    (r.before p).union (r.after p) = r :=
  union_eq_of_covers (h.before p) (h.after p) (r.before_disjoint_after p) h hsep fun _ => covers_iff_before_or_after

/-- A range can be added in two parts. -/
theorem union_before_union_after (hx : x.WellFormed) (h : r.WellFormed) (hd : x.Disjoint r) (p : Position) :
    (x.union (r.before p)).WellFormed ∧ (x.union (r.before p)).Disjoint (r.after p) ∧
      (x.union (r.before p)).union (r.after p) = x.union r := by
  have hdb : x.Disjoint (r.before p) := fun q hq hb => hd q hq (covers_before.1 hb).1
  have hwf := hx.union (h.before p) hdb
  have hda : (x.union (r.before p)).Disjoint (r.after p) := by
    intro q hq ha
    rcases (covers_union hx (h.before p) hdb).1 hq with hq | hq
    · exact hd q hq (covers_after.1 ha).1
    · exact r.before_disjoint_after p q hq ha
  refine ⟨hwf, hda, union_eq_of_covers hwf (h.after p) hda (hx.union h hd) (union_separated hx h hd) fun q => ?_⟩
  rw [covers_union hx h hd, covers_union hx (h.before p) hdb, or_assoc, ← covers_iff_before_or_after]

end LiveRange

/-- An element that comes last is put at the end. -/
theorem insertBy_eq_append {α κ : Type} [LT κ] [DecidableLT κ] [DecidableEq κ] [IsStrictTotalOrder κ (· < ·)]
    {key : α → κ} {a : α} {l : List α} (h : ∀ b ∈ l, key b < key a) : insertBy key a l = l ++ [a] := by
  induction l with
  | nil => rfl
  | cons b l ih =>
    have hb := h b List.mem_cons_self
    rw [insertBy, if_neg (asymm_of (· < ·) hb), if_neg (ne_of_irrefl hb).symm, ih fun c hc =>
      h c (List.mem_cons_of_mem _ hc)]
    rfl

namespace Interval

variable {i j x a b : Interval} {p q : Position} {pieces : List Interval}

/-! ## Sites -/

/-- A site after all others goes to the end as it is. -/
theorem insertSite_eq_append {l : List Site} {s : Site} (h : ∀ t ∈ l, t.position < s.position) :
    insertSite l s = l ++ [s] := by
  have hnone : l.find? (fun t => t.position = s.position) = none := by
    rw [List.find?_eq_none]
    intro t ht heq
    exact absurd (of_decide_eq_true heq) (ne_of_lt (h t ht))
  rw [insertSite, hnone, Option.map_none, Option.getD_none, Bool.and_true]
  exact insertBy_eq_append h

/-- Sites in order are taken over one after the other. -/
theorem foldl_insertSite {l m : List Site} (h : Ascending Site.position (l ++ m)) : m.foldl insertSite l = l ++ m := by
  induction m generalizing l with
  | nil => rw [List.foldl_nil, List.append_nil]
  | cons s m ih =>
    have hs : ∀ t ∈ l, t.position < s.position := fun t ht => (List.pairwise_append.1 h).2.2 t ht s List.mem_cons_self
    rw [List.append_cons] at h
    rw [List.foldl_cons, insertSite_eq_append hs, ih h, ← List.append_cons]

/-- A cut divides the sites between the two parts, in order. -/
theorem WellFormed.sites_before_append_sites_after (h : i.WellFormed) (p : Position) :
    (i.before p).sites ++ (i.after p).sites = i.sites := by
  have hasc : Ascending Site.position ((i.before p).sites ++ (i.after p).sites) := by
    refine List.pairwise_append.2 ⟨h.sites.filter _, h.sites.filter _, fun s hs t ht => ?_⟩
    have hs : s.position < p := by simpa using (List.mem_filter.1 hs).2
    have ht : p ≤ t.position := by simpa using (List.mem_filter.1 ht).2
    exact lt_of_lt_of_le hs ht
  refine (i.sites_before_append_sites_after_perm p).eq_of_pairwise ?_ hasc h.sites
  exact fun s t _ _ hst hts => absurd (lt_trans hst hts) (lt_irrefl _)

/-! ## One cut -/

/-- A cut is refused exactly if nothing lies before it, or nothing from it on. -/
theorem splitBefore_eq_error_iff (h : i.WellFormed) :
    (∃ e, i.splitBefore p = .error e) ↔ (∀ q, i.covers q → p ≤ q) ∨ ∀ q, i.covers q → q < p := by
  have hcond : (∃ e, i.splitBefore p = .error e) ↔ p ≤ i.start ∨ i.stop < p := by
    rw [splitBefore]
    split_ifs with hc <;> simp [hc]
  rw [hcond]
  cases hne : i.range.isEmpty with
  | true =>
    -- Nothing is covered, and the start stands where the stop does.
    have hnil : i.range.segments = [] := List.isEmpty_iff.1 hne
    have hnone : ∀ q, ¬i.covers q := by simp [covers, LiveRange.covers, hnil]
    refine ⟨fun _ => .inl fun q hq => absurd hq (hnone q), fun _ => ?_⟩
    have heq : i.stop = i.start := by simp [start, stop, LiveRange.start?, LiveRange.stop?, hnil]
    rw [heq]
    exact le_or_gt p i.start
  | false =>
    have hlive : i.Live := ⟨h, hne⟩
    constructor
    · rintro (hp | hp)
      · exact .inl fun q hq => le_trans hp (hlive.start_le hq)
      · exact .inr fun q hq => lt_of_le_of_lt (hlive.le_stop hq) hp
    · rintro (hp | hp)
      · exact .inl (hp _ hlive.covers_start)
      · exact .inr (hp _ hlive.covers_stop)

/-- The two parts of a cut join to what was cut. -/
theorem WellFormed.before_join_after (h : i.WellFormed) (hsep : i.range.Separated) (p : Position) :
    (i.before p).join (i.after p) = i := by
  have hsites := h.sites_before_append_sites_after p
  have hrange : (i.before p).range.union (i.after p).range = i.range := LiveRange.before_union_after h.range hsep p
  rw [join, hrange, foldl_insertSite (by rw [hsites]; exact h.sites), hsites]
  rfl

/-- A later piece can be joined in two parts. -/
theorem WellFormed.join_before_join_after (h : i.WellFormed) (hx : x.range.WellFormed) (hd : x.range.Disjoint i.range)
    (p : Position) : (x.join (i.before p)).join (i.after p) = x.join i := by
  obtain ⟨-, -, hunion⟩ := LiveRange.union_before_union_after hx h.range hd p
  have hrange : (x.join (i.before p)).range.union (i.after p).range = x.range.union i.range := hunion
  rw [join, hrange, join, join, ← h.sites_before_append_sites_after p, List.foldl_append]
  rfl

/-! ## Any number of cuts -/

/-- The pieces that an interval is cut into, where each cut but the first is made in the last piece. -/
inductive Cuts : Interval → List Interval → Prop where
  | whole (i : Interval) : Cuts i [i]
  | cut {i a b : Interval} {p : Position} {pieces : List Interval} (hcut : i.splitBefore p = .ok (a, b))
    (hrest : Cuts b pieces) : Cuts i (a :: pieces)

namespace Cuts

/-- Joining the pieces one after the other to what lies elsewhere is joining the interval that was cut. -/
theorem foldl_join (h : Cuts i pieces) (hi : i.WellFormed) (hx : x.range.WellFormed) (hd : x.range.Disjoint i.range) :
    pieces.foldl join x = x.join i := by
  induction h generalizing x with
  | whole i => rfl
  | @cut i a b p pieces hcut _ ih =>
    obtain ⟨-, -, rfl, rfl⟩ := splitBefore_eq_ok.1 hcut
    obtain ⟨hwf, hd', -⟩ := LiveRange.union_before_union_after hx hi.range hd p
    rw [List.foldl_cons, ih (hi.after p) hwf hd', hi.join_before_join_after hx hd]

/-- The pieces join to the interval that was cut. -/
theorem joinAll_eq (h : Cuts i pieces) (hi : i.WellFormed) (hsep : i.range.Separated) : joinAll pieces = some i := by
  cases h with
  | whole => rfl
  | @cut _ a b p pieces hcut hrest =>
    obtain ⟨-, -, rfl, rfl⟩ := splitBefore_eq_ok.1 hcut
    have hfold := hrest.foldl_join (x := i.before p) (hi.after p) (hi.range.before p) (i.range.before_disjoint_after p)
    rw [joinAll, hfold, hi.before_join_after hsep]

end Cuts

/-- **Cutting loses nothing, and joining undoes it.** For an interval whose segments do not overlap or touch, a cut is
refused exactly if the interval covers nothing before it, or nothing from it on. Otherwise one part covers what the
interval covers before the cut and holds the sites before it, the other what it covers from the cut on and the sites
from there on. However often the last piece is cut again, all pieces in order join to the interval: its register,
range, sites and hints. -/
theorem splitBefore_joinAll (i : Interval) (hi : i.WellFormed) (hsep : i.range.Separated) :
    (∀ p, (∃ e, i.splitBefore p = .error e) ↔ (∀ q, i.covers q → p ≤ q) ∨ ∀ q, i.covers q → q < p) ∧
      (∀ p a b, i.splitBefore p = .ok (a, b) →
        (∀ q, a.covers q ↔ i.covers q ∧ q < p) ∧ (∀ q, b.covers q ↔ i.covers q ∧ p ≤ q) ∧
          (∀ s, s ∈ a.sites ↔ s ∈ i.sites ∧ s.position < p) ∧ ∀ s, s ∈ b.sites ↔ s ∈ i.sites ∧ p ≤ s.position) ∧
      ∀ pieces, Cuts i pieces → joinAll pieces = some i := by
  refine ⟨fun p => splitBefore_eq_error_iff hi, fun p a b hcut => ?_, fun pieces h => h.joinAll_eq hi hsep⟩
  obtain ⟨-, -, rfl, rfl⟩ := splitBefore_eq_ok.1 hcut
  exact ⟨fun q => covers_before, fun q => covers_after, fun s => by simp [before], fun s => by simp [after]⟩

/-- An interval over two blocks, with a hole in the second. -/
def holed : Interval where
  register := ⟨0, .quad⟩
  range := ⟨[⟨0, 2, 9⟩, ⟨1, 0, 3⟩, ⟨1, 8, 9⟩]⟩
  sites := [⟨⟨0, 2⟩, false⟩, ⟨⟨0, 7⟩, true⟩, ⟨⟨1, 9⟩, false⟩]
  startHints := [.virt ⟨7, .quad⟩]
  stopHints := [.phys .a]

/-- Cut in a segment and then in the hole, it is put together again. -/
theorem splitBefore_joinAll_holed :
    joinAll [holed.before ⟨0, 5⟩, (holed.after ⟨0, 5⟩).before ⟨1, 5⟩, (holed.after ⟨0, 5⟩).after ⟨1, 5⟩] =
      some holed := by
  have hi : holed.WellFormed := ⟨⟨by decide, by decide⟩, by unfold Ascending; decide⟩
  exact (splitBefore_joinAll holed hi (by decide)).2.2 _ (.cut (p := ⟨0, 5⟩) rfl (.cut (p := ⟨1, 5⟩) rfl (.whole _)))

end Interval

end RegAlloc
