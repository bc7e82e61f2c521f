import RegAlloc.Proofs.ScanRun

/-!
# What an allocation guarantees

Two facts about every allocation that is made for well-formed lifetimes on a valid target. The splits of a register
divide its interval: each position of the interval is in exactly one of them, no other position is in any, and they
share out the sites (`splits_exact`). No physical register is used twice: two splits that have the same one cover no
common position, and no split has one where the code needs it (`splits_exclusive`).

Both are read off the final state of the scan (`Scan.complete_spec`): the splits of a register are its pieces in order
(`Scan.splits_perm`), and the joining of neighbours without sites only gives registers back.
-/

namespace RegAlloc

section Place

variable {α κ : Type} [LT κ] [DecidableLT κ] [IsStrictTotalOrder κ (· < ·)] {key : α → κ} {l base : List α}

omit [IsStrictTotalOrder κ (· < ·)] in
/-- Placing elements one by one adds them. -/
theorem foldl_placeBy_perm : (l.foldl (fun acc x => placeBy key x acc) base).Perm (l ++ base) := by
  induction l generalizing base with
  | nil => exact .refl _
  | cons x l ih => exact ih.trans ((placeBy_perm.append_left l).trans List.perm_middle)

/-- Placing elements one by one keeps the order. -/
theorem foldl_placeBy_ordered (h : base.Pairwise (fun x y => ¬key y < key x)) :
    (l.foldl (fun acc x => placeBy key x acc) base).Pairwise (fun x y => ¬key y < key x) := by
  induction l generalizing base with
  | nil => exact h
  | cons x l ih => exact ih (placeBy_ordered h)

end Place

namespace Scan

variable {lt : Lifetimes} {t : Target} {s : Scan} {v : VirtReg}

/-- The pieces of a register that were decided on, as splits, in the order in which they were made. -/
def decided (s : Scan) (v : VirtReg) : List Split :=
  (s.pieces.zipIdx.filter (fun e => e.1.listed && e.1.interval.register = v)).map
    (fun e => ⟨e.2, e.1.interval, e.1.register⟩)

/-- The splits of a register are the pieces of its interval that were decided on. -/
theorem splits_perm : (s.splits v).Perm (s.decided v) := by
  have hperm : (s.splits v).Perm (s.decided v ++ []) := foldl_placeBy_perm
  rwa [List.append_nil] at hperm

/-- Splits are listed by where they start. -/
theorem splits_ordered : (s.splits v).Pairwise (fun x y => ¬y.interval.start < x.interval.start) :=
  foldl_placeBy_ordered List.Pairwise.nil

/-- A split is a piece of the scan. -/
theorem mem_splits {x : Split} (h : x ∈ s.splits v) :
    x.interval = s.interval x.id ∧ x.register = s.register? x.id ∧ x.interval.register = v := by
  obtain ⟨⟨y, n⟩, he, rfl⟩ := List.mem_map.1 (splits_perm.mem_iff.1 h)
  obtain ⟨hmem, hcond⟩ := List.mem_filter.1 he
  obtain ⟨hn, hy⟩ := List.mem_zipIdx' hmem
  have hv : y.interval.register = v := by simpa using (Bool.and_eq_true_iff.1 hcond).2
  refine ⟨?_, ?_, hv⟩
  · rw [interval, List.getElem?_eq_getElem hn, hy]
    rfl
  · rw [register?, List.getElem?_eq_getElem hn, hy]
    rfl

theorem lt_length_of_mem_splits {x : Split} (h : x ∈ s.splits v) : x.id < s.pieces.length := by
  obtain ⟨⟨y, n⟩, he, rfl⟩ := List.mem_map.1 (splits_perm.mem_iff.1 h)
  exact (List.mem_zipIdx' (List.mem_filter.1 he).1).1

/-- Splits that have the same physical register cover no common position. -/
theorem splits_disjoint (h : Occupied t s) {w : VirtReg} {x y : Split} {r : PhysReg} (hx : x ∈ s.splits v)
    (hy : y ∈ s.splits w) (hne : x.id ≠ y.id) (hrx : x.register = some r) (hry : y.register = some r) :
    x.interval.range.Disjoint y.interval.range := by
  obtain ⟨hix, hx, _⟩ := mem_splits hx
  obtain ⟨hiy, hy, _⟩ := mem_splits hy
  rw [hix, hiy]
  exact h.exclusive x.id y.id r (hx ▸ hrx) (hy ▸ hry) hne

/-- Splits of different registers are different pieces. -/
theorem ne_id_of_ne {w : VirtReg} {x y : Split} (hx : x ∈ s.splits v) (hy : y ∈ s.splits w) (hne : v ≠ w) :
    x.id ≠ y.id := by
  obtain ⟨hix, _, hv⟩ := mem_splits hx
  obtain ⟨hiy, _, hw⟩ := mem_splits hy
  intro hid
  rw [← hv, ← hw, hix, hiy, hid] at hne
  exact hne rfl

theorem splits_ids_nodup : ((s.splits v).map Split.id).Nodup := by
  rw [(splits_perm.map Split.id).nodup_iff, decided, List.map_map]
  exact (nodup_numbers s.pieces).sublist (List.filter_sublist.map Prod.snd)

/-- A piece that was decided on is a split. -/
theorem mem_splits_of_listed (h : (s.piece n).listed = true) :
    ⟨n, s.interval n, s.register? n⟩ ∈ s.splits (s.interval n).register := by
  have hn := lt_length_of_listed h
  have hpiece : s.piece n = s.pieces[n] := by rw [piece, List.getElem?_eq_getElem hn, Option.getD_some]
  refine splits_perm.mem_iff.2 (List.mem_map.2 ⟨(s.pieces[n], n), List.mem_filter.2 ⟨?_, ?_⟩, ?_⟩)
  · exact List.mem_zipIdx_iff_getElem?.2 (List.getElem?_eq_getElem hn)
  · rw [← hpiece, h, interval_eq]
    simp
  · rw [interval_eq, register?_eq, hpiece]

/-- Once all pieces are decided on, the splits of a register are all its pieces. -/
theorem splits_intervals_perm (hl : ∀ n, n < s.pieces.length → (s.piece n).listed = true) :
    ((s.splits v).map Split.interval).Perm (s.intervals.filter (fun x => x.register = v)) := by
  refine (splits_perm.map Split.interval).trans (List.Perm.of_eq ?_)
  have hfilter : s.pieces.zipIdx.filter (fun e => e.1.listed && decide (e.1.interval.register = v)) =
      s.pieces.zipIdx.filter ((fun x : Piece => decide (x.interval.register = v)) ∘ Prod.fst) := by
    refine List.filter_congr fun e he => ?_
    obtain ⟨hn, hy⟩ := List.mem_zipIdx' he
    have hlisted := hl e.2 hn
    rw [piece, List.getElem?_eq_getElem hn, Option.getD_some, ← hy] at hlisted
    rw [hlisted, Bool.true_and]
    rfl
  rw [decided, List.map_map, hfilter]
  have hmap := List.filter_map (f := Prod.fst) (p := fun x : Piece => decide (x.interval.register = v))
    (l := s.pieces.zipIdx)
  rw [List.zipIdx_map_fst] at hmap
  have hints : s.intervals.filter (fun x => x.register = v) =
      (s.pieces.filter (fun x => x.interval.register = v)).map Piece.interval := List.filter_map
  rw [hints, hmap, List.map_map]
  rfl

/-- When the scan is complete, the splits of a register that is live anywhere divide its interval. -/
theorem splits_divide (hlt : lt.WellFormed) (ht : t.Valid) (hs : complete lt t = .ok s) {i : Interval}
    (hi : i ∈ lt.intervals) (hne : i.range.isEmpty = false) : Divides i ((s.splits i.register).map Split.interval) := by
  obtain ⟨hl, htiles, -, -⟩ := complete_spec hlt ht hs
  refine htiles.divides (hlt.intervals i hi) ?_ (splits_intervals_perm hl) (List.pairwise_map.2 splits_ordered)
  have hmem : i ∈ lt.live := List.mem_filter.2 ⟨hi, by simpa using hne⟩
  have hasc : Ascending Interval.register lt.live := hlt.registers.filter _
  have hnodup := hasc.nodup_keys
  -- Registers are different, so only the interval itself has its register.
  obtain ⟨l₁, l₂, hl₁₂⟩ := List.append_of_mem hmem
  rw [hl₁₂, List.map_append, List.map_cons] at hnodup
  obtain ⟨_, hnodup₂, hdisj⟩ := List.nodup_append.1 hnodup
  rw [hl₁₂, List.filter_append, List.filter_cons, if_pos (decide_eq_true rfl)]
  have h₁ : l₁.filter (fun x => x.register = i.register) = [] := by
    refine List.filter_eq_nil_iff.2 fun x hx => ?_
    simpa using hdisj x.register (List.mem_map_of_mem hx) i.register List.mem_cons_self
  have h₂ : l₂.filter (fun x => x.register = i.register) = [] := by
    refine List.filter_eq_nil_iff.2 fun x hx => ?_
    have hnot := (List.nodup_cons.1 hnodup₂).1
    simpa using fun heq : x.register = i.register => hnot (heq ▸ List.mem_map_of_mem hx)
  rw [h₁, h₂, List.nil_append]

end Scan

namespace Allocation

/-- Joining neighbours takes registers away and gives none. -/
theorem mem_of_mem_joinIdle {xs : List Split} {idle : Option Split} {x : Split} {r : PhysReg}
    (hidle : ∀ y ∈ idle, y.register = none) (h : x ∈ joinIdle idle xs) (hr : x.register = some r) : x ∈ xs := by
  induction xs generalizing idle with
  | nil =>
    rw [joinIdle, Option.mem_toList] at h
    rw [hidle x h] at hr
    cases hr
  | cons y rest ih =>
    unfold joinIdle at h
    split_ifs at h with hy
    · rcases List.mem_append.1 h with h | h
      · rw [hidle x (Option.mem_toList.1 h)] at hr
        cases hr
      rcases List.mem_cons.1 h with rfl | h
      · exact List.mem_cons_self
      · exact List.mem_cons_of_mem _ (ih (by simp) h)
    · cases idle with
      | none => exact List.mem_cons_of_mem _ (ih (by simp) h)
      | some z => exact List.mem_cons_of_mem _ (ih (by simpa using hidle z rfl) h)

/-- Joining idle splits leaves some pieces out and adds none. -/
theorem joinIdle_ids_sublist (xs : List Split) (idle : Option Split) :
    ((joinIdle idle xs).map Split.id).Sublist ((idle.toList ++ xs).map Split.id) := by
  induction xs generalizing idle with
  | nil => simp [joinIdle]
  | cons y rest ih =>
    unfold joinIdle
    split_ifs with hy
    · simpa using ih none
    · cases idle with
      | none => simpa using ih (some { y with register := none })
      | some z =>
        refine (ih (some { z with interval := z.interval.join y.interval })).trans ?_
        simp

variable {lt : Lifetimes} {t : Target} {a : Allocation}

/-- An allocation consists of what the scan decided. -/
theorem ofLifetimes_eq_ok (h : ofLifetimes lt t = .ok a) :
    ∃ s, Scan.complete lt t = .ok s ∧ a.target = t ∧ a.splits = splitsOf lt s ∧ a.slots = s.slots.slots := by
  obtain ⟨s, hs, h⟩ := bind_eq_ok h
  obtain ⟨transfers, _, h⟩ := bind_eq_ok h
  obtain rfl := Except.ok.inj h
  exact ⟨s, hs, rfl, rfl, rfl⟩

theorem splitsOf_keys_nodup (hlt : lt.WellFormed) (s : Scan) : ((splitsOf lt s).map Prod.fst).Nodup := by
  refine List.Nodup.sublist (List.filter_sublist.map Prod.fst) ?_
  rw [List.map_map]
  exact hlt.registers.nodup_keys

/-- The splits of a register are those of the scan, with idle ones joined. -/
theorem splitsFor_eq (hlt : lt.WellFormed) {s : Scan} (ha : a.splits = splitsOf lt s) {i : Interval}
    (hi : i ∈ lt.intervals) : a.splitsFor i.register = joinIdle none (s.splits i.register) := by
  rw [splitsFor, ha]
  cases hj : joinIdle none (s.splits i.register) with
  | nil =>
    cases hl : lookupBy i.register (splitsOf lt s) with
    | none => rfl
    | some xs =>
      obtain ⟨hmem, hne⟩ := List.mem_filter.1 (mem_of_lookupBy hl)
      obtain ⟨j, _, heq⟩ := List.mem_map.1 hmem
      obtain ⟨hij, rfl⟩ := Prod.mk.inj heq
      rw [hij, hj] at hne
      cases hne
  | cons x xs =>
    have hmem : (i.register, joinIdle none (s.splits i.register)) ∈ splitsOf lt s :=
      List.mem_filter.2 ⟨List.mem_map.2 ⟨i, hi, rfl⟩, by rw [hj]; rfl⟩
    rw [lookupBy_of_mem (splitsOf_keys_nodup hlt s) hmem, Option.getD_some, hj]

/-- The splits of a register divide its interval. -/
theorem splitsFor_divides (hlt : lt.WellFormed) (ht : t.Valid) (h : ofLifetimes lt t = .ok a) {i : Interval}
    (hi : i ∈ lt.intervals) (hne : i.range.isEmpty = false) :
    Divides i ((a.splitsFor i.register).map Split.interval) := by
  obtain ⟨s, hs, -, ha, -⟩ := ofLifetimes_eq_ok h
  rw [splitsFor_eq hlt ha hi]
  exact Divides.joinIdle (l := []) nofun (Scan.splits_divide hlt ht hs hi hne)

/-- The splits of a register that is live anywhere are in order, and divide its interval: each position that it covers
is covered by exactly one of them, they cover no other position, and its sites are theirs, in order. -/
theorem splits_exact (hlt : lt.WellFormed) (ht : t.validate = .ok ()) (h : ofLifetimes lt t = .ok a) {i : Interval}
    (hi : i ∈ lt.intervals) (hne : i.range.isEmpty = false) :
    a.splitsFor i.register ≠ [] ∧
      (a.splitsFor i.register).Pairwise (fun x y => x.interval.stop < y.interval.start) ∧
      (∀ p, (a.splitsFor i.register).countP (fun x => x.interval.covers p) = if i.covers p then 1 else 0) ∧
      (a.splitsFor i.register).flatMap (fun x => x.interval.sites) = i.sites := by
  have hdiv := splitsFor_divides hlt (Target.valid_of_validate ht) h hi hne
  have hcovers : ∀ p, (a.splitsFor i.register).countP (fun x => x.interval.covers p) = if i.covers p then 1 else 0 := by
    intro p
    rw [← hdiv.covers p, List.countP_map]
    rfl
  refine ⟨fun hnil => ?_, (List.pairwise_map.1 hdiv.ordered).imp Interval.Before.range, hcovers, ?_⟩
  · -- The interval covers its start, so some split does.
    have hlive : i.Live := ⟨hlt.intervals i hi, hne⟩
    have hstart := hcovers i.start
    rw [hnil, if_pos hlive.covers_start] at hstart
    cases hstart
  · rw [← hdiv.sites, List.flatMap_map]

/-- Two registers that compete for one physical register, which the code needs while both are live. -/
def contested : Lifetimes :=
  ⟨[⟨⟨0, .quad⟩, ⟨[⟨0, 2, 12⟩, ⟨1, 0, 3⟩]⟩, [⟨⟨0, 2⟩, true⟩, ⟨⟨0, 11⟩, false⟩, ⟨⟨1, 3⟩, true⟩], [], []⟩,
    ⟨⟨1, .quad⟩, ⟨[⟨0, 4, 9⟩]⟩, [⟨⟨0, 4⟩, false⟩, ⟨⟨0, 9⟩, false⟩], [], []⟩],
    [(.a, ⟨[⟨0, 6, 7⟩]⟩)]⟩

/-- A computation that has a result succeeds with it. -/
theorem ok_of_toOption {ε α : Type} {x : Except ε α} {a : α} (h : x.toOption = some a) : x = .ok a := by
  cases x with
  | error e => cases h
  | ok b => exact congrArg Except.ok (Option.some.inj h)

/-- The example has well-formed lifetimes. -/
theorem contested_wellFormed : contested.WellFormed := by
  have hone : ∀ i ∈ contested.intervals, i.WellFormed := by
    simp only [contested, List.mem_cons, List.not_mem_nil, or_false, forall_eq_or_imp, forall_eq]
    exact ⟨⟨⟨by decide, by decide⟩, by unfold Ascending; decide⟩, ⟨⟨by decide, by decide⟩, by unfold Ascending; decide⟩⟩
  have htwo : ∀ e ∈ contested.pinned, e.2.WellFormed := by
    simp only [contested, List.mem_cons, List.not_mem_nil, or_false, forall_eq]
    exact ⟨by decide, by decide⟩
  exact ⟨by unfold Ascending; decide, hone, by unfold Ascending; decide, htwo⟩

/-- The first of them is divided in three: it has the register, waits in memory, and has the register again. -/
theorem splits_exact_contested :
    contested.WellFormed ∧ (Target.withAllocatable [.a]).validate = .ok () ∧
      ∃ a, ofLifetimes contested (.withAllocatable [.a]) = .ok a ∧
        (a.splitsFor ⟨0, .quad⟩).map Split.register = [some .a, none, some .a] ∧
        (∀ p, (a.splitsFor ⟨0, .quad⟩).countP (fun x => x.interval.covers p) =
          if LiveRange.covers ⟨[⟨0, 2, 12⟩, ⟨1, 0, 3⟩]⟩ p then 1 else 0) ∧
        (a.splitsFor ⟨0, .quad⟩).flatMap (fun x => x.interval.sites) =
          [⟨⟨0, 2⟩, true⟩, ⟨⟨0, 11⟩, false⟩, ⟨⟨1, 3⟩, true⟩] := by
  have hfirst : (ofLifetimes contested (.withAllocatable [.a])).toOption.map
      (fun a => (a.splitsFor ⟨0, .quad⟩).map Split.register) = some [some .a, none, some .a] := rfl
  obtain ⟨a, ha, hregisters⟩ := Option.map_eq_some_iff.1 hfirst
  have ha := ok_of_toOption ha
  refine ⟨contested_wellFormed, rfl, a, ha, hregisters, ?_⟩
  exact (splits_exact contested_wellFormed rfl ha List.mem_cons_self rfl).2.2

/-- A split that has a register is one that the scan decided on. -/
theorem mem_splits_of_register {s : Scan} (ha : a.splits = splitsOf lt s) {e : VirtReg × List Split} (he : e ∈ a.splits)
    {x : Split} (hx : x ∈ e.2) {r : PhysReg} (hr : x.register = some r) : x ∈ s.splits e.1 := by
  rw [ha] at he
  obtain ⟨i, _, rfl⟩ := List.mem_map.1 (List.mem_filter.1 he).1
  exact mem_of_mem_joinIdle (by simp) hx hr

theorem ids_nodup {s : Scan} (ha : a.splits = splitsOf lt s) {e : VirtReg × List Split} (he : e ∈ a.splits) :
    (e.2.map Split.id).Nodup := by
  rw [ha] at he
  obtain ⟨i, _, rfl⟩ := List.mem_map.1 (List.mem_filter.1 he).1
  exact Scan.splits_ids_nodup.sublist (joinIdle_ids_sublist _ none)

/-- A split has only a register that may be given, and not where the code needs it. -/
theorem register_allowed (hlt : lt.WellFormed) (ht : t.Valid) (h : ofLifetimes lt t = .ok a) {e : VirtReg × List Split}
    (he : e ∈ a.splits) {x : Split} (hx : x ∈ e.2) {r : PhysReg} (hr : x.register = some r) :
    r ∈ t.allocatable ∧ ∀ range, lookupBy r lt.pinned = some range → range.Disjoint x.interval.range := by
  obtain ⟨s, hs, -, ha, -⟩ := ofLifetimes_eq_ok h
  obtain ⟨-, -, hocc, hpin⟩ := Scan.complete_spec hlt ht hs
  obtain ⟨hix, hrx, _⟩ := Scan.mem_splits (mem_splits_of_register ha he hx hr)
  rw [hrx] at hr
  rw [hix]
  exact ⟨hocc.allocatable x.id r hr, fun range hrange => hpin x.id r range nofun hr (mem_of_lookupBy hrange)⟩

/-- Splits of different registers that have the same physical register cover no common position. -/
theorem register_apart (hlt : lt.WellFormed) (ht : t.Valid) (h : ofLifetimes lt t = .ok a) {d e : VirtReg × List Split}
    (hd : d ∈ a.splits) (he : e ∈ a.splits) (hne : d.1 ≠ e.1) {x y : Split} (hx : x ∈ d.2) (hy : y ∈ e.2) {r : PhysReg}
    (hrx : x.register = some r) (hry : y.register = some r) : x.interval.range.Disjoint y.interval.range := by
  obtain ⟨s, hs, -, ha, -⟩ := ofLifetimes_eq_ok h
  obtain ⟨-, -, hocc, -⟩ := Scan.complete_spec hlt ht hs
  have hx := mem_splits_of_register ha hd hx hrx
  have hy := mem_splits_of_register ha he hy hry
  exact Scan.splits_disjoint hocc hx hy (Scan.ne_id_of_ne hx hy hne) hrx hry

/-- A physical register that a split has is one of those that may be given, no other split has it at a position where
this one is live, and the code does not need it there. -/
theorem splits_exclusive (hlt : lt.WellFormed) (ht : t.validate = .ok ()) (h : ofLifetimes lt t = .ok a) :
    (∀ x ∈ a.splits.flatMap (·.2), ∀ r, x.register = some r →
      r ∈ t.allocatable ∧ ∀ range, lookupBy r lt.pinned = some range → range.Disjoint x.interval.range) ∧
      (a.splits.flatMap (·.2)).Pairwise (fun x y =>
        ∀ r, x.register = some r → y.register = some r → x.interval.range.Disjoint y.interval.range) := by
  have ht := Target.valid_of_validate ht
  refine ⟨fun x hx r hr => ?_, List.pairwise_flatMap.2 ⟨fun e he => ?_, ?_⟩⟩
  · obtain ⟨e, he, hx⟩ := List.mem_flatMap.1 hx
    exact register_allowed hlt ht h he hx hr
  · -- Splits of one register have different numbers.
    obtain ⟨s, hs, -, ha, -⟩ := ofLifetimes_eq_ok h
    obtain ⟨-, -, hocc, -⟩ := Scan.complete_spec hlt ht hs
    refine (List.pairwise_map.1 (ids_nodup ha he)).imp_of_mem fun {x y} hx hy hne r hrx hry => ?_
    exact Scan.splits_disjoint hocc (mem_splits_of_register ha he hx hrx)
      (mem_splits_of_register ha he hy hry) hne hrx hry
  · have hkeys : a.splits.Pairwise (fun d e => d.1 ≠ e.1) := by
      obtain ⟨s, -, -, ha, -⟩ := ofLifetimes_eq_ok h
      rw [ha]
      refine List.Pairwise.filter _ (List.pairwise_map.2 (hlt.registers.imp ?_))
      exact ne_of_irrefl
    exact hkeys.imp_of_mem fun {d e} hd he hne x hx y hy r hrx hry => register_apart hlt ht h hd he hne hx hy hrx hry

/-- Four splits of the two registers share the one physical register, and none of them has it where the code needs
it. -/
theorem splits_exclusive_contested :
    contested.WellFormed ∧ (Target.withAllocatable [.a]).validate = .ok () ∧
      ∃ a, ofLifetimes contested (.withAllocatable [.a]) = .ok a ∧
        (a.splits.flatMap (·.2)).countP (fun x => x.register = some .a) = 4 ∧
        (∀ x ∈ a.splits.flatMap (·.2), x.register = some .a → LiveRange.Disjoint ⟨[⟨0, 6, 7⟩]⟩ x.interval.range) ∧
        (a.splits.flatMap (·.2)).Pairwise (fun x y =>
          x.register = some .a → y.register = some .a → x.interval.range.Disjoint y.interval.range) := by
  have hfour : (ofLifetimes contested (.withAllocatable [.a])).toOption.map
      (fun a => (a.splits.flatMap (·.2)).countP (fun x => x.register = some .a)) = some 4 := rfl
  obtain ⟨a, ha, hcount⟩ := Option.map_eq_some_iff.1 hfour
  have ha := ok_of_toOption ha
  obtain ⟨hone, htwo⟩ := splits_exclusive contested_wellFormed rfl ha
  exact ⟨contested_wellFormed, rfl, a, ha, hcount, fun x hx hr => (hone x hx .a hr).2 _ rfl, htwo.imp fun h => h .a⟩

end Allocation

end RegAlloc
