import RegAlloc.Proofs.Allocation
import RegAlloc.Proofs.Progress

/-!
# A register is denied only when all are taken

A split without a register may still hold sites that cannot be served from memory. This happens at the start of a
split only, and only if none of the registers can be had there: each of them is needed by the code, or used by a split
of another register that is accessed at the same position (`Allocation.register_denied`).

The scan keeps this true of the pieces that it has decided on (`Denied`). It holds of the visited piece by the grounds
of its verdict, and it stays true of the others because pieces go on to use their registers up to the position reached
(`Passes`).
-/

namespace RegAlloc

namespace Scan

variable {lt : Lifetimes} {t : Target} {s s' : Scan} {m n : Nat} {p : Position} {r : PhysReg} {cur : Position}
  {visited : Nat}

/-- A piece that was left without a register where it has to be in one starts there, and each of the registers is
taken there. -/
def Denied (lt : Lifetimes) (t : Target) (s : Scan) : Prop :=
  ∀ k, (s.piece k).listed = true → s.register? k = none → ∀ x ∈ (s.interval k).sites, x.memoryOk = false →
    x.position = (s.interval k).start ∧ ∀ r ∈ t.allocatable, Taken lt s r x.position

/-- A register that was taken at a position stays taken there while the scan passes on. -/
theorem Passes.taken (h : Passes lt cur n s s') (hp : p ≤ cur) (htaken : Taken lt s r p) : Taken lt s' r p := by
  rcases htaken with hpinned | ⟨m, hm⟩
  · exact .inl hpinned
  · exact .inr ⟨m, h.uses m r p hp hm⟩

/-- A visit keeps registers denied for a reason. -/
theorem Denied.visit (hin : ∀ i ∈ lt.intervals, i.Inside) (h : Denied lt t s) (hb : Begun cur s)
    (hn : n < s.pieces.length) (hstart : (s.interval n).start = cur) (hp : Passes lt cur n s s')
    (hj : Justified lt t n s s') : Denied lt t s' := by
  intro k hlisted hbare x hx hm
  by_cases hk : k = n
  · subst hk
    obtain ⟨heq, htaken⟩ := hj hin hbare x hx hm
    refine ⟨heq.trans (hp.start k hn).symm, fun r hr => hp.taken ?_ (htaken r hr)⟩
    exact le_of_eq (heq.trans hstart)
  · have hlisted : (s.piece k).listed = true := (hp.listed k hk).symm.trans ‹_›
    have hlt := lt_length_of_listed hlisted
    rcases hp.bare hin k hk ‹_› hbare with hbare | hnil
    · obtain ⟨heq, htaken⟩ := h k hlisted hbare x (hp.sites k hlt x hx) hm
      refine ⟨heq.trans (hp.start k hlt).symm, fun r hr => hp.taken ?_ (htaken r hr)⟩
      exact heq ▸ hb k hlisted
    · rw [hnil] at hx
      cases hx

/-- Along the visits of the scan, pieces are denied registers only where all of them are taken. -/
theorem Visits.denied (hlt : lt.WellFormed) (ht : t.Valid) (hin : ∀ i ∈ lt.intervals, i.Inside) {visits : List Ticket}
    (hv : Visits lt t s visits s') (h : Running lt t cur visited s) (hd : Denied lt t s) : Denied lt t s' := by
  induction hv generalizing cur visited with
  | done => exact hd
  | @visit s s₁ s' x rest visits hq hs _ ih =>
    obtain ⟨s₂, hs₂, h₂, hp, -, hj⟩ := h.step hlt ht hq
    obtain rfl := Except.ok.inj (hs.symm.trans hs₂)
    obtain ⟨hstart, hle, -⟩ := h.pop hq
    have hx := (h.inv.ledger.ticket x (hq ▸ List.mem_cons_self)).1
    exact ih h₂ (hd.visit hin (fun k hk => le_trans (h.begun k hk) hle) hx hstart.symm hp hj)

/-- Registers were denied for a reason when the scan is complete. -/
theorem complete_denied (hlt : lt.WellFormed) (ht : t.Valid) (hin : ∀ i ∈ lt.intervals, i.Inside)
    (hs : complete lt t = .ok s) :
    Denied lt t s := by
  obtain ⟨visits, s', hv, hs', -⟩ := exists_complete hlt ht
  obtain rfl := Except.ok.inj (hs'.symm.trans hs)
  refine hv.denied hlt ht hin (running_initial hlt) fun k hlisted => ?_
  rw [listed_initial] at hlisted
  cases hlisted

/-- Two pieces of one register cover no common position. -/
theorem disjoint_of_register (h : Tiles lt.live s.intervals) (hm : m < s.pieces.length) (hn : n < s.pieces.length)
    (hne : m ≠ n) (hr : (s.interval m).register = (s.interval n).register) :
    (s.interval m).range.Disjoint (s.interval n).range := by
  have hlen : s.intervals.length = s.pieces.length := List.length_map _
  have hget : ∀ k (hk : k < s.pieces.length), s.interval k = s.intervals.get ⟨k, hlen ▸ hk⟩ := by
    intro k hk
    rw [interval, List.getElem?_eq_getElem hk]
    simp [intervals]
  have hlive : ∀ k, k < s.pieces.length → (s.interval k).Live := fun k hk => h.live _ (interval_mem hk)
  have hapart := List.pairwise_iff_get.1 h.apart
  have hdisj : ∀ i j : Interval, i.Live → j.Live → i.Apart j → i.range.Disjoint j.range := by
    rintro i j hi hj (hij | hji)
    · exact hij.disjoint hi hj
    · exact (hji.disjoint hj hi).symm
  refine hdisj _ _ (hlive m hm) (hlive n hn) ?_
  rcases Nat.lt_or_gt_of_ne hne with hlt | hlt
  · rw [hget m hm, hget n hn] at hr ⊢
    exact hapart _ _ hlt hr
  · rw [hget m hm, hget n hn] at hr ⊢
    exact (hapart _ _ hlt hr.symm).symm

end Scan

namespace Allocation

variable {lt : Lifetimes} {t : Target} {a : Allocation}

/-- Splits with sites are not joined. -/
theorem mem_joinIdle {xs : List Split} {idle : Option Split} {x : Split} (hidle : ∀ y ∈ idle, y.interval.sites = [])
    (hx : x.interval.sites ≠ []) : x ∈ joinIdle idle xs ↔ x ∈ xs := by
  have hne : ∀ {y : Split}, y.interval.sites = [] → x ≠ y := by
    rintro y hy rfl
    exact hx hy
  induction xs generalizing idle with
  | nil =>
    rw [joinIdle, Option.mem_toList]
    exact ⟨fun h => absurd (hidle x h) hx, fun h => absurd h List.not_mem_nil⟩
  | cons y rest ih =>
    unfold joinIdle
    split_ifs with hy
    · have hrest : x ∈ joinIdle none rest ↔ x ∈ rest := ih (by simp)
      rw [List.mem_append, Option.mem_toList, List.mem_cons, List.mem_cons, hrest]
      exact or_iff_right fun h => hx (hidle x h)
    · have hy : y.interval.sites = [] := by simpa [Interval.hasSites] using hy
      rw [List.mem_cons, or_iff_right (hne hy)]
      cases idle with
      | none => exact ih (by simpa using hy)
      | some z =>
        have hnil : (z.interval.join y.interval).sites = [] := (Interval.sites_join hy).trans (hidle z rfl)
        exact ih (by simpa using hnil)

/-- The splits with sites are those that the scan decided on. -/
theorem mem_splits_of_sites {s : Scan} (ha : a.splits = splitsOf lt s) {e : VirtReg × List Split} (he : e ∈ a.splits)
    {x : Split} (hx : x ∈ e.2) (hsites : x.interval.sites ≠ []) : x ∈ s.splits e.1 := by
  rw [ha] at he
  obtain ⟨i, -, rfl⟩ := List.mem_map.1 (List.mem_filter.1 he).1
  exact (mem_joinIdle (by simp) hsites).1 hx

/-- A split with sites is not joined away. -/
theorem exists_split_of_sites {s : Scan} (ha : a.splits = splitsOf lt s) {i : Interval} (hi : i ∈ lt.intervals)
    {x : Split} (hx : x ∈ s.splits i.register) (hsites : x.interval.sites ≠ []) :
    ∃ e ∈ a.splits, e.1 = i.register ∧ x ∈ e.2 := by
  have hmem : x ∈ joinIdle none (s.splits i.register) := (mem_joinIdle (by simp) hsites).2 hx
  refine ⟨(i.register, joinIdle none (s.splits i.register)), ?_, rfl, hmem⟩
  rw [ha]
  refine List.mem_filter.2 ⟨List.mem_map.2 ⟨i, hi, rfl⟩, ?_⟩
  cases hj : joinIdle none (s.splits i.register) with
  | nil =>
    rw [hj] at hmem
    cases hmem
  | cons y ys => rfl

/-- **Registers are denied under exhaustion only.** A split without a register that holds a site which cannot be
served from memory starts at that site, and there each register is needed by the code, or is that of a split of
another register which is accessed there. -/
theorem register_denied (hlt : lt.WellFormed) (hin : ∀ i ∈ lt.intervals, i.Inside) (ht : t.validate = .ok ())
    (h : ofLifetimes lt t = .ok a) {e : VirtReg × List Split} (he : e ∈ a.splits) {x : Split} (hx : x ∈ e.2)
    (hbare : x.register = none) {site : Site} (hsite : site ∈ x.interval.sites) (hm : site.memoryOk = false) :
    site.position = x.interval.start ∧ ∀ r ∈ t.allocatable,
      (∃ range, lookupBy r lt.pinned = some range ∧ range.covers site.position) ∨
        ∃ e' ∈ a.splits, e'.1 ≠ e.1 ∧ ∃ y ∈ e'.2, y.register = some r ∧ y.interval.covers site.position ∧
          ∃ site' ∈ y.interval.sites, site'.position = site.position := by
  have hvalid := Target.valid_of_validate ht
  obtain ⟨s, hs, -, ha, -⟩ := ofLifetimes_eq_ok h
  obtain ⟨hlisted, htiles, -, -⟩ := Scan.complete_spec hlt hvalid hs
  have hxs := mem_splits_of_sites ha he hx (List.ne_nil_of_mem hsite)
  obtain ⟨hix, hrx, hvx⟩ := Scan.mem_splits hxs
  have hlen := Scan.lt_length_of_mem_splits hxs
  rw [hix] at hsite hvx ⊢
  rw [hrx] at hbare
  obtain ⟨heq, htaken⟩ := Scan.complete_denied hlt hvalid hin hs x.id (hlisted x.id hlen) hbare site hsite hm
  refine ⟨heq, fun r hr => (htaken r hr).imp ?_ ?_⟩
  · rintro ⟨range, hrange, hcov⟩
    exact ⟨range, lookupBy_of_mem hlt.pinned.nodup_keys hrange, hcov⟩
  · rintro ⟨m, hrm, hcov, site', hsite', hpos⟩
    have hm := Scan.lt_length_of_register? hrm
    have hne : m ≠ x.id := by
      rintro rfl
      cases hbare.symm.trans hrm
    -- The piece belongs to an interval, and not to that of the split, since both cover the site.
    obtain ⟨i, hi, hir⟩ := htiles.exists_whole (Scan.interval_mem hm)
    have hi : i ∈ lt.intervals := (List.mem_filter.1 hi).1
    obtain ⟨e', he', hkey, hy⟩ := exists_split_of_sites (x := ⟨m, s.interval m, s.register? m⟩) ha hi
      (hir ▸ Scan.mem_splits_of_listed (hlisted m hm)) (List.ne_nil_of_mem hsite')
    refine ⟨e', he', fun hsame => ?_, _, hy, hrm, hcov, site', hsite', hpos⟩
    have hreg : (s.interval m).register = (s.interval x.id).register := by rw [← hir, ← hkey, hsame, hvx]
    refine Scan.disjoint_of_register htiles hm hlen hne hreg site.position hcov ?_
    rw [heq]
    exact (htiles.live _ (Scan.interval_mem hlen)).covers_start

/-- Two registers that are read by the same instruction, which needs both of them in registers, and one physical
register. -/
def crowded : Lifetimes :=
  ⟨[⟨⟨0, .quad⟩, ⟨[⟨0, 2, 9⟩]⟩, [⟨⟨0, 2⟩, true⟩, ⟨⟨0, 5⟩, false⟩, ⟨⟨0, 9⟩, true⟩], [], []⟩,
    ⟨⟨1, .quad⟩, ⟨[⟨0, 4, 5⟩]⟩, [⟨⟨0, 4⟩, true⟩, ⟨⟨0, 5⟩, false⟩], [], []⟩], []⟩

/-- The example has well-formed lifetimes. -/
theorem crowded_wellFormed : crowded.WellFormed := by
  have hone : ∀ i ∈ crowded.intervals, i.WellFormed := by
    simp only [crowded, List.mem_cons, List.not_mem_nil, or_false, forall_eq_or_imp, forall_eq]
    exact ⟨⟨⟨by decide, by decide⟩, by unfold Ascending; decide⟩, ⟨⟨by decide, by decide⟩, by unfold Ascending; decide⟩⟩
  exact ⟨by unfold Ascending; decide, hone, List.Pairwise.nil, nofun⟩

/-- The first register is denied the physical register at the read, since the second has it there. -/
theorem register_denied_crowded :
    crowded.WellFormed ∧ (∀ i ∈ crowded.intervals, i.Inside) ∧ (Target.withAllocatable [.a]).validate = .ok () ∧
      ∃ a, ofLifetimes crowded (.withAllocatable [.a]) = .ok a ∧
        ∃ e ∈ a.splits, ∃ x ∈ e.2, x.register = none ∧ ⟨⟨0, 5⟩, false⟩ ∈ x.interval.sites ∧ ⟨0, 5⟩ = x.interval.start ∧
          ∃ e' ∈ a.splits, e'.1 ≠ e.1 ∧ ∃ y ∈ e'.2, y.register = some .a ∧ y.interval.covers ⟨0, 5⟩ ∧
            ∃ site ∈ y.interval.sites, site.position = ⟨0, 5⟩ := by
  have hin : ∀ i ∈ crowded.intervals, i.Inside := by unfold Interval.Inside; decide
  have hbare : (ofLifetimes crowded (.withAllocatable [.a])).toOption.map (fun a => a.splits.any (fun e =>
      e.2.any (fun x => x.register = none && x.interval.sites.contains ⟨⟨0, 5⟩, false⟩))) = some true := rfl
  obtain ⟨a, ha, hbare⟩ := Option.map_eq_some_iff.1 hbare
  have ha := ok_of_toOption ha
  obtain ⟨e, he, hbare⟩ := List.any_eq_true.1 hbare
  obtain ⟨x, hx, hbare⟩ := List.any_eq_true.1 hbare
  obtain ⟨hr, hsite⟩ := Bool.and_eq_true_iff.1 hbare
  have hr : x.register = none := of_decide_eq_true hr
  have hsite : ⟨⟨0, 5⟩, false⟩ ∈ x.interval.sites := List.contains_iff_mem.1 hsite
  obtain ⟨hstart, htaken⟩ := register_denied crowded_wellFormed hin rfl ha he hx hr hsite rfl
  refine ⟨crowded_wellFormed, hin, rfl, a, ha, e, he, x, hx, hr, hsite, hstart, ?_⟩
  rcases htaken .a (by decide) with ⟨range, hrange, -⟩ | htaken
  · cases hrange
  · exact htaken

end Allocation

end RegAlloc
