import RegAlloc.Proofs.ScanState

/-!
# What the scan reaches

A visit keeps the invariants of the scan, whatever the verdict (`Inv.visit`), so they hold along every run. Every step
takes one piece from the queue, and there are never more pieces than covered positions, so that the budget of steps
empties the queue: `Scan.complete` ends in a state where every piece was decided on (`complete_spec`).
-/

namespace RegAlloc

namespace Scan

variable {lt : Lifetimes} {t : Target} {s s' : Scan} {m n : Nat} {p q : Position} {r : PhysReg}
  {cur : Position} {visited : Nat} {now : Option Nat}

/-- Suspending a piece gives its register a slot, and cuts the piece where it is needed again, if that is before its
end. -/
theorem suspend_cases {o : Horizon} (h : s.suspend lt n o = .ok s') :
    (s' = s.spill lt n ∧ ∀ p, o = .pos p → (s.interval n).stop < p) ∨
      ∃ p, o = .pos p ∧ (s.spill lt n).cut n p = .ok s' := by
  cases o with
  | never => exact .inl ⟨(Except.ok.inj h).symm, nofun⟩
  | pos p =>
    rw [suspend] at h
    split_ifs at h with hstop
    · refine .inl ⟨(Except.ok.inj h).symm, fun q hq => ?_⟩
      exact Horizon.pos.inj hq ▸ hstop
    · exact .inr ⟨p, rfl, h⟩

/-- What suspending a piece changes: it may be cut before a horizon, and the rest then waits. -/
structure Suspended (n : Nat) (o : Horizon) (s s' : Scan) : Prop where
  narrows : s.Narrows s'
  active : s'.active = s.active
  register : ∀ k, s'.register? k = s.register? k
  others : ∀ k, k < s.pieces.length → k ≠ n → s'.interval k = s.interval k
  horizon : ∀ p, o = .pos p → ∀ q, (s'.interval n).covers q → q < p

/-- Suspending a piece that does not wait. What is cut off has to start at or after the position reached. -/
theorem Inv.suspend {o : Horizon} (h : Inv lt t cur visited now s) (hn : s.Settled now n)
    (ho : cur ≤ (s.interval n).start ∨ ∀ p, o = .pos p → cur ≤ p) (hs : s.suspend lt n o = .ok s') :
    Inv lt t cur visited now s' ∧ Suspended n o s s' := by
  have hlt := h.ledger.lt_length hn
  have hspill : Inv lt t cur visited now (s.spill lt n) := h.withSlots _
  rcases suspend_cases hs with ⟨rfl, hstop⟩ | ⟨p, rfl, hcut⟩
  · refine ⟨hspill, ⟨.withSlots _, rfl, fun _ => rfl, fun _ _ _ => rfl, fun p hp q hq => ?_⟩⟩
    exact lt_of_le_of_lt ((h.live hlt).le_stop hq) (hstop p hp)
  · obtain ⟨hstart, -, -⟩ := cut_eq_ok hcut
    have hp : cur ≤ p := ho.elim (fun hle => le_trans hle (le_of_lt hstart)) (fun hle => hle p rfl)
    obtain ⟨hinv, hnarrow, rfl⟩ := hspill.cut hn hp hcut
    have hlt' : n < (s.spill lt n).pieces.length := hlt
    refine ⟨hinv, ⟨.trans (.withSlots _) hnarrow, rfl, fun k => ?_, fun k hk hne => ?_, fun p' hp' q hq => ?_⟩⟩
    · rw [register?_eq, piece_divided hlt']
      split_ifs with h1 h2
      · rw [h1, register?_eq]
        rfl
      · have hk : s.pieces.length ≤ k := Nat.le_of_eq h2.symm
        rw [register?_eq, piece_of_length_le hk]
      · exact register?_eq.symm
    · have hkl : k ≠ (s.spill lt n).pieces.length := Nat.ne_of_lt hk
      rw [interval_eq, piece_divided hlt', if_neg hne, if_neg hkl]
      exact interval_eq.symm
    · rw [interval_eq, piece_divided hlt', if_pos rfl] at hq
      exact Horizon.pos.inj hp' ▸ (Interval.covers_before.1 hq).2

/-- The state while pieces give way to the visited piece `n`: since `base`, pieces only got smaller and lost
registers, and the visited piece is as it was. -/
structure Yielding (lt : Lifetimes) (t : Target) (cur : Position) (visited n : Nat) (base s : Scan) : Prop where
  inv : Inv lt t cur visited (some n) s
  narrows : base.Narrows s
  interval : s.interval n = base.interval n

namespace Yielding

variable {base : Scan}

/-- The visited piece is not listed yet, so it is none of those that give way. -/
theorem ne (h : Yielding lt t cur visited n base s) (hm : (s.piece m).listed = true) : n ≠ m := by
  rintro rfl
  exact h.inv.ledger.ne_now hm rfl

/-- Suspending a piece keeps the state a yielding one. -/
theorem suspend {o : Horizon} (h : Yielding lt t cur visited n base s) (hm : (s.piece m).listed = true)
    (ho : ∀ p, o = .pos p → cur ≤ p) (hs : s.suspend lt m o = .ok s') :
    Yielding lt t cur visited n base s' ∧ Suspended m o s s' := by
  obtain ⟨hinv, hsus⟩ := h.inv.suspend (.inl hm) (.inr ho) hs
  refine ⟨⟨hinv, h.narrows.trans hsus.narrows, ?_⟩, hsus⟩
  rw [hsus.others n (h.inv.ledger.current n rfl).1 (h.ne hm)]
  exact h.interval

/-- An active piece that gave way has no register any more, or is over. -/
theorem evictActive (h : Yielding lt t cur visited n base s) (hm : (s.piece m).listed = true)
    (hs : s.evictActive lt cur m = .ok s') :
    Yielding lt t cur visited n base s' ∧ s.Narrows s' ∧ ∀ r, s'.register? m = some r → (s'.interval m).stop < cur := by
  rw [Scan.evictActive] at hs
  split_ifs at hs with hstart
  · obtain ⟨hy, hsus⟩ := h.suspend hm (fun p hp => le_of_eq (Horizon.pos.inj hp)) hs
    refine ⟨hy, hsus.narrows, fun r hr => hsus.horizon cur rfl _ ?_⟩
    exact (hy.inv.live (lt_length_of_register? hr)).covers_stop
  · obtain ⟨hinv, hnarrow, hnone, hint⟩ := h.inv.dismiss hm
    have hy : Yielding lt t cur visited n base (s.dismiss m) := by
      refine ⟨hinv, h.narrows.trans hnarrow, ?_⟩
      rw [hint]
      exact h.interval
    have hlisted : ((s.dismiss m).piece m).listed = true :=
      (hnarrow.listed m (lt_length_of_listed hm)).trans hm
    have hnext : ∀ p, Horizon.ofOption ((s.interval m).nextSite? cur) = .pos p → cur ≤ p := by
      intro p hp
      rw [Interval.nextSite?] at hp
      cases hfind : (s.interval m).sites.find? (fun x => decide (cur ≤ x.position)) with
      | none =>
        rw [hfind] at hp
        cases hp
      | some x =>
        rw [hfind] at hp
        obtain rfl : x.position = p := Horizon.pos.inj hp
        simpa using List.find?_some hfind
    obtain ⟨hy', hsus⟩ := hy.suspend hlisted hnext hs
    refine ⟨hy', hnarrow.trans hsus.narrows, fun r hr => ?_⟩
    rw [hsus.register, hnone] at hr
    cases hr

/-- An inactive piece that gave way does not meet the visited piece. -/
theorem evictInactive (h : Yielding lt t cur visited n base s) (hcur : cur ≤ (base.interval n).start)
    (hm : (s.piece m).listed = true) (hs : s.evictInactive lt n m = .ok s') :
    Yielding lt t cur visited n base s' ∧ s.Narrows s' ∧ (s'.interval m).range.Disjoint (base.interval n).range := by
  have hlive := h.inv.live (h.inv.ledger.current n rfl).1
  have hspec := LiveRange.firstMeeting_spec (h.inv.wellFormed m).range hlive.range
  rw [Scan.evictInactive] at hs
  split at hs
  · rename_i p hmeet
    rw [hmeet] at hspec
    obtain ⟨_, hpn, hleast⟩ := hspec
    have hp : cur ≤ p := le_trans (h.interval ▸ hcur) (hlive.start_le hpn)
    obtain ⟨hy, hsus⟩ := h.suspend hm (fun p' hp' => Horizon.pos.inj hp' ▸ hp) hs
    refine ⟨hy, hsus.narrows, fun q hqm hqn => ?_⟩
    -- What is left of the piece lies before the first meeting.
    have hqm' := hsus.narrows.covers m q (lt_length_of_listed hm) hqm
    exact absurd (hsus.horizon p rfl q hqm) (not_lt.2 (hleast q hqm' (h.interval ▸ hqn)))
  · rename_i hmeet
    rw [hmeet, h.interval] at hspec
    obtain rfl := Except.ok.inj hs
    exact ⟨h, .refl s, hspec⟩

/-- Pieces that give way one after the other: what holds of each after its turn, and stays true of pieces that get
smaller, holds of all of them in the end. -/
theorem foldlM {f : Scan → Nat → Except Error Scan} {Q : Nat → Scan → Prop} {l : List Nat}
    (hf : ∀ s s' m, Yielding lt t cur visited n base s → (s.piece m).listed = true → f s m = .ok s' →
      Yielding lt t cur visited n base s' ∧ s.Narrows s' ∧ Q m s')
    (hQ : ∀ s s' m, m < s.pieces.length → s.Narrows s' → Q m s → Q m s') (h : Yielding lt t cur visited n base s)
    (hl : ∀ m ∈ l, (s.piece m).listed = true) (hs : l.foldlM f s = .ok s') :
    Yielding lt t cur visited n base s' ∧ s.Narrows s' ∧ ∀ m ∈ l, Q m s' := by
  induction l generalizing s with
  | nil =>
    obtain rfl := Except.ok.inj hs
    exact ⟨h, .refl s, nofun⟩
  | cons m l ih =>
    rw [List.foldlM_cons] at hs
    obtain ⟨s₁, hs₁, hs⟩ := bind_eq_ok hs
    have hm := hl m List.mem_cons_self
    obtain ⟨h₁, hnarrow₁, hQ₁⟩ := hf s s₁ m h hm hs₁
    have hl₁ : ∀ k ∈ l, (s₁.piece k).listed = true := by
      intro k hk
      have hk := hl k (List.mem_cons_of_mem _ hk)
      exact (hnarrow₁.listed k (lt_length_of_listed hk)).trans hk
    obtain ⟨h', hnarrow', hQ'⟩ := ih h₁ hl₁ hs
    refine ⟨h', hnarrow₁.trans hnarrow', fun k hk => ?_⟩
    rcases List.mem_cons.1 hk with rfl | hk
    · exact hQ s₁ s' k (Nat.lt_of_lt_of_le (lt_length_of_listed hm) hnarrow₁.length) hnarrow' hQ₁
    · exact hQ' k hk

end Yielding

/-- When the pieces that have a register have given way, it is free where the visited piece is live. -/
theorem Inv.yield {s₁ s₂ : Scan} (h : Inv lt t cur visited (some n) s) (hcur : cur = (s.interval n).start)
    (hs₁ : (s.active.filter (fun m => s.register? m = some r)).foldlM (evictActive lt cur) s = .ok s₁)
    (hs₂ : (s₁.inactive.filter (fun m => s₁.register? m = some r)).foldlM (evictInactive lt n) s₁ = .ok s₂) :
    Yielding lt t cur visited n s s₂ ∧
      (∀ m, s₂.register? m = some r → (s₂.interval m).range.Disjoint (s₂.interval n).range) ∧
      ∀ m ∈ s₂.active, s₂.register? m = some r → (s₂.interval m).stop < cur := by
  have hbase : Yielding lt t cur visited n s s := ⟨h, .refl s, rfl⟩
  have hlisted : ∀ m ∈ s.active.filter (fun m => s.register? m = some r), (s.piece m).listed = true := by
    intro m hm
    exact h.ledger.listed_of_register? (of_decide_eq_true (List.mem_filter.1 hm).2)
  obtain ⟨hy₁, hn₁, hover₁⟩ := hbase.foldlM
    (Q := fun m s => ∀ r, s.register? m = some r → (s.interval m).stop < cur)
    (fun s s' m hy hm hs => hy.evictActive hm hs)
    (fun s s' m _ hn hQ r hr => lt_of_le_of_lt (hn.stop m r hr) (hQ r (hn.register m r hr))) hlisted hs₁
  have hlisted₁ : ∀ m ∈ s₁.inactive.filter (fun m => s₁.register? m = some r), (s₁.piece m).listed = true := by
    intro m hm
    exact hy₁.inv.ledger.listed_of_register? (of_decide_eq_true (List.mem_filter.1 hm).2)
  obtain ⟨hy₂, hn₂, hdisj₂⟩ := hy₁.foldlM
    (Q := fun m s' => (s'.interval m).range.Disjoint (s.interval n).range)
    (fun s s' m hy hm hs => hy.evictInactive (le_of_eq hcur) hm hs)
    (fun s s' m hm hn hQ q hq => hQ q (hn.covers m q hm hq)) hlisted₁ hs₂
  have hlive := hy₂.inv.live (hy₂.inv.ledger.current n rfl).1
  have hcur₂ : cur = (s₂.interval n).start := by rw [hy₂.interval, hcur]
  -- A piece that is over does not meet one that starts now.
  have hpast : ∀ m, s₂.register? m = some r → (s₂.interval m).stop < cur →
      (s₂.interval m).range.Disjoint (s₂.interval n).range := by
    intro m hr hstop q hqm hqn
    have hqm := (hy₂.inv.live (lt_length_of_register? hr)).le_stop hqm
    exact absurd (lt_of_le_of_lt hqm (hcur₂ ▸ hstop)) (not_lt.2 (hlive.start_le hqn))
  have hactive : ∀ m ∈ s.active, s₂.register? m = some r → (s₂.interval m).stop < cur := by
    intro m hm hr
    have hr₁ := hn₂.register m r hr
    have hmem : m ∈ s.active.filter (fun m => s.register? m = some r) :=
      List.mem_filter.2 ⟨hm, decide_eq_true (hn₁.register m r hr₁)⟩
    exact lt_of_le_of_lt (hn₂.stop m r hr) (hover₁ m hmem r hr₁)
  refine ⟨hy₂, fun m hr => ?_, fun m hm hr => hactive m (hy₂.narrows.subset m hm) hr⟩
  rcases h.located m r (hy₂.narrows.register m r hr) with hm | hm | hm
  · exact hpast m hr (hactive m hm hr)
  · have hmem : m ∈ s₁.inactive.filter (fun m => s₁.register? m = some r) :=
      List.mem_filter.2 ⟨hn₁.inactive ▸ hm, decide_eq_true (hn₂.register m r hr)⟩
    rw [hy₂.interval]
    exact hdisj₂ m hmem
  · exact hpast m hr (lt_of_le_of_lt (hy₂.narrows.stop m r hr) hm)

/-- A register that is given is not one that the code needs, except perhaps for the piece that gets it. -/
theorem Unpinned.given (h : Unpinned lt none s) (hn : n < s.pieces.length) : Unpinned lt (some n) (s.given n r) := by
  intro k r' range hne hr hmem
  have hkn : k ≠ n := fun heq => hne (congrArg some heq.symm)
  rw [register?_given hn, if_neg hkn] at hr
  rw [interval_given hn]
  exact h k r' range nofun hr hmem

/-- If the visited piece keeps out of the pins of its register as well, all pieces do. -/
theorem Unpinned.of_except (h : Unpinned lt (some n) s)
    (hn : ∀ r range, s.register? n = some r → (r, range) ∈ lt.pinned → range.Disjoint (s.interval n).range) :
    Unpinned lt none s := by
  intro k r range _ hr hmem
  by_cases hkn : k = n
  · subst hkn
    exact hn r range hr hmem
  · exact h k r range (fun heq => hkn (Option.some.inj heq).symm) hr hmem

/-- Taking a register from the pieces that have it. -/
theorem Inv.evict (hlt : lt.WellFormed) (h : Inv lt t cur visited (some n) s) (hu : Unpinned lt none s)
    (hcur : cur = (s.interval n).start) (hr : r ∈ t.allocatable) (hs : s.evict lt n r = .ok s') :
    Inv lt t cur visited none s' ∧ Unpinned lt none s' := by
  rw [Scan.evict, ← hcur] at hs
  obtain ⟨s₁, hs₁, hs⟩ := bind_eq_ok hs
  obtain ⟨s₂, hs₂, hs⟩ := bind_eq_ok hs
  obtain ⟨hy, hfree, hover⟩ := h.yield hcur hs₁ hs₂
  obtain ⟨s₃, hs₃, hs⟩ := bind_eq_ok hs
  obtain ⟨-, rfl⟩ := assign_eq_ok hs₃
  have hn := (hy.inv.ledger.current n rfl).1
  have hinv := hy.inv.assign hr hfree hover
  have hu₃ : Unpinned lt (some n) (s₂.given n r) := (hy.narrows.unpinned hu).given hn
  have hreg : (s₂.given n r).register? n = some r := by rw [register?_given hn, if_pos rfl]
  have hlive := hinv.live (lt_length_of_register? hreg)
  have hlookup : ∀ range, (r, range) ∈ lt.pinned → lookupBy r lt.pinned = some range := fun range hmem =>
    lookupBy_of_mem hlt.pinned.nodup_keys hmem
  split at hs
  · -- The piece is cut where the code needs the register.
    rename_i p hp
    obtain ⟨range, hrange, hmeet⟩ := Option.bind_eq_some_iff.1 hp
    have hspec := LiveRange.firstMeeting_spec (hlt.ranges _ (mem_of_lookupBy hrange)) hlive.range
    rw [hmeet] at hspec
    obtain ⟨hinv', hsus⟩ := hinv.suspend (.inl (hinv.ledger.listed_of_register? hreg))
      (.inl (le_of_eq (by rw [interval_given hn, hy.interval, hcur]))) hs
    refine ⟨hinv', (hsus.narrows.unpinned hu₃).of_except fun r' range' hr' hmem q hqr hqn => ?_⟩
    rw [hsus.register, hreg] at hr'
    obtain rfl := Option.some.inj hr'
    obtain rfl := Option.some.inj ((hlookup range' hmem).symm.trans hrange)
    have hq := hsus.narrows.covers n q (lt_length_of_register? hreg) hqn
    exact absurd (hsus.horizon p rfl q hqn) (not_lt.2 (hspec.2.2 q hqr hq))
  · rename_i hp
    obtain rfl := Except.ok.inj hs
    refine ⟨hinv, hu₃.of_except fun r' range hr' hmem => ?_⟩
    rw [hreg] at hr'
    obtain rfl := Option.some.inj hr'
    rw [hlookup range hmem, Option.bind_some] at hp
    have hspec := LiveRange.firstMeeting_spec (hlt.ranges _ hmem) hlive.range
    rw [hp] at hspec
    exact hspec

/-- Giving the visited piece a register that is free over what it covers. -/
theorem Inv.take (h : Inv lt t cur visited (some n) s) (hu : Unpinned lt none s) (hcur : cur ≤ (s.interval n).start)
    (hr : r ∈ t.allocatable) (hfree : FreeOver lt s r (fun q => (s.interval n).covers q)) (hs : s.assign n r = .ok s') :
    Inv lt t cur visited none s' ∧ Unpinned lt none s' := by
  obtain ⟨-, rfl⟩ := assign_eq_ok hs
  have hn := (h.ledger.current n rfl).1
  have hlive := h.live hn
  refine ⟨h.assign hr (fun m hm q hqm hqn => ?_) (fun m hm hrm => absurd hrm (hfree.active m hm)), ?_⟩
  · rcases h.located m r hm with hloc | hloc | hloc
    · exact hfree.active m hloc hm
    · exact hfree.inactive m hloc hm q hqn hqm
    · have hq := (h.live (lt_length_of_register? hm)).le_stop hqm
      exact absurd (lt_of_le_of_lt hq (lt_of_lt_of_le hloc hcur)) (not_lt.2 (hlive.start_le hqn))
  · refine (hu.given hn).of_except fun r' range hr' hmem q hqr hqn => ?_
    rw [register?_given hn, if_pos rfl] at hr'
    obtain rfl := Option.some.inj hr'
    rw [interval_given hn] at hqn
    exact hfree.pinned range hmem q hqn hqr

/-- Carrying out a verdict that keeps its promise. -/
theorem Inv.carryOut (hlt : lt.WellFormed) (ht : t.allocatable ≠ []) (h : Inv lt t cur visited (some n) s)
    (hu : Unpinned lt none s) (hcur : cur = (s.interval n).start) {v : Verdict} (hv : Promised lt t s (s.interval n) v)
    (hs : s.carryOut lt n v = .ok s') : Inv lt t cur visited none s' ∧ Unpinned lt none s' := by
  cases v with
  | take r => exact h.take hu (le_of_eq hcur) hv.1 hv.2 hs
  | takeUntil r p =>
    obtain ⟨s₁, hs₁, hs⟩ := bind_eq_ok hs
    have hlive := h.live (h.ledger.current n rfl).1
    obtain ⟨h₁, hsus⟩ := h.suspend (.inr rfl) (.inl (le_of_eq hcur)) hs₁
    have hn₁ := (h₁.ledger.current n rfl).1
    have hsub : ∀ q, (s₁.interval n).covers q → (s.interval n).covers q ∧ q < p := fun q hq =>
      ⟨hsus.narrows.covers n q (h.ledger.current n rfl).1 hq, hsus.horizon p rfl q hq⟩
    have hfree : FreeOver lt s₁ r (fun q => (s₁.interval n).covers q) := by
      refine ⟨fun m hm hr => ?_, fun m hm hr q hq hqm => ?_, fun range hmem q hq =>
        hv.2.pinned range hmem q (hsub q hq)⟩
      · rw [hsus.active] at hm
        exact hv.2.active m hm (hsus.narrows.register m r hr)
      · rw [hsus.narrows.inactive] at hm
        have hr' := hsus.narrows.register m r hr
        exact hv.2.inactive m hm hr' q (hsub q hq) (hsus.narrows.covers m q (lt_length_of_register? hr') hqm)
    have hstart : cur ≤ (s₁.interval n).start := by
      rw [hcur]
      exact hlive.start_le (hsub _ (h₁.live hn₁).covers_start).1
    exact h₁.take (hsus.narrows.unpinned hu) hstart hv.1 hfree hs
  | wait o =>
    obtain ⟨s₁, hs₁, hs⟩ := bind_eq_ok hs
    obtain rfl := Except.ok.inj hs
    obtain ⟨h₁, hsus⟩ := h.suspend (.inr rfl) (.inl (le_of_eq hcur)) hs₁
    obtain ⟨h₂, hsame⟩ := h₁.list
    refine ⟨h₂, fun k r range hne hr hmem => ?_⟩
    rw [(hsame k).2]
    exact hsus.narrows.unpinned hu k r range hne ((hsame k).1 ▸ hr) hmem
  | evict r => exact h.evict hlt hu hcur hv hs
  | leave => exact absurd hv ht

/-- A step that takes a piece from the queue keeps the invariants. -/
theorem Inv.step (hlt : lt.WellFormed) (ht : t.allocatable ≠ []) (hnodup : t.allocatable.Nodup)
    (h : Inv lt t cur visited none s) (hu : Unpinned lt none s) {x : Ticket} {rest : List Ticket}
    (hq : s.queue = x :: rest) (hs : s.step lt t = .ok s') :
    Inv lt t x.start (visited + 1) none s' ∧ Unpinned lt none s' := by
  have hpop := h.pop hq
  have hx := h.ledger.ticket x (hq ▸ List.mem_cons_self)
  have hstart : x.start = (s.interval x.piece).start := by
    conv_lhs => rw [hx.2]
    rfl
  rw [Scan.step, hq] at hs
  have hs : (Scan.advance { s with queue := rest } x.start).carryOut lt x.piece
      ((Scan.advance { s with queue := rest } x.start).verdict lt t (s.interval x.piece)) = .ok s' := by
    rw [hstart]
    exact hs
  have hlive : (s.interval x.piece).Live := h.live hx.1
  refine hpop.carryOut hlt ht (fun n r range => hu n r range) hstart ?_ hs
  exact verdict_spec hnodup (fun n => (hpop.wellFormed n).range) hlt.ranges hlive

/-- There are no more pieces than covered positions. -/
theorem Inv.length_le_budget (h : Inv lt t cur visited now s) : s.pieces.length ≤ budget lt := by
  have hlive : ∀ l : List Interval, totalSize (l.filter (fun i => !i.range.isEmpty)) ≤ totalSize l := by
    intro l
    induction l with
    | nil => exact Nat.le_refl 0
    | cons x l ih =>
      rw [List.filter_cons, totalSize_cons]
      split_ifs
      · rw [totalSize_cons]
        omega
      · omega
  calc s.pieces.length = s.intervals.length := by rw [intervals, List.length_map]
    _ ≤ totalSize s.intervals :=
      length_le_totalSize fun x hx => (h.tiles.live x hx).range.size_pos (h.tiles.live x hx).nonempty
    _ = totalSize lt.live := h.tiles.size
    _ ≤ budget lt := hlive lt.intervals

/-- A run of enough steps empties the queue. -/
theorem Inv.run (hlt : lt.WellFormed) (ht : t.allocatable ≠ []) (hnodup : t.allocatable.Nodup) {steps : Nat}
    (h : Inv lt t cur visited none s) (hu : Unpinned lt none s) (hsteps : budget lt ≤ steps + visited)
    (hs : s.run lt t steps = .ok s') :
    s'.queue = [] ∧ (∃ cur visited, Inv lt t cur visited none s') ∧ Unpinned lt none s' := by
  induction steps generalizing s cur visited with
  | zero =>
    obtain rfl := Except.ok.inj hs
    have hle := h.length_le_budget
    have hcount := h.ledger.count
    exact ⟨List.eq_nil_of_length_eq_zero (by omega), ⟨cur, visited, h⟩, hu⟩
  | succ steps ih =>
    rw [Scan.run] at hs
    split_ifs at hs with hempty
    · obtain rfl := Except.ok.inj hs
      exact ⟨List.isEmpty_iff.1 hempty, ⟨cur, visited, h⟩, hu⟩
    · obtain ⟨s₁, hs₁, hs⟩ := bind_eq_ok hs
      obtain ⟨x, rest, hq⟩ := List.exists_cons_of_ne_nil (fun hnil => hempty (List.isEmpty_iff.2 hnil))
      obtain ⟨h₁, hu₁⟩ := h.step hlt ht hnodup hu hq hs₁
      exact ih h₁ hu₁ (by omega) hs

/-- At the beginning the pieces are the intervals. -/
theorem tiles_live (hlt : lt.WellFormed) : Tiles lt.live lt.live := by
  refine ⟨hlt.live, ?_, fun _ _ => rfl, fun _ => .refl _, rfl, fun _ h => h⟩
  exact (hlt.registers.filter _).imp fun hlt heq => absurd heq (ne_of_irrefl (r := (· < ·)) hlt)

/-- At first the queue holds the tickets of all pieces. -/
theorem initial_queue_perm : (initial lt).queue.Perm (lt.live.zipIdx.map (fun e => Ticket.ofInterval e.1 e.2)) := by
  have hnodup : (lt.live.zipIdx.map (fun e => Ticket.ofInterval e.1 e.2)).Nodup := by
    apply List.Nodup.of_map Ticket.piece
    rw [List.map_map]
    exact nodup_numbers lt.live
  have hperm : (insertAllBy id (lt.live.zipIdx.map (fun e => Ticket.ofInterval e.1 e.2)) []).Perm
      (lt.live.zipIdx.map (fun e => Ticket.ofInterval e.1 e.2) ++ []) := by
    apply insertAllBy_perm
    rwa [List.map_id, List.append_nil]
  rwa [List.append_nil] at hperm

/-- At the beginning a piece is an interval that has no register and was not decided on. -/
theorem piece_initial {n : Nat} (hn : n < lt.live.length) : (initial lt).piece n = ⟨lt.live[n], none, false⟩ := by
  have hpieces : (initial lt).pieces = lt.live.map (fun i => ⟨i, none, false⟩) := rfl
  rw [piece, hpieces, List.getElem?_map, List.getElem?_eq_getElem hn]
  rfl

/-- At the beginning no piece has a register. -/
theorem register?_initial (n : Nat) : (initial lt).register? n = none := by
  rw [register?_eq]
  rcases Nat.lt_or_ge n lt.live.length with hn | hn
  · rw [piece_initial hn]
  · rw [piece_of_length_le (Nat.le_trans (Nat.le_of_eq (List.length_map _)) hn)]

/-- The intervals of the first state are those that cover something. -/
theorem intervals_initial : (initial lt).intervals = lt.live := by
  have hpieces : (initial lt).pieces = lt.live.map (fun i => ⟨i, none, false⟩) := rfl
  rw [intervals, hpieces, List.map_map]
  exact List.map_id _

/-- Before the first visit every piece waits. -/
theorem ledger_initial : Ledger 0 none (initial lt) := by
  have hlength : (initial lt).pieces.length = lt.live.length := List.length_map _
  refine ⟨?_, ?_, nofun, ?_, ?_, ?_⟩
  · exact ascending_insertAllBy List.Pairwise.nil
  · intro x hx
    obtain ⟨⟨i, n⟩, he, rfl⟩ := List.mem_map.1 (initial_queue_perm.mem_iff.1 hx)
    obtain ⟨hn, hi⟩ := List.mem_zipIdx' he
    rw [hlength, Ticket.piece_ofInterval, interval_eq, piece_initial hn]
    exact ⟨hn, by rw [hi]⟩
  · intro n hn
    rw [hlength] at hn
    rw [piece_initial hn, (initial_queue_perm.map Ticket.piece).mem_iff, List.map_map]
    have hsnd : lt.live.zipIdx.map (Ticket.piece ∘ fun e => Ticket.ofInterval e.1 e.2) = List.range' 0 lt.live.length :=
      List.zipIdx_map_snd 0 lt.live
    rw [hsnd, List.mem_range'_1]
    simp [hn]
  · intro n _
    rw [← register?_eq]
    exact register?_initial n
  · rw [initial_queue_perm.length_eq, List.length_map, List.length_zipIdx, hlength]
    rfl

/-- The invariants hold before the first visit. -/
theorem inv_initial (hlt : lt.WellFormed) : Inv lt t .zero 0 none (initial lt) ∧ Unpinned lt none (initial lt) := by
  have hbare : ∀ n r, (initial lt).register? n ≠ some r := fun n r h => by cases (register?_initial n).symm.trans h
  refine ⟨⟨?_, ledger_initial, ?_, ⟨?_, ?_⟩, ?_⟩, ?_⟩
  · exact intervals_initial ▸ tiles_live hlt
  · exact fun x _ => Position.le_def.2 (by simp only [Position.zero]; omega)
  · exact fun n r hr => absurd hr (hbare n r)
  · exact fun m n r hr => absurd hr (hbare m r)
  · exact fun n r hr => absurd hr (hbare n r)
  · exact fun n r range _ hr => absurd hr (hbare n r)

/-- When the scan is complete, every piece was decided on, and all invariants hold. -/
theorem complete_spec (hlt : lt.WellFormed) (ht : t.Valid) (hs : complete lt t = .ok s) :
    (∀ n, n < s.pieces.length → (s.piece n).listed = true) ∧ Tiles lt.live s.intervals ∧ Occupied t s ∧
      Unpinned lt none s := by
  obtain ⟨h, hu⟩ := inv_initial (t := t) hlt
  obtain ⟨hq, ⟨cur, visited, h⟩, hu⟩ := h.run hlt ht.nonempty ht.nodup hu (Nat.le_add_right _ _) hs
  refine ⟨fun n hn => ?_, h.tiles, h.occupied, hu⟩
  by_contra hl
  have := (h.ledger.waiting n hn).1 (by simpa using hl)
  rw [hq] at this
  simp at this

end Scan

end RegAlloc
