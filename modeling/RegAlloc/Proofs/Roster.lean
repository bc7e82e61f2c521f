import RegAlloc.Proofs.Progress
import RegAlloc.Proofs.Slots

/-!
# The active and the inactive pieces

When the scan has moved on to the start of a piece, the lists of active and inactive pieces say exactly which pieces
have a register there: the active ones cover the position, each with a register of its own, and the inactive ones have
begun and are not over, but are in a hole (`Scan.run_swept`).

That no piece with a register is missing is one of the invariants of the scan (`Inv.located`). Here it is shown that
none is there that should not be: every piece in one of the lists has a register, and is there once (`Roster`).
Between two visits the lists change in few ways. Pieces that give way are cut, or lose their register and leave the
active pieces (`Thins`); and the visited piece, which is in neither list before, becomes active.
-/

namespace RegAlloc

namespace Scan

variable {lt : Lifetimes} {t : Target} {s s' : Scan} {m n : Nat} {p : Position} {r : PhysReg} {o : Horizon}
  {cur : Position} {visited : Nat}

/-- The pieces in the two lists have registers, and each is listed once. -/
structure Roster (s : Scan) : Prop where
  holders : ∀ n, n ∈ s.active ∨ n ∈ s.inactive → ∃ r, s.register? n = some r
  once : (s.active ++ s.inactive).Nodup

/-- Pieces leave the active ones, and those that stay in one of the lists keep their registers. -/
structure Thins (s s' : Scan) : Prop where
  length : s.pieces.length ≤ s'.pieces.length
  active : s'.active.Sublist s.active
  inactive : s'.inactive = s.inactive
  register : ∀ n r, n ∈ s'.active ∨ n ∈ s'.inactive → s.register? n = some r → s'.register? n = some r

/-! ## What gives way -/

namespace Thins

theorem refl (s : Scan) : s.Thins s := ⟨Nat.le_refl _, .refl _, rfl, fun _ _ _ h => h⟩

/-- No piece enters the lists. -/
theorem subset (h : s.Thins s') (hn : n ∈ s'.active ∨ n ∈ s'.inactive) : n ∈ s.active ∨ n ∈ s.inactive := by
  rcases hn with hn | hn
  · exact .inl (h.active.subset hn)
  · exact .inr (h.inactive ▸ hn)

theorem trans {s'' : Scan} (h : s.Thins s') (h' : s'.Thins s'') : s.Thins s'' := by
  refine ⟨Nat.le_trans h.length h'.length, h'.active.trans h.active, h'.inactive.trans h.inactive, fun n r hn hr => ?_⟩
  exact h'.register n r hn (h.register n r (h'.subset hn) hr)

/-- Thinning keeps the pieces of the lists once, and with registers. -/
theorem roster (h : s.Thins s') (hs : s.Roster) : s'.Roster := by
  constructor
  · intro n hn
    obtain ⟨r, hr⟩ := hs.holders n (h.subset hn)
    exact ⟨r, h.register n r hn hr⟩
  · rw [h.inactive]
    exact hs.once.sublist (h.active.append_right _)

/-- Suspending a piece thins the lists, if anything. -/
theorem suspend (hs : s.suspend lt n o = .ok s') : s.Thins s' := by
  have hlists : s'.active = s.active ∧ s'.inactive = s.inactive := by
    rcases suspend_cases hs with ⟨rfl, -⟩ | ⟨p, -, hcut⟩
    · exact ⟨rfl, rfl⟩
    · obtain ⟨-, -, rfl⟩ := cut_eq_ok hcut
      exact ⟨rfl, rfl⟩
  refine ⟨length_le_suspend hs, hlists.1 ▸ .refl _, hlists.2, fun k r _ hr => ?_⟩
  rcases (suspend_pieces hs).2 with hpieces | ⟨-, -, -, -, hold⟩
  · rw [register?, hpieces]
    exact hr
  · -- Only the new piece, which no number stood for before, is not as it was.
    rw [(hold k (Nat.ne_of_lt (lt_length_of_register? hr))).2.1]
    exact hr

/-- A piece that is not inactive loses its register. -/
theorem dismiss (hm : m ∉ s.inactive) : s.Thins (s.dismiss m) := by
  refine ⟨Nat.le_of_eq (length_dismiss s m).symm, List.filter_sublist, rfl, fun k r hk hr => ?_⟩
  have hkm : k ≠ m := by
    rintro rfl
    rcases hk with hk | hk
    · exact absurd rfl (of_decide_eq_true (List.mem_filter.1 hk).2)
    · exact hm hk
  have hpiece : (s.dismiss m).piece k = s.piece k := piece_modify_ne _ hkm
  rw [register?_eq, hpiece, ← register?_eq]
  exact hr

/-- Evicting an active piece takes it off the lists. -/
theorem evictActive (hm : m ∉ s.inactive) (hs : s.evictActive lt p m = .ok s') : s.Thins s' := by
  rw [Scan.evictActive] at hs
  split_ifs at hs
  · exact .suspend hs
  · exact (dismiss hm).trans (.suspend hs)

/-- Evicting an inactive piece leaves the lists as they are, or takes it off. -/
theorem evictInactive (hs : s.evictInactive lt n m = .ok s') : s.Thins s' := by
  rw [Scan.evictInactive] at hs
  split at hs
  · exact .suspend hs
  · obtain rfl := Except.ok.inj hs
    exact refl s

/-- Pieces give way one after the other, while the inactive pieces stay the same. -/
theorem foldlM {g : Scan → Nat → Except Error Scan} {l : List Nat}
    (hg : ∀ m ∈ l, ∀ s₁ s₂, s₁.inactive = s.inactive → g s₁ m = .ok s₂ → s₁.Thins s₂) (hs : l.foldlM g s = .ok s') :
    s.Thins s' := by
  induction l generalizing s with
  | nil =>
    obtain rfl := Except.ok.inj hs
    exact refl s
  | cons m l ih =>
    rw [List.foldlM_cons] at hs
    obtain ⟨s₁, hs₁, hs⟩ := bind_eq_ok hs
    have hfirst : s.Thins s₁ := hg m List.mem_cons_self s s₁ rfl hs₁
    refine hfirst.trans (ih (fun k hk s₂ s₃ hinactive => ?_) hs)
    exact hg k (List.mem_cons_of_mem m hk) s₂ s₃ (hinactive.trans hfirst.inactive)

end Thins

/-! ## What a visit does to the lists -/

namespace Roster

/-- A piece without a register is in none of the lists. -/
theorem not_mem (h : s.Roster) (hn : s.register? n = none) : n ∉ s.active ∧ n ∉ s.inactive := by
  have hbare : ¬∃ r, s.register? n = some r := by simp [hn]
  exact ⟨fun hmem => hbare (h.holders n (.inl hmem)), fun hmem => hbare (h.holders n (.inr hmem))⟩

/-- A piece that has no register gets one. -/
theorem assign (h : s.Roster) (hn : n < s.pieces.length) (hs : s.assign n r = .ok s') : s'.Roster := by
  obtain ⟨hbare, rfl⟩ := assign_eq_ok hs
  obtain ⟨hactive, hinactive⟩ := h.not_mem hbare
  have hrest : ((s.given n r).active ++ (s.given n r).inactive).Perm
      (n :: (s.active.filter (fun m => (s.given n r).register? m ≠ some r) ++ s.inactive)) := by
    refine List.Perm.trans (List.Perm.of_eq (List.append_assoc _ _ _)) ?_
    exact List.perm_middle
  have hsub : (s.active.filter (fun m => (s.given n r).register? m ≠ some r) ++ s.inactive).Sublist
      (s.active ++ s.inactive) :=
    List.filter_sublist.append_right _
  constructor
  · intro k hk
    rw [register?_given hn]
    split_ifs with hkn
    · exact ⟨r, rfl⟩
    · have hmem := hrest.mem_iff.1 (List.mem_append.2 hk)
      exact h.holders k (List.mem_append.1 (hsub.subset ((List.mem_cons.1 hmem).resolve_left hkn)))
  · refine hrest.nodup_iff.2 (List.nodup_cons.2 ⟨fun hmem => ?_, h.once.sublist hsub⟩)
    exact (List.mem_append.1 (hsub.subset hmem)).elim hactive hinactive

/-- Deciding on a piece without a register has no part in the lists. -/
theorem list (h : s.Roster) (n : Nat) : (s.list n).Roster := by
  refine ⟨fun k hk => ?_, h.once⟩
  obtain ⟨r, hr⟩ := h.holders k hk
  refine ⟨r, ?_⟩
  rw [register?_eq] at hr ⊢
  by_cases hkn : k = n
  · subst hkn
    have hlt : k < s.pieces.length := lt_length_of_register? (register?_eq.trans hr)
    rw [Scan.list, piece_modify _ hlt, if_pos rfl]
    exact hr
  · rw [Scan.list, piece_modify_ne _ hkn]
    exact hr

/-- A piece takes a register from its owners. -/
theorem evict (h : s.Roster) (hn : n < s.pieces.length) (hs : s.evict lt n r = .ok s') : s'.Roster := by
  obtain ⟨s₁, hs₁, hs⟩ := bind_eq_ok hs
  obtain ⟨s₂, hs₂, hs⟩ := bind_eq_ok hs
  obtain ⟨s₃, hs₃, hs⟩ := bind_eq_ok hs
  have hthin₁ : s.Thins s₁ := by
    refine .foldlM (fun m hm s' s'' hinactive hs => .evictActive ?_ hs) hs₁
    rw [hinactive]
    exact fun hmem => List.disjoint_of_nodup_append h.once (List.mem_filter.1 hm).1 hmem
  have hthin₂ : s₁.Thins s₂ := .foldlM (fun m _ s' s'' _ hs => .evictInactive hs) hs₂
  have hthin : s.Thins s₂ := hthin₁.trans hthin₂
  have hroster : s₃.Roster := (hthin.roster h).assign (Nat.lt_of_lt_of_le hn hthin.length) hs₃
  split at hs
  · exact (Thins.suspend hs).roster hroster
  · obtain rfl := Except.ok.inj hs
    exact hroster

/-- Every verdict keeps the lists in order. -/
theorem carryOut (h : s.Roster) {v : Verdict} (hn : n < s.pieces.length) (hs : s.carryOut lt n v = .ok s') :
    s'.Roster := by
  cases v with
  | take r => exact h.assign hn hs
  | takeUntil r p =>
    obtain ⟨s₁, hs₁, hs⟩ := bind_eq_ok hs
    have hthin : s.Thins s₁ := .suspend hs₁
    exact (hthin.roster h).assign (Nat.lt_of_lt_of_le hn hthin.length) hs
  | wait o =>
    obtain ⟨s₁, hs₁, hs⟩ := bind_eq_ok hs
    obtain rfl := Except.ok.inj hs
    exact ((Thins.suspend hs₁).roster h).list n
  | evict r => exact h.evict hn hs
  | leave =>
    obtain rfl := Except.ok.inj hs
    exact h

theorem withQueue (h : s.Roster) (queue : List Ticket) : Roster { s with queue := queue } := ⟨h.holders, h.once⟩

/-- A piece that is not over covers the position or is in a hole there, and not both. -/
theorem advance (h : s.Roster) (p : Position) : (s.advance p).Roster := by
  constructor
  · intro n hn
    refine h.holders n ?_
    rcases hn with hn | hn
    · exact List.mem_append.1 (List.mem_filter.1 hn).1
    · exact (List.mem_append.1 (List.mem_filter.1 hn).1).symm
  · have hswapped : (s.inactive ++ s.active).Nodup := List.nodup_append_comm.1 h.once
    refine List.Nodup.append (h.once.filter _) (hswapped.filter _) fun n hactive hinactive => ?_
    have hsorted : Sorted p (s.advance p) := sorted_advance s p
    exact hsorted.inactive n hinactive (hsorted.active n hactive)

end Roster

/-- At the beginning both lists are empty. -/
theorem roster_initial (lt : Lifetimes) : (initial lt).Roster := by
  refine ⟨fun n hn => ?_, List.nodup_nil⟩
  rcases hn with hn | hn <;> cases hn

/-! ## Runs -/

/-- **A run.** After any number of steps the lists are in order. -/
theorem Running.run (hlt : lt.WellFormed) (ht : t.Valid) (h : Running lt t cur visited s) (hs : s.Roster)
    (steps : Nat) :
    ∃ s' cur' visited', s.run lt t steps = .ok s' ∧ Running lt t cur' visited' s' ∧ s'.Roster := by
  induction steps generalizing cur visited s with
  | zero => exact ⟨s, cur, visited, rfl, h, hs⟩
  | succ steps ih =>
    cases hq : s.queue with
    | nil =>
      refine ⟨s, cur, visited, ?_, h, hs⟩
      rw [Scan.run, hq, List.isEmpty_nil, if_pos rfl]
    | cons x rest =>
      obtain ⟨s₁, hs₁, h₁, -⟩ := h.step hlt ht hq
      obtain ⟨-, -, -, -, hstep⟩ := h.pop hq
      have hn : x.piece < s.pieces.length := (h.inv.ledger.ticket x (hq ▸ List.mem_cons_self)).1
      have hroster : s₁.Roster := ((hs.withQueue rest).advance x.start).carryOut hn (hstep.symm.trans hs₁)
      obtain ⟨s', cur', visited', hs', hfinal⟩ := ih h₁ hroster
      refine ⟨s', cur', visited', ?_, hfinal⟩
      rw [Scan.run, hq, if_neg (by simp), bind_of_eq_ok hs₁]
      exact hs'

/-- The lists at a position: the active pieces are those that have a register and cover it, the inactive ones those
that have a register and are in a hole there. -/
structure Swept (p : Position) (s : Scan) : Prop where
  active : ∀ n, n ∈ s.active ↔ (∃ r, s.register? n = some r) ∧ (s.interval n).covers p
  inactive : ∀ n, n ∈ s.inactive ↔ (∃ r, s.register? n = some r) ∧
    (s.interval n).start < p ∧ p ≤ (s.interval n).stop ∧ ¬(s.interval n).covers p
  once : (s.active ++ s.inactive).Nodup
  apart : ∀ m ∈ s.active, ∀ n ∈ s.active, s.register? m = s.register? n → m = n

theorem stop_of_mem_inactive_advance (hn : n ∈ (s.advance p).inactive) : p ≤ (s.interval n).stop := by
  have hends : (!(s.interval n).endsBefore p) = true := (Bool.and_eq_true_iff.1 (List.mem_filter.1 hn).2).1
  simpa [Interval.endsBefore] using hends

/-- With all invariants of the scan, the lists are what they are meant to be. -/
theorem Inv.swept {now : Option Nat} (h : Inv lt t p visited now s) (hb : Begun p s) (hsorted : Sorted p s)
    (hends : ∀ n ∈ s.inactive, p ≤ (s.interval n).stop) (hs : s.Roster) : Swept p s := by
  have hlive : ∀ n r, s.register? n = some r → (s.interval n).Live := fun n r hr => h.live (lt_length_of_register? hr)
  constructor
  case once => exact hs.once
  case active =>
    intro n
    constructor
    · intro hn
      exact ⟨hs.holders n (.inl hn), hsorted.active n hn⟩
    · rintro ⟨⟨r, hr⟩, hcov⟩
      rcases h.located n r hr with hn | hn | hover
      · exact hn
      · exact absurd hcov (hsorted.inactive n hn)
      · exact absurd ((hlive n r hr).le_stop hcov) (not_le.2 hover)
  case inactive =>
    intro n
    constructor
    · intro hn
      obtain ⟨r, hr⟩ := hs.holders n (.inr hn)
      have hhole : ¬(s.interval n).covers p := hsorted.inactive n hn
      refine ⟨⟨r, hr⟩, lt_of_le_of_ne (hb n (h.ledger.listed_of_register? hr)) ?_, hends n hn, hhole⟩
      intro hstart
      exact hhole (hstart ▸ (hlive n r hr).covers_start)
    · rintro ⟨⟨r, hr⟩, -, hstop, hhole⟩
      rcases h.located n r hr with hn | hn | hover
      · exact absurd (hsorted.active n hn) hhole
      · exact hn
      · exact absurd hstop (not_le.2 hover)
  case apart =>
    intro m hm n hn heq
    by_contra hne
    obtain ⟨r, hr⟩ := hs.holders m (.inl hm)
    exact h.occupied.exclusive m n r hr (heq ▸ hr) hne p (hsorted.active m hm) (hsorted.active n hn)

/-- **The lists are exact.** For well-formed lifetimes and a valid target every run gets on for any number of steps.
When it has moved on to the start of the next piece, the state in which that piece is decided on, the active pieces
are exactly those with a register that cover the position, no two of them with the same one; the inactive pieces are
exactly those with a register that start before it, are not over and do not cover it; and nothing is listed twice. -/
theorem run_swept (hlt : lt.WellFormed) (ht : t.validate = .ok ()) (steps : Nat) :
    ∃ s, Scan.run lt t steps (initial lt) = .ok s ∧ ∀ x rest, s.queue = x :: rest →
      Swept x.start (Scan.advance { s with queue := rest } x.start) ∧ x.start = (s.interval x.piece).start ∧
        s.step lt t = (Scan.advance { s with queue := rest } x.start).carryOut lt x.piece
          ((Scan.advance { s with queue := rest } x.start).verdict lt t (s.interval x.piece)) := by
  obtain ⟨s, cur, visited, hs, h, hroster⟩ :=
    (running_initial hlt).run hlt (Target.valid_of_validate ht) (roster_initial lt) steps
  refine ⟨s, hs, fun x rest hq => ?_⟩
  obtain ⟨hstart, -, hinv, hbegun, hstep⟩ := h.pop hq
  refine ⟨hinv.swept hbegun (sorted_advance _ _) (fun n hn => ?_) ((hroster.withQueue rest).advance x.start),
    hstart, hstep⟩
  exact stop_of_mem_inactive_advance (s := { s with queue := rest }) hn

/-- A register with a hole, one that is live throughout, and two that come in between. -/
def dozing : Lifetimes :=
  ⟨[⟨⟨0, .quad⟩, ⟨[⟨0, 2, 4⟩, ⟨0, 10, 14⟩]⟩, [⟨⟨0, 2⟩, false⟩, ⟨⟨0, 13⟩, false⟩], [], []⟩,
    ⟨⟨1, .quad⟩, ⟨[⟨0, 4, 15⟩]⟩, [⟨⟨0, 4⟩, false⟩, ⟨⟨0, 15⟩, false⟩], [], []⟩,
    ⟨⟨2, .quad⟩, ⟨[⟨0, 6, 9⟩]⟩, [⟨⟨0, 6⟩, false⟩, ⟨⟨0, 9⟩, false⟩], [], []⟩,
    ⟨⟨3, .quad⟩, ⟨[⟨0, 8, 11⟩]⟩, [⟨⟨0, 8⟩, false⟩, ⟨⟨0, 11⟩, false⟩], [], []⟩],
    []⟩

/-- The example has well-formed lifetimes. -/
theorem dozing_wellFormed : dozing.WellFormed := by
  have hone : ∀ i ∈ dozing.intervals, i.WellFormed := by
    simp only [dozing, List.mem_cons, List.not_mem_nil, or_false, forall_eq_or_imp, forall_eq]
    exact ⟨⟨⟨by decide, by decide⟩, by unfold Ascending; decide⟩, ⟨⟨by decide, by decide⟩, by unfold Ascending; decide⟩,
      ⟨⟨by decide, by decide⟩, by unfold Ascending; decide⟩, ⟨⟨by decide, by decide⟩, by unfold Ascending; decide⟩⟩
  have htwo : ∀ e ∈ dozing.pinned, e.2.WellFormed := by
    simp only [dozing, List.not_mem_nil, false_implies, implies_true]
  exact ⟨by unfold Ascending; decide, hone, by unfold Ascending; decide, htwo⟩

/-- After four steps the second register has been cut to make room for the fourth, and the rest of it is visited. The
third register is active and has the same physical register as the first, which is in its hole. -/
theorem run_swept_dozing :
    dozing.WellFormed ∧ (Target.withAllocatable [.a, .b]).validate = .ok () ∧
      ∃ s, Scan.run dozing (.withAllocatable [.a, .b]) 4 (initial dozing) = .ok s ∧ s.queue.map Ticket.piece = [4] ∧
        Swept ⟨0, 8⟩ (Scan.advance { s with queue := [] } ⟨0, 8⟩) ∧
        (s.advance ⟨0, 8⟩).active = [2, 3] ∧ (s.advance ⟨0, 8⟩).inactive = [0] ∧ s.register? 0 = s.register? 2 := by
  have hstate : (Scan.run dozing (.withAllocatable [.a, .b]) 4 (initial dozing)).toOption.map (fun s =>
      (s.queue, (s.advance ⟨0, 8⟩).active, (s.advance ⟨0, 8⟩).inactive, s.register? 0, s.register? 2)) =
      some ([⟨⟨0, 8⟩, .pos ⟨0, 15⟩, 1, 4⟩], [2, 3], [0], some .a, some .a) := rfl
  obtain ⟨s, hs, hnext⟩ := run_swept dozing_wellFormed (t := .withAllocatable [.a, .b]) rfl 4
  rw [hs] at hstate
  simp only [Except.toOption, Option.map_some, Option.some.injEq, Prod.mk.injEq] at hstate
  obtain ⟨hqueue, hactive, hinactive, hzero, htwo⟩ := hstate
  refine ⟨dozing_wellFormed, rfl, s, hs, ?_, (hnext _ _ hqueue).1, hactive, hinactive, hzero.trans htwo.symm⟩
  rw [hqueue]
  rfl

end Scan

end RegAlloc
