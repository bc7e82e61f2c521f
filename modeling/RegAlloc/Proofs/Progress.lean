import RegAlloc.Proofs.Refusal
import RegAlloc.Proofs.ScanRun

/-!
# The scan always gets on

No step of the scan fails. Pieces are cut behind their starts only, because pieces that were decided on start at or
before the position reached (`Begun`) and a verdict rests on horizons behind it (`Grounds`), and the visited piece has
no register yet when it gets one. `Spares` says what a step leaves alone: pieces keep their starts, get no new sites,
and keep their register where they use it up to the position reached.

So every run from the initial state visits each piece exactly once, in the order of the starts, and ends
(`Running.visits`).
-/

namespace RegAlloc

/-- A computation goes on with the result of its first part. -/
theorem bind_of_eq_ok {α β : Type} {x : Except Error α} {a : α} {f : α → Except Error β} (h : x = .ok a) :
    x >>= f = f a := by
  rw [h]
  rfl

/-- A computation succeeds if its first part does, and then its second part. -/
theorem exists_bind {α β : Type} {x : Except Error α} {f : α → Except Error β} (hx : ∃ a, x = .ok a)
    (hf : ∀ a, x = .ok a → ∃ b, f a = .ok b) : ∃ b, x >>= f = .ok b := by
  obtain ⟨a, ha⟩ := hx
  rw [bind_of_eq_ok ha]
  exact hf a ha

/-- A computation fails where one of its parts does. -/
theorem bind_eq_error {α β : Type} {x : Except Error α} {f : α → Except Error β} {e : Error} (h : x >>= f = .error e) :
    x = .error e ∨ ∃ a, x = .ok a ∧ f a = .error e := by
  cases x with
  | error e' => exact .inl (congrArg Except.error (Except.error.inj h))
  | ok a => exact .inr ⟨a, rfl, h⟩

/-- A list of computations fails where one of them does. -/
theorem mapM_eq_error {α β : Type} {f : α → Except Error β} {l : List α} {e : Error} (h : l.mapM f = .error e) :
    ∃ a ∈ l, f a = .error e := by
  induction l with
  | nil => cases h
  | cons a l ih =>
    rw [List.mapM_cons] at h
    rcases bind_eq_error h with ha | ⟨b, -, h⟩
    · exact ⟨a, List.mem_cons_self, ha⟩
    · rcases bind_eq_error h with hl | ⟨bs, -, h⟩
      · obtain ⟨a', ha', hfa⟩ := ih hl
        exact ⟨a', List.mem_cons_of_mem a ha', hfa⟩
      · cases h

/-- A list of computations succeeds if each of them does. -/
theorem exists_mapM {α β : Type} {f : α → Except Error β} {l : List α} (h : ∀ a ∈ l, ∃ b, f a = .ok b) :
    ∃ r, l.mapM f = .ok r := by
  cases hr : l.mapM f with
  | ok r => exact ⟨r, rfl⟩
  | error e =>
    obtain ⟨a, ha, he⟩ := mapM_eq_error hr
    obtain ⟨b, hb⟩ := h a ha
    cases he.symm.trans hb

namespace Scan

variable {lt : Lifetimes} {t : Target} {s s' : Scan} {m n : Nat} {p q : Position} {r : PhysReg} {o : Horizon}
  {cur : Position} {visited : Nat} {now : Option Nat}

/-- A piece can be suspended at any position behind its start. -/
theorem exists_suspend (ho : ∀ p, o = .pos p → (s.interval n).start < p) : ∃ s', s.suspend lt n o = .ok s' := by
  cases o with
  | never => exact ⟨_, rfl⟩
  | pos p =>
    rw [suspend]
    split_ifs with hstop
    · exact ⟨_, rfl⟩
    · have hcut : ((s.spill lt n).interval n).splitBefore p = .ok ((s.interval n).before p, (s.interval n).after p) :=
        Interval.splitBefore_eq_ok.2 ⟨ho p rfl, not_lt.1 hstop, rfl, rfl⟩
      refine ⟨(s.spill lt n).divided n p, ?_⟩
      rw [cut, hcut]
      rfl

/-- A register can be given to a piece that has none. -/
theorem assign_eq_given (h : s.register? n = none) : s.assign n r = .ok (s.given n r) := by
  rw [assign, h]
  rfl

/-! ## What a step leaves alone -/

/-- What happens while piece `n` is visited at `cur` leaves the other pieces decided on or not as they were. Pieces
keep their starts, get no new sites, and go on to use registers up to `cur`. -/
structure Spares (cur : Position) (n : Nat) (s s' : Scan) : Prop where
  length : s.pieces.length ≤ s'.pieces.length
  listed : ∀ k, k ≠ n → (s'.piece k).listed = (s.piece k).listed
  start : ∀ k, k < s.pieces.length → (s'.interval k).start = (s.interval k).start
  sites : ∀ k, k < s.pieces.length → ∀ x ∈ (s'.interval k).sites, x ∈ (s.interval k).sites
  uses : ∀ k r q, q ≤ cur → s.Uses k r q → s'.Uses k r q

namespace Spares

theorem refl (cur : Position) (n : Nat) (s : Scan) : Spares cur n s s :=
  ⟨Nat.le_refl _, fun _ _ => rfl, fun _ _ => rfl, fun _ _ _ h => h, fun _ _ _ _ h => h⟩

/-- What is left alone step by step is left alone. -/
theorem trans {s'' : Scan} (h : Spares cur n s s') (h' : Spares cur n s' s'') : Spares cur n s s'' where
  length := Nat.le_trans h.length h'.length
  listed k hk := (h'.listed k hk).trans (h.listed k hk)
  start k hk := (h'.start k (Nat.lt_of_lt_of_le hk h.length)).trans (h.start k hk)
  sites k hk x hx := h.sites k hk x (h'.sites k (Nat.lt_of_lt_of_le hk h.length) x hx)
  uses k r q hq hu := h'.uses k r q hq (h.uses k r q hq hu)

/-- A change of one piece that leaves its interval alone. -/
theorem of_pieces (hlen : s'.pieces.length = s.pieces.length) (hint : ∀ k, s'.interval k = s.interval k)
    (hlisted : ∀ k, k ≠ n → (s'.piece k).listed = (s.piece k).listed)
    (huses : ∀ k r q, q ≤ cur → s.Uses k r q → s'.register? k = some r) : Spares cur n s s' := by
  refine ⟨Nat.le_of_eq hlen.symm, hlisted, fun k _ => by
    rw [hint], fun k _ x hx => by rwa [hint] at hx, fun k r q hq hu => ?_⟩
  refine ⟨huses k r q hq hu, ?_⟩
  rw [hint]
  exact hu.2

/-- Cutting a piece after the position reached leaves all before it alone. -/
theorem cut (hlt : m < s.pieces.length) (hlive : (s.interval m).Live) (hp : (s.interval m).start < p)
    (huses : ∀ r q, q ≤ cur → s.Uses m r q → q < p) : Spares cur n s (s.divided m p) := by
  constructor
  case length =>
    rw [length_divided]
    omega
  case listed =>
    intro k _
    rw [piece_divided hlt]
    split_ifs with h1 h2
    · rw [h1]
    · rw [piece_of_length_le (Nat.le_of_eq h2.symm)]
    · rfl
  case start =>
    intro k hk
    rw [interval_eq, piece_divided hlt, if_neg (c := k = s.pieces.length) (Nat.ne_of_lt hk)]
    split_ifs with h1
    · rw [h1]
      exact hlive.start_before hp
    · rw [interval_eq]
  case sites =>
    intro k hk x hx
    rw [interval_eq, piece_divided hlt, if_neg (c := k = s.pieces.length) (Nat.ne_of_lt hk)] at hx
    split_ifs at hx with h1
    · rw [h1]
      exact (List.mem_filter.1 hx).1
    · rw [interval_eq]
      exact hx
  case uses =>
    rintro k r q hq ⟨hr, hcov, x, hx, hxq⟩
    have hk : k ≠ s.pieces.length := Nat.ne_of_lt (lt_length_of_register? hr)
    by_cases hkm : k = m
    · subst hkm
      have hlt' := huses r q hq ⟨hr, hcov, x, hx, hxq⟩
      rw [Uses, register?_eq, interval_eq, piece_divided hlt, if_pos rfl]
      refine ⟨(register?_eq (s := s)).symm.trans hr, Interval.covers_before.2 ⟨hcov, hlt'⟩, x, ?_, hxq⟩
      exact List.mem_filter.2 ⟨hx, decide_eq_true (hxq ▸ hlt')⟩
    · rw [Uses, register?_eq, interval_eq, piece_divided hlt, if_neg hkm, if_neg hk, ← register?_eq, ← interval_eq]
      exact ⟨hr, hcov, x, hx, hxq⟩

/-- Suspending a piece behind where it uses its register. -/
theorem suspend (hinv : Inv lt t cur visited now s) (hm : s.Settled now m)
    (huses : ∀ p, o = .pos p → ∀ r q, q ≤ cur → s.Uses m r q → q < p) (hs : s.suspend lt m o = .ok s') :
    Spares cur n s s' := by
  have hlt := hinv.ledger.lt_length hm
  have hspill : Spares cur n s (s.spill lt m) := of_pieces rfl (fun _ => rfl) (fun _ _ => rfl) fun _ _ _ _ hu => hu.1
  rcases suspend_cases hs with ⟨rfl, -⟩ | ⟨p, rfl, hcut⟩
  · exact hspill
  · obtain ⟨hstart, -, rfl⟩ := cut_eq_ok hcut
    have hlive : ((s.spill lt m).interval m).Live := hinv.live hlt
    exact hspill.trans (cut hlt hlive hstart fun r q hq hu => huses p rfl r q hq hu)

/-- A piece that uses no register up to now loses its register. -/
theorem dismiss (hm : (s.piece m).listed = true) (huses : ∀ r q, q ≤ cur → ¬s.Uses m r q) :
    Spares cur n s (s.dismiss m) := by
  have hlt := lt_length_of_listed hm
  refine of_pieces (length_modify _) (fun k => ?_) (fun k _ => ?_) fun k r q hq hu => ?_
  · rw [interval_eq, interval_eq, piece_dismiss hlt]
    split_ifs <;> rfl
  · rw [piece_dismiss hlt]
    split_ifs <;> rfl
  · have hkm : k ≠ m := by
      rintro rfl
      exact huses r q hq hu
    rw [register?_eq, piece_dismiss hlt, if_neg hkm, ← register?_eq]
    exact hu.1

/-- The visited piece gets a register. -/
theorem given (hn : n < s.pieces.length) (hr : s.register? n = none) : Spares cur n s (s.given n r) := by
  refine of_pieces (length_modify _) (fun k => interval_given hn) (fun k hk => ?_) fun k r' q _ hu => ?_
  · rw [piece_given hn, if_neg hk]
  · have hkn : k ≠ n := by
      rintro rfl
      cases hr.symm.trans hu.1
    rw [register?_given hn, if_neg hkn]
    exact hu.1

/-- The visited piece is decided on. -/
theorem list (hn : n < s.pieces.length) : Spares cur n s (s.list n) := by
  have hpiece : ∀ k, (s.list n).piece k =
      if k = n then ⟨(s.piece k).interval, (s.piece k).register, true⟩ else s.piece k :=
    fun k => piece_modify _ hn
  refine of_pieces (length_modify _) (fun k => ?_) (fun k hk => ?_) fun k r q _ hu => ?_
  · rw [interval_eq, interval_eq, hpiece]
    split_ifs <;> rfl
  · rw [hpiece, if_neg hk]
  · rw [register?_eq, hpiece]
    have hreg := hu.1
    rw [register?_eq] at hreg
    split_ifs <;> exact hreg

end Spares

/-- What visiting piece `n` at `cur` leaves alone. If sites lie where intervals are live, another piece that loses its
register is not accessed any more. -/
structure Passes (lt : Lifetimes) (cur : Position) (n : Nat) (s s' : Scan) : Prop extends Spares cur n s s' where
  bare : (∀ i ∈ lt.intervals, i.Inside) → ∀ k, k ≠ n → (s'.piece k).listed = true → s'.register? k = none →
    s.register? k = none ∨ (s'.interval k).sites = []

namespace Passes

theorem refl (lt : Lifetimes) (cur : Position) (n : Nat) (s : Scan) : Passes lt cur n s s :=
  ⟨.refl cur n s, fun _ _ _ _ h => .inl h⟩

/-- If no other piece loses its register, nothing is asked of those that do. -/
theorem of_spares (h : Spares cur n s s') (hr : ∀ k, k ≠ n → s'.register? k = s.register? k) : Passes lt cur n s s' :=
  ⟨h, fun _ k hk _ hbare => .inl (hr k hk ▸ hbare)⟩

/-- Visits that pass pieces by can follow each other. -/
theorem trans {s'' : Scan} (h : Passes lt cur n s s') (h' : Passes lt cur n s' s'') : Passes lt cur n s s'' := by
  refine ⟨h.toSpares.trans h'.toSpares, fun hin k hk hlisted hbare => ?_⟩
  have hlisted' : (s'.piece k).listed = true := (h'.listed k hk).symm.trans hlisted
  rcases h'.bare hin k hk hlisted hbare with hbare' | hnil
  · refine (h.bare hin k hk hlisted' hbare').imp_right fun hnil => List.eq_nil_iff_forall_not_mem.2 fun x hx => ?_
    have hmem := h'.sites k (lt_length_of_listed hlisted') x hx
    rw [hnil] at hmem
    cases hmem
  · exact .inr hnil

end Passes

/-- Sites stay where intervals are live. -/
theorem Inv.inside (h : Inv lt t cur visited now s) (hin : ∀ i ∈ lt.intervals, i.Inside) (k : Nat) :
    (s.interval k).Inside := by
  rcases Nat.lt_or_ge k s.pieces.length with hk | hk
  · exact h.tiles.inside _ (fun i hi _ => hin i (List.mem_filter.1 hi).1) _ (interval_mem hk) rfl
  · rw [interval_eq, piece_of_length_le hk]
    exact nofun

/-- The pieces that were decided on start at the position reached or before it. -/
def Begun (cur : Position) (s : Scan) : Prop := ∀ n, (s.piece n).listed = true → (s.interval n).start ≤ cur

/-- The pieces that have registers are active or inactive as they cover the position reached or not. -/
structure Sorted (cur : Position) (s : Scan) : Prop where
  active : ∀ m ∈ s.active, (s.interval m).covers cur
  inactive : ∀ m ∈ s.inactive, ¬(s.interval m).covers cur

/-- After moving on, the lists are sorted: active pieces cover the position, and inactive ones do not. -/
theorem sorted_advance (s : Scan) (p : Position) : Sorted p (s.advance p) := by
  constructor
  · intro m hm
    exact (Bool.and_eq_true_iff.1 (List.mem_filter.1 hm).2).2
  · intro m hm hcov
    have hnot : (!(s.interval m).covers p) = true := (Bool.and_eq_true_iff.1 (List.mem_filter.1 hm).2).2
    rw [show (s.interval m).covers p = true from hcov] at hnot
    cases hnot

/-! ## Taking a register from its owners -/

namespace Yielding

variable {base : Scan}

/-- Pieces give way one after the other if each of them can. -/
theorem exists_foldlM {f : Scan → Nat → Except Error Scan} {l : List Nat}
    (hf : ∀ s, Yielding lt t cur visited n base s → Passes lt cur n base s → ∀ m ∈ l,
      ∃ s', f s m = .ok s' ∧ Yielding lt t cur visited n base s' ∧ Passes lt cur n s s')
    (h : Yielding lt t cur visited n base s) (hsp : Passes lt cur n base s) :
    ∃ s', l.foldlM f s = .ok s' ∧ Yielding lt t cur visited n base s' ∧ Passes lt cur n base s' := by
  induction l generalizing s with
  | nil => exact ⟨s, rfl, h, hsp⟩
  | cons m l ih =>
    obtain ⟨s₁, hs₁, h₁, hsp₁⟩ := hf s h hsp m List.mem_cons_self
    obtain ⟨s', hs', h', hsp'⟩ :=
      ih (fun s hs hsp k hk => hf s hs hsp k (List.mem_cons_of_mem m hk)) h₁ (hsp.trans hsp₁)
    refine ⟨s', ?_, h', hsp'⟩
    rw [List.foldlM_cons, hs₁]
    exact hs'

/-- An active piece that is not accessed now can give way. -/
theorem exists_evictActive (h : Yielding lt t cur visited n base s) (hm : (s.piece m).listed = true)
    (hstart : (s.interval m).start ≤ cur) (hsites : ∀ x ∈ (s.interval m).sites, x.position ≠ cur) :
    ∃ s', s.evictActive lt cur m = .ok s' ∧ Yielding lt t cur visited n base s' ∧ Passes lt cur n s s' := by
  have hlive := h.inv.live (lt_length_of_listed hm)
  have huses : ∀ r q, q ≤ cur → s.Uses m r q → q < cur := by
    rintro r q hq ⟨-, -, x, hx, rfl⟩
    exact lt_of_le_of_ne hq (hsites x hx)
  rcases lt_or_eq_of_le hstart with hlt | heq
  · have hrun : s.evictActive lt cur m = s.suspend lt m (.pos cur) := by rw [Scan.evictActive, if_pos hlt]
    obtain ⟨s', hs'⟩ : ∃ s', s.suspend lt m (.pos cur) = .ok s' := exists_suspend fun p hp => Horizon.pos.inj hp ▸ hlt
    have hsuspend : Spares cur n s s' := .suspend h.inv (.inl hm) (fun p hp => Horizon.pos.inj hp ▸ huses) hs'
    obtain ⟨-, hsus⟩ := h.inv.suspend (.inl hm) (.inr fun p hp => le_of_eq (Horizon.pos.inj hp)) hs'
    exact ⟨s', hrun.trans hs', (h.evictActive hm (hrun.trans hs')).1, .of_spares hsuspend fun k _ => hsus.register k⟩
  · -- The piece starts now. It is suspended where it is accessed next, which is later.
    have hrun : s.evictActive lt cur m = (s.dismiss m).suspend lt m (.ofOption ((s.interval m).nextSite? cur)) := by
      rw [Scan.evictActive, if_neg (not_lt.2 (le_of_eq heq.symm))]
      rfl
    obtain ⟨hinv, hnarrow, hnone, hint⟩ := h.inv.dismiss hm
    have hlisted : ((s.dismiss m).piece m).listed = true := (hnarrow.listed m (lt_length_of_listed hm)).trans hm
    obtain ⟨s', hs'⟩ : ∃ s', (s.dismiss m).suspend lt m (.ofOption ((s.interval m).nextSite? cur)) = .ok s' := by
      refine exists_suspend fun p hp => ?_
      obtain ⟨hle, x, hx, rfl⟩ := Interval.nextSite?_eq_some (Horizon.ofOption_eq_pos hp)
      rw [hint, heq]
      exact lt_of_le_of_ne hle (hsites x hx).symm
    have hdismiss : Spares cur n s (s.dismiss m) := by
      refine .dismiss hm fun r q hq hu => ?_
      exact absurd (huses r q hq hu) (not_lt.2 (heq ▸ hlive.start_le hu.2.1))
    have hsuspend : Spares cur n (s.dismiss m) s' := by
      refine .suspend hinv (.inl hlisted) (fun p _ r q _ hu => ?_) hs'
      cases hnone.symm.trans hu.1
    have hy := (h.evictActive hm (hrun.trans hs')).1
    refine ⟨s', hrun.trans hs', hy, hdismiss.trans hsuspend, fun hin k _ _ hbare => ?_⟩
    obtain ⟨-, hsus⟩ := hinv.suspend (.inl hlisted) (.inl (by rw [hint, heq])) hs'
    by_cases hkm : k = m
    · -- What is left of the piece lies between its start and its next site.
      subst hkm
      refine .inr (List.eq_nil_iff_forall_not_mem.2 fun x hx => ?_)
      have hxs : x ∈ (s.interval k).sites := (hdismiss.trans hsuspend).sites k (lt_length_of_listed hm) x hx
      have hle : cur ≤ x.position := heq ▸ hlive.start_le (h.inv.inside hin k x hxs)
      obtain ⟨q, hq⟩ := Interval.exists_nextSite? hxs hle
      have hlt : x.position < q := hsus.horizon q (by rw [hq]; rfl) _ (hy.inv.inside hin k x hx)
      exact absurd hlt (not_lt.2 (hlive.toWellFormed.nextSite?_le hq hxs hle))
    · rw [hsus.register, register?_eq, piece_dismiss (lt_length_of_listed hm), if_neg hkm, ← register?_eq] at hbare
      exact .inl hbare

/-- An inactive piece can give way where it meets the visited piece. -/
theorem exists_evictInactive (h : Yielding lt t cur visited n base s) (hcur : cur ≤ (base.interval n).start)
    (hm : (s.piece m).listed = true) (hstart : (s.interval m).start < cur) (hcov : ¬(s.interval m).covers cur) :
    ∃ s', s.evictInactive lt n m = .ok s' ∧ Yielding lt t cur visited n base s' ∧ Passes lt cur n s s' := by
  have hlive := h.inv.live (h.inv.ledger.current n rfl).1
  cases hmeet : (s.interval m).range.firstMeeting (s.interval n).range with
  | none =>
    have hrun : s.evictInactive lt n m = .ok s := by rw [Scan.evictInactive, hmeet]
    exact ⟨s, hrun, (h.evictInactive hcur hm hrun).1, .refl lt cur n s⟩
  | some p =>
    have hrun : s.evictInactive lt n m = s.suspend lt m (.pos p) := by rw [Scan.evictInactive, hmeet]
    have hspec := LiveRange.firstMeeting_spec (h.inv.wellFormed m).range hlive.range
    rw [hmeet] at hspec
    have hp : cur ≤ p := le_trans (h.interval ▸ hcur) (hlive.start_le hspec.2.1)
    obtain ⟨s', hs'⟩ : ∃ s', s.suspend lt m (.pos p) = .ok s' :=
      exists_suspend fun q hq => Horizon.pos.inj hq ▸ lt_of_lt_of_le hstart hp
    have hsuspend : Spares cur n s s' := by
      refine .suspend h.inv (.inl hm) (fun p' hp' r q hq hu => ?_) hs'
      obtain rfl := Horizon.pos.inj hp'
      refine lt_of_lt_of_le (lt_of_le_of_ne hq ?_) hp
      rintro rfl
      exact hcov hu.2.1
    obtain ⟨-, hsus⟩ := h.inv.suspend (.inl hm) (.inr fun q hq => Horizon.pos.inj hq ▸ hp) hs'
    exact ⟨s', hrun.trans hs', (h.evictInactive hcur hm (hrun.trans hs')).1, .of_spares hsuspend fun k _ =>
      hsus.register k⟩

end Yielding

/-- The visited piece has no register yet. -/
theorem Inv.register?_now (h : Inv lt t cur visited (some n) s) : s.register? n = none := by
  have hlisted := (h.ledger.waiting n (h.ledger.current n rfl).1).2 (.inr rfl)
  rw [register?_eq]
  exact h.ledger.bare n hlisted

/-- The owners of a register that are not accessed now can give way, the active ones first. -/
theorem Inv.exists_yield (h : Inv lt t cur visited (some n) s) (hcur : cur = (s.interval n).start) (hb : Begun cur s)
    (hsorted : Sorted cur s) (hg : Grounds lt t s (s.interval n) (.evict r)) :
    ∃ s₁ s₂, (s.active.filter (fun m => s.register? m = some r)).foldlM (evictActive lt cur) s = .ok s₁ ∧
      (s₁.inactive.filter (fun m => s₁.register? m = some r)).foldlM (evictInactive lt n) s₁ = .ok s₂ ∧
      Yielding lt t cur visited n s s₂ ∧ Passes lt cur n s s₂ := by
  have hlive := h.live (h.ledger.current n rfl).1
  have hbase : Yielding lt t cur visited n s s := ⟨h, .refl s, rfl⟩
  obtain ⟨s₁, hs₁, hy₁, hsp₁⟩ := hbase.exists_foldlM (f := evictActive lt cur)
    (l := s.active.filter (fun m => s.register? m = some r)) (fun s₁ hy hsp m hm => by
      obtain ⟨hactive, hr⟩ := List.mem_filter.1 hm
      have hr := of_decide_eq_true hr
      have hlisted := h.ledger.listed_of_register? hr
      have hlt := lt_length_of_listed hlisted
      refine hy.exists_evictActive ((hy.narrows.listed m hlt).trans hlisted) ?_ fun x hx => ?_
      · rw [hsp.start m hlt]
        exact hb m hlisted
      · have hmeets : ¬(s.interval m).range.Disjoint (s.interval n).range := fun hdisj =>
          hdisj cur (hsorted.active m hactive) (hcur ▸ hlive.covers_start)
        rw [hcur]
        exact hg.1 m (List.mem_append_left _ hactive) hr hmeets x (hsp.sites m hlt x hx)) (.refl lt cur n s)
  obtain ⟨s₂, hs₂, hy₂, hsp₂⟩ := hy₁.exists_foldlM (f := evictInactive lt n)
    (l := s₁.inactive.filter (fun m => s₁.register? m = some r)) (fun s₂ hy hsp m hm => by
      obtain ⟨hinactive, hr⟩ := List.mem_filter.1 hm
      have hr := hy₁.narrows.register m r (of_decide_eq_true hr)
      have hlisted := h.ledger.listed_of_register? hr
      have hlt := lt_length_of_listed hlisted
      have hcov : ¬(s.interval m).covers cur := hsorted.inactive m (hy₁.narrows.inactive ▸ hinactive)
      refine hy.exists_evictInactive (le_of_eq hcur) ((hy.narrows.listed m hlt).trans hlisted) ?_
        fun hcov' => hcov (hy.narrows.covers m cur hlt hcov')
      rw [hsp.start m hlt]
      refine lt_of_le_of_ne (hb m hlisted) ?_
      rintro heq
      exact hcov (heq ▸ (h.live hlt).covers_start)) hsp₁
  exact ⟨s₁, s₂, hs₁, hs₂, hy₂, hsp₂⟩

/-- A register can be taken from owners that are not accessed now. -/
theorem Inv.exists_evict (h : Inv lt t cur visited (some n) s) (hcur : cur = (s.interval n).start) (hb : Begun cur s)
    (hsorted : Sorted cur s) (hr : r ∈ t.allocatable) (hg : Grounds lt t s (s.interval n) (.evict r)) :
    ∃ s', s.evict lt n r = .ok s' ∧ Passes lt cur n s s' ∧ (s'.piece n).listed = true ∧ s'.register? n = some r := by
  obtain ⟨s₁, s₂, hs₁, hs₂, hy₂, hsp₂⟩ := h.exists_yield hcur hb hsorted hg
  have hn₂ := (hy₂.inv.ledger.current n rfl).1
  have hgiven := assign_eq_given (r := r) hy₂.inv.register?_now
  have hsp₃ : Passes lt cur n s (s₂.given n r) := by
    refine hsp₂.trans (.of_spares (.given hn₂ hy₂.inv.register?_now) fun k hk => ?_)
    rw [register?_given hn₂, if_neg hk]
  have hlisted₃ : ((s₂.given n r).piece n).listed = true := by rw [piece_given hn₂, if_pos rfl]
  have hregister₃ : (s₂.given n r).register? n = some r := by rw [register?_given hn₂, if_pos rfl]
  rw [Scan.evict, ← hcur, bind_of_eq_ok hs₁, bind_of_eq_ok hs₂, bind_of_eq_ok hgiven]
  split
  · -- The code needs the register behind the start of the piece, which is cut there.
    rename_i p hp
    obtain ⟨range, hrange, hmeet⟩ := Option.bind_eq_some_iff.1 hp
    rw [interval_given hn₂, hy₂.interval] at hmeet
    have hlt : cur < p := hcur ▸ hg.2 range p (mem_of_lookupBy hrange) hmeet
    obtain ⟨-, hfree, hover⟩ := h.yield hcur hs₁ hs₂
    have hinv := hy₂.inv.assign hr hfree hover
    obtain ⟨s', hs'⟩ : ∃ s', (s₂.given n r).suspend lt n (.pos p) = .ok s' := by
      refine exists_suspend fun q hq => ?_
      rw [interval_given hn₂, hy₂.interval, ← hcur, ← Horizon.pos.inj hq]
      exact hlt
    have hsuspend : Spares cur n (s₂.given n r) s' := by
      refine .suspend hinv (.inl hlisted₃) (fun q hq r' q' hle _ => ?_) hs'
      exact Horizon.pos.inj hq ▸ lt_of_le_of_lt hle hlt
    obtain ⟨-, hsus⟩ := hinv.suspend (.inl hlisted₃) (.inr fun q hq => Horizon.pos.inj hq ▸ le_of_lt hlt) hs'
    refine ⟨s', hs', hsp₃.trans (.of_spares hsuspend fun k _ => hsus.register k), ?_,
      (hsus.register n).trans hregister₃⟩
    exact (hsus.narrows.listed n (lt_length_of_listed hlisted₃)).trans hlisted₃
  · exact ⟨_, rfl, hsp₃, hlisted₃, hregister₃⟩

/-- If sites lie where intervals are live, and the visited piece was left without a register although it has to be in
one, then this is where it starts, and each of the registers was taken there. -/
def Justified (lt : Lifetimes) (t : Target) (n : Nat) (s s' : Scan) : Prop :=
  (∀ i ∈ lt.intervals, i.Inside) → s'.register? n = none → ∀ x ∈ (s'.interval n).sites, x.memoryOk = false →
    x.position = (s.interval n).start ∧ ∀ r ∈ t.allocatable, Taken lt s r x.position

/-- Every verdict can be carried out. -/
theorem Inv.exists_carryOut (h : Inv lt t cur visited (some n) s) (hcur : cur = (s.interval n).start) (hb : Begun cur s)
    (hsorted : Sorted cur s) (ht : t.allocatable ≠ []) {v : Verdict} (hv : Promised lt t s (s.interval n) v)
    (hg : Grounds lt t s (s.interval n) v) :
    ∃ s', s.carryOut lt n v = .ok s' ∧ Passes lt cur n s s' ∧ (s'.piece n).listed = true ∧ Justified lt t n s s' := by
  have hn := (h.ledger.current n rfl).1
  have hbare := h.register?_now
  have hsuspend : ∀ o s₁, s.suspend lt n o = .ok s₁ →
      Inv lt t cur visited (some n) s₁ ∧ Suspended n o s s₁ ∧ Passes lt cur n s s₁ := by
    intro o s₁ hs₁
    obtain ⟨h₁, hsus⟩ := h.suspend (.inr rfl) (.inl (le_of_eq hcur)) hs₁
    have hsp : Spares cur n s s₁ := by
      refine .suspend h (.inr rfl) (fun _ _ r q _ hu => ?_) hs₁
      cases hbare.symm.trans hu.1
    exact ⟨h₁, hsus, .of_spares hsp fun k _ => hsus.register k⟩
  have hgive : ∀ s₁ r, Inv lt t cur visited (some n) s₁ →
      s₁.assign n r = .ok (s₁.given n r) ∧ Passes lt cur n s₁ (s₁.given n r) ∧
        ((s₁.given n r).piece n).listed = true ∧ Justified lt t n s (s₁.given n r) := by
    intro s₁ r h₁
    have hn₁ := (h₁.ledger.current n rfl).1
    have hbare₁ := h₁.register?_now
    refine ⟨assign_eq_given hbare₁, .of_spares (.given hn₁ hbare₁) fun k hk => ?_, ?_, fun _ hnone => ?_⟩
    · rw [register?_given hn₁, if_neg hk]
    · rw [piece_given hn₁, if_pos rfl]
    · rw [register?_given hn₁, if_pos rfl] at hnone
      cases hnone
  cases v with
  | take r => exact ⟨_, hgive s r h⟩
  | takeUntil r p =>
    obtain ⟨s₁, hs₁⟩ : ∃ s₁, s.suspend lt n (.pos p) = .ok s₁ := exists_suspend fun q hq => Horizon.pos.inj hq ▸ hg
    obtain ⟨h₁, -, hp₁⟩ := hsuspend _ s₁ hs₁
    obtain ⟨hassign, hp, hlisted, hjust⟩ := hgive s₁ r h₁
    exact ⟨_, (bind_of_eq_ok hs₁).trans hassign, hp₁.trans hp, hlisted, hjust⟩
  | wait o =>
    obtain ⟨s₁, hs₁⟩ : ∃ s₁, s.suspend lt n o = .ok s₁ := exists_suspend hg.1
    obtain ⟨h₁, hsus, hp₁⟩ := hsuspend _ s₁ hs₁
    have hn₁ := (h₁.ledger.current n rfl).1
    obtain ⟨-, hsame⟩ := h₁.list
    refine ⟨s₁.list n, (bind_of_eq_ok hs₁).trans rfl, hp₁.trans (.of_spares (.list hn₁) fun k _ => (hsame k).1), ?_,
      fun hin _ x hx hm => ?_⟩
    · have hpiece : (s₁.list n).piece n = _ := piece_modify (fun x => { x with listed := true }) hn₁
      rw [hpiece, if_pos rfl]
    · rw [(hsame n).2] at hx
      obtain ⟨heq, htaken⟩ := hg.2 (fun m => h.inside hin m) (h.inside hin n) x (hp₁.sites n hn x hx) hm
        fun p hp => hsus.horizon p hp _ (h₁.inside hin n x hx)
      exact ⟨heq, fun r hr => heq ▸ htaken r hr⟩
  | evict r =>
    obtain ⟨s', hs', hp, hlisted, hr⟩ := h.exists_evict hcur hb hsorted hv hg
    refine ⟨s', hs', hp, hlisted, fun _ hnone => ?_⟩
    cases hr.symm.trans hnone
  | leave => exact absurd hv ht

/-! ## Runs -/

/-- The state of a scan between two visits. -/
structure Running (lt : Lifetimes) (t : Target) (cur : Position) (visited : Nat) (s : Scan) : Prop where
  inv : Inv lt t cur visited none s
  unpinned : Unpinned lt none s
  begun : Begun cur s

/-- At the beginning no piece was decided on. -/
theorem listed_initial (n : Nat) : ((initial lt).piece n).listed = false := by
  have hlen : (initial lt).pieces.length = lt.live.length := List.length_map _
  rcases Nat.lt_or_ge n lt.live.length with hn | hn
  · rw [piece_initial hn]
  · rw [piece_of_length_le (hlen ▸ hn)]

/-- The invariant of the scan holds at the beginning. -/
theorem running_initial (hlt : lt.WellFormed) : Running lt t .zero 0 (initial lt) := by
  obtain ⟨hinv, hunpinned⟩ := inv_initial (t := t) hlt
  refine ⟨hinv, hunpinned, fun n hn => ?_⟩
  rw [listed_initial] at hn
  cases hn

/-- The state in which the first piece of the queue is decided on. -/
theorem Running.pop (h : Running lt t cur visited s) {x : Ticket} {rest : List Ticket} (hq : s.queue = x :: rest) :
    x.start = (s.interval x.piece).start ∧ cur ≤ x.start ∧
      Inv lt t x.start (visited + 1) (some x.piece) (Scan.advance { s with queue := rest } x.start) ∧
      Begun x.start (Scan.advance { s with queue := rest } x.start) ∧
      s.step lt t = (Scan.advance { s with queue := rest } x.start).carryOut lt x.piece
        ((Scan.advance { s with queue := rest } x.start).verdict lt t (s.interval x.piece)) := by
  have hx := h.inv.ledger.ticket x (hq ▸ List.mem_cons_self)
  have hstart : x.start = (s.interval x.piece).start := by
    conv_lhs => rw [hx.2]
    rfl
  have hle : cur ≤ x.start := h.inv.ahead x (hq ▸ List.mem_cons_self)
  refine ⟨hstart, hle, h.inv.pop hq, fun n hn => le_trans (h.begun n hn) hle, ?_⟩
  rw [Scan.step, hq, hstart]
  rfl

/-- **A step.** The first piece of the queue is decided on, and nothing goes wrong. -/
theorem Running.step (hlt : lt.WellFormed) (ht : t.Valid) (h : Running lt t cur visited s) {x : Ticket}
    {rest : List Ticket} (hq : s.queue = x :: rest) :
    ∃ s', s.step lt t = .ok s' ∧ Running lt t x.start (visited + 1) s' ∧ Passes lt x.start x.piece s s' ∧
      (s'.piece x.piece).listed = true ∧ Justified lt t x.piece s s' := by
  obtain ⟨hstart, hle, hinv, hbegun, hstep⟩ := h.pop hq
  have hlive : (s.interval x.piece).Live := h.inv.live (h.inv.ledger.ticket x (hq ▸ List.mem_cons_self)).1
  have hwf := hinv.wellFormed
  obtain ⟨s', hs', hsp, hlisted, hjust⟩ := hinv.exists_carryOut hstart hbegun (sorted_advance _ _) ht.nonempty
    (verdict_spec ht.nodup (fun n => (hwf n).range) hlt.ranges hlive) (verdict_grounds hwf hlt.ranges ht.nodup hlive)
  have hs' : s.step lt t = .ok s' := hstep.trans hs'
  have hbase : Passes lt x.start x.piece s (Scan.advance { s with queue := rest } x.start) :=
    .of_spares (.of_pieces rfl (fun _ => rfl) (fun _ _ => rfl) fun _ _ _ _ hu => hu.1) fun _ _ => rfl
  have hsp := hbase.trans hsp
  obtain ⟨hinv', hunpinned'⟩ := h.inv.step hlt ht.nonempty ht.nodup h.unpinned hq hs'
  refine ⟨s', hs', ⟨hinv', hunpinned', fun k hk => ?_⟩, hsp, hlisted, hjust⟩
  by_cases hkx : k = x.piece
  · rw [hkx, hsp.start _ (h.inv.ledger.ticket x (hq ▸ List.mem_cons_self)).1, hstart]
  · rw [hsp.listed k hkx] at hk
    rw [hsp.start k (lt_length_of_listed hk)]
    exact le_trans (h.begun k hk) hle

/-- The pieces are visited one after the other, in the order of the tickets, until the queue is empty. -/
inductive Visits (lt : Lifetimes) (t : Target) : Scan → List Ticket → Scan → Prop where
  | done {s : Scan} (hq : s.queue = []) : Visits lt t s [] s
  | visit {s s₁ s' : Scan} {x : Ticket} {rest visits : List Ticket} (hq : s.queue = x :: rest)
    (hs : s.step lt t = .ok s₁) (h : Visits lt t s₁ visits s') : Visits lt t s (x :: visits) s'

/-- A run with enough steps makes all visits. -/
theorem Visits.run {visits : List Ticket} {steps : Nat} (h : Visits lt t s visits s') (hsteps : visits.length ≤ steps) :
    s.run lt t steps = .ok s' := by
  induction h generalizing steps with
  | done hq =>
    cases steps with
    | zero => rfl
    | succ steps => rw [Scan.run, hq, List.isEmpty_nil, if_pos rfl]
  | @visit s s₁ s' x rest visits hq hs _ ih =>
    cases steps with
    | zero => cases hsteps
    | succ steps =>
      rw [Scan.run, hq, if_neg (by simp), bind_of_eq_ok hs]
      exact ih (Nat.le_of_succ_le_succ hsteps)

/-- What the visits of a run are like: they come in the order of their starts, and each piece that was not decided on
is visited once. -/
structure Orderly (cur : Position) (s : Scan) (visits : List Ticket) (s' : Scan) : Prop where
  ordered : visits.Pairwise (fun x y => x.start ≤ y.start)
  ahead : ∀ x ∈ visits, cur ≤ x.start
  once : (visits.map Ticket.piece).Nodup
  complete : ∀ n, n ∈ visits.map Ticket.piece ↔ n < s'.pieces.length ∧ (s.piece n).listed = false

/-- **A run.** The visits come to an end. -/
theorem Running.visits (hlt : lt.WellFormed) (ht : t.Valid) (h : Running lt t cur visited s) :
    ∃ visits s', Visits lt t s visits s' ∧ Orderly cur s visits s' ∧ s.pieces.length ≤ s'.pieces.length ∧
      ∃ cur visited, Running lt t cur visited s' := by
  -- Each visit brings the number of pieces that were visited closer to the budget.
  obtain ⟨k, hk⟩ : ∃ k, budget lt - visited = k := ⟨_, rfl⟩
  induction k using Nat.strongRecOn generalizing cur visited s with
  | ind k ih =>
    have hcount := h.inv.ledger.count
    have hbudget := h.inv.length_le_budget
    cases hq : s.queue with
    | nil =>
      refine ⟨[], s, .done hq, ⟨.nil, nofun, List.nodup_nil, fun n => ?_⟩, Nat.le_refl _, cur, visited, h⟩
      simp only [List.map_nil, List.not_mem_nil, false_iff, not_and]
      intro hn hl
      rcases (h.inv.ledger.waiting n hn).1 hl with hmem | hnow
      · rw [hq] at hmem
        cases hmem
      · cases hnow
    | cons x rest =>
      obtain ⟨s₁, hs₁, h₁, hsp, hlisted, -⟩ := h.step hlt ht hq
      rw [hq, List.length_cons] at hcount
      obtain ⟨visits, s', hv, ho, hlen, hfinal⟩ := ih (budget lt - (visited + 1)) (by omega) h₁ rfl
      have hx := h.inv.ledger.ticket x (hq ▸ List.mem_cons_self)
      have hcur : cur ≤ x.start := h.inv.ahead x (hq ▸ List.mem_cons_self)
      have hunlisted : (s.piece x.piece).listed = false :=
        (h.inv.ledger.waiting x.piece hx.1).2 (.inl (List.mem_map_of_mem (hq ▸ List.mem_cons_self)))
      have hnot : x.piece ∉ visits.map Ticket.piece := by
        rw [ho.complete, hlisted]
        nofun
      refine ⟨x :: visits, s', .visit hq hs₁ hv, ⟨?_, ?_, ?_, fun n => ?_⟩, Nat.le_trans hsp.length hlen, hfinal⟩
      · exact List.pairwise_cons.2 ⟨ho.ahead, ho.ordered⟩
      · exact List.forall_mem_cons.2 ⟨hcur, fun y hy => le_trans hcur (ho.ahead y hy)⟩
      · exact List.nodup_cons.2 ⟨hnot, ho.once⟩
      · rw [List.map_cons, List.mem_cons, ho.complete]
        by_cases hn : n = x.piece
        · have hlt : n < s'.pieces.length := hn ▸ Nat.lt_of_lt_of_le hx.1 (Nat.le_trans hsp.length hlen)
          exact ⟨fun _ => ⟨hlt, hn ▸ hunlisted⟩, fun _ => .inl hn⟩
        · rw [hsp.listed n hn]
          exact or_iff_right hn

/-- The scan is complete after visits that come in the order of the starts, one for each piece and no more than the
budget. -/
theorem exists_complete (hlt : lt.WellFormed) (ht : t.Valid) :
    ∃ visits s, Visits lt t (initial lt) visits s ∧ complete lt t = .ok s ∧
      visits.Pairwise (fun x y => x.start ≤ y.start) ∧ (visits.map Ticket.piece).Perm (List.range s.pieces.length) ∧
      visits.length ≤ budget lt := by
  obtain ⟨visits, s, hv, ho, -, cur, visited, hfinal⟩ := (running_initial (t := t) hlt).visits hlt ht
  have hperm : (visits.map Ticket.piece).Perm (List.range s.pieces.length) := by
    refine (List.perm_ext_iff_of_nodup ho.once List.nodup_range).2 fun n => ?_
    rw [ho.complete, List.mem_range, listed_initial]
    exact and_iff_left rfl
  have hlength : visits.length ≤ budget lt := by
    have hlen := hperm.length_eq
    rw [List.length_map, List.length_range] at hlen
    exact hlen ▸ hfinal.inv.length_le_budget
  exact ⟨visits, s, hv, hv.run hlength, ho.ordered, hperm, hlength⟩

end Scan

/-! ## The positions that intervals cover -/

/-- The positions of a segment. -/
def Segment.positions (s : Segment) : List Position := (List.range' s.first s.size).map (fun n => ⟨s.block, n⟩)

/-- The positions that a range covers, in order. -/
def LiveRange.positions (r : LiveRange) : List Position := r.segments.flatMap Segment.positions

/-- The positions that the intervals cover, each with the register that is live there. -/
def Lifetimes.positions (lt : Lifetimes) : List (VirtReg × Position) :=
  lt.intervals.flatMap (fun i => i.range.positions.map (fun p => (i.register, p)))

/-- The positions of a segment are those from its start to its end. -/
theorem Segment.mem_positions {s : Segment} {p : Position} : p ∈ s.positions ↔ s.start ≤ p ∧ p ≤ s.stop := by
  obtain ⟨b, n⟩ := p
  rw [positions, List.mem_map, Position.le_def, Position.le_def]
  simp only [List.mem_range'_1, Position.mk.injEq, size, start, stop]
  constructor
  · rintro ⟨k, hk, rfl, rfl⟩
    omega
  · intro h
    have hb : @Eq Nat s.block b := by omega
    exact ⟨n, by omega, hb, rfl⟩

/-- The positions of a range are those that it covers. -/
theorem LiveRange.mem_positions {r : LiveRange} {p : Position} : p ∈ r.positions ↔ r.covers p := by
  rw [positions, List.mem_flatMap, covers_iff]
  exact exists_congr fun s => and_congr_right fun _ => Segment.mem_positions

/-- No position of a well-formed range is counted twice. -/
theorem LiveRange.WellFormed.nodup_positions {r : LiveRange} (h : r.WellFormed) : r.positions.Nodup := by
  refine List.nodup_flatMap.2 ⟨fun s _ => ?_, h.ordered.imp fun {s u} hlt p hs hu => ?_⟩
  · exact List.Nodup.map (fun m n heq => (Position.mk.inj heq).2) List.nodup_range'
  · have hs := (Segment.mem_positions.1 hs).2
    exact absurd (lt_of_le_of_lt hs hlt) (not_lt.2 (Segment.mem_positions.1 hu).1)

namespace Lifetimes

variable {lt : Lifetimes}

/-- A register and a position are counted if the register is live there. -/
theorem mem_positions {v : VirtReg} {p : Position} :
    (v, p) ∈ lt.positions ↔ ∃ i ∈ lt.intervals, i.register = v ∧ i.covers p := by
  simp only [positions, List.mem_flatMap, List.mem_map, Prod.mk.injEq, LiveRange.mem_positions, Interval.covers]
  refine exists_congr fun i => and_congr_right fun _ => ⟨?_, fun h => ⟨p, h.2, h.1, rfl⟩⟩
  rintro ⟨q, hq, rfl, rfl⟩
  exact ⟨rfl, hq⟩

/-- Neither is counted twice in well-formed lifetimes. -/
theorem WellFormed.nodup_positions (h : lt.WellFormed) : lt.positions.Nodup := by
  refine List.nodup_flatMap.2 ⟨fun i hi => ?_, h.registers.imp fun {i j} hlt e hi hj => ?_⟩
  · exact List.Nodup.map (fun p q heq => (Prod.mk.inj heq).2) (h.intervals i hi).range.nodup_positions
  · obtain ⟨p, -, rfl⟩ := List.mem_map.1 hi
    obtain ⟨q, -, heq⟩ := List.mem_map.1 hj
    exact ne_of_irrefl hlt (Prod.mk.inj heq).1.symm

end Lifetimes

/-! ## The whole scan -/

namespace Allocation

variable {lt : Lifetimes} {t : Target}

/-- The only thing that can go wrong when transfers are made is that a register with a slot is not written in its
first split. -/
theorem ofSplits_eq_error {splits : List (VirtReg × List Split)} {slots : List (VirtReg × Nat)} {e : Error}
    (h : ofSplits t splits slots = .error e) :
    ∃ entry ∈ splits, e = .missingDefinition entry.1 ∧ ∃ x xs, entry.2 = x :: xs ∧ x.interval.lastDef? = none := by
  rcases bind_eq_error h with hm | ⟨transfers, -, h⟩
  · obtain ⟨⟨v, l⟩, hmem, hentry⟩ := mapM_eq_error hm
    split at hentry
    · cases l with
      | nil => cases hentry
      | cons x xs =>
        rw [Transfer.ofSplits] at hentry
        cases hlast : x.interval.lastDef? with
        | none =>
          rw [hlast] at hentry
          exact ⟨_, hmem, (Except.error.inj hentry).symm, x, xs, rfl, hlast⟩
        | some p =>
          rw [hlast] at hentry
          cases hentry
    · cases hentry
  · cases h

end Allocation

end RegAlloc
