import RegAlloc.Proofs.ScanRun
import RegAlloc.Proofs.SlotHistory

/-!
# Stack slots

The scan asks for a slot with the whole lifetime of the register (`Spills`), so that two registers that share a stack
slot are never live together: the lifetime of one is over before that of the other begins. And a register has a slot
whenever it needs one: if it was cut in pieces, so that its value has to be carried from one to the next, or if a
piece of it was decided on without a register (`Slotted`).

`Stable` lists the changes that a run of the scan is made of. What each of them keeps holds when the scan is complete
(`Stable.complete`).
-/

namespace RegAlloc

namespace Scan

variable {lt : Lifetimes} {t : Target} {s s' : Scan} {m n : Nat} {p : Position} {r : PhysReg} {o : Horizon}

/-- Every ticket of the queue is that of a piece. -/
def Queued (s : Scan) : Prop := ∀ x ∈ s.queue, x.piece < s.pieces.length

/-- What every change that a run is made of keeps. The numbers in it are those of pieces. -/
structure Stable (lt : Lifetimes) (P : Scan → Prop) : Prop where
  pop : ∀ s x rest, s.queue = x :: rest → P s → P { s with queue := rest }
  advance : ∀ s p, P s → P (s.advance p)
  suspend : ∀ s s' n o, n < s.pieces.length → s.suspend lt n o = .ok s' → P s → P s'
  /-- A piece loses its register before it is suspended. -/
  yield : ∀ s s' n o, n < s.pieces.length → (s.dismiss n).suspend lt n o = .ok s' → P s → P s'
  /-- A piece is decided on after it was suspended. -/
  wait : ∀ s s' n o, n < s.pieces.length → s.suspend lt n o = .ok s' → P s → P (s'.list n)
  give : ∀ s n r, n < s.pieces.length → P s → P (s.given n r)

/-- What suspending a piece changes in the pieces. -/
theorem suspend_pieces (hs : s.suspend lt n o = .ok s') :
    s'.slots = (s.spill lt n).slots ∧
      ((s'.pieces = s.pieces) ∨
        n < s.pieces.length ∧ s'.pieces.length = s.pieces.length + 1 ∧
        (s'.interval s.pieces.length).register = (s.interval n).register ∧ (s'.piece s.pieces.length).listed = false ∧
        ∀ k, k ≠ s.pieces.length → (s'.interval k).register = (s.interval k).register ∧
          s'.register? k = s.register? k ∧ (s'.piece k).listed = (s.piece k).listed) := by
  rcases suspend_cases hs with ⟨rfl, _⟩ | ⟨p, _, hcut⟩
  · exact ⟨rfl, .inl rfl⟩
  · obtain ⟨hstart, hstop, rfl⟩ := cut_eq_ok hcut
    have hn : n < (s.spill lt n).pieces.length := by
      by_contra hle
      have hnone : (s.spill lt n).interval n = Interval.new ⟨0, .byte⟩ := by
        rw [interval_eq, piece_of_length_le (Nat.le_of_not_lt hle)]
      rw [hnone] at hstart hstop
      exact absurd (lt_of_lt_of_le hstart hstop) (lt_irrefl _)
    refine ⟨rfl, .inr ⟨hn, length_divided, ?_, ?_, fun k hk => ?_⟩⟩
    · have hlen : s.pieces.length = (s.spill lt n).pieces.length := rfl
      rw [interval_eq, piece_divided hn, if_neg (by omega), if_pos hlen]
      rfl
    · have hlen : s.pieces.length = (s.spill lt n).pieces.length := rfl
      rw [piece_divided hn, if_neg (by omega), if_pos hlen]
    · have hk' : k ≠ (s.spill lt n).pieces.length := hk
      rw [interval_eq, register?_eq, piece_divided hn]
      by_cases hkn : k = n
      · subst hkn
        rw [if_pos rfl]
        exact ⟨rfl, (register?_eq (s := s)).symm, rfl⟩
      · rw [if_neg hkn, if_neg hk']
        exact ⟨congrArg Interval.register (interval_eq (s := s)).symm, (register?_eq (s := s)).symm, rfl⟩

theorem length_le_suspend (hs : s.suspend lt n o = .ok s') : s.pieces.length ≤ s'.pieces.length := by
  rcases (suspend_pieces hs).2 with hpieces | ⟨-, hlen, -⟩
  · exact Nat.le_of_eq (congrArg List.length hpieces).symm
  · omega

theorem length_dismiss (s : Scan) (n : Nat) : (s.dismiss n).pieces.length = s.pieces.length := length_modify _

theorem length_given (s : Scan) (n : Nat) (r : PhysReg) : (s.given n r).pieces.length = s.pieces.length :=
  length_modify _

namespace Stable

variable {P : Scan → Prop}

/-- What is kept while pieces give way, and that there are no fewer pieces than at first. -/
theorem foldlM {g : Scan → Nat → Except Error Scan} {bound : Nat}
    (hg : ∀ s n s', n < s.pieces.length → g s n = .ok s' → P s → P s' ∧ s.pieces.length ≤ s'.pieces.length)
    {l : List Nat} (hl : ∀ n ∈ l, n < bound) (hs : l.foldlM g s = .ok s') (h : P s)
    (hbound : bound ≤ s.pieces.length) :
    P s' ∧ bound ≤ s'.pieces.length := by
  induction l generalizing s with
  | nil =>
    obtain rfl := Except.ok.inj hs
    exact ⟨h, hbound⟩
  | cons n l ih =>
    obtain ⟨s₁, hs₁, hs⟩ := bind_eq_ok hs
    obtain ⟨h₁, hle⟩ := hg s n s₁ (Nat.lt_of_lt_of_le (hl n List.mem_cons_self) hbound) hs₁ h
    exact ih (fun m hm => hl m (List.mem_cons_of_mem _ hm)) hs h₁ (Nat.le_trans hbound hle)

/-- Evicting an active piece keeps what is stable. -/
theorem evictActive (hP : Stable lt P) (hn : n < s.pieces.length) (hs : s.evictActive lt p n = .ok s') (h : P s) :
    P s' ∧ s.pieces.length ≤ s'.pieces.length := by
  rw [Scan.evictActive] at hs
  split_ifs at hs
  · exact ⟨hP.suspend _ _ _ _ hn hs h, length_le_suspend hs⟩
  · exact ⟨hP.yield _ _ _ _ hn hs h, length_dismiss s n ▸ length_le_suspend hs⟩

theorem evictInactive (hP : Stable lt P) (hm : m < s.pieces.length) (hs : s.evictInactive lt n m = .ok s') (h : P s) :
    P s' ∧ s.pieces.length ≤ s'.pieces.length := by
  rw [Scan.evictInactive] at hs
  split at hs
  · exact ⟨hP.suspend _ _ _ _ hm hs h, length_le_suspend hs⟩
  · obtain rfl := Except.ok.inj hs
    exact ⟨h, Nat.le_refl _⟩

theorem evict (hP : Stable lt P) (hn : n < s.pieces.length) (hs : s.evict lt n r = .ok s') (h : P s) : P s' := by
  obtain ⟨s₁, hs₁, hs⟩ := bind_eq_ok hs
  obtain ⟨s₂, hs₂, hs⟩ := bind_eq_ok hs
  obtain ⟨s₃, hs₃, hs⟩ := bind_eq_ok hs
  -- A number with a register is that of a piece.
  have howners : ∀ (s : Scan) (l : List Nat), ∀ m ∈ l.filter (fun m => s.register? m = some r), m < s.pieces.length :=
    fun s l m hm => lt_length_of_register? (of_decide_eq_true (List.mem_filter.1 hm).2)
  obtain ⟨h₁, hlen₁⟩ := foldlM (fun _ _ _ hm hs h => hP.evictActive hm hs h) (howners s s.active) hs₁ h (Nat.le_refl _)
  obtain ⟨h₂, hlen₂⟩ :=
    foldlM (fun _ _ _ hm hs h => hP.evictInactive hm hs h) (howners s₁ s₁.inactive) hs₂ h₁ (Nat.le_refl _)
  have hn₂ : n < s₂.pieces.length := Nat.lt_of_lt_of_le (Nat.lt_of_lt_of_le hn hlen₁) hlen₂
  obtain ⟨-, rfl⟩ := assign_eq_ok hs₃
  have h₃ : P (s₂.given n r) := hP.give _ _ _ hn₂ h₂
  split at hs
  · exact hP.suspend _ _ _ _ (length_given s₂ n r ▸ hn₂) hs h₃
  · obtain rfl := Except.ok.inj hs
    exact h₃

/-- Every verdict keeps what is stable. -/
theorem carryOut (hP : Stable lt P) {v : Verdict} (hn : n < s.pieces.length) (hs : s.carryOut lt n v = .ok s')
    (h : P s) :
    P s' := by
  cases v with
  | take r =>
    obtain ⟨-, rfl⟩ := assign_eq_ok hs
    exact hP.give _ _ _ hn h
  | takeUntil r p =>
    obtain ⟨s₁, hs₁, hs⟩ := bind_eq_ok hs
    obtain ⟨-, rfl⟩ := assign_eq_ok hs
    exact hP.give _ _ _ (Nat.lt_of_lt_of_le hn (length_le_suspend hs₁)) (hP.suspend _ _ _ _ hn hs₁ h)
  | wait o =>
    obtain ⟨s₁, hs₁, hs⟩ := bind_eq_ok hs
    obtain rfl := Except.ok.inj hs
    exact hP.wait _ _ _ _ hn hs₁ h
  | evict r => exact hP.evict hn hs h
  | leave =>
    obtain rfl := Except.ok.inj hs
    exact h

end Stable

/-- Suspending a piece queues pieces only. -/
theorem Queued.suspend (h : Queued s) (hs : s.suspend lt n o = .ok s') : Queued s' := by
  intro x hx
  rcases suspend_cases hs with ⟨rfl, _⟩ | ⟨p, _, hcut⟩
  · exact h x hx
  · obtain ⟨_, _, rfl⟩ := cut_eq_ok hcut
    rw [length_divided]
    rcases mem_of_mem_insertBy hx with rfl | hx
    · exact Nat.lt_succ_self _
    · exact Nat.lt_succ_of_lt (h x hx)

/-- That tickets are those of pieces is kept. -/
theorem stable_queued : Stable lt Queued where
  pop s x rest hq h y hy := h y (hq ▸ List.mem_cons_of_mem _ hy)
  advance _ _ h := h
  suspend _ _ _ _ _ hs h := h.suspend hs
  yield s s' n o _ hs h := by
    have hdismiss : Queued (s.dismiss n) := fun x hx => (length_dismiss s n).symm ▸ h x hx
    exact hdismiss.suspend hs
  wait s s' n o _ hs h := by
    intro x hx
    have hlen : (s'.list n).pieces.length = s'.pieces.length := length_modify _
    exact hlen.symm ▸ h.suspend hs x hx
  give s n r _ h x hx := (length_given s n r).symm ▸ h x hx

/-- At the beginning every ticket is that of a piece. -/
theorem queued_initial (lt : Lifetimes) : Queued (initial lt) := by
  intro x hx
  obtain ⟨e, he, rfl⟩ := List.mem_map.1 (initial_queue_perm.mem_iff.1 hx)
  have hlen : (initial lt).pieces.length = lt.live.length := List.length_map _
  rw [hlen]
  exact (List.getElem?_eq_some_iff.1 (List.mem_zipIdx_iff_getElem?.1 he)).1

namespace Stable

variable {P : Scan → Prop}

/-- What is stable is kept by a run, by induction on its steps. -/
theorem run (hP : Stable lt P) {steps : Nat} (hs : Scan.run lt t steps s = .ok s') (hq : Queued s) (h : P s) :
    P s' := by
  induction steps generalizing s with
  | zero =>
    obtain rfl := Except.ok.inj hs
    exact h
  | succ steps ih =>
    rw [Scan.run] at hs
    split_ifs at hs
    · obtain rfl := Except.ok.inj hs
      exact h
    · obtain ⟨s₁, hs₁, hs⟩ := bind_eq_ok hs
      rw [Scan.step] at hs₁
      split at hs₁
      · obtain rfl := Except.ok.inj hs₁
        exact ih hs hq h
      · rename_i x rest hqueue
        have hx : x.piece < s.pieces.length := hq x (hqueue ▸ List.mem_cons_self)
        have hkeep : ∀ {Q : Scan → Prop}, Stable lt Q → Q s → Q s₁ := fun hQ h =>
          hQ.carryOut (by exact hx) hs₁ (hQ.advance _ _ (hQ.pop _ _ _ hqueue h))
        exact ih hs (hkeep stable_queued hq) (hkeep hP h)

/-- What is stable and holds at the beginning holds at the end. -/
theorem complete (hP : Stable lt P) (h : P (initial lt)) (hs : Scan.complete lt t = .ok s) : P s :=
  hP.run hs (queued_initial lt) h

end Stable

/-- Every request of the history is for the whole lifetime of one of the registers. -/
def Spills (lt : Lifetimes) (events : List SlotPool.Event) : Prop :=
  ∀ v start stop, .request v start stop ∈ events →
    v ∈ lt.intervals.map Interval.register ∧
      start = (Note.interval lt.intervals v).start ∧ stop = (Note.interval lt.intervals v).stop

/-- A history that asks for whole lifetimes can be continued by such a request. -/
theorem Spills.concat {events : List SlotPool.Event} (h : Spills lt events) {e : SlotPool.Event}
    (he : ∀ v start stop, e = .request v start stop →
      v ∈ lt.intervals.map Interval.register ∧
        start = (Note.interval lt.intervals v).start ∧ stop = (Note.interval lt.intervals v).stop) :
    Spills lt (events ++ [e]) := by
  intro v start stop hmem
  rcases List.mem_append.1 hmem with hmem | hmem
  · exact h v start stop hmem
  · exact he v start stop (List.mem_singleton.1 hmem).symm

/-- All pieces are of the registers that have lifetimes, and the slots come from a history in which these ask for
slots with their whole lifetimes. -/
structure Recorded (lt : Lifetimes) (s : Scan) : Prop where
  pieces : ∀ n, n < s.pieces.length → (s.interval n).register ∈ lt.intervals.map Interval.register
  slots : ∃ events, Spills lt events ∧ s.slots = .after events

/-- Suspending a piece asks for the whole lifetime of its register. -/
theorem Recorded.suspend (h : Recorded lt s) (hn : n < s.pieces.length) (hs : s.suspend lt n o = .ok s') :
    Recorded lt s' := by
  obtain ⟨hslots, hpieces⟩ := suspend_pieces hs
  obtain ⟨events, hspills, hevents⟩ := h.slots
  constructor
  · intro k hk
    rcases hpieces with hpieces | ⟨-, hlen, hnew, -, hold⟩
    · have hint : s'.interval k = s.interval k := by rw [interval, interval, hpieces]
      rw [hint]
      exact h.pieces k (hpieces ▸ hk)
    · by_cases hkl : k = s.pieces.length
      · rw [hkl, hnew]
        exact h.pieces n hn
      · rw [(hold k hkl).1]
        exact h.pieces k (by omega)
  · let life := Note.interval lt.intervals (s.interval n).register
    refine ⟨events ++ [.request (s.interval n).register life.start life.stop],
      hspills.concat fun v start stop he => ?_, ?_⟩
    · obtain ⟨rfl, rfl, rfl⟩ := SlotPool.Event.request.inj he
      exact ⟨h.pieces n hn, rfl, rfl⟩
    · rw [hslots, SlotPool.after_concat, ← hevents, Scan.spill, Note.interval_register]
      rfl

/-- An interval of well-formed lifetimes does not end before it starts. -/
theorem start_le_stop (hlt : lt.WellFormed) (v : VirtReg) :
    (Note.interval lt.intervals v).start ≤ (Note.interval lt.intervals v).stop := by
  cases hne : (Note.interval lt.intervals v).range.isEmpty with
  | true =>
    have hnil : (Note.interval lt.intervals v).range.segments = [] := by simpa [LiveRange.isEmpty] using hne
    simp [Interval.start, Interval.stop, LiveRange.start?, LiveRange.stop?, hnil]
  | false =>
    have hwf : (Note.interval lt.intervals v).WellFormed := by
      rw [Note.interval]
      cases hf : lt.intervals.find? (fun i => i.register = v) with
      | none => exact ⟨LiveRange.wellFormed_nil, List.Pairwise.nil⟩
      | some i => exact hlt.intervals i (List.mem_of_find?_eq_some hf)
    exact Interval.Live.start_le_stop ⟨hwf, hne⟩

/-- A register of which there are two pieces has a slot, and so does one with a piece that was decided on without a
register. -/
structure Slotted (s : Scan) : Prop where
  twice : ∀ m n, m < s.pieces.length → n < s.pieces.length → m ≠ n → (s.interval m).register = (s.interval n).register →
    (s.slots.slot? (s.interval n).register).isSome
  bare : ∀ n, (s.piece n).listed = true → s.register? n = none → (s.slots.slot? (s.interval n).register).isSome

/-- Spilling a piece gives its register a slot, and no register loses one. -/
theorem spill_isSome (v : VirtReg) (h : (s.interval n).register = v ∨ (s.slots.slot? v).isSome) :
    ((s.spill lt n).slots.slot? v).isSome := by
  rw [spill, Note.interval_register]
  exact SlotPool.request_isSome _ _ _ _ _ h

/-- A piece that is suspended gives its register a slot, so that it may itself be without a register before. -/
theorem suspend_slotted (hs : s.suspend lt n o = .ok s')
    (htwice : ∀ m k, m < s.pieces.length → k < s.pieces.length → m ≠ k →
      (s.interval m).register = (s.interval k).register → (s.slots.slot? (s.interval k).register).isSome)
    (hbare : ∀ m, m ≠ n → (s.piece m).listed = true → s.register? m = none →
      (s.slots.slot? (s.interval m).register).isSome) :
    Slotted s' ∧ (s'.slots.slot? (s'.interval n).register).isSome := by
  obtain ⟨hslots, hpieces⟩ := suspend_pieces hs
  have hown : (s'.slots.slot? (s.interval n).register).isSome := hslots ▸ spill_isSome _ (.inl rfl)
  have hkeep : ∀ v, (s.slots.slot? v).isSome → (s'.slots.slot? v).isSome := fun v hv =>
    hslots ▸ spill_isSome _ (.inr hv)
  rcases hpieces with hpieces | ⟨hn, hlen, hnew, hlisted, hold⟩
  · have hpiece : ∀ k, s'.piece k = s.piece k := fun k => by rw [piece, piece, hpieces]
    have hint : ∀ k, s'.interval k = s.interval k := fun k => by rw [interval_eq, interval_eq, hpiece]
    refine ⟨⟨fun m k hm hk hne heq => ?_, fun m hl hr => ?_⟩, by rw [hint]; exact hown⟩
    · rw [hpieces] at hm hk
      rw [hint, hint] at heq
      rw [hint]
      exact hkeep _ (htwice m k hm hk hne heq)
    · rw [hpiece] at hl
      rw [register?_eq, hpiece, ← register?_eq] at hr
      rw [hint]
      by_cases hmn : m = n
      · exact hmn ▸ hown
      · exact hkeep _ (hbare m hmn hl hr)
  · refine ⟨⟨fun m k hm hk hne heq => ?_, fun m hl hr => ?_⟩, ?_⟩
    · rw [hlen] at hm hk
      by_cases hkl : k = s.pieces.length
      · rw [hkl, hnew]
        exact hown
      · by_cases hml : m = s.pieces.length
        · rw [← heq, hml, hnew]
          exact hown
        · rw [(hold m hml).1, (hold k hkl).1] at heq
          rw [(hold k hkl).1]
          exact hkeep _ (htwice m k (by omega) (by omega) hne heq)
    · by_cases hml : m = s.pieces.length
      · rw [hml, hlisted] at hl
        cases hl
      · obtain ⟨hreg, hr', hl'⟩ := hold m hml
        rw [hreg]
        by_cases hmn : m = n
        · exact hmn ▸ hown
        · exact hkeep _ (hbare m hmn (hl' ▸ hl) (hr' ▸ hr))
    · rw [(hold n (by omega)).1]
      exact hown

/-- A change that leaves the interval of a piece alone leaves the interval of every piece alone. -/
theorem interval_modify {g : Piece → Piece} (hg : ∀ x, (g x).interval = x.interval) (k : Nat) :
    (s.modify n g).interval k = s.interval k := by
  have hget : ∀ s : Scan, s.interval k = (s.intervals[k]?).getD (Interval.new ⟨0, .byte⟩) := fun s => by
    rw [interval, intervals, List.getElem?_map]
  rw [hget, hget, intervals_modify hg]

/-- The record depends on slots and intervals only. -/
theorem Recorded.of_interval (h : Recorded lt s) (hslots : s'.slots = s.slots)
    (hlen : s'.pieces.length = s.pieces.length) (hint : ∀ k, s'.interval k = s.interval k) : Recorded lt s' := by
  refine ⟨fun k hk => ?_, hslots ▸ h.slots⟩
  rw [hint]
  exact h.pieces k (hlen ▸ hk)

/-- Every change of the scan keeps the record. -/
theorem stable_recorded : Stable lt (Recorded lt) where
  pop _ _ _ _ h := ⟨h.pieces, h.slots⟩
  advance s p h := by
    obtain ⟨events, hspills, hevents⟩ := h.slots
    refine ⟨h.pieces, events ++ [.release p], hspills.concat fun v start stop he => ?_, ?_⟩
    · cases he
    · rw [SlotPool.after_concat, ← hevents]
      rfl
  suspend _ _ _ _ hn hs h := h.suspend hn hs
  yield s s' n o hn hs h := by
    have hdismiss : Recorded lt (s.dismiss n) := h.of_interval rfl (length_dismiss s n) (interval_modify fun _ => rfl)
    exact hdismiss.suspend ((length_dismiss s n).symm ▸ hn) hs
  wait _ _ _ _ hn hs h := (h.suspend hn hs).of_interval rfl (length_modify _) (interval_modify fun _ => rfl)
  give s n r _ h := h.of_interval rfl (length_given s n r) (interval_modify fun _ => rfl)

theorem complete_recorded (hs : complete lt t = .ok s) : Recorded lt s := by
  refine stable_recorded.complete ⟨fun n hn => ?_, [], fun _ _ _ h => absurd h List.not_mem_nil, rfl⟩ hs
  have hlen : (initial lt).pieces.length = lt.live.length := List.length_map _
  rw [hlen] at hn
  rw [interval_eq, piece_initial hn]
  exact List.mem_map_of_mem (List.mem_filter.1 (List.getElem_mem hn)).1

/-- Changing a piece leaves the others as they are, also if there is no such piece. -/
theorem piece_modify_ne (g : Piece → Piece) (hm : m ≠ n) : (s.modify n g).piece m = s.piece m := by
  rw [piece, piece, modify, List.getElem?_modify]
  simp [Ne.symm hm]

/-- Slots are as good after a change of pieces that leaves intervals alone, where no other piece loses its register or
is decided on. -/
theorem Slotted.of_pieces (h : Slotted s) (hslots : s'.slots = s.slots) (hlen : s'.pieces.length = s.pieces.length)
    (hint : ∀ k, s'.interval k = s.interval k) (hpiece : ∀ m, m ≠ n → s'.piece m = s.piece m)
    (hn : (s'.piece n).listed = true → s'.register? n = none → (s.slots.slot? (s.interval n).register).isSome) :
    Slotted s' := by
  refine ⟨fun m k hm hk hne heq => ?_, fun m hl hr => ?_⟩
  · rw [hlen] at hm hk
    rw [hint, hint] at heq
    rw [hint, hslots]
    exact h.twice m k hm hk hne heq
  · rw [hint, hslots]
    by_cases hmn : m = n
    · subst hmn
      exact hn hl hr
    · rw [hpiece m hmn] at hl
      rw [register?_eq, hpiece m hmn, ← register?_eq] at hr
      exact h.bare m hl hr

/-- Every change of the scan keeps it true that registers have slots where they need them. -/
theorem stable_slotted : Stable lt Slotted := by
  refine ⟨fun _ _ _ _ h => ⟨h.twice, h.bare⟩, fun _ _ h => ⟨h.twice, h.bare⟩,
    fun s s' n o _ hs h => (suspend_slotted hs h.twice fun m _ => h.bare m).1, fun s s' n o _ hs h => ?_,
    fun s s' n o _ hs h => ?_, fun s n r _ h => ?_⟩
  · -- The piece that loses its register is the one that is suspended.
    have hint : ∀ k, (s.dismiss n).interval k = s.interval k := interval_modify fun _ => rfl
    have hlen : (s.dismiss n).pieces.length = s.pieces.length := length_dismiss s n
    refine (suspend_slotted hs (fun m k hm hk hne heq => ?_) fun m hmn hl hr => ?_).1
    · rw [hlen] at hm hk
      rw [hint, hint] at heq
      rw [hint]
      exact h.twice m k hm hk hne heq
    · have hpiece : (s.dismiss n).piece m = s.piece m := piece_modify_ne _ hmn
      rw [hpiece] at hl
      rw [register?_eq, hpiece, ← register?_eq] at hr
      rw [hint]
      exact h.bare m hl hr
  · obtain ⟨h', hown⟩ := suspend_slotted hs h.twice fun m _ => h.bare m
    exact h'.of_pieces rfl (length_modify _) (interval_modify fun _ => rfl) (fun m hm => piece_modify_ne _ hm)
      fun _ _ => hown
  · refine h.of_pieces rfl (length_modify _) (interval_modify fun _ => rfl) (fun m hm => piece_modify_ne _ hm)
      fun hl hr => ?_
    have hn : n < (s.given n r).pieces.length := lt_length_of_listed hl
    rw [register?_given (length_given s n r ▸ hn), if_pos rfl] at hr
    cases hr

/-- At the beginning no register is in two pieces. -/
theorem slotted_initial (hlt : lt.WellFormed) : Slotted (initial lt) := by
  have hlen : (initial lt).pieces.length = lt.live.length := List.length_map _
  refine ⟨fun m n hm hn hne heq => ?_, fun n hl _ => ?_⟩
  · -- At first every register has one piece.
    rw [hlen] at hm hn
    rw [interval_eq, interval_eq, piece_initial hm, piece_initial hn] at heq
    have hnodup := Ascending.nodup_keys (hlt.registers.filter (fun i => !i.range.isEmpty))
    have hinj := (List.nodup_map_iff_inj_on (List.Nodup.of_map _ hnodup)).1 hnodup _ (List.getElem_mem hm) _
      (List.getElem_mem hn) heq
    exact absurd ((List.Nodup.getElem_inj_iff (List.Nodup.of_map _ hnodup)).1 hinj) hne
  · have hn := lt_length_of_listed hl
    rw [hlen] at hn
    rw [piece_initial hn] at hl
    cases hl

/-- The slots when the scan is complete. -/
theorem complete_slots (hlt : lt.WellFormed) (hs : complete lt t = .ok s) :
    s.slots.Owned (fun v => (Note.interval lt.intervals v).start) (fun v => (Note.interval lt.intervals v).stop) ∧
      Slotted s := by
  refine ⟨?_, stable_slotted.complete (slotted_initial hlt) hs⟩
  obtain ⟨events, hspills, hslots⟩ := (complete_recorded hs).slots
  rw [hslots]
  refine SlotPool.owned_after fun v start stop hmem => ?_
  obtain ⟨-, rfl, rfl⟩ := hspills v start stop hmem
  exact ⟨rfl, rfl, start_le_stop hlt v⟩

/-- Only registers that have lifetimes have slots. -/
theorem mem_of_slot? (hs : complete lt t = .ok s) {v : VirtReg} {k : Nat} (h : s.slots.slot? v = some k) :
    v ∈ lt.intervals.map Interval.register := by
  obtain ⟨events, hspills, hslots⟩ := (complete_recorded hs).slots
  rw [hslots] at h
  obtain ⟨start, stop, hmem⟩ := SlotPool.exists_request h
  exact (hspills v start stop hmem).1

end Scan

end RegAlloc
