import Mathlib.Data.List.Induction
import RegAlloc.Proofs.Notes
import RegAlloc.Scan.SlotPool

/-!
# What a pool of stack slots gives out

A pool is asked for slots and told how far the scan has come, in any order (`Event`). A slot has many owners, one
after the other, and only the end of the last one is remembered (`busyUntil`). That is enough: whoever gets the slot
next begins after that end and is not over before it begins, so that all owners of a slot end before any later one
begins (`Owned`).
-/

namespace RegAlloc

/-- Looking up a key finds what was put in for it last. -/
theorem lookupBy_insertBy {κ β : Type} [LT κ] [DecidableLT κ] [DecidableEq κ] {k k' : κ} {x : β} {l : List (κ × β)} :
    lookupBy k' (insertBy (·.1) (k, x) l) = if k = k' then some x else lookupBy k' l := by
  rw [lookupBy, find?_insertBy, lookupBy]
  split_ifs <;> rfl

namespace SlotPool

variable {s : SlotPool} {first last : VirtReg → Position} {v w : VirtReg} {k : Nat} {p start stop : Position}

/-- A register that has no slot gets one that is new, or whose last owner is over before the register begins, and
keeps it busy. -/
theorem grant_spec (s : SlotPool) (v : VirtReg) (start stop : Position) :
    ∃ k, (k = s.busyUntil.length ∨ ∃ q, s.busyUntil[k]? = some q ∧ q < start) ∧
      (∀ w, (s.grant v start stop).slot? w = if v = w then some k else s.slot? w) ∧
      ∀ n, (s.grant v start stop).busyUntil[n]? = if k = n then some stop else s.busyUntil[n]? := by
  rw [grant]
  split
  · rename_i slot hfind
    have hover : s.isOver slot start := by simpa using List.find?_some hfind
    obtain ⟨q, hq, hlt⟩ := Option.any_eq_true _ _ |>.1 hover
    refine ⟨slot, .inr ⟨q, hq, of_decide_eq_true hlt⟩, fun w => lookupBy_insertBy, fun n => ?_⟩
    have hlen : slot < s.busyUntil.length := (List.getElem?_eq_some_iff.1 hq).1
    rw [List.getElem?_set]
    split_ifs <;> rfl
  · refine ⟨s.busyUntil.length, .inl rfl, fun w => lookupBy_insertBy, fun n => ?_⟩
    rw [List.getElem?_append]
    by_cases hn : s.busyUntil.length = n
    · simp [hn]
    · rw [if_neg hn]
      split_ifs with hlt
      · rfl
      · rw [List.getElem?_eq_none (by simp; omega), List.getElem?_eq_none (by omega)]

/-- A request changes nothing for a register that has a slot, and otherwise grants one. -/
theorem request_cases (s : SlotPool) (v : VirtReg) (start stop : Position) :
    (s.slot? v).isSome ∧ s.request v start stop = s ∨ s.slot? v = none ∧
      s.request v start stop = s.grant v start stop := by
  rw [request]
  split_ifs with hv
  · exact .inl ⟨hv, rfl⟩
  · exact .inr ⟨Option.not_isSome_iff_eq_none.1 hv, rfl⟩

/-- A request takes no slot away. -/
theorem request_keeps (h : s.slot? w = some k) (v : VirtReg) (start stop : Position) :
    (s.request v start stop).slot? w = some k := by
  rcases request_cases s v start stop with ⟨-, heq⟩ | ⟨hv, heq⟩
  · rw [heq, h]
  · obtain ⟨k', -, hslot, -⟩ := grant_spec s v start stop
    rw [heq, hslot, if_neg, h]
    rintro rfl
    exact absurd (hv.symm.trans h) (Option.some_ne_none k).symm

/-- After a request the register has a slot, and no slot was taken away. -/
theorem request_isSome (s : SlotPool) (v w : VirtReg) (start stop : Position) (h : v = w ∨ (s.slot? w).isSome) :
    ((s.request v start stop).slot? w).isSome := by
  rcases h with rfl | h
  · rcases request_cases s v start stop with ⟨hv, heq⟩ | ⟨-, heq⟩
    · rwa [heq]
    · obtain ⟨k, -, hslot, -⟩ := grant_spec s v start stop
      rw [heq, hslot, if_pos rfl]
      rfl
  · obtain ⟨k, hk⟩ := Option.isSome_iff_exists.1 h
    rw [request_keeps hk]
    rfl

/-! ## Owners of a slot -/

/-- Where `v` lives from `first v` to `last v`: a slot is busy until the last of its owners is over, and its owners
live one after the other. -/
structure Owned (first last : VirtReg → Position) (s : SlotPool) : Prop where
  busy : ∀ v k, s.slot? v = some k → ∃ p, s.busyUntil[k]? = some p ∧ last v ≤ p
  apart : ∀ v w k, v ≠ w → s.slot? v = some k → s.slot? w = some k → last v < first w ∨ last w < first v

/-- In the empty pool nothing is owned. -/
theorem owned_empty : Owned first last .empty where
  busy v k h := by cases h
  apart v w k _ h := by cases h

/-- Releasing slots that are over keeps the ownership. -/
theorem Owned.release (h : Owned first last s) (p : Position) : Owned first last (s.release p) := ⟨h.busy, h.apart⟩

/-- Granting a slot that is over, or a new one, keeps the ownership. -/
theorem Owned.grant (h : Owned first last s) (hv : first v ≤ last v) :
    Owned first last (s.grant v (first v) (last v)) := by
  obtain ⟨k, hk, hslot, hbusy⟩ := grant_spec s v (first v) (last v)
  -- Whoever owned the slot before is over when the new owner begins.
  have hfree : ∀ w, s.slot? w = some k → last w < first v := by
    intro w hw
    obtain ⟨p, hp, hle⟩ := h.busy w k hw
    rcases hk with rfl | ⟨q, hq, hlt⟩
    · exact absurd (List.getElem?_eq_some_iff.1 hp).1 (Nat.lt_irrefl _)
    · obtain rfl := Option.some.inj (hq.symm.trans hp)
      exact lt_of_le_of_lt hle hlt
  refine ⟨fun w n hw => ?_, fun w u n hne hw hu => ?_⟩
  · rw [hslot] at hw
    rw [hbusy]
    by_cases hvw : v = w
    · rw [if_pos hvw] at hw
      rw [if_pos (Option.some.inj hw)]
      exact ⟨_, rfl, hvw ▸ le_rfl⟩
    · rw [if_neg hvw] at hw
      by_cases hn : k = n
      · rw [if_pos hn]
        exact ⟨_, rfl, le_trans (le_of_lt (hfree w (hn ▸ hw))) hv⟩
      · rw [if_neg hn]
        exact h.busy w n hw
  · rw [hslot] at hw hu
    split_ifs at hw hu with hvw hvu hvu
    · exact absurd (hvw.symm.trans hvu) hne
    · subst hvw
      obtain rfl := Option.some.inj hw
      exact .inr (hfree u hu)
    · subst hvu
      obtain rfl := Option.some.inj hu
      exact .inl (hfree w hw)
    · exact h.apart w u n hne hw hu

/-- Asking for a slot keeps the ownership. -/
theorem Owned.request (h : Owned first last s) (hv : first v ≤ last v) :
    Owned first last (s.request v (first v) (last v)) := by
  rcases request_cases s v (first v) (last v) with ⟨-, heq⟩ | ⟨-, heq⟩
  · rwa [heq]
  · rw [heq]
    exact h.grant hv

/-- The slots that registers have are those up to the number of slots. -/
def Dense (s : SlotPool) : Prop := ∀ k, (∃ v, s.slot? v = some k) ↔ k < s.busyUntil.length

/-- Granting a slot keeps the slots without gaps. -/
theorem Dense.grant (h : Dense s) (hnone : s.slot? v = none) (start stop : Position) :
    Dense (s.grant v start stop) := by
  obtain ⟨k, hk, hslot, hbusy⟩ := grant_spec s v start stop
  intro n
  have hlen : n < (s.grant v start stop).busyUntil.length ↔ k = n ∨ n < s.busyUntil.length := by
    have hget : ∀ l : List Position, n < l.length ↔ (l[n]?).isSome = true := fun l => by simp
    rw [hget, hbusy, hget]
    split_ifs with hkn <;> simp [hkn]
  rw [hlen, ← h n]
  constructor
  · rintro ⟨w, hw⟩
    rw [hslot] at hw
    split_ifs at hw
    · exact .inl (Option.some.inj hw)
    · exact .inr ⟨w, hw⟩
  · rintro (rfl | ⟨w, hw⟩)
    · exact ⟨v, by rw [hslot, if_pos rfl]⟩
    · refine ⟨w, ?_⟩
      rw [hslot, if_neg, hw]
      rintro rfl
      exact absurd (hnone.symm.trans hw) (Option.some_ne_none n).symm

/-- Asking for a slot keeps them without gaps. -/
theorem Dense.request (h : Dense s) (v : VirtReg) (start stop : Position) : Dense (s.request v start stop) := by
  rcases request_cases s v start stop with ⟨-, heq⟩ | ⟨hnone, heq⟩
  · rwa [heq]
  · rw [heq]
    exact h.grant hnone start stop

/-! ## Histories -/

/-- What a pool is told: that a register, which lives from `start` to `stop`, needs a slot, or that what ends before a
position is over. -/
inductive Event where
  | request (v : VirtReg) (start stop : Position)
  | release (p : Position)
  deriving DecidableEq, Repr

/-- What an event does to a pool. -/
def step (s : SlotPool) : Event → SlotPool
  | .request v start stop => s.request v start stop
  | .release p => s.release p

/-- The pool after some events. -/
def after (events : List Event) : SlotPool := events.foldl step .empty

/-- No lifetime that a slot is asked for is reversed, and a register always comes with the same lifetime. -/
structure Consistent (events : List Event) : Prop where
  ordered : ∀ v start stop, .request v start stop ∈ events → start ≤ stop
  same : ∀ v start stop start' stop', .request v start stop ∈ events → .request v start' stop' ∈ events →
    start = start' ∧ stop = stop'

variable {events : List Event} {e : Event}

/-- The last event acts on what the others left. -/
theorem after_concat (events : List Event) (e : Event) : after (events ++ [e]) = (after events).step e := by
  rw [after, List.foldl_append]
  rfl

theorem step_keeps (h : s.slot? v = some k) (e : Event) : (s.step e).slot? v = some k := by
  cases e with
  | request w start stop => exact request_keeps h w start stop
  | release p => exact h

/-- A register keeps its slot whatever happens later. -/
theorem after_keeps (h : (after events).slot? v = some k) (more : List Event) :
    (after (events ++ more)).slot? v = some k := by
  induction more using List.reverseRecOn with
  | nil => rwa [List.append_nil]
  | append_singleton more e ih =>
    rw [← List.append_assoc, after_concat]
    exact step_keeps ih e

/-- A register that asked for a slot has one. -/
theorem after_isSome (h : .request v start stop ∈ events) : ((after events).slot? v).isSome := by
  obtain ⟨before, more, rfl⟩ := List.append_of_mem h
  obtain ⟨k, hk⟩ := Option.isSome_iff_exists.1 (request_isSome (after before) v v start stop (.inl rfl))
  have hafter : (after (before ++ [.request v start stop])).slot? v = some k := by rwa [after_concat]
  rw [← List.singleton_append, ← List.append_assoc, after_keeps hafter more]
  rfl

/-- Only a register that asked for a slot has one. -/
theorem exists_request (h : (after events).slot? v = some k) : ∃ start stop, .request v start stop ∈ events := by
  induction events using List.reverseRecOn generalizing k with
  | nil => cases h
  | append_singleton events e ih =>
    have hearlier : ∀ {k}, (after events).slot? v = some k → ∃ start stop, .request v start stop ∈ events ++ [e] := by
      intro k hk
      obtain ⟨start, stop, hmem⟩ := ih hk
      exact ⟨start, stop, List.mem_append_left _ hmem⟩
    rw [after_concat] at h
    cases e with
    | release p => exact hearlier h
    | request w start stop =>
      rcases request_cases (after events) w start stop with ⟨-, heq⟩ | ⟨-, heq⟩
      · rw [step, heq] at h
        exact hearlier h
      · obtain ⟨k', -, hslot, -⟩ := grant_spec (after events) w start stop
        rw [step, heq, hslot] at h
        split_ifs at h with hwv
        · exact ⟨start, stop, hwv ▸ List.mem_concat_self⟩
        · exact hearlier h

/-- The owners of a slot live one after the other whatever the history. -/
theorem owned_after
    (h : ∀ v start stop, .request v start stop ∈ events → start = first v ∧ stop = last v ∧ start ≤ stop) :
    Owned first last (after events) := by
  induction events using List.reverseRecOn with
  | nil => exact owned_empty
  | append_singleton events e ih =>
    have hpool := ih fun v start stop hmem => h v start stop (List.mem_append_left _ hmem)
    rw [after_concat]
    cases e with
    | release p => exact hpool.release p
    | request v start stop =>
      obtain ⟨rfl, rfl, hle⟩ := h v start stop List.mem_concat_self
      exact hpool.request hle

/-- No slot is ever left out. -/
theorem dense_after (events : List Event) : Dense (after events) := by
  induction events using List.reverseRecOn with
  | nil =>
    intro k
    constructor
    · rintro ⟨v, hv⟩
      cases hv
    · exact fun hk => absurd hk (Nat.not_lt_zero k)
  | append_singleton events e ih =>
    rw [after_concat]
    cases e with
    | release p => exact ih
    | request v start stop => exact ih.request v start stop

/-- The table of slots is in order. -/
theorem ascending_after (events : List Event) : Ascending Prod.fst (after events).slots := by
  induction events using List.reverseRecOn with
  | nil => exact .nil
  | append_singleton events e ih =>
    rw [after_concat]
    cases e with
    | release p => exact ih
    | request v start stop =>
      rcases request_cases (after events) v start stop with ⟨-, heq⟩ | ⟨-, heq⟩
      · rw [step, heq]
        exact ih
      · rw [step, heq, grant]
        split <;> exact ascending_insertBy ih

/-- The lifetime that an event gives a register, if it asks for a slot for it. -/
def Event.lifetime? (v : VirtReg) : Event → Option (Position × Position)
  | .request w start stop => if w = v then some (start, stop) else none
  | .release _ => none

/-- The lifetime that a history gives a register. -/
def lifetime (events : List Event) (v : VirtReg) : Position × Position :=
  (events.findSome? (Event.lifetime? v)).getD (.zero, .zero)

/-- In a consistent history a register has one lifetime. -/
theorem Consistent.lifetime_eq (h : Consistent events) (hmem : .request v start stop ∈ events) :
    lifetime events v = (start, stop) := by
  rw [lifetime]
  cases hf : events.findSome? (Event.lifetime? v) with
  | none => simpa [Event.lifetime?] using List.findSome?_eq_none_iff.1 hf _ hmem
  | some x =>
    obtain ⟨e, he, hx⟩ := List.exists_of_findSome?_eq_some hf
    cases e with
    | release p => cases hx
    | request w start' stop' =>
      rw [Event.lifetime?] at hx
      split_ifs at hx with hw
      obtain rfl := hw
      obtain ⟨rfl, rfl⟩ := h.same w _ _ _ _ hmem he
      rw [← Option.some.inj hx]
      rfl

/-- In a consistent history owners of a slot live one after the other. -/
theorem Consistent.owned (h : Consistent events) :
    Owned (fun v => (lifetime events v).1) (fun v => (lifetime events v).2) (after events) :=
  owned_after fun v start stop hmem => by
    rw [h.lifetime_eq hmem]
    exact ⟨rfl, rfl, h.ordered v start stop hmem⟩

end SlotPool

end RegAlloc
