import RegAlloc.Proofs.Lockstep
import RegAlloc.Proofs.UniformLifetimes
import Mathlib.Order.Bounds.Basic

/-!
# Stack slots in a frame

Registers that share a stack slot live one after the other, from the first position that one covers to the last, and
the slots that are given out are numbered without gaps (`Allocation.slots_unshared`).

A slot has `Target.slotSize` bytes, and a spill writes as many as the register has. So values in different slots have
bytes of their own, between the end of the frame and its base, exactly when no register that has a slot is wider than
a slot, and the size of the frame does not wrap around in a 32-bit word (`Allocation.slots_separated`). A target is
refused neither for slots that are too narrow nor for slots that are too wide.

The frame itself is no larger than the alignment asks for: its size is the least multiple of the alignment that holds
all slots, and every slot lies in it, a whole number of slots below the base (`Allocation.frame_tight`).
-/

namespace RegAlloc

/-! ## Owners of a slot -/

/-- A position between the first and the last one that an interval covers. -/
def Interval.Encloses (i : Interval) (p : Position) : Prop := ∃ q r, i.covers q ∧ i.covers r ∧ q ≤ p ∧ p ≤ r

/-- A position within an interval lies between its start and its end. -/
theorem Interval.WellFormed.bounds {i : Interval} {p : Position} (hi : i.WellFormed) (h : i.Encloses p) :
    i.start ≤ p ∧ p ≤ i.stop := by
  obtain ⟨q, r, hq, hr, hqp, hpr⟩ := h
  have hlive : i.Live := Interval.live_of_covers hi hq
  exact ⟨le_trans (hlive.start_le hq) hqp, le_trans hpr (hlive.le_stop hr)⟩

/-- What a pool of slots promises: a register keeps the slot of its first request, the owners of a slot live one after
the other, and no slot is left out. -/
structure SlotPool.Orderly (events : List Event) : Prop where
  kept : ∀ earlier later v start stop, events = earlier ++ .request v start stop :: later →
    ∃ k, ∀ more, more <+: later → (after (earlier ++ .request v start stop :: more)).slot? v = some k
  apart : ∀ v start stop w start' stop', .request v start stop ∈ events → .request w start' stop' ∈ events → v ≠ w →
    (after events).slot? v = (after events).slot? w → stop < start' ∨ stop' < start
  dense : ∃ n, ∀ k, (∃ v, (after events).slot? v = some k) ↔ k < n

theorem SlotPool.Consistent.orderly {events : List Event} (h : Consistent events) : Orderly events := by
  refine ⟨fun earlier later v start stop _ => ?_,
    fun v start stop w start' stop' hv hw hne hslot => ?_, _, dense_after events⟩
  · have hmem : .request v start stop ∈ earlier ++ [.request v start stop] := List.mem_concat_self
    obtain ⟨k, hk⟩ := Option.isSome_iff_exists.1 (after_isSome hmem)
    refine ⟨k, fun more _ => ?_⟩
    rw [← List.singleton_append, ← List.append_assoc]
    exact after_keeps hk more
  · obtain ⟨k, hk⟩ := Option.isSome_iff_exists.1 (after_isSome hv)
    have hapart := h.owned.apart v w k hne hk (hslot ▸ hk)
    rwa [h.lifetime_eq hv, h.lifetime_eq hw] at hapart

namespace Allocation

variable {lt : Lifetimes} {t : Target} {a : Allocation} {f : Function} {v w : VirtReg} {k : Nat}

/-- Only registers with lifetimes have slots, those that share one live one after the other, and the slots are all of
the frame's. -/
structure Orderly (lt : Lifetimes) (a : Allocation) : Prop where
  owner : ∀ v k, a.slot? v = some k → ∃ i ∈ lt.intervals, i.register = v
  apart : ∀ i ∈ lt.intervals, ∀ j ∈ lt.intervals, i.register ≠ j.register → ∀ k, a.slot? i.register = some k →
    a.slot? j.register = some k → ∀ p, i.Encloses p → ¬j.Encloses p
  dense : ∀ k, (∃ v, a.slot? v = some k) ↔ k < a.slotCount

/-- The slots of an allocation are those of a history. -/
theorem exists_history (h : ofLifetimes lt t = .ok a) :
    ∃ events, Scan.Spills lt events ∧ a.slots = (SlotPool.after events).slots := by
  obtain ⟨s, hs, -, -, hslots⟩ := ofLifetimes_eq_ok h
  obtain ⟨events, hspills, hevents⟩ := (Scan.complete_recorded hs).slots
  exact ⟨events, hspills, hevents ▸ hslots⟩

/-- Slots are numbered without gaps. -/
theorem slots_dense (h : ofLifetimes lt t = .ok a) (k : Nat) : (∃ v, a.slot? v = some k) ↔ k < a.slotCount := by
  obtain ⟨events, -, hslots⟩ := exists_history h
  have hdense : ∀ k, (∃ v, a.slot? v = some k) ↔ k < (SlotPool.after events).busyUntil.length := by
    intro k
    rw [← SlotPool.dense_after events k]
    simp only [slot?, hslots]
    rfl
  refine ⟨fun h => ?_, fun hk => ?_⟩
  · obtain ⟨v, hv⟩ := h
    exact lt_slotCount hv
  -- The number of slots is one more than a slot that some register has.
  rw [slotCount] at hk
  cases hm : (a.slots.map (·.2)).max? with
  | none =>
    rw [hm] at hk
    cases hk
  | some m =>
    rw [hm] at hk
    obtain ⟨e, he, rfl⟩ := List.mem_map.1 (List.max?_eq_some_iff.1 hm).1
    have hnodup : (a.slots.map Prod.fst).Nodup := hslots ▸ (SlotPool.ascending_after events).nodup_keys
    have hlast := (hdense e.2).1 ⟨e.1, lookupBy_of_mem hnodup he⟩
    exact (hdense k).2 (Nat.lt_of_le_of_lt (Nat.le_of_lt_succ hk) hlast)

/-- The slots of an allocation are given out in an orderly way. -/
theorem orderly (hlt : lt.WellFormed) (h : ofLifetimes lt t = .ok a) : Orderly lt a := by
  obtain ⟨s, hs, -, -, hslots⟩ := ofLifetimes_eq_ok h
  obtain ⟨hown, -⟩ := Scan.complete_slots hlt hs
  have hslot : ∀ v, a.slot? v = s.slots.slot? v := fun v => by rw [slot?, hslots]; rfl
  refine ⟨fun v k hv => List.mem_map.1 (Scan.mem_of_slot? hs (hslot v ▸ hv)),
    fun i hi j hj hne k hik hjk p hp hp' => ?_, slots_dense h⟩
  obtain ⟨hstart, hstop⟩ := (hlt.intervals i hi).bounds hp
  obtain ⟨hstart', hstop'⟩ := (hlt.intervals j hj).bounds hp'
  have hapart := hown.apart i.register j.register k hne (hslot _ ▸ hik) (hslot _ ▸ hjk)
  simp only [Note.interval_of_mem hlt.registers hi, Note.interval_of_mem hlt.registers hj] at hapart
  rcases hapart with hlt' | hlt'
  · exact absurd (lt_of_le_of_lt hstop (lt_of_lt_of_le hlt' hstart')) (lt_irrefl p)
  · exact absurd (lt_of_le_of_lt hstop' (lt_of_lt_of_le hlt' hstart)) (lt_irrefl p)

/-- Stack slots are never shared by registers that live at the same time: not in any history of a pool, not in any
allocation for lifetimes that are well formed, and not in any allocation for the lifetimes of a function. -/
theorem slots_unshared :
    (∀ events, SlotPool.Consistent events → SlotPool.Orderly events) ∧
      (∀ lt t a, lt.WellFormed → ofLifetimes lt t = .ok a → Orderly lt a) ∧
      ∀ f t lt a, Lifetimes.ofFunction f t = .ok lt → ofLifetimes lt t = .ok a → Orderly lt a := by
  exact ⟨fun events h => h.orderly, fun lt t a hlt h => orderly hlt h,
    fun f t lt a hf h => orderly (Lifetimes.wellFormed_ofFunction hf) h⟩

/-- A value is kept in memory while a call overwrites all registers, and then another one is. -/
def relay : Function :=
  ⟨"relay", [⟨"start", [],
    [.enter, .mov (.imm .quad 7) (.reg .quad (.virt ⟨0, .quad⟩)), .call "tick" [],
      .mov (.reg .quad (.virt ⟨0, .quad⟩)) (.phys .quad .di), .call "show" [.phys .quad .di],
      .mov (.imm .quad 9) (.reg .quad (.virt ⟨1, .quad⟩)), .call "tick" [],
      .mov (.reg .quad (.virt ⟨1, .quad⟩)) (.phys .quad .di), .call "show" [.phys .quad .di], .leave], .ret, []⟩]⟩

/-- The requests of a pool that gives the slot of a register to the next one. -/
def relayed : List SlotPool.Event :=
  [.request ⟨0, .quad⟩ ⟨0, 4⟩ ⟨0, 7⟩, .release ⟨0, 12⟩, .request ⟨1, .quad⟩ ⟨0, 12⟩ ⟨0, 15⟩,
    .request ⟨0, .quad⟩ ⟨0, 4⟩ ⟨0, 7⟩]

/-- In the example registers ask for slots with their whole lifetimes. -/
theorem relayed_consistent : SlotPool.Consistent relayed := by
  refine ⟨fun v start stop hmem => ?_, fun v start stop start' stop' hmem hmem' => ?_⟩
  · simp only [relayed, List.mem_cons, List.not_mem_nil, or_false, SlotPool.Event.request.injEq, reduceCtorEq,
      false_or] at hmem
    rcases hmem with ⟨-, rfl, rfl⟩ | ⟨-, rfl, rfl⟩ | ⟨-, rfl, rfl⟩ <;> decide
  · simp only [relayed, List.mem_cons, List.not_mem_nil, or_false, SlotPool.Event.request.injEq, reduceCtorEq,
      false_or] at hmem hmem'
    rcases hmem with ⟨rfl, rfl, rfl⟩ | ⟨rfl, rfl, rfl⟩ | ⟨rfl, rfl, rfl⟩ <;>
      rcases hmem' with ⟨hv, rfl, rfl⟩ | ⟨hv, rfl, rfl⟩ | ⟨hv, rfl, rfl⟩ <;> first | exact ⟨rfl, rfl⟩ | cases hv

/-- The two registers have the same slot, and nothing is live in both lifetimes. -/
theorem slots_unshared_relay :
    SlotPool.Consistent relayed ∧ (SlotPool.after relayed).slot? ⟨0, .quad⟩ = some 0 ∧
      (SlotPool.after relayed).slot? ⟨1, .quad⟩ = some 0 ∧ SlotPool.Orderly relayed ∧
      ∃ lt a, Lifetimes.ofFunction relay .standard = .ok lt ∧ ofLifetimes lt .standard = .ok a ∧ lt.WellFormed ∧
        a.slots = [(⟨0, .quad⟩, 0), (⟨1, .quad⟩, 0)] ∧ Orderly lt a := by
  have hslots : (ofLifetimes (Lifetimes.compute relay .standard) .standard).toOption.map (·.slots) =
      some [(⟨0, .quad⟩, 0), (⟨1, .quad⟩, 0)] := rfl
  obtain ⟨a, ha, hslots⟩ := Option.map_eq_some_iff.1 hslots
  have ha := ok_of_toOption ha
  refine ⟨relayed_consistent, rfl, rfl, slots_unshared.1 relayed relayed_consistent, Lifetimes.compute relay .standard,
    a, rfl, ha, Lifetimes.wellFormed_compute relay .standard, hslots, slots_unshared.2.2 relay .standard _ a rfl ha⟩

end Allocation

/-! ## Bytes of a slot -/

/-- The bytes of a memory operand, as distances from its base: from the first one to just before the second. -/
def Operand.extent? (o : Operand) : Option (Int × Int) :=
  match o.content with
  | .mem m => some (m.displacement, m.displacement + o.width.bytes)
  | _ => none

namespace Allocation

variable {t : Target} {a : Allocation} {v : VirtReg} {k : Nat}

/-- The bytes that spills and reloads of a register access, as distances from the frame base. -/
def spillExtent? (a : Allocation) (v : VirtReg) : Option (Int × Int) := (a.slotOf? v v.width).bind Operand.extent?

/-- The frame has a size that a 32-bit word holds. -/
def Sized (a : Allocation) : Prop := ∃ size, a.frameSize = .ok size ∧ size < UInt32.size

/-- Spilled values are within the frame, and those in different slots have no byte in common. Room for the frame is
made by a 32-bit word, in which a size of more bits wraps around. -/
structure Separated (a : Allocation) : Prop where
  inside : ∀ v lo hi, a.spillExtent? v = some (lo, hi) →
    ∃ size, a.frameSize = .ok size ∧ -((UInt32.ofNat size).toNat : Int) ≤ lo ∧ hi ≤ 0
  disjoint : ∀ v w lo hi lo' hi', a.spillExtent? v = some (lo, hi) → a.spillExtent? w = some (lo', hi') →
    a.slot? v ≠ a.slot? w → hi ≤ lo' ∨ hi' ≤ lo

/-- A register in a slot is accessed from the start of its slot on, as far as it is wide. -/
theorem spillExtent?_eq (h : a.slot? v = some k) :
    a.spillExtent? v =
      some (-(((k + 1) * a.target.slotSize : Nat) : Int),
        -(((k + 1) * a.target.slotSize : Nat) : Int) + v.width.bytes) := by
  rw [spillExtent?, slotOf?, h]
  rfl

/-- Only registers in slots are accessed there. -/
theorem spillExtent?_eq_some {lo hi : Int} (h : a.spillExtent? v = some (lo, hi)) :
    ∃ k, a.slot? v = some k ∧ lo = -(((k + 1) * a.target.slotSize : Nat) : Int) ∧ hi = lo + v.width.bytes := by
  cases hk : a.slot? v with
  | none =>
    rw [spillExtent?, slotOf?, hk] at h
    cases h
  | some k =>
    rw [spillExtent?_eq hk] at h
    obtain ⟨rfl, rfl⟩ := Prod.mk.inj (Option.some.inj h)
    exact ⟨k, rfl, rfl, rfl⟩

/-- The slot of a larger number ends before the other one starts. -/
theorem slot_below {k l : Nat} (h : k < l) (size : Nat) : (k + 1) * size + size ≤ (l + 1) * size := by
  rw [← Nat.succ_mul]
  exact Nat.mul_le_mul_right _ (Nat.succ_le_succ h)

/-- A frame has a size that a word holds if its number of bytes is small enough. -/
theorem sized_iff (hsize : a.target.slotSize ≠ 0) : a.Sized ↔ frameBytes a.target a.slotCount < UInt32.size := by
  rw [Sized, frameSize_eq hsize]
  constructor
  · rintro ⟨size, heq, hlt⟩
    exact Except.ok.inj heq ▸ hlt
  · exact fun hlt => ⟨_, rfl, hlt⟩

/-- Less than the alignment is added to the bytes of the slots. -/
theorem frameBytes_le (t : Target) (slots : Nat) : frameBytes t slots ≤ slots * t.slotSize + t.frameAlignment := by
  have hgroup : (max (t.frameAlignment / t.slotSize) 1 - 1) * t.slotSize ≤ t.frameAlignment := by
    refine Nat.le_trans (Nat.mul_le_mul_right _ ?_) (Nat.div_mul_le_self t.frameAlignment t.slotSize)
    generalize t.frameAlignment / t.slotSize = perGroup
    omega
  rw [frameBytes]
  generalize max (t.frameAlignment / t.slotSize) 1 = g at hgroup
  have hround := Nat.mul_le_mul_right t.slotSize (Nat.div_mul_le_self (slots + g - 1) g)
  have hsum : (slots + g - 1) * t.slotSize ≤ (slots + (g - 1)) * t.slotSize := Nat.mul_le_mul_right _ (by omega)
  rw [Nat.add_mul] at hsum
  omega

/-- A frame of one slot has one group of slots, which is no larger than the alignment or is the slot itself. -/
theorem frameBytes_one_lt {n : Nat} (halign : t.frameAlignment < n) (hslot : t.slotSize < n) : frameBytes t 1 < n := by
  have hpos : 0 < max (t.frameAlignment / t.slotSize) 1 := by omega
  rw [frameBytes, Nat.add_sub_cancel_left, Nat.div_self hpos, Nat.one_mul]
  rcases Nat.le_total (t.frameAlignment / t.slotSize) 1 with hone | hone
  · rwa [Nat.max_eq_right hone, Nat.one_mul]
  · rw [Nat.max_eq_left hone]
    exact Nat.lt_of_le_of_lt (Nat.div_mul_le_self t.frameAlignment t.slotSize) halign

/-- Values that fit into their slots do not overlap, in a frame whose size a word holds. -/
theorem separated (hsize : a.target.slotSize ≠ 0) (hsized : a.Sized)
    (hwidth : ∀ v, (a.slot? v).isSome → v.width.bytes ≤ a.target.slotSize) : a.Separated := by
  refine ⟨fun v lo hi h => ?_, fun v w lo hi lo' hi' h h' hne => ?_⟩
  · obtain ⟨k, hk, rfl, rfl⟩ := spillExtent?_eq_some h
    refine ⟨frameBytes a.target a.slotCount, frameSize_eq hsize, ?_, ?_⟩
    · rw [UInt32.toNat_ofNat_of_lt' ((sized_iff hsize).1 hsized)]
      have hle :=
        Nat.le_trans (Nat.mul_le_mul_right a.target.slotSize (lt_slotCount hk)) (le_frameBytes a.target a.slotCount)
      exact Int.neg_le_neg (Int.ofNat_le.2 hle)
    · have hbytes := hwidth v (Option.isSome_iff_exists.2 ⟨k, hk⟩)
      have hmul : a.target.slotSize ≤ (k + 1) * a.target.slotSize := Nat.le_mul_of_pos_left _ (Nat.succ_pos k)
      omega
  · obtain ⟨k, hk, rfl, rfl⟩ := spillExtent?_eq_some h
    obtain ⟨l, hl, rfl, rfl⟩ := spillExtent?_eq_some h'
    have hv := hwidth v (Option.isSome_iff_exists.2 ⟨k, hk⟩)
    have hw := hwidth w (Option.isSome_iff_exists.2 ⟨l, hl⟩)
    have hkl : k ≠ l := fun heq => hne (by rw [hk, hl, heq])
    rcases Nat.lt_or_gt_of_ne hkl with hlt | hlt
    · have := slot_below hlt a.target.slotSize
      omega
    · have := slot_below hlt a.target.slotSize
      omega

/-- A register wider than its slot reaches into the slot above, which some register has, or over the frame base. -/
theorem width_le_of_separated {lt : Lifetimes} (h : ofLifetimes lt t = .ok a) (hsep : a.Separated)
    (hk : a.slot? v = some k) :
    v.width.bytes ≤ a.target.slotSize := by
  have hv := spillExtent?_eq hk
  cases k with
  | zero =>
    obtain ⟨size, -, -, hle⟩ := hsep.inside v _ _ hv
    omega
  | succ k =>
    obtain ⟨w, hw⟩ := (slots_dense h k).2 (Nat.lt_trans (Nat.lt_succ_self k) (lt_slotCount hk))
    have hne : a.slot? v ≠ a.slot? w := by
      rw [hk, hw]
      exact fun heq => Nat.succ_ne_self k (Option.some.inj heq)
    have hpos : 0 < w.width.bytes := by cases w.width <;> decide
    have hsucc : (k + 1 + 1) * a.target.slotSize = (k + 1) * a.target.slotSize + a.target.slotSize := Nat.succ_mul _ _
    rcases hsep.disjoint v w _ _ _ _ hv (spillExtent?_eq hw) hne with hle | hle
    · omega
    · omega

/-- If the size of the frame wraps around, the last slot lies below what is left of it. -/
theorem sized_of_separated {lt : Lifetimes} (hsize : t.slotSize ≠ 0) (halign : t.frameAlignment < UInt32.size)
    (h : ofLifetimes lt t = .ok a) (hsep : a.Separated) : a.Sized := by
  obtain ⟨s, -, rfl, -, -⟩ := ofLifetimes_eq_ok h
  rw [sized_iff hsize]
  have hle := frameBytes_le a.target a.slotCount
  rcases Nat.eq_zero_or_pos a.slotCount with hzero | hpos
  · rw [hzero, Nat.zero_mul, Nat.zero_add] at hle
    exact hzero ▸ Nat.lt_of_le_of_lt hle halign
  · obtain ⟨v, hv⟩ := (slots_dense h (a.slotCount - 1)).2 (Nat.sub_lt hpos Nat.one_pos)
    obtain ⟨size, heq, hlow, -⟩ := hsep.inside v _ _ (spillExtent?_eq hv)
    obtain rfl := Except.ok.inj ((frameSize_eq hsize).symm.trans heq)
    rw [Nat.sub_add_cancel hpos, UInt32.toNat_ofNat'] at hlow
    simp only [UInt32.size] at halign ⊢
    omega

/-- Spilled values do not overlap in memory, and stay in their frame, if every register that has a slot fits into one
and a 32-bit word holds the size of the frame; in what the scan decides on for a valid target, only then. In frames of
such sizes they never overlap if slots are as wide as the widest registers, and only then. -/
theorem slots_separated (t : Target) (ht : t.validate = .ok ()) (halign : t.frameAlignment < UInt32.size) :
    (∀ a : Allocation, a.target = t → a.Sized → (∀ v, (a.slot? v).isSome → v.width.bytes ≤ t.slotSize) → a.Separated) ∧
      (∀ lt a, ofLifetimes lt t = .ok a →
        (a.Separated ↔ a.Sized ∧ ∀ v, (a.slot? v).isSome → v.width.bytes ≤ t.slotSize)) ∧
      ((∀ a : Allocation, a.target = t → a.Sized → a.Separated) ↔ Width.quad.bytes ≤ t.slotSize) := by
  have hsize : t.slotSize ≠ 0 := (Target.valid_of_validate ht).slotSize
  have hfits : ∀ a : Allocation, a.target = t → a.Sized → (∀ v, (a.slot? v).isSome → v.width.bytes ≤ t.slotSize) →
      a.Separated := by
    rintro a rfl hsized hwidth
    exact separated hsize hsized hwidth
  refine ⟨hfits, fun lt a h => ⟨fun hsep => ⟨sized_of_separated hsize halign h hsep, fun v hv => ?_⟩, ?_⟩,
    fun hall => ?_, fun hwide a ha hsized => hfits a ha hsized fun v _ => ?_⟩
  · obtain ⟨k, hk⟩ := Option.isSome_iff_exists.1 hv
    obtain ⟨s, -, rfl, -, -⟩ := ofLifetimes_eq_ok h
    exact width_le_of_separated h hsep hk
  · obtain ⟨s, -, htarget, -, -⟩ := ofLifetimes_eq_ok h
    exact fun hboth => hfits a htarget hboth.1 hboth.2
  · -- One wide register in the first slot has to end at the frame base.
    by_contra hnarrow
    have hslot : t.slotSize < UInt32.size := Nat.lt_trans (Nat.not_le.1 hnarrow) (by decide)
    have hsized : Sized ⟨t, [], [(⟨0, .quad⟩, 0)], []⟩ := (sized_iff hsize).2 (frameBytes_one_lt halign hslot)
    obtain ⟨size, -, -, hle⟩ := (hall _ rfl hsized).inside ⟨0, .quad⟩ _ _ (spillExtent?_eq rfl)
    simp only [Nat.zero_add, Nat.one_mul] at hle
    omega
  · exact Nat.le_trans (by cases v.width <;> decide) hwide

/-- A value of eight bytes is kept in memory while a call overwrites all registers. -/
def kept : Function :=
  ⟨"kept", [⟨"start", [],
    [.enter, .mov (.imm .quad 7) (.reg .quad (.virt ⟨0, .quad⟩)), .call "tick" [],
      .mov (.reg .quad (.virt ⟨0, .quad⟩)) (.phys .quad .di), .call "show" [.phys .quad .di], .leave], .ret, []⟩]⟩

/-- In slots of eight bytes it has its own. -/
theorem slots_separated_kept :
    Target.standard.validate = .ok () ∧ Target.standard.frameAlignment < UInt32.size ∧ ∃ lt a,
      Lifetimes.ofFunction kept .standard = .ok lt ∧ ofLifetimes lt .standard = .ok a ∧
      a.spillExtent? ⟨0, .quad⟩ = some (-8, 0) ∧ a.frameSize = .ok 16 ∧ a.Separated := by
  have hseen : (ofLifetimes (Lifetimes.compute kept .standard) .standard).toOption.map
      (fun a => (a.spillExtent? ⟨0, .quad⟩, a.frameSize)) = some (some (-8, 0), .ok 16) := rfl
  obtain ⟨a, ha, hseen⟩ := Option.map_eq_some_iff.1 hseen
  obtain ⟨hextent, hframe⟩ := Prod.mk.inj hseen
  have ha := ok_of_toOption ha
  refine ⟨rfl, by decide, _, a, rfl, ha, hextent, hframe, ?_⟩
  refine ((slots_separated .standard rfl (by decide)).2.1 _ a ha).2 ⟨⟨16, hframe, by decide⟩, fun v _ => ?_⟩
  cases v.width <;> decide

/-- In slots of four bytes, which divide the alignment of the frame, it reaches over the frame base into what the
caller has there. -/
theorem slots_overlap_kept :
    Target.validate { Target.standard with slotSize := 4 } = .ok () ∧ ∃ lt a,
      Lifetimes.ofFunction kept { Target.standard with slotSize := 4 } = .ok lt ∧
      ofLifetimes lt { Target.standard with slotSize := 4 } = .ok a ∧
      a.spillExtent? ⟨0, .quad⟩ = some (-4, 4) ∧ ¬a.Separated := by
  have hextent : (ofLifetimes (Lifetimes.compute kept { Target.standard with slotSize := 4 })
      { Target.standard with slotSize := 4 }).toOption.map (·.spillExtent? ⟨0, .quad⟩) = some (some (-4, 4)) := rfl
  obtain ⟨a, ha, hextent⟩ := Option.map_eq_some_iff.1 hextent
  refine ⟨rfl, _, a, rfl, ok_of_toOption ha, hextent, fun hsep => ?_⟩
  obtain ⟨size, -, -, hle⟩ := hsep.inside _ _ _ hextent
  exact absurd hle (by decide)

end Allocation

/-! ## The size of a frame -/

namespace Allocation

variable {t : Target} {a : Allocation} {v w : VirtReg} {d e : Int}

/-- The stack slot of a register lies at a distance from the frame base, with whatever width it is accessed. -/
def LiesAt (a : Allocation) (v : VirtReg) (d : Int) : Prop :=
  ∀ width, a.slotOf? v width = some (.mem width (.offset (.phys a.target.frameBase) d))

/-- Slots lie below the frame base, one after the other. -/
theorem liesAt_iff : a.LiesAt v d ↔ ∃ k, a.slot? v = some k ∧ d = -(((k + 1) * a.target.slotSize : Nat) : Int) := by
  simp only [LiesAt, slotOf?, Option.map_eq_some_iff, slotCell]
  constructor
  · intro h
    obtain ⟨k, hk, heq⟩ := h .quad
    simp only [Operand.mem, Operand.mk.injEq, Content.mem.injEq, Address.offset, Address.mk.injEq, true_and,
      and_true] at heq
    exact ⟨k, hk, heq.symm⟩
  · rintro ⟨k, hk, rfl⟩ width
    exact ⟨k, hk, rfl⟩

/-- The number of slots is the least one that is larger than every slot given. -/
theorem slotCount_isLeast (a : Allocation) : IsLeast {n | ∀ x ∈ a.slots, x.2 < n} a.slotCount := by
  rw [slotCount]
  cases hm : (a.slots.map (·.2)).max? with
  | none =>
    have hnil : a.slots = [] := List.map_eq_nil_iff.1 (List.max?_eq_none_iff.1 hm)
    exact ⟨fun x hx => absurd (hnil ▸ hx) List.not_mem_nil, fun n _ => Nat.zero_le n⟩
  | some m =>
    obtain ⟨hmem, hle⟩ := List.max?_eq_some_iff.1 hm
    obtain ⟨x, hx, rfl⟩ := List.mem_map.1 hmem
    exact ⟨fun y hy => Nat.lt_succ_of_le (hle y.2 (List.mem_map_of_mem hy)), fun n hn => hn x hx⟩

/-- Whole groups of slots that make up the alignment are the least multiple of it that holds the slots. -/
theorem frameBytes_isLeast (hsize : 0 < t.slotSize) (hdvd : t.slotSize ∣ t.frameAlignment)
    (halign : 0 < t.frameAlignment) (n : Nat) :
    IsLeast {bytes | t.frameAlignment ∣ bytes ∧ n * t.slotSize ≤ bytes} (frameBytes t n) := by
  obtain ⟨g, hg⟩ := hdvd
  have hpos : 0 < g := Nat.pos_of_ne_zero fun hzero => by simp [hg, hzero] at halign
  have hgroup : max (t.frameAlignment / t.slotSize) 1 = g := by
    rw [hg, Nat.mul_div_cancel_left g hsize]
    exact Nat.max_eq_left hpos
  have hbytes : frameBytes t n = t.frameAlignment * ((n + g - 1) / g) := by
    rw [frameBytes, hgroup, hg, Nat.mul_assoc, Nat.mul_comm g, Nat.mul_comm]
  refine ⟨⟨hbytes ▸ Nat.dvd_mul_right _ _, le_frameBytes t n⟩, ?_⟩
  rintro bytes ⟨⟨q, rfl⟩, hle⟩
  -- Any `q` groups that hold the slots are at least as many as there are groups begun.
  have hholds : n ≤ g * q := by
    refine Nat.le_of_mul_le_mul_left ?_ hsize
    rwa [← Nat.mul_assoc, ← hg, Nat.mul_comm]
  have hgroups : (n + g - 1) / g ≤ q := by
    refine Nat.le_of_lt_succ ((Nat.div_lt_iff_lt_mul hpos).2 ?_)
    rw [Nat.succ_mul, Nat.mul_comm]
    omega
  rw [hbytes]
  exact Nat.mul_le_mul_left _ hgroups

/-- A slot lies within a frame that holds all slots, a whole number of slots below the base. -/
theorem LiesAt.bounds (h : a.LiesAt v d) {size : Nat} (hsize : a.slotCount * a.target.slotSize ≤ size) :
    -(size : Int) ≤ d ∧ d ≤ -(a.target.slotSize : Int) ∧ (a.target.slotSize : Int) ∣ d := by
  obtain ⟨k, hk, rfl⟩ := liesAt_iff.1 h
  have hlow : (k + 1) * a.target.slotSize ≤ size := Nat.le_trans (Nat.mul_le_mul_right _ (lt_slotCount hk)) hsize
  have hhigh : a.target.slotSize ≤ (k + 1) * a.target.slotSize := Nat.le_mul_of_pos_left _ (Nat.succ_pos k)
  refine ⟨by omega, by omega, Int.dvd_neg.2 (Int.natCast_dvd_natCast.2 (Nat.dvd_mul_left _ _))⟩

/-- Different slots are at least a slot apart. -/
theorem LiesAt.apart (hd : a.LiesAt v d) (he : a.LiesAt w e) (hne : a.slot? v ≠ a.slot? w) :
    a.target.slotSize ≤ (d - e).natAbs := by
  obtain ⟨k, hk, rfl⟩ := liesAt_iff.1 hd
  obtain ⟨l, hl, rfl⟩ := liesAt_iff.1 he
  have hkl : k ≠ l := fun heq => hne (by rw [hk, hl, heq])
  rcases Nat.lt_or_gt_of_ne hkl with hlt | hlt
  · have := slot_below hlt a.target.slotSize
    omega
  · have := slot_below hlt a.target.slotSize
    omega

/-- For slots that divide the alignment, the size of a frame is the least multiple of the alignment that holds all
slots. Every register with a slot has it in the frame, at a multiple of the size of a slot, and different slots are at
least a slot apart. -/
theorem frame_tight (a : Allocation) (hsize : 0 < a.target.slotSize)
    (hdvd : a.target.slotSize ∣ a.target.frameAlignment) (halign : 0 < a.target.frameAlignment) :
    IsLeast {n | ∀ x ∈ a.slots, x.2 < n} a.slotCount ∧
      ∃ size, a.frameSize = .ok size ∧
        IsLeast {bytes | a.target.frameAlignment ∣ bytes ∧ a.slotCount * a.target.slotSize ≤ bytes} size ∧
        (∀ v, (a.slot? v).isSome → ∃ d, a.LiesAt v d ∧
          -(size : Int) ≤ d ∧ d ≤ -(a.target.slotSize : Int) ∧ (a.target.slotSize : Int) ∣ d) ∧
        ∀ v w d e, a.LiesAt v d → a.LiesAt w e → a.slot? v ≠ a.slot? w → a.target.slotSize ≤ (d - e).natAbs := by
  have hleast := frameBytes_isLeast hsize hdvd halign a.slotCount
  refine ⟨slotCount_isLeast a, _, frameSize_eq (Nat.ne_of_gt hsize), hleast, fun v hv => ?_,
    fun v w d e hd he hne => hd.apart he hne⟩
  obtain ⟨k, hk⟩ := Option.isSome_iff_exists.1 hv
  have hat := liesAt_iff.2 ⟨k, hk, rfl⟩
  exact ⟨_, hat, hat.bounds hleast.1.2⟩

/-- Two registers share the first of three slots, and the second is not given. -/
def gapped : Allocation := ⟨.standard, [], [(⟨0, .quad⟩, 0), (⟨1, .byte⟩, 2), (⟨2, .quad⟩, 0)], []⟩

/-- Three slots of eight bytes take a frame of two groups of sixteen. -/
theorem frame_tight_gapped :
    0 < gapped.target.slotSize ∧ gapped.target.slotSize ∣ gapped.target.frameAlignment ∧
      0 < gapped.target.frameAlignment ∧ gapped.slotCount = 3 ∧ gapped.frameSize = .ok 32 ∧
      IsLeast {bytes | 16 ∣ bytes ∧ 3 * 8 ≤ bytes} 32 ∧ gapped.LiesAt ⟨1, .byte⟩ (-24) ∧ gapped.LiesAt ⟨2, .quad⟩ (-8) ∧
      8 ≤ (-24 - -8 : Int).natAbs := by
  have hdvd : gapped.target.slotSize ∣ gapped.target.frameAlignment := ⟨2, rfl⟩
  obtain ⟨-, size, hsize, hleast, -, hapart⟩ := frame_tight gapped (by decide) hdvd (by decide)
  obtain rfl : 32 = size := Except.ok.inj hsize
  have hfar : gapped.LiesAt ⟨1, .byte⟩ (-24) := liesAt_iff.2 ⟨2, rfl, rfl⟩
  have hnear : gapped.LiesAt ⟨2, .quad⟩ (-8) := liesAt_iff.2 ⟨0, rfl, rfl⟩
  exact ⟨by decide, hdvd, by decide, rfl, rfl, hleast, hfar, hnear, hapart _ _ _ _ hfar hnear (by decide)⟩

end Allocation

end RegAlloc
