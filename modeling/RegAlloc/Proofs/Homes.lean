import RegAlloc.Proofs.Allocation
import RegAlloc.Proofs.Frame
import RegAlloc.Proofs.Pinned
import RegAlloc.Proofs.Slots

/-!
# Where values are kept

What is known of the splits of an allocation that was made for some lifetimes (`Made`), and what the code of a
function may rely on, for an allocation that was made for it (`Serves`). At every position where a register is live it
has one split (`splitAt?_eq_some`), and its value is kept in the physical register of the split, or else in its stack
slot (`Keeps`). Different registers are kept in different places, and no register is kept in the stack slot of
another, nor in a physical register that the code itself needs.

From one position to the next a register stays in its split, or its value is carried over through the stack slot
(`carried`). The slot is up to date except between two writes of one split (`Pending`), because the last write of each
split is followed by a spill.
-/

namespace RegAlloc

/-- The interval of a register. -/
def Lifetimes.life (lt : Lifetimes) (v : VirtReg) : Interval := Note.interval lt.intervals v

/-- In well-formed lifetimes every register has one interval. -/
theorem Lifetimes.WellFormed.life_eq {lt : Lifetimes} (h : lt.WellFormed) {i : Interval} (hi : i ∈ lt.intervals) :
    lt.life i.register = i := Note.interval_of_mem h.registers hi

namespace Allocation

variable {f : Function} {lt : Lifetimes} {t : Target} {a : Allocation} {u v : VirtReg} {p : Position} {x y : Split}
  {r : PhysReg} {k : Nat}

/-- The allocation was made for the given lifetimes. -/
structure Made (a : Allocation) (lt : Lifetimes) (t : Target) : Prop where
  wellFormed : lt.WellFormed
  inside : ∀ i ∈ lt.intervals, i.Inside
  valid : t.Valid
  made : ofLifetimes lt t = .ok a

/-- The splits of a register stand in the table under the register. -/
theorem exists_entry (hx : x ∈ a.splitsFor v) : ∃ e ∈ a.splits, e.1 = v ∧ x ∈ e.2 := by
  rw [splitsFor] at hx
  cases hl : lookupBy v a.splits with
  | none =>
    rw [hl] at hx
    cases hx
  | some xs =>
    rw [hl] at hx
    exact ⟨(v, xs), mem_of_lookupBy hl, rfl, hx⟩

namespace Made

/-- The table has one entry for each register, which is found. -/
theorem splitsFor_eq_of_mem (h : a.Made lt t) {e : VirtReg × List Split} (he : e ∈ a.splits) :
    a.splitsFor e.1 = e.2 := by
  obtain ⟨s, -, -, ha, -⟩ := ofLifetimes_eq_ok h.made
  rw [ha] at he
  obtain ⟨i, hi, rfl⟩ := List.mem_map.1 (List.mem_filter.1 he).1
  exact splitsFor_eq h.wellFormed ha hi

/-- The splits of a register are its pieces when the scan is complete, with idle neighbours joined. -/
theorem exists_scan (h : a.Made lt t) (hx : x ∈ a.splitsFor v) :
    ∃ s, Scan.complete lt t = .ok s ∧ a.slots = s.slots.slots ∧ lt.life v ∈ lt.intervals ∧
      a.splitsFor v = joinIdle none (s.splits v) := by
  obtain ⟨s, hs, -, ha, hslots⟩ := ofLifetimes_eq_ok h.made
  obtain ⟨e, he, rfl, _⟩ := exists_entry hx
  rw [ha] at he
  obtain ⟨i, hi, rfl⟩ := List.mem_map.1 (List.mem_filter.1 he).1
  exact ⟨s, hs, hslots, (h.wellFormed.life_eq hi).symm ▸ hi, splitsFor_eq h.wellFormed ha hi⟩

/-- A register that has a split is live. -/
theorem live (h : a.Made lt t) (hx : x ∈ a.splitsFor v) : (lt.life v).Live := by
  obtain ⟨s, hs, -, hi, hsplits⟩ := h.exists_scan hx
  obtain ⟨hl, htiles, -, -⟩ := Scan.complete_spec h.wellFormed h.valid hs
  refine ⟨h.wellFormed.intervals _ hi, ?_⟩
  cases hs' : s.splits v with
  | nil =>
    rw [hsplits, hs'] at hx
    cases hx
  | cons z zs =>
    have hz : z.interval ∈ s.intervals.filter (fun i => i.register = v) :=
      (Scan.splits_intervals_perm hl).subset (List.mem_map_of_mem (hs' ▸ List.mem_cons_self))
    obtain ⟨hmem, hreg⟩ := List.mem_filter.1 hz
    obtain ⟨i, hi, hir⟩ := htiles.exists_whole hmem
    obtain ⟨hi, hne⟩ := List.mem_filter.1 hi
    rw [← h.wellFormed.life_eq hi, hir, of_decide_eq_true hreg] at hne
    simpa using hne

/-- A register that has splits has an interval. -/
theorem mem_intervals (h : a.Made lt t) (hx : x ∈ a.splitsFor v) : lt.life v ∈ lt.intervals := by
  obtain ⟨_, _, _, hi, _⟩ := h.exists_scan hx
  exact hi

/-- The splits of a register divide its interval. -/
theorem divides (h : a.Made lt t) (hx : x ∈ a.splitsFor v) :
    Divides (lt.life v) ((a.splitsFor v).map Split.interval) := by
  have hdiv := splitsFor_divides h.wellFormed h.valid h.made (h.mem_intervals hx) (h.live hx).nonempty
  rwa [show (lt.life v).register = v from Note.interval_register] at hdiv

theorem live_split (h : a.Made lt t) (hx : x ∈ a.splitsFor v) : x.interval.Live :=
  (h.divides hx).live _ (List.mem_map_of_mem hx)

/-- Every site of a split is covered by the split. -/
theorem inside_split (h : a.Made lt t) (hx : x ∈ a.splitsFor v) : x.interval.Inside :=
  (h.divides hx).inside (h.inside _ (h.mem_intervals hx)) _ (List.mem_map_of_mem hx)

/-- Of two splits of a register one lies before the other. -/
theorem apart (h : a.Made lt t) (hx : x ∈ a.splitsFor v) (hy : y ∈ a.splitsFor v) (hne : x ≠ y) :
    x.interval.Apart y.interval := by
  have hord := List.pairwise_iff_getElem.1 (List.pairwise_map.1 (h.divides hx).ordered)
  obtain ⟨i, hi, rfl⟩ := List.getElem_of_mem hx
  obtain ⟨j, hj, rfl⟩ := List.getElem_of_mem hy
  rcases Nat.lt_trichotomy i j with hij | rfl | hij
  · exact .inl (hord i j hi hj hij)
  · exact absurd rfl hne
  · exact .inr (hord j i hj hi hij)

/-- The split of a register at a position is the one that covers it. -/
theorem splitAt?_eq_some (h : a.Made lt t) : a.splitAt? v p = some x ↔ x ∈ a.splitsFor v ∧ x.interval.covers p := by
  constructor
  · intro hx
    exact ⟨List.mem_of_find?_eq_some hx, by simpa using List.find?_some hx⟩
  · rintro ⟨hx, hp⟩
    cases hf : a.splitAt? v p with
    | none => exact absurd hp (by simpa using List.find?_eq_none.1 hf x hx)
    | some y =>
      have hy : y ∈ a.splitsFor v := List.mem_of_find?_eq_some hf
      have hyp : y.interval.covers p := by simpa using List.find?_some hf
      -- Two of them would cover the position twice.
      by_contra hne
      rcases h.apart hx hy fun heq => hne (by rw [heq]) with hxy | hyx
      · exact hxy.disjoint (h.live_split hx) (h.live_split hy) p hp hyp
      · exact hyx.disjoint (h.live_split hy) (h.live_split hx) p hyp hp

/-- What a split covers, its register covers. -/
theorem covers_life (h : a.Made lt t) (hx : x ∈ a.splitsFor v) (hp : x.interval.covers p) : (lt.life v).covers p := by
  have hcount := (h.divides hx).covers p
  by_contra hnot
  rw [if_neg hnot, List.countP_map, List.countP_eq_zero] at hcount
  exact hcount x hx hp

/-- A site of a register is a site of the split that covers it. -/
theorem mem_sites (h : a.Made lt t) (hx : a.splitAt? v p = some x) :
    p ∈ x.interval.sites.map Site.position ↔ p ∈ (lt.life v).sites.map Site.position := by
  obtain ⟨hxm, hxp⟩ := h.splitAt?_eq_some.1 hx
  rw [← (h.divides hxm).sites]
  simp only [List.mem_map, List.mem_flatMap]
  constructor
  · rintro ⟨s, hs, rfl⟩
    exact ⟨s, ⟨x.interval, ⟨x, hxm, rfl⟩, hs⟩, rfl⟩
  · rintro ⟨s, ⟨_, ⟨y, hy, rfl⟩, hs⟩, rfl⟩
    have hys : a.splitAt? v s.position = some y := h.splitAt?_eq_some.2 ⟨hy, h.inside_split hy s hs⟩
    obtain rfl := Option.some.inj (hx.symm.trans hys)
    exact ⟨s, hs, rfl⟩

/-- Splits of a register are told apart by their numbers. -/
theorem ids_inj (h : a.Made lt t) (hx : x ∈ a.splitsFor v) (hy : y ∈ a.splitsFor v) (hid : x.id = y.id) : x = y := by
  obtain ⟨s, -, -, -, hsplits⟩ := h.exists_scan hx
  rw [hsplits] at hx hy
  exact List.inj_on_of_nodup_map (Scan.splits_ids_nodup.sublist (joinIdle_ids_sublist _ none)) hx hy hid

/-- A register that was divided has a slot. -/
theorem slot_of_two (h : a.Made lt t) (hx : x ∈ a.splitsFor v) (hy : y ∈ a.splitsFor v) (hne : x ≠ y) :
    ∃ k, a.slot? v = some k := by
  obtain ⟨s, hs, hslots, -, hsplits⟩ := h.exists_scan hx
  obtain ⟨-, hslotted⟩ := Scan.complete_slots h.wellFormed hs
  have hpiece : ∀ z ∈ a.splitsFor v, z.id < s.pieces.length ∧ (s.interval z.id).register = v := by
    intro z hz
    rw [hsplits] at hz
    obtain ⟨z', hz', hid⟩ := List.mem_map.1 ((joinIdle_ids_sublist _ none).subset (List.mem_map_of_mem hz))
    obtain ⟨hint, -, hreg⟩ := Scan.mem_splits hz'
    rw [← hid, ← hint]
    exact ⟨Scan.lt_length_of_mem_splits hz', hreg⟩
  obtain ⟨hxl, hxr⟩ := hpiece x hx
  obtain ⟨hyl, hyr⟩ := hpiece y hy
  have hsome := hslotted.twice x.id y.id hxl hyl (fun hid => hne (h.ids_inj hx hy hid)) (hxr.trans hyr.symm)
  rw [hyr] at hsome
  rw [slot?, hslots]
  exact Option.isSome_iff_exists.1 hsome

end Made

/-- The allocation was made for the lifetimes of a function. -/
structure Serves (a : Allocation) (f : Function) (t : Target) : Prop where
  width : f.OneWidth
  valid : t.Valid
  made : ofLifetimes (Lifetimes.compute f t) t = .ok a

namespace Serves

/-- The lifetimes that the allocation was made for are well formed. -/
theorem wellFormed (h : a.Serves f t) : (Lifetimes.compute f t).WellFormed := Function.compute_wellFormed h.width t

/-- An allocation that serves a function was made for its lifetimes. -/
theorem toMade (h : a.Serves f t) : a.Made (Lifetimes.compute f t) t :=
  ⟨h.wellFormed, fun _ hi => Function.eq_life_of_mem hi ▸ Function.life_inside h.width, h.valid, h.made⟩

theorem target (h : a.Serves f t) : a.target = t := by
  obtain ⟨_, _, ht, _⟩ := ofLifetimes_eq_ok h.made
  exact ht

/-- A register that has a split is live. -/
theorem live (h : a.Serves f t) (hx : x ∈ a.splitsFor v) : (f.life v).Live := h.toMade.live hx

/-- The splits of a register divide its interval. -/
theorem divides (h : a.Serves f t) (hv : (f.life v).Live) :
    Divides (f.life v) ((a.splitsFor v).map Split.interval) := by
  have hdiv := splitsFor_divides h.wellFormed h.valid h.made (Function.life_mem hv.covers_start) hv.nonempty
  rwa [show (f.life v).register = v from Note.interval_register] at hdiv

theorem live_split (h : a.Serves f t) (hx : x ∈ a.splitsFor v) : x.interval.Live := h.toMade.live_split hx

/-- Of two splits of a register one lies before the other. -/
theorem apart (h : a.Serves f t) (hx : x ∈ a.splitsFor v) (hy : y ∈ a.splitsFor v) (hne : x ≠ y) :
    x.interval.Apart y.interval := h.toMade.apart hx hy hne

/-- The split of a register at a position is the one that covers it. -/
theorem splitAt?_eq_some (h : a.Serves f t) : a.splitAt? v p = some x ↔ x ∈ a.splitsFor v ∧ x.interval.covers p :=
  h.toMade.splitAt?_eq_some

/-- Where a register is live, and only there, a split covers the position. -/
theorem splitAt?_isSome (h : a.Serves f t) : (a.splitAt? v p).isSome ↔ (f.life v).covers p := by
  constructor
  · intro hs
    obtain ⟨x, hx⟩ := Option.isSome_iff_exists.1 hs
    obtain ⟨hmem, hp⟩ := h.splitAt?_eq_some.1 hx
    exact h.toMade.covers_life hmem hp
  · intro hp
    have hlive : (f.life v).Live := Interval.live_of_covers (Function.life_wellFormed h.width v) hp
    have hcount := (h.divides hlive).covers p
    rw [if_pos hp, List.countP_map] at hcount
    obtain ⟨x, hx, hxp⟩ := List.countP_pos_iff.1 (hcount ▸ Nat.one_pos)
    rw [h.splitAt?_eq_some.2 ⟨hx, hxp⟩]
    rfl

/-- The split after another one begins where its interval is cut. -/
theorem start_eq_next (h : a.Serves f t) (hx : a.splitAt? v p = some x) (hy : a.splitAt? v p.next = some y)
    (hne : x ≠ y) :
    y.interval.start = p.next ∧ x.interval.Before y.interval := by
  obtain ⟨hxm, hxp⟩ := h.splitAt?_eq_some.1 hx
  obtain ⟨hym, hyp⟩ := h.splitAt?_eq_some.1 hy
  have hlx := h.live_split hxm
  have hly := h.live_split hym
  have hbefore : x.interval.Before y.interval := by
    refine (h.apart hxm hym hne).resolve_right fun hyx => ?_
    exact absurd (lt_of_le_of_lt (hly.le_stop hyp) (lt_of_lt_of_le hyx.range (hlx.start_le hxp)))
      (not_lt.2 (le_of_lt (Position.lt_next p)))
  refine ⟨le_antisymm (hly.start_le hyp) ?_, hbefore⟩
  have hlt : p < y.interval.start := lt_of_le_of_lt (hlx.le_stop hxp) hbefore.range
  exact not_lt.1 fun hlt' => absurd hlt (not_lt.2 (Position.lt_next_iff.1 hlt'))

/-- A site of a register is a site of the split that covers it. -/
theorem mem_sites (h : a.Serves f t) (hx : a.splitAt? v p = some x) :
    p ∈ x.interval.sites.map Site.position ↔ p ∈ (f.life v).sites.map Site.position := h.toMade.mem_sites hx

/-- A split is a part of the interval of its register. -/
theorem interval_register (h : a.Serves f t) (hx : x ∈ a.splitsFor v) : x.interval.register = v := by
  obtain ⟨s, hs, -, -, hsplits⟩ := h.toMade.exists_scan hx
  rw [hsplits] at hx
  have hjoin : ∀ (xs : List Split) (idle : Option Split), (∀ y ∈ idle, y.interval.register = v) →
      (∀ y ∈ xs, y.interval.register = v) → ∀ y ∈ joinIdle idle xs, y.interval.register = v := by
    intro xs
    induction xs with
    | nil => exact fun idle hidle _ y hy => hidle y (Option.mem_toList.1 hy)
    | cons z xs ih =>
      intro idle hidle hxs y hy
      have hz := hxs z List.mem_cons_self
      have hxs' : ∀ y ∈ xs, y.interval.register = v := fun y hy => hxs y (List.mem_cons_of_mem _ hy)
      unfold joinIdle at hy
      split_ifs at hy
      · rcases List.mem_append.1 hy with hy | hy
        · exact hidle y (Option.mem_toList.1 hy)
        rcases List.mem_cons.1 hy with rfl | hy
        · exact hz
        · exact ih none (fun _ h => absurd h (Option.not_mem_none _)) hxs' y hy
      · cases idle with
        | none =>
          refine ih _ (fun w hw => ?_) hxs' y hy
          rw [← Option.some.inj hw]
          exact hz
        | some w =>
          refine ih _ (fun w' hw' => ?_) hxs' y hy
          rw [← Option.some.inj hw']
          exact hidle w rfl
  exact hjoin _ none (fun _ h => absurd h (Option.not_mem_none _)) (fun y hy => (Scan.mem_splits hy).2.2) x hx

/-! ## Slots -/

/-- Registers that are live at one position have different slots. -/
theorem slot_ne (h : a.Serves f t) (hne : u ≠ v) (hu : (f.life u).covers p) (hv : (f.life v).covers p) {k l : Nat}
    (hk : a.slot? u = some k) (hl : a.slot? v = some l) : k ≠ l := by
  obtain ⟨s, hs, -, -, hslots⟩ := ofLifetimes_eq_ok h.made
  obtain ⟨hown, -⟩ := Scan.complete_slots h.wellFormed hs
  rw [slot?, hslots] at hk hl
  rintro rfl
  have hlu : (f.life u).Live := Interval.live_of_covers (Function.life_wellFormed h.width u) hu
  have hlv : (f.life v).Live := Interval.live_of_covers (Function.life_wellFormed h.width v) hv
  -- One of the two owners is over before the other one begins.
  rcases hown.apart u v k hne hk hl with hlt | hlt
  · exact absurd (lt_of_le_of_lt (hlu.le_stop hu) (lt_of_lt_of_le hlt (hlv.start_le hv))) (lt_irrefl p)
  · exact absurd (lt_of_le_of_lt (hlv.le_stop hv) (lt_of_lt_of_le hlt (hlu.start_le hu))) (lt_irrefl p)

/-- A register that was divided has a slot. -/
theorem slot_of_two (h : a.Serves f t) (hx : x ∈ a.splitsFor v) (hy : y ∈ a.splitsFor v) (hne : x ≠ y) :
    ∃ k, a.slot? v = some k := h.toMade.slot_of_two hx hy hne

end Serves

/-! ## Places -/

/-- The memory cell of a stack slot. -/
def slotPlace (a : Allocation) (k : Nat) : Content := slotAt a.target.frameBase (-((k + 1) * a.target.slotSize : Nat))

/-- The distances of the cells of a frame from its base: the caller's frame base is kept at the base itself, and slots
below it. -/
def cells (a : Allocation) : Set Int := {d | d = 0 ∨ ∃ k < a.slotCount, d = -((k + 1) * a.target.slotSize : Nat)}

/-- The value of `v` is kept in a place: in the physical register that its split has at the position, or else in its
slot. -/
inductive Keeps (a : Allocation) (v : VirtReg) (p : Position) : Content → Prop where
  | register {x : Split} {r : PhysReg} (hx : a.splitAt? v p = some x) (hr : x.register = some r) :
    Keeps a v p (.reg (.phys r))
  | slot {x : Split} {k : Nat} (hx : a.splitAt? v p = some x) (hr : x.register = none) (hk : a.slot? v = some k) :
      Keeps a v p (a.slotPlace k)

variable {c d : Content} {l : Nat}

/-- Different slots are different places, on a target that has slots at all. -/
theorem slotPlace_inj (ht : a.target.slotSize ≠ 0) (h : a.slotPlace k = a.slotPlace l) : k = l := by
  simp only [slotPlace, slotAt, Address.offset, Content.mem.injEq, Address.mk.injEq, Int.neg_inj, Int.natCast_inj] at h
  exact Nat.succ.inj (Nat.eq_of_mul_eq_mul_right (Nat.pos_of_ne_zero ht) h.1)

/-- The number of slots is larger than each slot. -/
theorem lt_slotCount (h : a.slot? v = some k) : k < a.slotCount := by
  have hmem : k ∈ a.slots.map (·.2) := List.mem_map.2 ⟨(v, k), mem_of_lookupBy h, rfl⟩
  rw [slotCount]
  cases hm : (a.slots.map (·.2)).max? with
  | none =>
    rw [List.max?_eq_none_iff.1 hm] at hmem
    cases hmem
  | some n => exact Nat.lt_succ_of_le ((List.max?_eq_some_iff.1 hm).2 k hmem)

/-- The size of a frame, on a target that has slots at all. -/
theorem frameSize_eq (hsize : a.target.slotSize ≠ 0) : a.frameSize = .ok (frameBytes a.target a.slotCount) :=
  if_neg hsize

/-- A slot that a register has is a place of the frame. -/
theorem Serves.slotPlace_place (h : a.Serves f t) (hk : a.slot? v = some k) :
    Place t.frameBase t.stackPointer a.cells (a.slotPlace k) := by
  rw [slotPlace, h.target]
  exact .slot _ (.inr ⟨k, lt_slotCount hk, by rw [h.target]⟩)

/-- A register operand is replaced by the place of the register. -/
theorem keeps_of_storage {w : Width} {o : Operand} (hp : (a.splitAt? v p).isSome)
    (h : a.storage w (.virt v) p = .ok o) :
    a.Keeps v p o.content := by
  obtain ⟨x, hx⟩ := Option.isSome_iff_exists.1 hp
  have hreg : a.registerAt? (.virt v) p = x.register := by rw [registerAt?, hx, Option.bind_some]
  rw [storage, hreg] at h
  cases hr : x.register with
  | some r =>
    rw [hr] at h
    obtain rfl := Except.ok.inj h
    exact .register hx hr
  | none =>
    rw [hr] at h
    cases hk : a.slot? v with
    | none =>
      rw [slotOf?, hk] at h
      cases h
    | some k =>
      rw [slotOf?, hk] at h
      obtain rfl := Except.ok.inj h
      exact .slot hx hr hk

namespace Keeps

/-- What keeps a register belongs to a split that covers the position. -/
theorem exists_split (h : a.Keeps v p c) : ∃ x, a.splitAt? v p = some x := by
  cases h with
  | register hx => exact ⟨_, hx⟩
  | slot hx => exact ⟨_, hx⟩

/-- A register is kept in one place only. -/
theorem unique (h : a.Keeps v p c) (h' : a.Keeps v p d) : c = d := by
  cases h with
  | register hx hr =>
    cases h' with
    | register hx' hr' =>
      obtain rfl := Option.some.inj (hx.symm.trans hx')
      rw [Option.some.inj (hr.symm.trans hr')]
    | slot hx' hr' =>
      obtain rfl := Option.some.inj (hx.symm.trans hx')
      cases hr.symm.trans hr'
  | slot hx hr hk =>
    cases h' with
    | register hx' hr' =>
      obtain rfl := Option.some.inj (hx.symm.trans hx')
      cases hr.symm.trans hr'
    | slot hx' hr' hk' => rw [Option.some.inj (hk.symm.trans hk')]

/-- Where a register is kept depends on the split only. -/
theorem of_split {q : Position} (h : a.Keeps v p c) (hpq : a.splitAt? v p = a.splitAt? v q) : a.Keeps v q c := by
  cases h with
  | register hx hr => exact .register (hpq ▸ hx) hr
  | slot hx hr hk => exact .slot (hpq ▸ hx) hr hk

/-- A register is kept only where it is live. -/
theorem covers (h : a.Keeps v p c) (ha : a.Serves f t) : (f.life v).covers p := by
  obtain ⟨x, hx⟩ := h.exists_split
  exact ha.splitAt?_isSome.1 (hx ▸ rfl)

/-- No register is kept in the slot of another one that is live. -/
theorem ne_slotPlace (h : a.Keeps u p c) (ha : a.Serves f t) (hne : u ≠ v) (hv : (f.life v).covers p)
    (hk : a.slot? v = some k) :
    c ≠ a.slotPlace k := by
  have hu := h.covers ha
  cases h with
  | register => exact nofun
  | slot _ _ hl =>
    intro heq
    exact ha.slot_ne hne hu hv hl hk (slotPlace_inj (ha.target ▸ ha.valid.slotSize) heq)

/-- Different registers are kept in different places. -/
theorem ne (h : a.Keeps u p c) (h' : a.Keeps v p d) (ha : a.Serves f t) (hne : u ≠ v) : c ≠ d := by
  cases h' with
  | slot hy _ hk => exact h.ne_slotPlace ha hne (ha.splitAt?_isSome.1 (hy ▸ rfl)) hk
  | @register y r hy hry =>
    cases h with
    | slot => exact nofun
    | @register x r' hx hrx =>
      rintro heq
      obtain rfl : r' = r := by injection heq with heq; injection heq
      obtain ⟨hxm, hxp⟩ := ha.splitAt?_eq_some.1 hx
      obtain ⟨hym, hyp⟩ := ha.splitAt?_eq_some.1 hy
      obtain ⟨d, hd, rfl, hxd⟩ := exists_entry hxm
      obtain ⟨e, he, rfl, hye⟩ := exists_entry hym
      exact register_apart ha.wellFormed ha.valid ha.made hd he hne hxd hye hrx hry p hxp hyp

/-- A register in which a value is kept may be given to values, and the code does not need it there. -/
theorem allowed (h : a.Keeps v p (.reg (.phys r))) (ha : a.Serves f t) :
    r ∈ t.allocatable ∧ ¬(f.pinned t r).covers p := by
  generalize hc : Content.reg (.phys r) = c at h
  cases h with
  | slot => cases hc
  | register hx hr =>
    cases hc
    obtain ⟨hxm, hxp⟩ := ha.splitAt?_eq_some.1 hx
    obtain ⟨e, he, rfl, hxe⟩ := exists_entry hxm
    obtain ⟨hmem, hpin⟩ := register_allowed ha.wellFormed ha.valid ha.made he hxe hr
    exact ⟨hmem, fun hcov => hpin _ (Function.lookupBy_pinned hmem) p hcov hxp⟩

/-- What keeps a register is a register that holds no part of the frame, or a slot of the frame. -/
theorem place (h : a.Keeps v p c) (ha : a.Serves f t) : Place t.frameBase t.stackPointer a.cells c := by
  cases h with
  | register hx hr =>
    obtain ⟨hbase, htop⟩ := ha.valid.allocatable _ ((Keeps.register hx hr).allowed ha).1
    exact .reg _ hbase htop
  | slot _ _ hk => exact ha.slotPlace_place hk

end Keeps

end Allocation

end RegAlloc
