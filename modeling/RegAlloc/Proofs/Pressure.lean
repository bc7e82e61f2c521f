import RegAlloc.Proofs.Allocation
import RegAlloc.Proofs.Refusal

/-!
# Lifetimes that need no stack slots

If no interval has a hole, and nowhere more intervals are live than there are registers (`Lifetimes.Fits`), then every
interval gets a register for the whole of its lifetime, whatever it is linked to, and nothing is kept in the frame
(`Allocation.ofLifetimes_of_fits`).

What carries the argument is an invariant of the scan (`Scan.Smooth`): the pieces are the intervals, and those that
were visited have a register. When the next piece is visited, the active pieces cover its start as it does itself, so
there are fewer of them than registers and one register has no owner. It stays free for ever, and a link only leads to
another register that does.
-/

namespace RegAlloc

/-! ## Ranges that have nothing in common -/

namespace LiveRange

variable {r s : LiveRange} {p : Position}

/-- Two lists of segments meet only where both cover. This asks nothing of the segments. -/
theorem covers_of_meet {ss ts : List Segment} (h : Segment.meet ss ts = some p) : covers ⟨ss⟩ p ∧ covers ⟨ts⟩ p := by
  induction ss generalizing ts with
  | nil => cases h
  | cons s ss ih =>
    rw [Segment.meet] at h
    induction ts with
    | nil => cases h
    | cons t ts ih' =>
      rw [Segment.meetOne] at h
      rw [covers_cons, covers_cons]
      cases hcommon : s.overlap? t with
      | some c =>
        rw [hcommon] at h
        obtain rfl := Option.some.inj h
        obtain ⟨hs, hs', ht, ht', -⟩ := overlap?_eq_some hcommon
        exact ⟨.inl ⟨hs, hs'⟩, .inl ⟨ht, ht'⟩⟩
      | none =>
        rw [hcommon] at h
        dsimp only at h
        split_ifs at h
        · obtain ⟨hss, hts⟩ := ih h
          exact ⟨.inr hss, covers_cons.1 hts⟩
        · obtain ⟨hss, hts⟩ := ih' h
          exact ⟨covers_cons.1 hss, .inr hts⟩

theorem firstMeeting_eq_none (h : r.Disjoint s) : r.firstMeeting s = none := by
  rw [firstMeeting]
  split
  · rename_i q q' _ _
    cases hmeet : Segment.meet (r.segments.dropWhile (fun t => t.stop < q.later q'))
        (s.segments.dropWhile (fun t => t.stop < q.later q')) with
    | none => rfl
    | some p =>
      obtain ⟨hr, hs⟩ := covers_of_meet hmeet
      have hmono : ∀ (l : List Segment) (g : Segment → Bool), covers ⟨l.dropWhile g⟩ p → covers ⟨l⟩ p := by
        intro l g hcov
        obtain ⟨x, hx, hp⟩ := covers_iff.1 hcov
        exact covers_iff.2 ⟨x, (List.dropWhile_suffix g).subset hx, hp⟩
      exact absurd (hmono _ _ hs) (h p (hmono _ _ hr))
  · rfl

end LiveRange

namespace Interval

variable {i : Interval} {p : Position}

/-- The interval has no hole: it is one segment. -/
def Unbroken (i : Interval) : Prop := ∃ s, i.range.segments = [s] ∧ s.first ≤ s.last

/-- An interval without a hole covers all from its start to its end. -/
theorem Unbroken.covers_iff (h : i.Unbroken) : i.covers p = true ↔ i.start ≤ p ∧ p ≤ i.stop := by
  obtain ⟨s, hs, -⟩ := h
  rw [covers, LiveRange.covers_iff, start, stop, LiveRange.start?, LiveRange.stop?, hs]
  simp

theorem Unbroken.start_le_stop (h : i.Unbroken) : i.start ≤ i.stop := by
  obtain ⟨s, hs, hle⟩ := h
  rw [start, stop, LiveRange.start?, LiveRange.stop?, hs]
  exact Segment.start_le_stop hle

theorem Unbroken.size_pos (h : i.Unbroken) : 0 < i.range.size := by
  obtain ⟨s, hs, hle⟩ := h
  rw [LiveRange.size, hs]
  simp only [List.foldr_cons, List.foldr_nil, Segment.size]
  omega

theorem Unbroken.isEmpty_eq_false (h : i.Unbroken) : i.range.isEmpty = false := by
  obtain ⟨s, hs, -⟩ := h
  rw [LiveRange.isEmpty, hs]
  rfl

end Interval

/-- Intervals that can all be held in registers: each is one segment that is accessed, the code needs no allocatable
register where an interval is live, and nowhere more intervals are live than there are registers. -/
structure Lifetimes.Fits (lt : Lifetimes) (t : Target) : Prop where
  registers : Ascending Interval.register lt.intervals
  unbroken : ∀ i ∈ lt.intervals, i.Unbroken
  accessed : ∀ i ∈ lt.intervals, i.sites ≠ []
  unpinned : ∀ e ∈ lt.pinned, e.1 ∈ t.allocatable → ∀ i ∈ lt.intervals, e.2.Disjoint i.range
  pressure : ∀ p, lt.intervals.countP (fun i => i.covers p) ≤ t.allocatable.length

/-- If everything fits, all intervals are scanned. -/
theorem Lifetimes.Fits.live_eq {lt : Lifetimes} {t : Target} (h : lt.Fits t) : lt.live = lt.intervals := by
  refine List.filter_eq_self.2 fun i hi => ?_
  rw [(h.unbroken i hi).isEmpty_eq_false]
  rfl

namespace Scan

variable {lt : Lifetimes} {t : Target} {s : Scan} {n visited : Nat} {p : Position} {i : Interval}

/-! ## A register without an owner -/

/-- The intervals of a state are those of its pieces. -/
theorem intervals_eq_range : s.intervals = (List.range s.pieces.length).map s.interval := by
  refine List.ext_getElem (by simp [intervals]) fun k hk hk' => ?_
  have hlt : k < s.pieces.length := by simpa [intervals] using hk
  simp [intervals, interval, List.getElem?_eq_getElem hlt]

/-- Pieces that cover a position, each named once, are no more than the intervals that cover it. -/
theorem length_le_countP {l : List Nat} (hl : l.Nodup) (hcov : ∀ n ∈ l, n < s.pieces.length ∧ (s.interval n).covers p) :
    l.length ≤ s.intervals.countP (fun i => i.covers p) := by
  rw [intervals_eq_range, List.countP_map, ← List.countP_eq_length.2 fun n hn => (hcov n hn).2]
  exact (List.subperm_of_subset hl fun n hn => List.mem_range.2 (hcov n hn).1).countP_le _

/-- If fewer pieces are active than there are registers, one of the registers has no active owner. -/
theorem exists_unowned (ht : t.allocatable.Nodup) (h : s.active.length < t.allocatable.length) :
    ∃ r ∈ t.allocatable, ∀ n ∈ s.active, s.register? n ≠ some r := by
  by_contra! hall
  have hsub : t.allocatable ⊆ s.active.filterMap s.register? := fun r hr => List.mem_filterMap.2 (hall r hr)
  have hle : t.allocatable.length ≤ (s.active.filterMap s.register?).length :=
    (List.subperm_of_subset ht hsub).length_le
  have hle' := List.length_filterMap_le s.register? s.active
  omega

/-- If no piece is inactive and the code leaves the interval alone, a register is free for ever, or not at all because
an active piece has it. -/
theorem freeUntil_cases (hinactive : s.inactive = [])
    (hpinned : ∀ e ∈ lt.pinned, e.1 ∈ t.allocatable → e.2.Disjoint i.range) {r : PhysReg} {h : Horizon}
    (hr : r ∈ t.allocatable) (hget : (freeUntil lt t s i).get? r = some h) :
    h = .never ∨ h = .pos i.start ∧ ∃ n ∈ s.active, s.register? n = some r := by
  let S : PhysReg → Position → Prop := fun r p =>
    r ∈ t.allocatable → p = i.start ∧ ∃ n ∈ s.active, s.register? n = some r
  have hpin : Conflicts.Sourced S (pinnedConflicts lt t i) := by
    rw [pinnedConflicts_eq]
    refine (Conflicts.sourced_none _).foldl fun c e he hc => ?_
    rw [addPinned]
    split
    · rename_i p hp
      refine hc.add fun hallocatable => ?_
      rw [LiveRange.firstMeeting_eq_none (hpinned e he hallocatable)] at hp
      cases hp
    · exact hc
  have hfree : Conflicts.Sourced S (freeUntil lt t s i) := by
    rw [freeUntil, hinactive, List.foldl_nil]
    refine hpin.foldl fun c n hn hc => ?_
    rw [addActive]
    split
    · rename_i r hr
      exact hc.add fun _ => ⟨rfl, n, hn, hr⟩
    · exact hc
  rcases hfree r h hget with hnever | ⟨p, rfl, hp⟩
  · exact .inl hnever
  · obtain ⟨rfl, howner⟩ := hp hr
    exact .inr ⟨rfl, howner⟩

/-- If a register has no owner, the interval gets a register for all of its range. -/
theorem verdict_eq_take (ht : t.allocatable.Nodup) (hi : i.start ≤ i.stop) (hinactive : s.inactive = [])
    (hpinned : ∀ e ∈ lt.pinned, e.1 ∈ t.allocatable → e.2.Disjoint i.range)
    (hunowned : ∃ r ∈ t.allocatable, ∀ n ∈ s.active, s.register? n ≠ some r) :
    ∃ r ∈ t.allocatable, verdict lt t s i = .take r := by
  obtain ⟨r₀, hr₀, hnone⟩ := hunowned
  have hregisters : (freeUntil lt t s i).registers = t.allocatable := registers_freeUntil
  have hnodup : (freeUntil lt t s i).registers.Nodup := hregisters ▸ ht
  have hnever : (r₀, .never) ∈ (freeUntil lt t s i).entries := by
    obtain ⟨h, hget⟩ :=
      Option.isSome_iff_exists.1 (lookupBy_isSome.2 (hregisters ▸ hr₀ : r₀ ∈ (freeUntil lt t s i).registers))
    rcases freeUntil_cases hinactive hpinned hr₀ hget with rfl | ⟨_, n, hn, hr⟩
    · exact mem_of_lookupBy hget
    · exact absurd hr (hnone n hn)
  cases hc : s.choose i (freeUntil lt t s i) with
  | none =>
    have hnil := registers_of_choose_eq_none hc
    rw [hregisters] at hnil
    rw [hnil] at hr₀
    exact absurd hr₀ List.not_mem_nil
  | some e =>
    obtain ⟨r, h⟩ := e
    have hafter : ¬h ≤ .pos i.start := fun hle => absurd (le_of_choose hc hi hle hnever) (not_le.2 Horizon.pos_lt_never)
    have hr : r ∈ t.allocatable := hregisters ▸ mem_of_choose hnodup hc
    rcases freeUntil_cases hinactive hpinned hr (get?_of_choose hnodup hc) with rfl | ⟨rfl, _⟩
    · refine ⟨r, hr, ?_⟩
      rw [verdict, freeVerdict?, hc]
      simp [hafter]
    · exact absurd le_rfl hafter

/-! ## The scan when everything fits -/

/-- The pieces are the intervals, those decided on have a register, and no stack slot was given out. Active pieces
have started. -/
structure Smooth (lt : Lifetimes) (t : Target) (visited : Nat) (s : Scan) : Prop where
  ledger : Ledger visited none s
  intervals : s.intervals = lt.intervals
  assigned : ∀ n, (s.piece n).listed = true → ∃ r ∈ t.allocatable, s.register? n = some r
  nodup : s.active.Nodup
  started : ∀ n ∈ s.active, (s.piece n).listed = true ∧ ∀ x ∈ s.queue, (s.interval n).start ≤ x.start
  inactive : s.inactive = []
  slots : s.slots = .empty

/-- The pieces are still the intervals they were. -/
theorem Smooth.interval_mem (h : Smooth lt t visited s) (hn : n < s.pieces.length) : s.interval n ∈ lt.intervals :=
  h.intervals ▸ Scan.interval_mem hn

/-- At the beginning nothing was cut and nothing spilled. -/
theorem smooth_initial (hfits : lt.Fits t) : Smooth lt t 0 (initial lt) where
  ledger := ledger_initial
  intervals := intervals_initial.trans hfits.live_eq
  assigned n hlisted := by
    have hn := lt_length_of_listed hlisted
    rw [show (initial lt).pieces.length = lt.live.length from List.length_map _] at hn
    rw [piece_initial hn] at hlisted
    cases hlisted
  nodup := List.nodup_nil
  started n hn := absurd hn List.not_mem_nil
  inactive := rfl
  slots := rfl

/-- When the scan moves on to the next piece, the active pieces that stay cover its start, and so leave a register
without an owner. No piece becomes inactive. -/
theorem Smooth.advance (hfits : lt.Fits t) (h : Smooth lt t visited s) {x : Ticket} {rest : List Ticket}
    (hq : s.queue = x :: rest) :
    ∃ active, Scan.advance { s with queue := rest } x.start = { s with queue := rest, active := active } ∧
      active.Sublist s.active ∧ active.length < t.allocatable.length := by
  have hx : x ∈ s.queue := hq ▸ List.mem_cons_self
  obtain ⟨hxlt, hxeq⟩ := h.ledger.ticket x hx
  have hlt : ∀ n ∈ s.active, n < s.pieces.length := fun n hn => lt_length_of_listed (h.started n hn).1
  refine ⟨s.active.filter (s.coversAt x.start), ?_, List.filter_sublist, ?_⟩
  · have hsleeps : s.active.filter (s.sleepsAt x.start) = [] := by
      refine List.filter_eq_nil_iff.2 fun n hn hsleeps => ?_
      obtain ⟨hends, hcov⟩ := Bool.and_eq_true_iff.1 hsleeps
      have hstop : x.start ≤ (s.interval n).stop := by simpa [Interval.endsBefore] using hends
      -- A piece without holes that has started and is not over covers the position.
      have hcovers := (hfits.unbroken _ (h.interval_mem (hlt n hn))).covers_iff.2 ⟨(h.started n hn).2 x hx, hstop⟩
      rw [hcovers] at hcov
      cases hcov
    have hadvance : Scan.advance { s with queue := rest } x.start =
        { s with queue := rest, active := (s.active ++ s.inactive).filter (s.coversAt x.start),
                 inactive := (s.inactive ++ s.active).filter (s.sleepsAt x.start), slots :=
                   s.slots.release x.start } := rfl
    rw [hadvance, h.inactive, h.slots, List.append_nil, List.nil_append, hsleeps]
    rfl
  · have hnodup : (x.piece :: s.active.filter (s.coversAt x.start)).Nodup := by
      refine List.nodup_cons.2 ⟨fun hmem => ?_, h.nodup.filter _⟩
      exact h.ledger.not_queued (.inl (h.started _ (List.mem_filter.1 hmem).1).1) (List.mem_map_of_mem hx)
    have hall : ∀ n ∈ x.piece :: s.active.filter (s.coversAt x.start),
        n < s.pieces.length ∧ (s.interval n).covers x.start := by
      refine List.forall_mem_cons.2 ⟨⟨hxlt, ?_⟩, fun n hn => ?_⟩
      · have hunbroken := hfits.unbroken _ (h.interval_mem hxlt)
        rw [show x.start = (s.interval x.piece).start from congrArg Ticket.start hxeq]
        exact hunbroken.covers_iff.2 ⟨le_rfl, hunbroken.start_le_stop⟩
      · obtain ⟨hn, hcov⟩ := List.mem_filter.1 hn
        exact ⟨hlt n hn, (Bool.and_eq_true_iff.1 hcov).2⟩
    have hcount := length_le_countP hnodup hall
    rw [h.intervals] at hcount
    exact Nat.le_trans hcount (hfits.pressure x.start)

/-- The piece that is visited gets a register. -/
theorem Smooth.given (h : Smooth lt t visited s) {x : Ticket} {rest : List Ticket} (hq : s.queue = x :: rest)
    {active : List Nat} (hsub : active.Sublist s.active) {r : PhysReg} (hr : r ∈ t.allocatable) :
    Smooth lt t (visited + 1) (Scan.given { s with queue := rest, active := active } x.piece r) := by
  have hx : x ∈ s.queue := hq ▸ List.mem_cons_self
  have hrest : ∀ y ∈ rest, y ∈ s.queue := fun y hy => hq ▸ List.mem_cons_of_mem x hy
  have hfirst := (List.pairwise_cons.1 (hq ▸ h.ledger.sorted)).1
  obtain ⟨hlt, hxeq⟩ := h.ledger.ticket x hx
  have hpiece : ∀ n, (Scan.given { s with queue := rest, active := active } x.piece r).piece n =
      if n = x.piece then ⟨(s.piece n).interval, some r, true⟩ else s.piece n := fun _ => piece_given hlt
  have hinterval : ∀ n, (Scan.given { s with queue := rest, active := active } x.piece r).interval n = s.interval n :=
    fun _ => interval_given hlt
  -- The pieces that stay active were decided on before, and the one visited was not.
  have hne : ∀ n ∈ active, n ≠ x.piece := by
    rintro n hn rfl
    exact h.ledger.not_queued (.inl (h.started _ (hsub.subset hn)).1) (List.mem_map_of_mem hx)
  constructor
  case ledger =>
    have hvisited : Ledger (visited + 1) none
        (Scan.modify { s with queue := rest } x.piece (fun x => { x with register := some r, listed := true })) :=
      (h.ledger.pop hq).modify (.inr rfl) (fun _ => rfl) rfl (by simp [eq_comm])
    exact hvisited.congr rfl rfl
  case intervals =>
    have hmodify :
        (s.modify x.piece (fun x => { x with register := some r, listed := true })).intervals = s.intervals :=
      intervals_modify fun _ => rfl
    exact hmodify.trans h.intervals
  case assigned =>
    intro n hn
    rw [register?_eq]
    rw [hpiece] at hn ⊢
    split_ifs at hn ⊢
    · exact ⟨r, hr, rfl⟩
    · exact register?_eq (s := s) ▸ h.assigned n hn
  case nodup =>
    refine List.nodup_append.2 ⟨(h.nodup.sublist hsub).filter _, List.nodup_singleton _, ?_⟩
    rintro n hn m hm rfl
    exact hne n (List.mem_filter.1 hn).1 (List.mem_singleton.1 hm)
  case started =>
    intro n hn
    rw [hpiece, hinterval]
    rcases List.mem_append.1 hn with hn | hn
    · have hn := (List.mem_filter.1 hn).1
      obtain ⟨hlisted, hstart⟩ := h.started n (hsub.subset hn)
      rw [if_neg (hne n hn)]
      exact ⟨hlisted, fun y hy => hstart y (hrest y hy)⟩
    · obtain rfl := List.mem_singleton.1 hn
      rw [if_pos rfl]
      refine ⟨rfl, fun y hy => ?_⟩
      rw [show (s.interval x.piece).start = x.start from (congrArg Ticket.start hxeq).symm]
      exact Ticket.start_le_of_lt (hfirst y hy)
  case inactive => exact h.inactive
  case slots => exact h.slots

/-- A visit gives the piece a register, and leaves everything else as it was. -/
theorem Smooth.step (hfits : lt.Fits t) (ht : t.allocatable.Nodup) (h : Smooth lt t visited s) {x : Ticket}
    {rest : List Ticket} (hq : s.queue = x :: rest) :
    ∃ s', s.step lt t = .ok s' ∧ Smooth lt t (visited + 1) s' ∧ s'.queue = rest := by
  have hx : x ∈ s.queue := hq ▸ List.mem_cons_self
  obtain ⟨hlt, hxeq⟩ := h.ledger.ticket x hx
  have hi := h.interval_mem hlt
  obtain ⟨active, hadvance, hsub, hfew⟩ := h.advance hfits hq
  obtain ⟨r, hr, hverdict⟩ :
      ∃ r ∈ t.allocatable, verdict lt t { s with queue := rest, active := active } (s.interval x.piece) = .take r :=
    verdict_eq_take ht (hfits.unbroken _ hi).start_le_stop h.inactive
      (fun e he hallocatable => hfits.unpinned e he hallocatable _ hi) (exists_unowned ht hfew)
  have hbare : Scan.register? { s with queue := rest, active := active } x.piece = none :=
    (register?_eq (s := s)).trans
      (h.ledger.bare x.piece ((h.ledger.waiting x.piece hlt).2 (.inl (List.mem_map_of_mem hx))))
  refine ⟨Scan.given { s with queue := rest, active := active } x.piece r, ?_, h.given hq hsub hr, rfl⟩
  have hvisit : s.step lt t = visit lt t { s with queue := rest } x.piece := by rw [Scan.step, hq]
  have hstart : (Scan.interval { s with queue := rest } x.piece).start = x.start := (congrArg Ticket.start hxeq).symm
  rw [hvisit, visit, hstart, hadvance]
  have hcarry : Scan.assign { s with queue := rest, active := active } x.piece r =
      .ok (Scan.given { s with queue := rest, active := active } x.piece r) := by
    rw [assign, hbare]
    rfl
  rw [← hcarry]
  exact congrArg (carryOut lt { s with queue := rest, active := active } x.piece) hverdict

/-- Every piece gets a register in turn. -/
theorem Smooth.run (hfits : lt.Fits t) (ht : t.allocatable.Nodup) {steps : Nat} (h : Smooth lt t visited s)
    (hsteps : s.queue.length ≤ steps) :
    ∃ s', s.run lt t steps = .ok s' ∧ (∃ visited, Smooth lt t visited s') ∧ s'.queue = [] := by
  induction steps generalizing s visited with
  | zero => exact ⟨s, rfl, ⟨visited, h⟩, List.length_eq_zero_iff.1 (Nat.le_zero.1 hsteps)⟩
  | succ steps ih =>
    cases hq : s.queue with
    | nil => exact ⟨s, by rw [Scan.run, hq]; rfl, ⟨visited, h⟩, hq⟩
    | cons x rest =>
      obtain ⟨s₁, hs₁, hsmooth, hrest⟩ := h.step hfits ht hq
      rw [hq] at hsteps
      obtain ⟨s', hs', hfinal⟩ := ih hsmooth (hrest ▸ Nat.le_of_succ_le_succ hsteps)
      refine ⟨s', ?_, hfinal⟩
      rw [Scan.run, hq, hs₁]
      exact hs'

/-- If everything fits, the scan completes without cutting or spilling. -/
theorem complete_of_fits (hfits : lt.Fits t) (ht : t.allocatable.Nodup) :
    ∃ s, complete lt t = .ok s ∧ (∃ visited, Smooth lt t visited s) ∧ s.queue = [] := by
  refine (smooth_initial hfits).run hfits ht ?_
  calc (initial lt).queue.length = lt.intervals.length := by
        rw [initial_queue_perm.length_eq, List.length_map, List.length_zipIdx, hfits.live_eq]
    _ ≤ budget lt := length_le_totalSize fun i hi => (hfits.unbroken i hi).size_pos

/-- When the queue is empty, every register has one split, which is its interval. -/
theorem Smooth.splits_eq (hfits : lt.Fits t) (h : Smooth lt t visited s) (hq : s.queue = []) (hi : i ∈ lt.intervals) :
    ∃ n, ∃ r ∈ t.allocatable, s.splits i.register = [⟨n, i, some r⟩] := by
  obtain ⟨n, hn, rfl⟩ : ∃ n < s.pieces.length, s.interval n = i := by
    rw [← h.intervals, intervals_eq_range] at hi
    simpa using hi
  have hlisted : (s.piece n).listed = true := by
    by_contra hnot
    have hwaiting := (h.ledger.waiting n hn).1 (by simpa using hnot)
    simp [hq] at hwaiting
  obtain ⟨r, hr, hreg⟩ := h.assigned n hlisted
  refine ⟨n, r, hr,
    List.perm_singleton.1 ((List.perm_ext_iff_of_nodup splits_ids_nodup.of_map (List.nodup_singleton _)).2 ?_)⟩
  intro x
  rw [List.mem_singleton]
  constructor
  · intro hx
    obtain ⟨hint, hregister, hv⟩ := mem_splits hx
    have hid : x.id = n := by
      have hnodup := hfits.registers.nodup_keys
      rw [← h.intervals, intervals_eq_range, List.map_map] at hnodup
      refine List.inj_on_of_nodup_map hnodup (List.mem_range.2 (lt_length_of_mem_splits hx)) (List.mem_range.2 hn) ?_
      show (s.interval x.id).register = (s.interval n).register
      rw [← hint, hv]
    obtain ⟨id, interval, register⟩ := x
    dsimp only at hint hregister hid
    rw [hid] at hint hregister
    rw [hid, hint, hregister, hreg]
  · rintro rfl
    exact hreg ▸ mem_splits_of_listed hlisted

end Scan

namespace Allocation

variable {lt : Lifetimes} {t : Target}

/-- Without slots there are no transfers. -/
theorem ofSplits_nil (t : Target) (splits : List (VirtReg × List Split)) :
    ofSplits t splits [] = .ok ⟨t, splits, [], []⟩ := by
  have hmap : ∀ g : VirtReg × List Split → Except Error (List (Position × Transfer)), (∀ e, g e = .ok []) →
      splits.mapM g = .ok (splits.map fun _ => []) := by
    intro g hg
    induction splits with
    | nil => rfl
    | cons e splits ih =>
      rw [List.mapM_cons, ih, hg]
      rfl
  rw [ofSplits, hmap]
  · show Except.ok _ = Except.ok _
    rw [show (splits.map fun _ => ([] : List (Position × Transfer))).flatten = [] by simp]
    rfl
  · exact fun _ => rfl

/-- If all intervals fit into the registers, every interval is given one for the whole of its lifetime, whatever it is
linked to, and there are no stack slots and no transfers. -/
theorem ofLifetimes_of_fits (hfits : lt.Fits t) (ht : t.validate = .ok ()) :
    ∃ a, ofLifetimes lt t = .ok a ∧ a.slots = [] ∧ a.transfers = [] ∧
      a.splits.map Prod.fst = lt.intervals.map Interval.register ∧
      ∀ i ∈ lt.intervals, ∃ n, ∃ r ∈ t.allocatable, a.splitsFor i.register = [⟨n, i, some r⟩] := by
  obtain ⟨s, hs, ⟨visited, hsmooth⟩, hq⟩ := Scan.complete_of_fits hfits (Target.valid_of_validate ht).nodup
  have hjoin : ∀ i ∈ lt.intervals, ∃ n, ∃ r ∈ t.allocatable,
      joinIdle none (s.splits i.register) = [⟨n, i, some r⟩] := by
    intro i hi
    obtain ⟨n, r, hr, hsplits⟩ := hsmooth.splits_eq hfits hq hi
    refine ⟨n, r, hr, ?_⟩
    have hsites : i.hasSites = true := by simpa [Interval.hasSites] using hfits.accessed i hi
    rw [hsplits, joinIdle, if_pos hsites]
    rfl
  have hsplits : splitsOf lt s = lt.intervals.map (fun i => (i.register, joinIdle none (s.splits i.register))) := by
    refine List.filter_eq_self.2 fun e he => ?_
    obtain ⟨i, hi, rfl⟩ := List.mem_map.1 he
    obtain ⟨n, r, -, heq⟩ := hjoin i hi
    rw [heq]
    rfl
  refine ⟨⟨t, splitsOf lt s, [], []⟩, ?_, rfl, rfl, ?_, fun i hi => ?_⟩
  · rw [ofLifetimes, hs]
    show ofSplits t (splitsOf lt s) s.slots.slots = _
    rw [hsmooth.slots]
    exact ofSplits_nil t _
  · rw [hsplits, List.map_map]
    rfl
  · obtain ⟨n, r, hr, heq⟩ := hjoin i hi
    refine ⟨n, r, hr, ?_⟩
    have hnodup : ((splitsOf lt s).map Prod.fst).Nodup := by
      rw [hsplits, List.map_map]
      exact hfits.registers.nodup_keys
    have hmem : (i.register, [⟨n, i, some r⟩]) ∈ splitsOf lt s := by
      rw [hsplits, ← heq]
      exact List.mem_map_of_mem hi
    rw [splitsFor, lookupBy_of_mem hnodup hmem]
    rfl

/-- Four values, two of them live at a time, that are linked to each other and to a register that is not there. -/
def handover : Lifetimes :=
  let reg : Nat → VirtReg := fun n => ⟨n, .quad⟩
  ⟨[⟨reg 0, ⟨[⟨0, 2, 7⟩]⟩, [⟨⟨0, 2⟩, true⟩, ⟨⟨0, 7⟩, false⟩], [], [.virt (reg 2), .phys .c]⟩,
    ⟨reg 1, ⟨[⟨0, 4, 9⟩]⟩, [⟨⟨0, 4⟩, true⟩, ⟨⟨0, 9⟩, false⟩], [.virt (reg 0), .phys .a], []⟩,
    ⟨reg 2, ⟨[⟨0, 8, 13⟩]⟩, [⟨⟨0, 8⟩, true⟩, ⟨⟨0, 13⟩, false⟩], [.virt (reg 1)], []⟩,
    ⟨reg 3, ⟨[⟨0, 10, 13⟩]⟩, [⟨⟨0, 10⟩, true⟩], [], [.virt (reg 2)]⟩],
    [(.a, ⟨[⟨0, 14, 14⟩]⟩), (.c, ⟨[⟨0, 6, 12⟩]⟩)]⟩

/-- The example fits into two registers. -/
theorem handover_fits : handover.Fits (.withAllocatable [.a, .b]) where
  registers := by unfold Ascending; decide
  unbroken := by
    simp only [handover, List.mem_cons, List.not_mem_nil, or_false, forall_eq_or_imp, forall_eq]
    exact ⟨⟨_, rfl, by decide⟩, ⟨_, rfl, by decide⟩, ⟨_, rfl, by decide⟩, ⟨_, rfl, by decide⟩⟩
  accessed := by decide
  unpinned := by
    simp only [handover, List.mem_cons, List.not_mem_nil, or_false, forall_eq_or_imp, forall_eq, LiveRange.Disjoint,
      LiveRange.covers, List.any_cons, List.any_nil, Bool.or_false, Segment.contains, Bool.and_eq_true,
        decide_eq_true_eq]
    refine ⟨fun _ => ⟨?_, ?_, ?_, ?_⟩, fun hc => absurd hc (by decide)⟩ <;> omega
  pressure := by
    rintro ⟨b, n⟩
    simp only [handover, Interval.covers, LiveRange.covers, List.countP_cons, List.countP_nil, List.any_cons,
      List.any_nil, Bool.or_false, Segment.contains, Bool.and_eq_true, decide_eq_true_eq]
    show _ ≤ 2
    split_ifs <;> omega

/-- The third value follows the first one into its register, although it is linked to the second, which is still
live. -/
theorem ofLifetimes_of_fits_handover :
    handover.Fits (.withAllocatable [.a, .b]) ∧ (Target.withAllocatable [.a, .b]).validate = .ok () ∧
      ∃ a, ofLifetimes handover (.withAllocatable [.a, .b]) = .ok a ∧ a.slots = [] ∧ a.transfers = [] ∧
        (a.splits.flatMap (·.2)).map (·.register) = [some .a, some .b, some .a, some .b] := by
  have ht : (Target.withAllocatable [.a, .b]).validate = .ok () := rfl
  obtain ⟨a, ha, hslots, htransfers, -⟩ := ofLifetimes_of_fits handover_fits ht
  refine ⟨handover_fits, ht, a, ha, hslots, htransfers, ?_⟩
  have hrun : (ofLifetimes handover (.withAllocatable [.a, .b])).toOption.map
      (fun a => (a.splits.flatMap (·.2)).map (·.register)) = some [some .a, some .b, some .a, some .b] := rfl
  rw [ha] at hrun
  exact Option.some.inj hrun

end Allocation

end RegAlloc
