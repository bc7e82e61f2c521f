import RegAlloc.Proofs.Verdict
import Mathlib.Data.Prod.Lex

/-!
# Invariants of the scan

What the scan keeps true while it works through its queue, and that every primitive change of its state keeps it. The
pieces tile the intervals (`Tiles`). Each piece waits in the queue with a ticket that describes it, or was decided on,
or is the one being visited (`Ledger`). Pieces with the same register cover no common position, nor one where the code
needs the register (`Occupied`), and a piece that has a register is active, inactive or over (`Inv.located`).

The primitive changes are: a piece is cut (`Inv.cut`), a register gets a slot (`Inv.withSlots`), a piece loses its
register (`Inv.dismiss`), is decided on without a register (`Inv.list`) or with one (`Inv.assign`), and the scan moves
on to the next piece (`Inv.pop`). The first three only make pieces smaller and take registers away (`Narrows`).
-/

namespace RegAlloc

/-- The result of a computation that succeeds is that of its second part, run on the result of the first. -/
theorem bind_eq_ok {ε α β : Type} {x : Except ε α} {f : α → Except ε β} {b : β} (h : x >>= f = .ok b) :
    ∃ a, x = .ok a ∧ f a = .ok b := by
  cases x with
  | error e => cases h
  | ok a => exact ⟨a, rfl, h⟩

namespace Ticket

/-- What a ticket is ordered by, one entry after the other. -/
def key (x : Ticket) : Position ×ₗ Horizon ×ₗ Nat ×ₗ Nat :=
  toLex (x.start, toLex (x.firstSite, toLex (x.register, x.piece)))

/-- Tickets with the same entries are the same. -/
theorem key_injective : Function.Injective key := by
  intro x y h
  cases x
  cases y
  simpa [key] using h

/-- The order of tickets is the lexicographic order of their entries. -/
theorem key_lt_key {x y : Ticket} : x.key < y.key ↔ x < y := by
  simp only [key, Prod.Lex.toLex_lt_toLex]
  exact Iff.rfl

instance : IsStrictTotalOrder Ticket (· < ·) := RelEmbedding.isStrictTotalOrder ⟨⟨key, key_injective⟩, key_lt_key⟩

end Ticket

/-- A ticket that comes earlier does not start later. -/
theorem Ticket.start_le_of_lt {a b : Ticket} (h : a < b) : a.start ≤ b.start := by
  rcases h with h | ⟨h, _⟩
  · exact le_of_lt h
  · exact le_of_eq h

@[simp] theorem Ticket.piece_ofInterval (i : Interval) (n : Nat) : (Ticket.ofInterval i n).piece = n := rfl

@[simp] theorem Ticket.start_ofInterval (i : Interval) (n : Nat) : (Ticket.ofInterval i n).start = i.start := rfl

namespace Target

/-- If no register is found to be repeated, there is none, and none was seen before. -/
theorem nodup_of_firstRepeated {seen l : List PhysReg} (h : firstRepeated seen l = none) :
    l.Nodup ∧ ∀ r ∈ l, r ∉ seen := by
  induction l generalizing seen with
  | nil => exact ⟨List.nodup_nil, nofun⟩
  | cons r l ih =>
    rw [firstRepeated] at h
    split_ifs at h with hseen
    obtain ⟨hnodup, hnot⟩ := ih h
    have hr : r ∉ seen := by simpa using hseen
    refine ⟨List.nodup_cons.2 ⟨fun hmem => hnot r hmem List.mem_cons_self, hnodup⟩, fun k hk => ?_⟩
    rcases List.mem_cons.1 hk with rfl | hk
    · exact hr
    · exact fun hmem => hnot k hk (List.mem_cons_of_mem _ hmem)

/-- What is checked of a target. -/
structure Valid (t : Target) : Prop where
  nonempty : t.allocatable ≠ []
  allocatable : ∀ r ∈ t.allocatable, r ≠ t.frameBase ∧ r ≠ t.stackPointer
  callerSaved : ∀ r ∈ t.callerSaved, r ≠ t.frameBase ∧ r ≠ t.stackPointer
  nodup : t.allocatable.Nodup
  slotSize : t.slotSize ≠ 0
  alignment : t.frameAlignment % t.slotSize = 0

/-- A target that is not refused is valid. -/
theorem valid_of_validate {t : Target} (h : t.validate = .ok ()) : t.Valid := by
  have hp : t.problem? = none := by
    rw [validate] at h
    split at h
    · cases h
    · assumption
  have hframe : ∀ l : List PhysReg, l.find? t.holdsFrame = none → ∀ r ∈ l, r ≠ t.frameBase ∧ r ≠ t.stackPointer := by
    intro l hl r hr
    have := List.find?_eq_none.1 hl r hr
    simpa [holdsFrame] using this
  rw [problem?] at hp
  split at hp
  · cases hp
  rename_i hempty
  split at hp
  · cases hp
  rename_i hallocatable
  split at hp
  · cases hp
  rename_i hsaved
  split at hp
  · cases hp
  rename_i hrepeated
  split at hp
  · cases hp
  rename_i hsize
  have hsize := not_or.1 hsize
  exact ⟨by simpa using hempty, hframe _ (Option.eq_none_iff_forall_ne_some.2 hallocatable),
    hframe _ (Option.eq_none_iff_forall_ne_some.2 hsaved),
    (nodup_of_firstRepeated (Option.eq_none_iff_forall_ne_some.2 hrepeated)).1, hsize.1, not_not.1 hsize.2⟩

end Target

namespace Lifetimes

/-- The intervals and the pinned ranges are maps from registers to well-formed intervals and ranges. -/
structure WellFormed (lt : Lifetimes) : Prop where
  registers : Ascending Interval.register lt.intervals
  intervals : ∀ i ∈ lt.intervals, i.WellFormed
  pinned : Ascending Prod.fst lt.pinned
  ranges : ∀ e ∈ lt.pinned, e.2.WellFormed

/-- The intervals that cover something. -/
def live (lt : Lifetimes) : List Interval := lt.intervals.filter (fun i => !i.range.isEmpty)

/-- The intervals that are scanned cover something. -/
theorem WellFormed.live {lt : Lifetimes} (h : lt.WellFormed) : ∀ i ∈ lt.live, i.Live := by
  intro i hi
  obtain ⟨hmem, hne⟩ := List.mem_filter.1 hi
  exact ⟨h.intervals i hmem, by simpa using hne⟩

end Lifetimes

namespace Scan

/-- The intervals of all pieces. -/
def intervals (s : Scan) : List Interval := s.pieces.map Piece.interval

/-- The piece of a number. -/
def piece (s : Scan) (n : Nat) : Piece := (s.pieces[n]?).getD ⟨Interval.new ⟨0, .byte⟩, none, false⟩

variable {lt : Lifetimes} {t : Target} {s s' : Scan} {m n : Nat} {p q : Position} {r : PhysReg}

/-- The interval of a piece is that of the piece in the table. -/
theorem interval_eq : s.interval n = (s.piece n).interval := by
  rw [interval, piece]
  cases s.pieces[n]? <;> rfl

theorem register?_eq : s.register? n = (s.piece n).register := by
  rw [register?, piece]
  cases s.pieces[n]? <;> rfl

/-- A number that no piece has stands for an empty piece. -/
theorem piece_of_length_le (h : s.pieces.length ≤ n) : s.piece n = ⟨Interval.new ⟨0, .byte⟩, none, false⟩ := by
  rw [piece, List.getElem?_eq_none h, Option.getD_none]

/-- Only a piece of the table has a register. -/
theorem lt_length_of_register? (h : s.register? n = some r) : n < s.pieces.length := by
  by_contra hle
  rw [register?_eq, piece_of_length_le (Nat.le_of_not_lt hle)] at h
  cases h

/-- Only a piece of the table is listed. -/
theorem lt_length_of_listed (h : (s.piece n).listed = true) : n < s.pieces.length := by
  by_contra hle
  rw [piece_of_length_le (Nat.le_of_not_lt hle)] at h
  cases h

/-- The interval of a piece is among the intervals of the state. -/
theorem interval_mem (h : n < s.pieces.length) : s.interval n ∈ s.intervals := by
  rw [interval, List.getElem?_eq_getElem h]
  exact List.mem_map_of_mem (List.getElem_mem h)

/-- A change of one piece leaves the others as they are. -/
theorem piece_modify (g : Piece → Piece) (hn : n < s.pieces.length) :
    (s.modify n g).piece m = if m = n then g (s.piece m) else s.piece m := by
  rw [piece, piece, modify, List.getElem?_modify]
  by_cases hm : m = n
  · subst hm
    simp [List.getElem?_eq_getElem hn]
  · have hm' : ¬n = m := fun h => hm h.symm
    simp [hm, hm']

theorem length_modify (g : Piece → Piece) : (s.modify n g).pieces.length = s.pieces.length := List.length_modify _ _ _

/-- A change that leaves the interval of a piece alone leaves all intervals alone. -/
theorem intervals_modify {g : Piece → Piece} (hg : ∀ x, (g x).interval = x.interval) :
    (s.modify n g).intervals = s.intervals := by
  apply List.ext_getElem?
  intro k
  rw [intervals, intervals, List.getElem?_map, List.getElem?_map, modify, List.getElem?_modify]
  cases s.pieces[k]? with
  | none => rfl
  | some x =>
    by_cases hk : n = k
    · simp [hk, hg]
    · simp [hk]

/-- The state after a cut. -/
def divided (s : Scan) (n : Nat) (p : Position) : Scan :=
  { s with
    pieces := s.pieces.modify n (fun x => { x with interval := (s.interval n).before p }) ++
      [⟨(s.interval n).after p, none, false⟩]
    queue := insertBy id (Ticket.ofInterval ((s.interval n).after p) s.pieces.length) s.queue }

/-- A piece is cut after its start and not after its end, and then it is divided. -/
theorem cut_eq_ok (h : s.cut n p = .ok s') :
    (s.interval n).start < p ∧ p ≤ (s.interval n).stop ∧ s' = s.divided n p := by
  obtain ⟨⟨a, b⟩, hab, hs'⟩ := bind_eq_ok h
  obtain ⟨hstart, hstop, rfl, rfl⟩ := Interval.splitBefore_eq_ok.1 hab
  exact ⟨hstart, hstop, (Except.ok.inj hs').symm⟩

theorem length_divided : (s.divided n p).pieces.length = s.pieces.length + 1 := by simp [divided]

/-- The piece keeps what is before the position and its register; the new piece gets the rest, and the others stay. -/
theorem piece_divided (hn : n < s.pieces.length) :
    (s.divided n p).piece m =
      if m = n then ⟨(s.interval n).before p, (s.piece n).register, (s.piece n).listed⟩
      else if m = s.pieces.length then ⟨(s.interval n).after p, none, false⟩ else s.piece m := by
  rw [piece, divided, List.getElem?_append, List.length_modify]
  by_cases hm : m < s.pieces.length
  · have hmod := piece_modify (m := m) (fun x => { x with interval := (s.interval n).before p }) hn
    rw [piece, modify] at hmod
    rw [if_pos hm, hmod, if_neg (Nat.ne_of_lt hm)]
    split_ifs with hmn
    · rw [hmn]
    · rfl
  · rw [if_neg hm, if_neg (show ¬m = n by omega)]
    split_ifs with heq
    · simp [heq]
    · rw [piece_of_length_le (Nat.le_of_not_lt hm), List.getElem?_eq_none (by simp; omega), Option.getD_none]

/-- In the intervals, one is replaced by its two parts. -/
theorem intervals_divided_perm (hn : n < s.pieces.length) :
    ∃ rest, s.intervals.Perm (s.interval n :: rest) ∧
      (s.divided n p).intervals.Perm ((s.interval n).before p :: (s.interval n).after p :: rest) := by
  obtain ⟨l₁, a, l₂, hl, hlen, hmod⟩ :=
    List.exists_of_modify (fun x => { x with interval := (s.interval n).before p }) hn
  have ha : s.interval n = a.interval := by simp [interval, hl, ← hlen]
  refine ⟨(l₁ ++ l₂).map Piece.interval, ?_, ?_⟩
  · rw [intervals, hl, ha]
    exact (List.perm_middle).map Piece.interval
  · rw [intervals, divided, hmod]
    simp only [List.map_append, List.map_cons, List.map_nil]
    refine (List.perm_append_comm).trans (List.Perm.trans ?_ (List.Perm.swap _ _ _))
    exact (List.perm_middle).cons _

/-- The state after a piece has lost its register. -/
def dismiss (s : Scan) (n : Nat) : Scan :=
  { s.modify n (fun x => { x with register := none }) with active := s.active.filter (fun m => m ≠ n) }

/-- A piece that is dismissed has no register any more. -/
theorem piece_dismiss (hn : n < s.pieces.length) :
    (s.dismiss n).piece m = if m = n then ⟨(s.piece m).interval, none, (s.piece m).listed⟩ else s.piece m :=
  piece_modify (fun x => { x with register := none }) hn

/-- The state after a piece has got a register. -/
def given (s : Scan) (n : Nat) (r : PhysReg) : Scan :=
  let t := s.modify n (fun x => { x with register := some r, listed := true })
  { t with active := t.active.filter (fun m => t.register? m ≠ some r) ++ [n] }

/-- A register is assigned to a piece that has none. -/
theorem assign_eq_ok (h : s.assign n r = .ok s') : s.register? n = none ∧ s' = s.given n r := by
  rw [assign] at h
  split at h
  · cases h
  · rename_i hnone
    exact ⟨hnone, (Except.ok.inj h).symm⟩

/-- The piece that is given a register is listed with it, and the others stay. -/
theorem piece_given (hn : n < s.pieces.length) :
    (s.given n r).piece m = if m = n then ⟨(s.piece m).interval, some r, true⟩ else s.piece m :=
  piece_modify (fun x => { x with register := some r, listed := true }) hn

/-- Giving a register changes no interval. -/
theorem interval_given (hn : n < s.pieces.length) : (s.given n r).interval m = s.interval m := by
  rw [interval_eq, interval_eq, piece_given hn]
  split_ifs <;> rfl

/-- Giving a register gives it to one piece. -/
theorem register?_given (hn : n < s.pieces.length) :
    (s.given n r).register? m = if m = n then some r else s.register? m := by
  rw [register?_eq, register?_eq, piece_given hn]
  split_ifs <;> rfl

/-- Every piece waits in the queue with its own ticket, or is visited now, or was decided on; only the last kind has a
register. `visited` counts the pieces that left the queue. -/
structure Ledger (visited : Nat) (now : Option Nat) (s : Scan) : Prop where
  sorted : Ascending id s.queue
  ticket : ∀ x ∈ s.queue, x.piece < s.pieces.length ∧ x = Ticket.ofInterval (s.interval x.piece) x.piece
  current : ∀ n ∈ now, n < s.pieces.length ∧ n ∉ s.queue.map Ticket.piece
  waiting : ∀ n, n < s.pieces.length → ((s.piece n).listed = false ↔ n ∈ s.queue.map Ticket.piece ∨ now = some n)
  bare : ∀ n, (s.piece n).listed = false → (s.piece n).register = none
  count : s.queue.length + visited = s.pieces.length

/-- The piece was decided on, or is being visited. -/
def Settled (now : Option Nat) (s : Scan) (n : Nat) : Prop := (s.piece n).listed = true ∨ now = some n

namespace Ledger

variable {visited : Nat} {now : Option Nat}

/-- The ledger depends on the pieces and the queue only. -/
theorem congr (h : Ledger visited now s) (hp : s'.pieces = s.pieces) (hq : s'.queue = s.queue) :
    Ledger visited now s' := by
  obtain ⟨pieces, queue, active, inactive, slots⟩ := s'
  subst hp hq
  exact ⟨h.sorted, h.ticket, h.current, h.waiting, h.bare, h.count⟩

/-- A settled piece is a piece of the table. -/
theorem lt_length (h : Ledger visited now s) (hn : s.Settled now n) : n < s.pieces.length :=
  hn.elim lt_length_of_listed (fun hn => (h.current n hn).1)

/-- A settled piece does not wait in the queue. -/
theorem not_queued (h : Ledger visited now s) (hn : s.Settled now n) : n ∉ s.queue.map Ticket.piece := by
  rcases hn with hn | hn
  · intro hq
    have := (h.waiting n (lt_length_of_listed hn)).2 (.inl hq)
    rw [hn] at this
    cases this
  · exact (h.current n hn).2

/-- A listed piece is not the one being visited. -/
theorem ne_now (h : Ledger visited now s) (hn : (s.piece n).listed = true) : now ≠ some n := by
  intro heq
  have := (h.waiting n (lt_length_of_listed hn)).2 (.inr heq)
  rw [hn] at this
  cases this

/-- A piece that has a register is listed. -/
theorem listed_of_register? (h : Ledger visited now s) (hr : s.register? n = some r) : (s.piece n).listed = true := by
  by_contra hl
  rw [register?_eq, h.bare n (by simpa using hl)] at hr
  cases hr

/-- The new piece joins the queue. -/
theorem queue_divided_perm (h : Ledger visited now s) :
    (s.divided n p).queue.Perm (Ticket.ofInterval ((s.interval n).after p) s.pieces.length :: s.queue) := by
  refine insertBy_perm fun x hx heq => ?_
  have hlt := (h.ticket x hx).1
  have heq : Ticket.ofInterval ((s.interval n).after p) s.pieces.length = x := heq
  rw [← heq] at hlt
  exact Nat.lt_irrefl _ hlt

/-- Dividing a settled piece keeps the ledger: the new piece waits with its ticket. -/
theorem cut (h : Ledger visited now s) (hn : s.Settled now n) : Ledger visited now (s.divided n p) := by
  have hlt := h.lt_length hn
  have hnq := h.not_queued hn
  have hmem : ∀ m, m ∈ (s.divided n p).queue.map Ticket.piece ↔ m = s.pieces.length ∨ m ∈ s.queue.map Ticket.piece := by
    intro m
    rw [(h.queue_divided_perm.map Ticket.piece).mem_iff, List.map_cons, List.mem_cons]
    rfl
  constructor
  case sorted => exact ascending_insertBy h.sorted
  case ticket =>
    intro x hx
    rw [length_divided, interval_eq, piece_divided hlt]
    rcases List.mem_cons.1 (h.queue_divided_perm.mem_iff.1 hx) with rfl | hx
    · refine ⟨Nat.lt_succ_self _, ?_⟩
      rw [Ticket.piece_ofInterval, if_neg (Nat.ne_of_gt hlt), if_pos rfl]
    · obtain ⟨hxlt, hxeq⟩ := h.ticket x hx
      have hxn : x.piece ≠ n := fun heq => hnq (heq ▸ List.mem_map_of_mem hx)
      refine ⟨Nat.lt_succ_of_lt hxlt, ?_⟩
      rw [if_neg hxn, if_neg (Nat.ne_of_lt hxlt), ← interval_eq]
      exact hxeq
  case current =>
    intro k hk
    obtain ⟨hklt, hkq⟩ := h.current k hk
    rw [length_divided, hmem]
    refine ⟨Nat.lt_succ_of_lt hklt, ?_⟩
    rintro (rfl | hq)
    · exact Nat.lt_irrefl _ hklt
    · exact hkq hq
  case waiting =>
    intro k hk
    rw [length_divided] at hk
    rw [hmem, piece_divided hlt]
    by_cases hkn : k = n
    · subst hkn
      rw [if_pos rfl, h.waiting k hlt]
      have : k ≠ s.pieces.length := Nat.ne_of_lt hlt
      simp [this]
    · rw [if_neg hkn]
      by_cases hkl : k = s.pieces.length
      · simp [hkl]
      · rw [if_neg hkl, h.waiting k (by omega)]
        simp [hkl]
  case bare =>
    intro k hk
    rw [piece_divided hlt] at hk ⊢
    split_ifs at hk ⊢ with h1 h2
    · exact h.bare n hk
    · rfl
    · exact h.bare k hk
  case count =>
    rw [length_divided, h.queue_divided_perm.length_eq, List.length_cons]
    have := h.count
    omega

/-- A change that leaves the interval of a piece alone. If it is the piece being visited, the visit is over. -/
theorem modify {g : Piece → Piece} {now' : Option Nat} (h : Ledger visited now s) (hn : s.Settled now n)
    (hg : ∀ x, (g x).interval = x.interval) (hlisted : (g (s.piece n)).listed = true)
    (hnow : ∀ k, now' = some k ↔ now = some k ∧ k ≠ n) : Ledger visited now' (s.modify n g) := by
  have hlt := h.lt_length hn
  have hint : ∀ k, (s.modify n g).interval k = s.interval k := by
    intro k
    rw [interval_eq, interval_eq, piece_modify g hlt]
    split_ifs
    · exact hg _
    · rfl
  constructor
  case sorted => exact h.sorted
  case ticket =>
    intro x hx
    rw [length_modify, hint]
    exact h.ticket x hx
  case current =>
    intro k hk
    rw [length_modify]
    exact h.current k ((hnow k).1 hk).1
  case waiting =>
    intro k hk
    rw [length_modify] at hk
    rw [piece_modify g hlt]
    have hwait := h.waiting k hk
    have hnq := h.not_queued hn
    by_cases hkn : k = n
    · subst hkn
      rw [if_pos rfl, hlisted, hnow]
      simpa [Scan.modify] using hnq
    · rw [if_neg hkn, hwait, hnow, and_iff_left hkn]
      rfl
  case bare =>
    intro k hk
    rw [piece_modify g hlt] at hk ⊢
    by_cases hkn : k = n
    · rw [hkn, if_pos rfl, hlisted] at hk
      cases hk
    · rw [if_neg hkn] at hk ⊢
      exact h.bare k hk
  case count =>
    rw [length_modify]
    exact h.count

/-- The first piece of the queue is visited next. -/
theorem pop {x : Ticket} {rest : List Ticket} (h : Ledger visited none s) (hq : s.queue = x :: rest) :
    Ledger (visited + 1) (some x.piece) { s with queue := rest } := by
  have hx : x ∈ s.queue := hq ▸ List.mem_cons_self
  have hmono : ∀ y ∈ rest, y ∈ s.queue := fun y hy => hq ▸ List.mem_cons_of_mem x hy
  have hsorted := h.sorted
  rw [hq] at hsorted
  obtain ⟨hfirst, hrest⟩ := List.pairwise_cons.1 hsorted
  have hnot : x.piece ∉ rest.map Ticket.piece := by
    intro hmem
    obtain ⟨y, hy, heq⟩ := List.mem_map.1 hmem
    -- Two tickets of one piece are equal, and no ticket comes before itself.
    have hyx : y = x := by
      rw [(h.ticket y (hmono y hy)).2, (h.ticket x hx).2, heq]
    exact irrefl_of (· < ·) x (hyx ▸ hfirst y hy)
  refine ⟨hrest, fun y hy => h.ticket y (hmono y hy), ?_, fun k hk => ?_, h.bare, ?_⟩
  · intro k hk
    obtain rfl := Option.some.inj hk
    exact ⟨(h.ticket x hx).1, hnot⟩
  · refine (h.waiting k hk).trans ?_
    have hkx : some x.piece = some k ↔ k = x.piece := by
      rw [Option.some.injEq]
      exact eq_comm
    rw [hq, List.map_cons, List.mem_cons, hkx]
    simp only [reduceCtorEq, or_false]
    exact or_comm
  · have hcount := h.count
    rw [hq, List.length_cons] at hcount
    exact (by omega : rest.length + (visited + 1) = s.pieces.length)

end Ledger

/-- Registers are given from the allocatable ones, and no two pieces have one at the same position. -/
structure Occupied (t : Target) (s : Scan) : Prop where
  allocatable : ∀ n r, s.register? n = some r → r ∈ t.allocatable
  exclusive : ∀ m n r, s.register? m = some r → s.register? n = some r → m ≠ n →
    (s.interval m).range.Disjoint (s.interval n).range

/-- No piece, except perhaps one, has a register where the code needs it. -/
def Unpinned (lt : Lifetimes) (except : Option Nat) (s : Scan) : Prop :=
  ∀ n r range, except ≠ some n → s.register? n = some r → (r, range) ∈ lt.pinned → range.Disjoint (s.interval n).range

/-- Pieces get smaller, and lose registers. -/
structure Narrows (s s' : Scan) : Prop where
  length : s.pieces.length ≤ s'.pieces.length
  register : ∀ n r, s'.register? n = some r → s.register? n = some r
  covers : ∀ n q, n < s.pieces.length → (s'.interval n).covers q → (s.interval n).covers q
  stop : ∀ n r, s'.register? n = some r → (s'.interval n).stop ≤ (s.interval n).stop
  listed : ∀ n, n < s.pieces.length → (s'.piece n).listed = (s.piece n).listed
  subset : ∀ n ∈ s'.active, n ∈ s.active
  /-- A piece leaves the active ones only when it loses its register. -/
  active : ∀ n r, s'.register? n = some r → n ∈ s.active → n ∈ s'.active
  inactive : s'.inactive = s.inactive

namespace Narrows

theorem refl (s : Scan) : s.Narrows s :=
  ⟨Nat.le_refl _, fun _ _ h => h, fun _ _ _ h => h, fun _ _ _ => le_rfl, fun _ _ => rfl, fun _ h => h,
    fun _ _ _ h => h, rfl⟩

theorem withSlots (slots : SlotPool) : s.Narrows { s with slots := slots } :=
  ⟨(refl s).length, (refl s).register, (refl s).covers, (refl s).stop, (refl s).listed, (refl s).subset,
    (refl s).active, rfl⟩

/-- Narrowing can be done step by step. -/
theorem trans {s'' : Scan} (h : s.Narrows s') (h' : s'.Narrows s'') : s.Narrows s'' where
  length := Nat.le_trans h.length h'.length
  register n r hr := h.register n r (h'.register n r hr)
  covers n q hn hq := h.covers n q hn (h'.covers n q (Nat.lt_of_lt_of_le hn h.length) hq)
  stop n r hr := le_trans (h'.stop n r hr) (h.stop n r (h'.register n r hr))
  listed n hn := (h'.listed n (Nat.lt_of_lt_of_le hn h.length)).trans (h.listed n hn)
  subset n hn := h.subset n (h'.subset n hn)
  active n r hr hn := h'.active n r hr (h.active n r (h'.register n r hr) hn)
  inactive := h'.inactive.trans h.inactive

/-- Dividing a piece makes it smaller, and the new piece has no register. -/
theorem divided (hn : n < s.pieces.length) (hlive : (s.interval n).Live) (hstart : (s.interval n).start < p) :
    s.Narrows (s.divided n p) := by
  constructor
  case length =>
    rw [length_divided]
    omega
  case register =>
    intro k r hr
    rw [register?_eq, piece_divided hn] at hr
    rw [register?_eq]
    split_ifs at hr with h1
    · rw [h1]
      exact hr
    · exact hr
  case covers =>
    intro k q hk hq
    rw [interval_eq, piece_divided hn] at hq
    split_ifs at hq with h1 h2
    · rw [h1]
      exact (Interval.covers_before.1 hq).1
    · exact absurd h2 (Nat.ne_of_lt hk)
    · rw [interval_eq]
      exact hq
  case stop =>
    intro k r hr
    rw [register?_eq, piece_divided hn] at hr
    rw [interval_eq, piece_divided hn]
    split_ifs at hr ⊢ with h1
    · rw [h1]
      exact hlive.stop_before_le hstart
    · rw [interval_eq]
  case listed =>
    intro k hk
    rw [piece_divided hn]
    split_ifs with h1 h2
    · rw [h1]
    · exact absurd h2 (Nat.ne_of_lt hk)
    · rfl
  case subset => exact fun _ h => h
  case active => exact fun _ _ _ h => h
  case inactive => rfl

/-- Pieces that get smaller and lose registers stay apart. -/
theorem occupied (h : s.Narrows s') (ho : Occupied t s) : Occupied t s' where
  allocatable n r hr := ho.allocatable n r (h.register n r hr)
  exclusive m n r hm hn hne q hqm hqn := ho.exclusive m n r (h.register m r hm) (h.register n r hn) hne q
    (h.covers m q (lt_length_of_register? (h.register m r hm)) hqm)
    (h.covers n q (lt_length_of_register? (h.register n r hn)) hqn)

/-- They also stay out of the positions where the code needs their registers. -/
theorem unpinned {except : Option Nat} (h : s.Narrows s') (hu : Unpinned lt except s) : Unpinned lt except s' :=
  fun n r range hne hr hmem q hqr hqn => hu n r range hne (h.register n r hr) hmem q hqr
    (h.covers n q (lt_length_of_register? (h.register n r hr)) hqn)

end Narrows

/-- What the scan keeps true between its steps, after it has moved on to `cur` and has taken `visited` pieces from the
queue. -/
structure Inv (lt : Lifetimes) (t : Target) (cur : Position) (visited : Nat) (now : Option Nat) (s : Scan) : Prop where
  tiles : Tiles lt.live s.intervals
  ledger : Ledger visited now s
  /-- Nothing that waits starts before the position reached. -/
  ahead : ∀ x ∈ s.queue, cur ≤ x.start
  occupied : Occupied t s
  /-- A piece that has a register is active, inactive or over. -/
  located : ∀ n r, s.register? n = some r → n ∈ s.active ∨ n ∈ s.inactive ∨ (s.interval n).stop < cur

namespace Inv

variable {cur : Position} {visited : Nat} {now : Option Nat}

theorem live (h : Inv lt t cur visited now s) (hn : n < s.pieces.length) : (s.interval n).Live :=
  h.tiles.live _ (interval_mem hn)

/-- The interval of every piece is well formed. -/
theorem wellFormed (h : Inv lt t cur visited now s) (n : Nat) : (s.interval n).WellFormed := by
  rcases Nat.lt_or_ge n s.pieces.length with hn | hn
  · exact (h.live hn).toWellFormed
  · rw [interval_eq, piece_of_length_le hn]
    exact ⟨LiveRange.wellFormed_nil, List.Pairwise.nil⟩

/-- Where the pieces with registers are is still known: their registers were there before, and they do not end
later. -/
theorem located_of_narrows (h : Inv lt t cur visited now s) (hs : s.Narrows s') :
    ∀ n r, s'.register? n = some r → n ∈ s'.active ∨ n ∈ s'.inactive ∨ (s'.interval n).stop < cur := by
  intro n r hr
  rcases h.located n r (hs.register n r hr) with hn | hn | hn
  · exact .inl (hs.active n r hr hn)
  · exact .inr (.inl (hs.inactive ▸ hn))
  · exact .inr (.inr (lt_of_le_of_lt (hs.stop n r hr) hn))

/-- Giving out slots keeps the invariant. -/
theorem withSlots (h : Inv lt t cur visited now s) (slots : SlotPool) :
    Inv lt t cur visited now { s with slots := slots } :=
  ⟨h.tiles, h.ledger.congr rfl rfl, h.ahead, ⟨h.occupied.allocatable, h.occupied.exclusive⟩, h.located⟩

/-- Cutting a piece that does not wait, at or after the position reached. -/
theorem cut (h : Inv lt t cur visited now s) (hn : s.Settled now n) (hp : cur ≤ p) (hs : s.cut n p = .ok s') :
    Inv lt t cur visited now s' ∧ s.Narrows s' ∧ s' = s.divided n p := by
  obtain ⟨hstart, hstop, rfl⟩ := cut_eq_ok hs
  have hlt := h.ledger.lt_length hn
  have hlive := h.live hlt
  have hnarrow : s.Narrows (s.divided n p) := .divided hlt hlive hstart
  refine ⟨⟨?_, h.ledger.cut hn, ?_, hnarrow.occupied h.occupied, h.located_of_narrows hnarrow⟩, hnarrow, rfl⟩
  · obtain ⟨rest, hperm, hperm'⟩ := intervals_divided_perm (p := p) hlt
    exact ((h.tiles.perm hperm.symm).cut hstart hstop).perm hperm'
  · intro x hx
    rcases List.mem_cons.1 (h.ledger.queue_divided_perm.mem_iff.1 hx) with rfl | hx
    · exact le_trans hp (hlive.le_start_after hstop)
    · exact h.ahead x hx

/-- Taking the register from a piece that was decided on. -/
theorem dismiss (h : Inv lt t cur visited now s) (hn : (s.piece n).listed = true) :
    Inv lt t cur visited now (s.dismiss n) ∧ s.Narrows (s.dismiss n) ∧ (s.dismiss n).register? n = none ∧
      ∀ k, (s.dismiss n).interval k = s.interval k := by
  have hlt := lt_length_of_listed hn
  have hint : ∀ k, (s.dismiss n).interval k = s.interval k := by
    intro k
    rw [interval_eq, interval_eq, piece_dismiss hlt]
    split_ifs <;> rfl
  have hreg : ∀ k r, (s.dismiss n).register? k = some r → k ≠ n ∧ s.register? k = some r := by
    intro k r hr
    rw [register?_eq, piece_dismiss hlt] at hr
    split_ifs at hr with hk
    exact ⟨hk, by rw [register?_eq]; exact hr⟩
  have hnarrow : s.Narrows (s.dismiss n) := by
    refine ⟨Nat.le_of_eq (length_modify _).symm, fun k r hr => (hreg k r hr).2, fun k q _ hq => hint k ▸ hq,
      fun k r _ => le_of_eq (by rw [hint k]), fun k _ => ?_, fun k hk =>
        (List.mem_filter.1 hk).1, fun k r hr hk => ?_, rfl⟩
    · rw [piece_dismiss hlt]
      split_ifs <;> rfl
    · exact List.mem_filter.2 ⟨hk, by simpa using (hreg k r hr).1⟩
  have hledger : Ledger visited now (s.modify n (fun x => { x with register := none })) := by
    refine h.ledger.modify (.inl hn) (fun _ => rfl) hn fun k => ⟨fun hk => ⟨hk, ?_⟩, And.left⟩
    rintro rfl
    exact h.ledger.ne_now hn hk
  refine ⟨⟨?_, hledger.congr rfl rfl, h.ahead, hnarrow.occupied h.occupied, h.located_of_narrows hnarrow⟩,
    hnarrow, ?_, hint⟩
  · have hints : (s.dismiss n).intervals = s.intervals := intervals_modify (fun _ => rfl)
    exact hints ▸ h.tiles
  · rw [register?_eq, piece_dismiss hlt, if_pos rfl]

/-- Deciding that the visited piece has no register. -/
theorem list (h : Inv lt t cur visited (some n) s) :
    Inv lt t cur visited none (s.list n) ∧ ∀ k, (s.list n).register? k = s.register? k ∧
      (s.list n).interval k = s.interval k := by
  have hlt := (h.ledger.current n rfl).1
  have hpiece : ∀ k, (s.list n).piece k =
      if k = n then ⟨(s.piece k).interval, (s.piece k).register, true⟩ else s.piece k :=
    fun k => piece_modify _ hlt
  have hint : ∀ k, (s.list n).interval k = s.interval k := by
    intro k
    rw [interval_eq, interval_eq, hpiece]
    split_ifs <;> rfl
  have hreg : ∀ k, (s.list n).register? k = s.register? k := by
    intro k
    rw [register?_eq, register?_eq, hpiece]
    split_ifs <;> rfl
  refine ⟨⟨?_, ?_, h.ahead, ⟨fun k r hr => ?_, fun j k r hj hk hne => ?_⟩, fun k r hr => ?_⟩, fun k => ⟨hreg k, hint k⟩⟩
  · have hints : (s.list n).intervals = s.intervals := intervals_modify (fun _ => rfl)
    exact hints ▸ h.tiles
  · refine h.ledger.modify (.inr rfl) (fun _ => rfl) rfl fun k => ?_
    constructor
    · nofun
    · rintro ⟨hk, hne⟩
      exact absurd (Option.some.inj hk).symm hne
  · exact h.occupied.allocatable k r (hreg k ▸ hr)
  · rw [hint, hint]
    exact h.occupied.exclusive j k r (hreg j ▸ hj) (hreg k ▸ hk) hne
  · rw [hint]
    exact h.located k r (hreg k ▸ hr)

/-- Giving the visited piece a register that no other piece has where it is live. -/
theorem assign (h : Inv lt t cur visited (some n) s) (hr : r ∈ t.allocatable)
    (hfree : ∀ m, s.register? m = some r → (s.interval m).range.Disjoint (s.interval n).range)
    (hover : ∀ m ∈ s.active, s.register? m = some r → (s.interval m).stop < cur) :
    Inv lt t cur visited none (s.given n r) := by
  have hlt := (h.ledger.current n rfl).1
  constructor
  case tiles =>
    have hints : (s.given n r).intervals = s.intervals := intervals_modify (fun _ => rfl)
    exact hints ▸ h.tiles
  case ledger =>
    have hledger : Ledger visited none (s.modify n (fun x => { x with register := some r, listed := true })) := by
      refine h.ledger.modify (.inr rfl) (fun _ => rfl) rfl fun k => ?_
      constructor
      · nofun
      · rintro ⟨hk, hne⟩
        exact absurd (Option.some.inj hk).symm hne
    exact hledger.congr rfl rfl
  case ahead => exact h.ahead
  case occupied =>
    constructor
    · intro k r' hk
      rw [register?_given hlt] at hk
      split_ifs at hk
      · exact Option.some.inj hk ▸ hr
      · exact h.occupied.allocatable k r' hk
    · intro j k r' hj hk hne
      rw [register?_given hlt] at hj hk
      rw [interval_given hlt, interval_given hlt]
      split_ifs at hj hk with hjn hkn hkn
      · exact absurd (hjn.trans hkn.symm) hne
      · rw [hjn]
        exact (hfree k (hj ▸ hk)).symm
      · rw [hkn]
        exact hfree j (hk ▸ hj)
      · exact h.occupied.exclusive j k r' hj hk hne
  case located =>
    intro k r' hk
    rw [interval_given hlt]
    by_cases hkn : k = n
    · exact .inl (List.mem_append_right _ (by simp [hkn]))
    · have hk' := hk
      rw [register?_given hlt, if_neg hkn] at hk
      rcases h.located k r' hk with hloc | hloc | hloc
      · by_cases hrr : r' = r
        · exact .inr (.inr (hover k hloc (hrr ▸ hk)))
        · refine .inl (List.mem_append_left _ (List.mem_filter.2 ⟨hloc, decide_eq_true ?_⟩))
          intro heq
          exact hrr (Option.some.inj (hk'.symm.trans heq))
      · exact .inr (.inl hloc)
      · exact .inr (.inr hloc)

/-- Moving on to the next piece of the queue. -/
theorem pop {x : Ticket} {rest : List Ticket} (h : Inv lt t cur visited none s) (hq : s.queue = x :: rest) :
    Inv lt t x.start (visited + 1) (some x.piece) (Scan.advance { s with queue := rest } x.start) := by
  have hx : x ∈ s.queue := hq ▸ List.mem_cons_self
  have hfirst := (List.pairwise_cons.1 (hq ▸ h.ledger.sorted)).1
  constructor
  case tiles => exact h.tiles
  case ledger => exact (h.ledger.pop hq).congr rfl rfl
  case ahead => exact fun y hy => Ticket.start_le_of_lt (hfirst y hy)
  case occupied => exact ⟨h.occupied.allocatable, h.occupied.exclusive⟩
  case located =>
    intro k r hk
    have hcur : cur ≤ x.start := h.ahead x hx
    rcases lt_or_ge (s.interval k).stop x.start with hstop | hstop
    · exact .inr (.inr hstop)
    · have hloc : k ∈ s.active ∨ k ∈ s.inactive := by
        rcases h.located k r hk with hloc | hloc | hloc
        · exact .inl hloc
        · exact .inr hloc
        · exact absurd (lt_of_lt_of_le hloc hcur) (not_lt.2 hstop)
      have hends : (!(s.interval k).endsBefore x.start) = true := by
        rw [Interval.endsBefore, decide_eq_false (not_lt.2 hstop), Bool.not_false]
      cases hcov : (s.interval k).covers x.start with
      | true => exact .inl (List.mem_filter.2 ⟨List.mem_append.2 hloc, Bool.and_eq_true_iff.2 ⟨hends, hcov⟩⟩)
      | false =>
        have hcov : (!(s.interval k).covers x.start) = true := by rw [hcov, Bool.not_false]
        exact .inr (.inl (List.mem_filter.2 ⟨List.mem_append.2 hloc.symm, Bool.and_eq_true_iff.2 ⟨hends, hcov⟩⟩))

end Inv

end Scan

end RegAlloc
