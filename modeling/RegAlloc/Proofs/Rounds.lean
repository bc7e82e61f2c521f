import RegAlloc.Proofs.ParallelMove

/-!
# Rounds

Moves are carried out in rounds, one pending move in each. `Move.rounds` lists them, and the code of moves is the code
of their rounds, one after the other (`Move.sequence_eq_rounds`). `Sequencer.Orderly` is what holds at the start of
every round whatever the machine: where a pending move comes from, and that registers for other use are in nobody's
way. It rests on what one round leaves pending: after a copy all other moves as they were (`mem_after_copy`), after an
exchange all others, of which the one that read the destination now reads the source (`mem_after_exchange`).
-/

namespace RegAlloc

namespace Sequencer

open Move

variable {moves : List Move} {s : Sequencer} {x y z : Move}

/-- The state after a round. -/
def after (s : Sequencer) (x : Move) : Sequencer := (s.perform x).2.settle s.pending x.dest

/-- The rounds from a state on, at most a given number: the state at the start of each, and the move that it carries
out. -/
def rounds : Nat → Sequencer → List (Sequencer × Move)
  | 0, _ => []
  | steps + 1, s =>
    match next? s.pending with
    | none => []
    | some x => (s, x) :: rounds steps (s.after x)

/-- The first round makes the move that is next, and the others go on from there. -/
theorem rounds_succ (hx : next? s.pending = some x) (n : Nat) : rounds (n + 1) s = (s, x) :: rounds n (s.after x) := by
  rw [rounds, hx]

/-- The instructions of a round. -/
def roundCode (r : Sequencer × Move) : List Instruction := (r.1.perform r.2).1

/-- The code of a run is that of its rounds, one after the other. -/
theorem run_eq_rounds (n : Nat) (s : Sequencer) : run n s = (rounds n s).flatMap roundCode := by
  induction n generalizing s with
  | zero => rfl
  | succ n ih =>
    rw [run, rounds]
    cases next? s.pending with
    | none => rfl
    | some x => exact congrArg (roundCode (s, x) ++ ·) (ih (s.after x))

/-- What holds at the start and is kept by every round holds at the start of every round. -/
theorem rounds_induction {P : Sequencer → Prop} (hstep : ∀ s x, P s → next? s.pending = some x → P (s.after x))
    (n : Nat) (h : P s) :
    ∀ r ∈ rounds n s, P r.1 ∧ next? r.1.pending = some r.2 := by
  induction n generalizing s with
  | zero => exact List.forall_mem_nil _
  | succ n ih =>
    rw [rounds]
    cases hx : next? s.pending with
    | none => exact List.forall_mem_nil _
    | some x => exact List.forall_mem_cons.2 ⟨⟨h, hx⟩, ih (hstep s x h hx)⟩

/-! ## What a round leaves pending -/

/-- After a copy, the moves that are left are the others. -/
theorem mem_after_copy (hnd : (s.pending.map (fun x => x.dest.content)).Nodup)
    (hrest : (s.perform x).2 = { s with pending := s.pending.erase x }) :
    z ∈ (s.after x).pending ↔ z ≠ x ∧ z ∈ s.pending := by
  rw [after, hrest]
  exact mem_erase_pending hnd

/-- A pending move after the places of `x` were exchanged, if nothing else read the source of `x`. -/
theorem redirect_eq (h : y.src.content ≠ x.src.content) :
    redirect x y = if y.src.content = x.dest.content then ⟨x.src.withWidth y.src.width, y.dest⟩ else y := by
  simp [redirect, Operand.sameLocation, h]

/-- After an exchange, the moves that are left are the others, with the sources that were exchanged. -/
theorem mem_after_exchange (hnd : (s.pending.map (fun x => x.dest.content)).Nodup)
    (hdest : ∀ y ∈ s.pending, y.dest.isImmediate = false) (hx : x ∈ s.pending) (himm : x.src.isImmediate = false)
    (hall : ∀ y ∈ s.pending, y.src.isImmediate = false → isBlocked s.pending y = true)
    (hrest : (s.perform x).2 = { s with pending := s.pending.erase x }.exchanged x) :
    z ∈ (s.after x).pending ↔ ∃ y ∈ s.pending, y ≠ x ∧ y.src.content ≠ x.src.content ∧
      z = (if y.src.content = x.dest.content then ⟨x.src.withWidth y.src.width, y.dest⟩ else y) ∧
        z.src.content ≠ z.dest.content := by
  obtain ⟨honly, -⟩ := blocked_sources hnd hdest hall hx himm
  have hmem : z ∈ (s.after x).pending ↔ ∃ y ∈ s.pending.erase x, redirect x y = z ∧ z.src.content ≠ z.dest.content := by
    rw [after, hrest]
    exact mem_exchanged_pending
  rw [hmem]
  constructor
  · rintro ⟨y, hy, rfl, hne⟩
    obtain ⟨hyx, hy⟩ := (mem_erase_pending hnd).1 hy
    have hsrc : y.src.content ≠ x.src.content := fun heq => hyx (honly y hy heq)
    exact ⟨y, hy, hyx, hsrc, redirect_eq hsrc, hne⟩
  · rintro ⟨y, hy, hyx, hsrc, rfl, hne⟩
    exact ⟨y, (mem_erase_pending hnd).2 ⟨hyx, hy⟩, redirect_eq hsrc, hne⟩

/-! ## What holds at the start of every round -/

/-- The state of a sequencer for a list of moves, whatever the machine. -/
structure Orderly (moves : List Move) (s : Sequencer) : Prop where
  distinct : (s.pending.map (fun x => x.dest.content)).Nodup
  proper : ∀ x ∈ s.pending, x.src.content ≠ x.dest.content
  /-- A pending move is a move of the list that changes something, and may read its value somewhere else by now. -/
  origin : ∀ x ∈ s.pending, ∃ o ∈ moves, o.isNoop = false ∧ o.dest = x.dest ∧ o.src.width = x.src.width ∧
    o.src.isImmediate = x.src.isImmediate
  /-- What a pending move reads is read by some move of the list. -/
  sources : ∀ x ∈ s.pending, ∃ o ∈ moves, o.src.content = x.src.content
  /-- The register of a move that is done holds its final value. -/
  frozen : ∀ o ∈ moves, (∀ x ∈ s.pending, x.dest.content ≠ o.dest.content) →
    ∀ p, o.dest.content = .reg (.phys p) → p ∈ s.frozen
  scratch : ∀ p ∈ s.scratch, p ∉ s.frozen ∧ p ∉ readBy s.pending ∧ p.isReserved = false

/-- The moves are orderly at the beginning. -/
theorem orderly_initial (hnd : (moves.map (fun x => x.dest.content)).Nodup) : Orderly moves (.initial moves) where
  distinct := (List.filter_sublist.map _).nodup hnd
  proper := by
    intro x hx heq
    have hnoop := (List.mem_filter.1 hx).2
    rw [isNoop_eq_true_iff.2 heq] at hnoop
    cases hnoop
  origin := by
    intro x hx
    obtain ⟨hx, hnoop⟩ := List.mem_filter.1 hx
    exact ⟨x, hx, by simpa using hnoop, rfl, rfl, rfl⟩
  sources := fun x hx => ⟨x, List.mem_of_mem_filter hx, rfl⟩
  frozen := by
    intro o ho hnot p hp
    exact List.mem_filterMap.2 ⟨o, List.mem_filter.2 ⟨ho, isNoop_of_initial ho hnot⟩, mem_phys?.2 hp⟩
  scratch := List.forall_mem_nil _

namespace Orderly

/-- No destination that is left is an immediate. -/
theorem dest_isImmediate (h : Orderly moves s) (hd : ∀ o ∈ moves, o.dest.isImmediate = false) :
    ∀ x ∈ s.pending, x.dest.isImmediate = false := by
  intro x hx
  obtain ⟨o, ho, -, hdest, -⟩ := h.origin x hx
  exact hdest ▸ hd o ho

theorem round (h : Orderly moves s) (hd : ∀ o ∈ moves, o.dest.isImmediate = false) (hx : next? s.pending = some x) :
    s.Round x :=
  round_of_next? hx (h.dest_isImmediate hd x (next?_some hx).1)

/-- A move that is pending after a round is another move that was pending before. It reads what was read before. -/
theorem before (h : Orderly moves s) (hd : ∀ o ∈ moves, o.dest.isImmediate = false) (hx : next? s.pending = some x)
    (hz : z ∈ (s.after x).pending) : ∃ y ∈ s.pending, y ≠ x ∧ z.dest = y.dest ∧ z.src.width = y.src.width ∧
      z.src.isImmediate = y.src.isImmediate ∧ ∃ v ∈ s.pending, v.src.content = z.src.content := by
  cases h.round hd hx with
  | copy _ _ hrest _ =>
    obtain ⟨hzx, hz⟩ := (mem_after_copy h.distinct hrest).1 hz
    exact ⟨z, hz, hzx, rfl, rfl, rfl, z, hz, rfl⟩
  | exchange himm hall hrest _ =>
    have hx := (next?_some hx).1
    obtain ⟨y, hy, hyx, -, rfl, -⟩ := (mem_after_exchange h.distinct (h.dest_isImmediate hd) hx himm hall hrest).1 hz
    refine ⟨y, hy, hyx, ?_⟩
    split_ifs with heq
    · refine ⟨rfl, rfl, himm.trans ?_, x, hx, rfl⟩
      rw [← h.dest_isImmediate hd x hx, Operand.isImmediate, Operand.isImmediate, heq]
    · exact ⟨rfl, rfl, rfl, y, hy, rfl⟩

/-- No register is read later that was not read before. -/
theorem readBy_after (h : Orderly moves s) (hd : ∀ o ∈ moves, o.dest.isImmediate = false)
    (hx : next? s.pending = some x) :
    ∀ p ∈ readBy (s.after x).pending, p ∈ readBy s.pending := by
  refine readBy_subset fun z hz => ?_
  obtain ⟨y, hy, -, hdest, -, -, hsrc⟩ := h.before hd hx hz
  exact ⟨hsrc, y, hy, by rw [hdest]⟩

/-- The registers of the moves that a round has brought to their end. -/
theorem frozen_after (h : Orderly moves s) (hd : ∀ o ∈ moves, o.dest.isImmediate = false)
    (hx : next? s.pending = some x) {o : Move} (ho : o ∈ moves)
    (hnot : ∀ z ∈ (s.after x).pending, z.dest.content ≠ o.dest.content) {p : PhysReg}
    (hp : o.dest.content = .reg (.phys p)) : p ∈ (s.after x).frozen := by
  by_cases hox : x.dest.content = o.dest.content
  · exact List.mem_append_right _ (Option.mem_toList.2 (mem_phys?.2 (hox.trans hp)))
  refine List.mem_append_left _ ?_
  cases h.round hd hx with
  | copy _ _ hrest _ =>
    rw [hrest]
    refine h.frozen o ho (fun y hy heq => hnot y ?_ heq) p hp
    exact (mem_after_copy h.distinct hrest).2 ⟨fun hyx => hox (hyx ▸ heq), hy⟩
  | exchange himm hall hrest _ =>
    rw [after, hrest] at hnot
    rw [hrest, mem_exchanged_frozen]
    by_cases hpend : ∃ y ∈ s.pending, y.dest.content = o.dest.content
    · -- The move was pending, and the exchange has brought its value into place.
      obtain ⟨y, hy, hyo⟩ := hpend
      have hyx : y ≠ x := fun hyx => hox (hyx ▸ hyo)
      have hy' := (mem_erase_pending h.distinct).2 ⟨hyx, hy⟩
      refine .inr ⟨y, hy', ?_, by rw [redirect_dest, hyo, hp]⟩
      by_contra hne
      exact hnot (redirect x y) (mem_exchanged_pending.2 ⟨y, hy', rfl, hne⟩) (by rw [redirect_dest, hyo])
    · exact .inl (h.frozen o ho (fun y hy heq => hpend ⟨y, hy, heq⟩) p hp)

/-- Scratch registers stay free: they are neither frozen nor read nor reserved. -/
theorem scratch_after (h : Orderly moves s) (hd : ∀ o ∈ moves, o.dest.isImmediate = false)
    (hx : next? s.pending = some x) :
    ∀ p ∈ (s.after x).scratch, p ∉ (s.after x).frozen ∧ p ∉ readBy (s.after x).pending ∧ p.isReserved = false := by
  have hscratch : (s.perform x).2.scratch = s.scratch := by
    cases h.round hd hx with
    | copy _ _ hrest _ => rw [hrest]
    | exchange _ _ hrest _ => rw [hrest, exchanged]
  intro p hp
  simp only [after, settle, List.mem_filter, Bool.and_eq_true, Bool.or_eq_true, Bool.not_eq_true', List.contains_eq_mem,
    decide_eq_true_eq, decide_eq_false_iff_not, hscratch] at hp
  obtain ⟨-, ⟨hp, hfrozen⟩, hreserved⟩ := hp
  refine ⟨hfrozen, ?_, hreserved⟩
  rcases hp with hp | ⟨-, hnot⟩
  · exact fun hr => (h.scratch p hp).2.1 (h.readBy_after hd hx p hr)
  · exact hnot

/-- Every round keeps the state in order. -/
theorem step (h : Orderly moves s) (hd : ∀ o ∈ moves, o.dest.isImmediate = false) (hx : next? s.pending = some x) :
    Orderly moves (s.after x) := by
  refine ⟨?_, fun z hz => ?_, fun z hz => ?_, fun z hz => ?_, fun o ho hnot p hp => h.frozen_after hd hx ho hnot hp,
    h.scratch_after hd hx⟩
  · cases h.round hd hx with
    | copy _ _ hrest _ =>
      rw [after, hrest]
      exact (List.erase_sublist.map _).nodup h.distinct
    | exchange _ _ hrest _ =>
      rw [after, hrest]
      exact ((exchanged_dests _ x).trans (List.erase_sublist.map _)).nodup h.distinct
  · cases h.round hd hx with
    | copy _ _ hrest _ => exact h.proper z ((mem_after_copy h.distinct hrest).1 hz).2
    | exchange himm hall hrest _ =>
      obtain ⟨-, -, -, -, -, hne⟩ :=
        (mem_after_exchange h.distinct (h.dest_isImmediate hd) (next?_some hx).1 himm hall hrest).1 hz
      exact hne
  · obtain ⟨y, hy, -, hdest, hwidth, himm, -⟩ := h.before hd hx hz
    rw [hdest, hwidth, himm]
    exact h.origin y hy
  · obtain ⟨-, -, -, -, -, -, v, hv, hsrc⟩ := h.before hd hx hz
    exact hsrc ▸ h.sources v hv

/-- What no round brings about held at the start if it holds at the start of some round. -/
theorem of_round {P : Sequencer → Prop} (hd : ∀ o ∈ moves, o.dest.isImmediate = false)
    (hback : ∀ s x, Orderly moves s → next? s.pending = some x → P (s.after x) → P s) {n : Nat}
    {round : Sequencer × Move} (h : Orderly moves s) (hround : round ∈ rounds n s) (hP : P round.1) : P s := by
  induction n generalizing s with
  | zero => cases hround
  | succ n ih =>
    cases hx : next? s.pending with
    | none =>
      rw [rounds, hx] at hround
      cases hround
    | some x =>
      rw [rounds_succ hx] at hround
      rcases List.mem_cons.1 hround with rfl | hround
      · exact hP
      · exact hback s x h hx (ih (h.step hd hx) hround)

end Orderly

end Sequencer

namespace Move

/-- The rounds in which moves are carried out. -/
def rounds (moves : List Move) : List (Sequencer × Move) := Sequencer.rounds moves.length (.initial moves)

/-- The code of moves is the code of their rounds. -/
theorem sequence_eq_rounds {moves : List Move} (h : (moves.map (fun x => x.dest.content)).Nodup) :
    sequence moves = .ok ((rounds moves).flatMap Sequencer.roundCode) := by
  rw [sequence_eq_ok h, Sequencer.run_eq_rounds, rounds]

/-- Moves to different places have different destinations. -/
theorem nodup_dests {moves : List Move} (h : moves.Pairwise (fun x y => ¬x.dest.sameLocation y.dest)) :
    (moves.map (fun x => x.dest.content)).Nodup := by
  rw [List.Nodup, List.pairwise_map]
  exact h.imp (fun h => by simpa [Operand.sameLocation] using h)

end Move

end RegAlloc
