import RegAlloc.Proofs.MoveCode
import Mathlib.Data.List.MinMax
import Mathlib.Data.List.Nodup
import Mathlib.Data.List.Perm.Basic

/-!
# Moves that happen at once: the instructions have the effect of all moves at once

`Sequencer.Progress` is what holds between two moves: every pending move still finds, where it reads, the word that
its original read at the start; every other move is done, and its destination is in no pending move's way. Copies keep
it because they are made only to places that nothing pending reads. Exchanges keep it because they are made only when
every pending move is blocked: then the places read and the places written are the same places, each once
(`blocked_perm`), so that an exchange never touches a destination that is done.
-/

namespace RegAlloc

namespace Move

/-! ## The most urgent move -/

/-- The fold of `moreUrgent` is the library's search for the first maximum. -/
theorem next?_eq_argmax (pending : List Move) : next? pending = pending.argmax (fun x => (urgency pending x).rank) := by
  rw [next?, List.argmax]
  congr 1
  funext best x
  cases best with
  | none => rfl
  | some y => simp only [moreUrgent, List.argAux]

/-- The next move is a pending one, and none is more urgent. -/
theorem next?_some {pending : List Move} {x : Move} (h : next? pending = some x) :
    x ∈ pending ∧ ∀ a ∈ pending, (urgency pending a).rank ≤ (urgency pending x).rank := by
  rw [next?_eq_argmax] at h
  exact ⟨List.argmax_mem h, fun a ha => List.le_of_mem_argmax (f := fun y => (urgency pending y).rank) ha h⟩

/-- There is a next move as long as moves are pending. -/
theorem next?_none {pending : List Move} (h : next? pending = none) : pending = [] := by
  rw [next?_eq_argmax] at h
  exact List.argmax_eq_none.1 h

/-! ## Urgency -/

/-- Constants are the least urgent, and blocked moves less than free ones. -/
theorem rank_constant {pending : List Move} {x : Move} (h : x.src.isImmediate = true) :
    (urgency pending x).rank = 0 := by
  simp [urgency, h, Urgency.rank]

/-- A move that is blocked has a low rank, but is not last. -/
theorem rank_blocked {pending : List Move} {x : Move} (h : x.src.isImmediate = false)
    (hb : isBlocked pending x = true) :
    1 ≤ (urgency pending x).rank ∧ (urgency pending x).rank ≤ 3 := by
  simp only [urgency, h, hb]
  cases x.src.isMemory <;> cases x.dest.isMemory <;> simp [Urgency.rank]

/-- A move that is not blocked comes before those that are. -/
theorem rank_free {pending : List Move} {x : Move} (h : x.src.isImmediate = false) (hb : isBlocked pending x = false) :
    4 ≤ (urgency pending x).rank := by
  simp only [urgency, h, hb]
  cases x.src.isMemory <;> cases x.dest.isMemory <;> simp [Urgency.rank]

/-- A move is blocked if a pending one reads its destination. -/
theorem isBlocked_eq_true_iff {pending : List Move} {x : Move} :
    isBlocked pending x = true ↔ ∃ o ∈ pending, o.src.content = x.dest.content := by
  simp [isBlocked, Operand.sameLocation]

/-- A move does nothing if source and destination are the same. -/
theorem isNoop_eq_true_iff {x : Move} : x.isNoop = true ↔ x.src.content = x.dest.content := by
  simp [isNoop, Operand.sameLocation]

theorem isImmediate_eq_true_iff {o : Operand} : o.isImmediate = true ↔ ∃ v, o.content = .imm v := by
  unfold Operand.isImmediate
  cases o.content <;> simp

/-- What a move reads, if it is no constant, is a place. -/
theorem place_of_source {base top : PhysReg} {slots : Set Int} {o : Operand} (h : Source base top slots o.content)
    (himm : o.isImmediate = false) : Place base top slots o.content := by
  rcases h with h | hv
  · exact h
  · rw [isImmediate_eq_true_iff.2 hv] at himm
    cases himm

/-- When every pending move that is no constant is blocked, the places that they read are the places that they write,
each once: there are as many reads as writes, the writes are distinct, and each of them is read. -/
theorem blocked_perm {l : List Move} (hnd : (l.map (fun x => x.dest.content)).Nodup)
    (hb : ∀ x ∈ l, ∃ o ∈ l, o.src.content = x.dest.content) :
    (l.map (fun x => x.dest.content)).Perm (l.map (fun x => x.src.content)) := by
  have hsub : l.map (fun x => x.dest.content) ⊆ l.map (fun x => x.src.content) := by
    intro c hc
    obtain ⟨x, hx, rfl⟩ := List.mem_map.1 hc
    obtain ⟨o, ho, heq⟩ := hb x hx
    exact List.mem_map.2 ⟨o, ho, heq⟩
  exact (List.subperm_of_subset hnd hsub).perm_of_length_le (by simp)

/-- The registers that moves read or write. -/
def touched (moves : List Move) : Set PhysReg :=
  {p | ∃ x ∈ moves, x.src.content = .reg (.phys p) ∨ x.dest.content = .reg (.phys p)}

/-- The memory cells that carrying out moves may change: those they write, and the two below the top of the stack. -/
def written (base top : PhysReg) (m : Machine) (moves : List Move) : Set Word :=
  {a | a ∈ stackCells (m.regs (.phys top)) ∨ ∃ x ∈ moves, a ∈ cellsOf base (m.regs (.phys base)) x.dest.content}

end Move

namespace Sequencer

open Move Machine

/-- The state of a sequencer and the machine `m` that its instructions so far led to, for moves that started on the
machine `m₀`. -/
structure Progress (base top : PhysReg) (slots : Set Int) (moves : List Move) (m₀ : Machine) (s : Sequencer)
    (m : Machine) : Prop where
  sources : ∀ x ∈ s.pending, Source base top slots x.src.content
  dests : ∀ x ∈ s.pending, Place base top slots x.dest.content
  distinct : (s.pending.map (fun x => x.dest.content)).Nodup
  proper : ∀ x ∈ s.pending, x.src.content ≠ x.dest.content
  /-- A pending move writes where one of the moves does, and reads a register only if one of them reads or writes it. -/
  origin : ∀ x ∈ s.pending, (∃ o ∈ moves, o.dest.content = x.dest.content) ∧ regsOf x.src.content ⊆ touched moves
  /-- A pending move finds what its original read at the start. -/
  carried : ∀ o ∈ moves, ∀ x ∈ s.pending, x.dest.content = o.dest.content → m.get x.src.content = m₀.get o.src.content
  /-- A move that is not pending is done, and its register is out of use. -/
  done : ∀ o ∈ moves, (∀ x ∈ s.pending, x.dest.content ≠ o.dest.content) →
    m.get o.dest.content = m₀.get o.src.content ∧ ∀ p, o.dest.content = .reg (.phys p) → p ∈ s.frozen
  scratch : ∀ p ∈ s.scratch, p ∉ s.frozen ∧ p ∉ readBy s.pending ∧ (p ∈ touched moves ∨ p = base)
  agree : AgreeOff (touched moves) (written base top m₀ moves) m₀ m

/-- What is asked of moves: they read places or constants, and write places, each once. -/
structure Admissible (base top : PhysReg) (slots : Set Int) (moves : List Move) : Prop where
  sources : ∀ x ∈ moves, Source base top slots x.src.content
  dests : ∀ x ∈ moves, Place base top slots x.dest.content
  distinct : (moves.map (fun x => x.dest.content)).Nodup

variable {base top : PhysReg} {slots : Set Int} {moves : List Move} {m₀ m m' : Machine} {s : Sequencer}

/-- Two moves of a list with distinct destinations that write the same place are one. -/
theorem eq_of_dest_eq {l : List Move} (hnd : (l.map (fun x => x.dest.content)).Nodup) {x y : Move} (hx : x ∈ l)
    (hy : y ∈ l) (h : x.dest.content = y.dest.content) : x = y :=
  List.inj_on_of_nodup_map hnd hx hy h

/-- An operand names a physical register if it is that register. -/
theorem mem_phys? {o : Operand} {p : PhysReg} : o.phys? = some p ↔ o.content = .reg (.phys p) := by
  unfold Operand.phys? Operand.register?
  cases o.content with
  | imm v => simp
  | reg r => cases r <;> simp [Register.phys?]
  | mem a => simp

/-- The registers that moves touch hold no frame. -/
theorem not_mem_touched (ha : Admissible base top slots moves) : base ∉ touched moves ∧ top ∉ touched moves := by
  have key : ∀ p ∈ touched moves, p ≠ base ∧ p ≠ top := by
    rintro p ⟨x, hx, h⟩
    have hpl : Place base top slots (.reg (.phys p)) := by
      rcases h with h | h
      · rcases ha.sources x hx with hs | ⟨v, hv⟩
        · exact h ▸ hs
        · rw [h] at hv
          cases hv
      · exact h ▸ ha.dests x hx
    generalize hc : Content.reg (.phys p) = c at hpl
    cases hpl with
    | reg q hb ht =>
      cases hc
      exact ⟨hb, ht⟩
    | slot d hd => cases hc
  exact ⟨fun h => (key _ h).1 rfl, fun h => (key _ h).2 rfl⟩

/-- A slot that no move writes is left alone by what changes only the places of moves and the words below the top of
the stack. -/
theorem get_slot_of_agree (ha : Admissible base top slots moves) (hf : Framed base top slots m)
    (h : AgreeOff (touched moves) (written base top m moves) m m') {d : Int} (hd : d ∈ slots)
    (hnot : ∀ x ∈ moves, x.dest.content ≠ slotAt base d) : m'.get (slotAt base d) = m.get (slotAt base d) := by
  rw [get_slotAt, get_slotAt, h.phys (not_mem_touched ha).1]
  apply h.memory
  rintro (hstack | ⟨x, hx, e, he, hcell⟩)
  · obtain ⟨h1, h2⟩ := hf.clear d hd
    rcases hstack with hstack | hstack
    · exact h1 hstack
    · exact h2 hstack
  · have hxe : e ∈ slots := by
      have hpl := ha.dests x hx
      rw [he] at hpl
      generalize hc : slotAt base e = c at hpl
      cases hpl with
      | reg p => cases hc
      | slot e' he' =>
        simp only [slotAt, Address.offset, Content.mem.injEq, Address.mk.injEq] at hc
        exact hc.1 ▸ he'
    exact hnot x hx (by rw [he, hf.apart d hd e hxe hcell])

/-- Only moves that change nothing are not pending at the start. -/
theorem isNoop_of_initial {moves : List Move} {o : Move} (ho : o ∈ moves)
    (hnot : ∀ x ∈ (initial moves).pending, x.dest.content ≠ o.dest.content) : o.isNoop = true := by
  by_contra h
  exact hnot o (List.mem_filter.2 ⟨ho, by simpa using h⟩) rfl

/-- At the start the moves that change nothing are done. -/
theorem progress_initial (ha : Admissible base top slots moves) (m₀ : Machine) :
    Progress base top slots moves m₀ (.initial moves) m₀ where
  sources := fun x hx => ha.sources x (List.mem_of_mem_filter hx)
  dests := fun x hx => ha.dests x (List.mem_of_mem_filter hx)
  distinct := (List.filter_sublist.map _).nodup ha.distinct
  proper := by
    intro x hx heq
    have := (List.mem_filter.1 hx).2
    rw [isNoop_eq_true_iff.2 heq] at this
    cases this
  origin := by
    intro x hx
    have hx := List.mem_of_mem_filter hx
    exact ⟨⟨x, hx, rfl⟩, fun p hp => ⟨x, hx, .inl hp⟩⟩
  carried := by
    intro o ho x hx heq
    rw [eq_of_dest_eq ha.distinct (List.mem_of_mem_filter hx) ho heq]
  done := by
    intro o ho hnot
    have hnoop := isNoop_of_initial ho hnot
    refine ⟨by rw [isNoop_eq_true_iff.1 hnoop], fun p hp => ?_⟩
    exact List.mem_filterMap.2 ⟨o, List.mem_filter.2 ⟨ho, hnoop⟩, mem_phys?.2 hp⟩
  scratch := by simp [initial]
  agree := AgreeOff.refl _ _ _

/-! ## Registers that are read -/

/-- Registers that moves read are sources, or parts of addresses. -/
theorem mem_readBy {l : List Move} {p : PhysReg} : p ∈ readBy l ↔
    ∃ x ∈ l, ∃ a, (a ∈ x.src.reads false false ∨ a ∈ x.dest.reads true false) ∧ a.register = .phys p := by
  simp only [readBy, List.mem_flatMap, List.mem_filterMap, List.mem_append]
  constructor
  · rintro ⟨x, hx, a, ha, h⟩
    refine ⟨x, hx, a, ha, ?_⟩
    cases hr : a.register with
    | virt v => simp [hr, Register.phys?] at h
    | phys q => simpa [hr, Register.phys?] using h
  · rintro ⟨x, hx, a, ha, h⟩
    exact ⟨x, hx, a, ha, by simp [h, Register.phys?]⟩

/-- A register that a pending move reads as its source counts as read. -/
theorem mem_readBy_of_src {l : List Move} {x : Move} {p : PhysReg} (hx : x ∈ l) (h : x.src.content = .reg (.phys p)) :
    p ∈ readBy l := by
  refine mem_readBy.2 ⟨x, hx, ⟨.phys p, false⟩, .inl ?_, rfl⟩
  simp [Operand.reads, h]

/-- The frame base counts as read while a slot is to be written. -/
theorem base_mem_readBy {l : List Move} {x : Move} {d : Int} (hx : x ∈ l) (h : x.dest.content = slotAt base d) :
    base ∈ readBy l := by
  refine mem_readBy.2 ⟨x, hx, ⟨.phys base, false⟩, .inr ?_, rfl⟩
  simp [Operand.reads, h, slotAt, Address.offset, Address.registers]

/-- Nothing counts as read but the sources and the frame base. -/
theorem readBy_cases {l : List Move} (hs : ∀ x ∈ l, Source base top slots x.src.content)
    (hd : ∀ x ∈ l, Place base top slots x.dest.content) {p : PhysReg} (h : p ∈ readBy l) :
    (∃ x ∈ l, x.src.content = .reg (.phys p)) ∨ p = base := by
  obtain ⟨x, hx, a, ha, hp⟩ := mem_readBy.1 h
  have hslot : ∀ d, a ∈ (Operand.mk .quad (slotAt base d)).reads true false → p = base := by
    intro d hmem
    simp only [Operand.reads, slotAt, Address.offset, Address.registers, Option.toList_some, Option.toList_none,
      List.append_nil, List.map_cons, List.map_nil, List.mem_singleton] at hmem
    rw [hmem] at hp
    cases hp
    rfl
  rcases ha with ha | ha
  · have hsx := hs x hx
    unfold Operand.reads at ha
    generalize hc : x.src.content = c at hsx ha
    rcases hsx with hsx | ⟨v, rfl⟩
    · cases hsx with
      | reg q =>
        simp only [Bool.false_eq_true, if_false, List.mem_singleton] at ha
        rw [ha] at hp
        cases hp
        exact .inl ⟨x, hx, hc⟩
      | slot d => exact .inr (hslot d ha)
    · simp at ha
  · have hdx := hd x hx
    unfold Operand.reads at ha
    generalize hc : x.dest.content = c at hdx ha
    cases hdx with
    | reg q => simp at ha
    | slot d => exact .inr (hslot d ha)

/-- What a pending move reads depends on where it reads and writes only. -/
theorem readBy_subset {l l' : List Move} (h : ∀ y ∈ l', (∃ x ∈ l, x.src.content = y.src.content) ∧
    ∃ x ∈ l, x.dest.content = y.dest.content) : ∀ p ∈ readBy l', p ∈ readBy l := by
  intro p hp
  obtain ⟨y, hy, a, ha, har⟩ := mem_readBy.1 hp
  obtain ⟨⟨x, hx, hxs⟩, x', hx', hxd⟩ := h y hy
  rcases ha with ha | ha
  · refine mem_readBy.2 ⟨x, hx, a, .inl ?_, har⟩
    simpa only [Operand.reads, hxs] using ha
  · refine mem_readBy.2 ⟨x', hx', a, .inr ?_, har⟩
    simpa only [Operand.reads, hxd] using ha

/-- Registers free for other use are in nobody's way, after a move as before it. -/
theorem settle_scratch (h : Progress base top slots moves m₀ s m) (s' : Sequencer) (hscratch : s'.scratch = s.scratch)
    (hread : ∀ p ∈ readBy s'.pending, p ∈ readBy s.pending) (dest : Operand) :
    ∀ p ∈ (s'.settle s.pending dest).scratch,
      p ∉ (s'.settle s.pending dest).frozen ∧ p ∉ readBy s'.pending ∧ (p ∈ touched moves ∨ p = base) := by
  intro p hp
  simp only [settle, List.mem_filter, Bool.and_eq_true, Bool.or_eq_true, Bool.not_eq_true', List.contains_eq_mem,
    decide_eq_true_eq, decide_eq_false_iff_not, hscratch] at hp
  obtain ⟨-, ⟨hp, hfrozen⟩, -⟩ := hp
  refine ⟨hfrozen, ?_⟩
  rcases hp with hp | ⟨hp, hnot⟩
  · obtain ⟨-, h2, h3⟩ := h.scratch p hp
    exact ⟨fun hr => h2 (hread p hr), h3⟩
  · refine ⟨hnot, ?_⟩
    rcases readBy_cases h.sources h.dests hp with ⟨x, hx, hc⟩ | hb
    · exact .inl ((h.origin x hx).2 hc)
    · exact .inr hb

/-! ## One move -/

/-- The words written on the way are words that the moves may change. -/
theorem agree_step (ha : Admissible base top slots moves) (h : Progress base top slots moves m₀ s m) {R : Set PhysReg}
    {C : Set Word} (hR : R ⊆ touched moves)
    (hC : ∀ a ∈ C, a ∈ stackCells (m.regs (.phys top)) ∨
      ∃ x ∈ s.pending, a ∈ cellsOf base (m.regs (.phys base)) x.dest.content) (hm : AgreeOff R C m m') :
    AgreeOff (touched moves) (written base top m₀ moves) m₀ m' := by
  obtain ⟨hb, ht⟩ := not_mem_touched ha
  refine h.agree.trans (hm.mono hR ?_)
  intro a hac
  rw [h.agree.phys hb, h.agree.phys ht] at hC
  rcases hC a hac with h1 | ⟨x, hx, d, hd, rfl⟩
  · exact .inl h1
  · obtain ⟨⟨o, ho, hod⟩, -⟩ := h.origin x hx
    exact .inr ⟨o, ho, d, hod.trans hd, rfl⟩

/-- The pending moves without one of them. -/
theorem mem_erase_pending {l : List Move} (hnd : (l.map (fun x => x.dest.content)).Nodup) {x y : Move} :
    y ∈ l.erase x ↔ y ≠ x ∧ y ∈ l :=
  (List.Nodup.of_map _ hnd).mem_erase_iff

/-- A copy to a place that nothing pending reads. -/
theorem progress_copy (ha : Admissible base top slots moves) (h : Progress base top slots moves m₀ s m) {x : Move}
    (hx : x ∈ s.pending) (hfree : ∀ o ∈ s.pending, o.src.content ≠ x.dest.content) {junk : Set PhysReg}
    (hjunk : ∀ p ∈ junk, p ∈ s.scratch ∧ p ≠ base)
    (hm : Copied base top slots junk x.src.content x.dest.content m m') :
    Progress base top slots moves m₀ ({ s with pending := s.pending.erase x }.settle s.pending x.dest) m' where
  sources := fun y hy => h.sources y ((mem_erase_pending h.distinct).1 hy).2
  dests := fun y hy => h.dests y ((mem_erase_pending h.distinct).1 hy).2
  distinct := (List.erase_sublist.map _).nodup h.distinct
  proper := fun y hy => h.proper y ((mem_erase_pending h.distinct).1 hy).2
  origin := fun y hy => h.origin y ((mem_erase_pending h.distinct).1 hy).2
  carried := by
    intro o ho y hy heq
    have hy := ((mem_erase_pending h.distinct).1 hy).2
    rw [hm.others _ (h.sources y hy) (hfree y hy), h.carried o ho y hy heq]
    intro p hp hc
    exact (h.scratch p (hjunk p hp).1).2.1 (mem_readBy_of_src hy hc)
  done := by
    intro o ho hnot
    by_cases hox : x.dest.content = o.dest.content
    · refine ⟨by rw [← hox, hm.target, h.carried o ho x hx hox], fun p hp => ?_⟩
      have : x.dest.phys? = some p := mem_phys?.2 (hox.trans hp)
      simp [settle, this]
    · have hnot' : ∀ y ∈ s.pending, y.dest.content ≠ o.dest.content := by
        intro y hy
        by_cases hyx : y = x
        · rw [hyx]
          exact hox
        · exact hnot y ((mem_erase_pending h.distinct).2 ⟨hyx, hy⟩)
      obtain ⟨hval, hfrozen⟩ := h.done o ho hnot'
      refine ⟨?_, fun p hp => List.mem_append_left _ (hfrozen p hp)⟩
      rw [hm.others _ (.inl (ha.dests o ho)) (Ne.symm hox), hval]
      intro p hp hc
      exact (h.scratch p (hjunk p hp).1).1 (hfrozen p hc)
  scratch := by
    refine settle_scratch h { s with pending := s.pending.erase x } rfl (readBy_subset ?_) x.dest
    intro y hy
    have hy := ((mem_erase_pending h.distinct).1 hy).2
    exact ⟨⟨y, hy, rfl⟩, y, hy, rfl⟩
  agree := by
    refine agree_step ha h ?_ ?_ hm.agree
    · intro p hp
      rcases hp with hp | hp
      · obtain ⟨o, ho, hod⟩ := (h.origin x hx).1
        exact ⟨o, ho, .inr (hod.trans hp)⟩
      · obtain ⟨hs, hb⟩ := hjunk p hp
        rcases (h.scratch p hs).2.2 with ht | ht
        · exact ht
        · exact absurd ht hb
    · rintro a (ha' | ha')
      · exact .inr ⟨x, hx, ha'⟩
      · exact .inl ha'

/-- When all moves are blocked, a move is the only one to read its source, and its source is to be written. -/
theorem blocked_sources {l : List Move} (hnd : (l.map (fun x => x.dest.content)).Nodup)
    (hdest : ∀ y ∈ l, y.dest.isImmediate = false) (hall : ∀ y ∈ l, y.src.isImmediate = false → isBlocked l y = true)
    {x : Move} (hx : x ∈ l) (himm : x.src.isImmediate = false) :
    (∀ y ∈ l, y.src.content = x.src.content → y = x) ∧
      ∃ z ∈ l, z.src.isImmediate = false ∧ z.dest.content = x.src.content := by
  have hperm := blocked_perm (l := l.filter (fun y => !y.src.isImmediate)) ((List.filter_sublist.map _).nodup hnd) (by
    intro y hy
    obtain ⟨hy, hyi⟩ := List.mem_filter.1 hy
    obtain ⟨o, ho, hoc⟩ := isBlocked_eq_true_iff.1 (hall y hy (by simpa using hyi))
    refine ⟨o, List.mem_filter.2 ⟨ho, ?_⟩, hoc⟩
    -- What is written is no constant, so what reads it is none either.
    simpa [Operand.isImmediate, hoc] using hdest y hy)
  have hsrc := hperm.nodup_iff.1 ((List.filter_sublist.map _).nodup hnd)
  have hxf : x ∈ l.filter (fun y => !y.src.isImmediate) := List.mem_filter.2 ⟨hx, by simp [himm]⟩
  constructor
  · intro y hy heq
    have hyi : y.src.isImmediate = false := by simpa [Operand.isImmediate, heq] using himm
    exact List.inj_on_of_nodup_map hsrc (List.mem_filter.2 ⟨hy, by simp [hyi]⟩) hxf heq
  · obtain ⟨z, hz, heq⟩ := List.mem_map.1 (hperm.mem_iff.2 (List.mem_map_of_mem hxf))
    obtain ⟨hz, hzi⟩ := List.mem_filter.1 hz
    exact ⟨z, hz, by simpa using hzi, heq⟩

/-- A redirected move writes where it did. -/
theorem redirect_dest (x y : Move) : (redirect x y).dest = y.dest := by
  unfold redirect
  split
  · rfl
  · split <;> rfl

/-- A move is redirected only if it read the place that the exchange wrote, when nothing else read the exchange's
source. -/
theorem redirect_src {x y : Move} (h : y.src.content ≠ x.src.content) :
    (redirect x y).src.content = if y.src.content = x.dest.content then x.src.content else y.src.content := by
  unfold redirect
  by_cases hd : y.src.content = x.dest.content
  · simp [Operand.sameLocation, hd, Operand.withWidth]
  · simp [Operand.sameLocation, hd, h]

/-- What is pending after an exchange. -/
theorem mem_exchanged_pending {r : Sequencer} {x z : Move} :
    z ∈ (r.exchanged x).pending ↔ ∃ y ∈ r.pending, redirect x y = z ∧ z.src.content ≠ z.dest.content := by
  simp only [exchanged, List.mem_filter, List.mem_map, Bool.not_eq_true', ← Bool.not_eq_true, isNoop_eq_true_iff]
  constructor
  · rintro ⟨⟨y, hy, rfl⟩, hne⟩
    exact ⟨y, hy, rfl, hne⟩
  · rintro ⟨y, hy, rfl, hne⟩
    exact ⟨⟨y, hy, rfl⟩, hne⟩

/-- An exchange makes no pending move write elsewhere. -/
theorem exchanged_dests (r : Sequencer) (x : Move) :
    ((r.exchanged x).pending.map (fun z : Move => z.dest.content)).Sublist
      (r.pending.map (fun z => z.dest.content)) := by
  refine (List.filter_sublist.map _).trans ?_
  rw [List.map_map]
  have : ((fun z : Move => z.dest.content) ∘ redirect x) = fun z => z.dest.content := by
    funext z
    simp [redirect_dest]
  rw [this]

/-- Registers that a move settled in stay out of use after an exchange, and so do those of the moves that it
completed. -/
theorem mem_exchanged_frozen {r : Sequencer} {x : Move} {p : PhysReg} : p ∈ (r.exchanged x).frozen ↔
    p ∈ r.frozen ∨ ∃ y ∈ r.pending, (redirect x y).src.content = (redirect x y).dest.content ∧
      (redirect x y).dest.content = .reg (.phys p) := by
  simp only [exchanged, List.mem_append, List.mem_filterMap, List.mem_filter, List.mem_map,
    isNoop_eq_true_iff, mem_phys?]
  constructor
  · rintro (h | ⟨-, ⟨⟨y, hy, rfl⟩, hn⟩, hp⟩)
    · exact .inl h
    · exact .inr ⟨y, hy, hn, hp⟩
  · rintro (h | ⟨y, hy, hn, hp⟩)
    · exact .inl h
    · exact .inr ⟨_, ⟨⟨y, hy, rfl⟩, hn⟩, hp⟩

section Exchange

variable {x : Move} (honly : ∀ y ∈ s.pending, y.src.content = x.src.content → y = x)

/-- A redirected move finds its value where the exchange has put it. -/
theorem get_redirect (h : Progress base top slots moves m₀ s m)
    (hm : Swapped base top slots x.src.content x.dest.content m m') {y : Move} (hy : y ∈ s.pending)
    (hne : y.src.content ≠ x.src.content) : m'.get (redirect x y).src.content = m.get y.src.content := by
  rw [redirect_src hne]
  split
  · rename_i hd
    rw [hm.back, hd]
  · rename_i hd
    exact hm.others _ (h.sources y hy) hne hd

include honly in
/-- A move that is pending after an exchange is a redirected one: it reads where it did, or where the exchange read. -/
theorem exists_redirect (hnd : (s.pending.map (fun x => x.dest.content)).Nodup) {z : Move}
    (hz : z ∈ ({ s with pending := s.pending.erase x }.exchanged x).pending) :
    ∃ y ∈ s.pending, y.src.content ≠ x.src.content ∧ redirect x y = z ∧ z.dest = y.dest ∧
      z.src.content ≠ z.dest.content ∧ (z.src.content = x.src.content ∨ z.src.content = y.src.content) := by
  obtain ⟨y, hy, rfl, hne⟩ := mem_exchanged_pending.1 hz
  obtain ⟨hyx, hy⟩ := (mem_erase_pending hnd).1 hy
  have hsrc : y.src.content ≠ x.src.content := fun heq => hyx (honly y hy heq)
  refine ⟨y, hy, hsrc, rfl, redirect_dest x y, hne, ?_⟩
  rw [redirect_src hsrc]
  split
  · exact .inl rfl
  · exact .inr rfl

include honly in
/-- A move that is not pending after an exchange is done: by the exchange, or before it. -/
theorem done_exchanged (ha : Admissible base top slots moves) (h : Progress base top slots moves m₀ s m)
    (hx : x ∈ s.pending) (hw : ∃ w ∈ s.pending, w.dest.content = x.src.content)
    (hm : Swapped base top slots x.src.content x.dest.content m m') {o : Move} (ho : o ∈ moves)
    (hnot : ∀ z ∈ ({ s with pending := s.pending.erase x }.exchanged x).pending, z.dest.content ≠ o.dest.content) :
    m'.get o.dest.content = m₀.get o.src.content ∧ ∀ p, o.dest.content = .reg (.phys p) →
      p ∈ (({ s with pending := s.pending.erase x }.exchanged x).settle s.pending x.dest).frozen := by
  by_cases hox : x.dest.content = o.dest.content
  · refine ⟨by rw [← hox, hm.target, h.carried o ho x hx hox], fun p hp => ?_⟩
    have : x.dest.phys? = some p := mem_phys?.2 (hox.trans hp)
    simp [settle, this]
  · by_cases hy : ∃ y ∈ s.pending, y.dest.content = o.dest.content
    · -- The move was pending, and the exchange has brought its value into place.
      obtain ⟨y, hy, hyo⟩ := hy
      have hyx : y ≠ x := fun heq => hox (heq ▸ hyo)
      have herase : y ∈ s.pending.erase x := (mem_erase_pending h.distinct).2 ⟨hyx, hy⟩
      have hnoop : (redirect x y).src.content = (redirect x y).dest.content := by
        by_contra hne
        exact hnot (redirect x y) (mem_exchanged_pending.2 ⟨y, herase, rfl, hne⟩) (by rw [redirect_dest, hyo])
      rw [redirect_dest, hyo] at hnoop
      constructor
      · rw [← hnoop, get_redirect h hm hy (fun heq => hyx (honly y hy heq)), h.carried o ho y hy hyo]
      · intro p hp
        refine List.mem_append_left _ (mem_exchanged_frozen.2 (.inr ⟨y, herase, ?_⟩))
        rw [redirect_dest, hyo]
        exact ⟨hnoop, hp⟩
    · -- The move was done before; the exchange does not touch its destination.
      have hnot' : ∀ y ∈ s.pending, y.dest.content ≠ o.dest.content := fun y hys heq => hy ⟨y, hys, heq⟩
      obtain ⟨hval, hfrozen⟩ := h.done o ho hnot'
      obtain ⟨w, hw, hwx⟩ := hw
      refine ⟨?_, fun p hp => List.mem_append_left _ (mem_exchanged_frozen.2 (.inl (hfrozen p hp)))⟩
      rw [hm.others _ (.inl (ha.dests o ho)) (fun heq => hnot' w hw (hwx.trans heq.symm)) (Ne.symm hox), hval]

end Exchange

/-- An exchange made when all pending moves are blocked. -/
theorem progress_swap (ha : Admissible base top slots moves) (h : Progress base top slots moves m₀ s m) {x : Move}
    (hx : x ∈ s.pending) (himm : x.src.isImmediate = false)
    (hall : ∀ y ∈ s.pending, y.src.isImmediate = false → isBlocked s.pending y = true)
    (hm : Swapped base top slots x.src.content x.dest.content m m') :
    Progress base top slots moves m₀ (({ s with pending := s.pending.erase x }.exchanged x).settle s.pending x.dest)
      m' := by
  obtain ⟨honly, w, hw, -, hwx⟩ :=
    blocked_sources h.distinct (fun y hy => isImmediate_of_place (h.dests y hy)) hall hx himm
  exact {
    sources := by
      intro z hz
      obtain ⟨y, hy, -, -, -, -, hsrc | hsrc⟩ := exists_redirect honly h.distinct hz
      · exact hsrc ▸ h.sources x hx
      · exact hsrc ▸ h.sources y hy
    dests := by
      intro z hz
      obtain ⟨y, hy, -, -, hd, -⟩ := exists_redirect honly h.distinct hz
      exact hd ▸ h.dests y hy
    distinct := ((exchanged_dests _ x).trans (List.erase_sublist.map _)).nodup h.distinct
    proper := by
      intro z hz
      obtain ⟨y, -, -, -, -, hne, -⟩ := exists_redirect honly h.distinct hz
      exact hne
    origin := by
      intro z hz
      obtain ⟨y, hy, -, -, hd, -, hsrc⟩ := exists_redirect honly h.distinct hz
      refine ⟨hd ▸ (h.origin y hy).1, ?_⟩
      rcases hsrc with hsrc | hsrc
      · exact hsrc ▸ (h.origin x hx).2
      · exact hsrc ▸ (h.origin y hy).2
    carried := by
      intro o ho z hz heq
      obtain ⟨y, hy, hne, rfl, hd, -⟩ := exists_redirect honly h.distinct hz
      rw [get_redirect h hm hy hne]
      exact h.carried o ho y hy (hd ▸ heq)
    done := fun o ho hnot => done_exchanged honly ha h hx ⟨w, hw, hwx⟩ hm ho hnot
    scratch := by
      refine settle_scratch h ({ s with pending := s.pending.erase x }.exchanged x) rfl (readBy_subset ?_) x.dest
      intro z hz
      obtain ⟨y, hy, -, -, hd, -, hsrc⟩ := exists_redirect honly h.distinct hz
      refine ⟨?_, y, hy, by rw [hd]⟩
      rcases hsrc with hsrc | hsrc
      · exact ⟨x, hx, hsrc.symm⟩
      · exact ⟨y, hy, hsrc.symm⟩
    agree := by
      refine agree_step ha h ?_ ?_ hm.agree
      · rintro p (hp | hp)
        · exact (h.origin x hx).2 hp
        · obtain ⟨o, ho, hod⟩ := (h.origin x hx).1
          exact ⟨o, ho, .inr (hod.trans hp)⟩
      · rintro a ((ha' | ha') | ha')
        · exact .inr ⟨w, hw, hwx ▸ ha'⟩
        · exact .inr ⟨x, hx, ha'⟩
        · exact .inl ha' }

/-- How a move is carried out. -/
theorem perform_cases (s : Sequencer) (x : Move) :
    ((x.src.isImmediate = true ∨ isBlocked s.pending x = false) ∧ (x.src.isMemory && x.dest.isMemory) = false ∧
        s.perform x = ([.mov x.src x.dest], { s with pending := s.pending.erase x })) ∨
      (isBlocked s.pending x = false ∧ x.src.isMemory = true ∧ x.dest.isMemory = true ∧
        s.perform x = (throughScratch s.scratch x, { s with pending := s.pending.erase x })) ∨
      (x.src.isImmediate = false ∧ isBlocked s.pending x = true ∧ x.src.isMemory = true ∧ x.dest.isMemory = true ∧
        s.perform x = (exchangeCells x, { s with pending := s.pending.erase x }.exchanged x)) ∨
      (x.src.isImmediate = false ∧ isBlocked s.pending x = true ∧
        s.perform x = ([.xchg x.src x.dest], { s with pending := s.pending.erase x }.exchanged x)) := by
  cases himm : x.src.isImmediate with
  | true =>
    have hmem : x.src.isMemory = false := by
      obtain ⟨v, hv⟩ := isImmediate_eq_true_iff.1 himm
      simp [Operand.isMemory, hv]
    exact .inl ⟨.inl rfl, by simp [hmem], by simp [perform, urgency, himm]⟩
  | false =>
    cases hb : isBlocked s.pending x <;> cases hs : x.src.isMemory <;> cases hd : x.dest.isMemory <;>
      simp [perform, urgency, himm, hb, hs, hd]

/-- What one round does: it copies a value to a place that nothing pending reads, or it exchanges two places when
every pending move is blocked. Constants are copied last. -/
inductive Round (s : Sequencer) (x : Move) : Prop where
  | copy (hfree : ∀ o ∈ s.pending, o.src.content ≠ x.dest.content)
      (hlast : x.src.isImmediate = true → ∀ y ∈ s.pending, y.src.isImmediate = true)
      (hrest : (s.perform x).2 = { s with pending := s.pending.erase x })
      (hcode : (x.src.isMemory && x.dest.isMemory) = false ∧ (s.perform x).1 = [.mov x.src x.dest] ∨
        (x.src.isMemory = true ∧ x.dest.isMemory = true) ∧ (s.perform x).1 = throughScratch s.scratch x)
  | exchange (himm : x.src.isImmediate = false)
    (hall : ∀ y ∈ s.pending, y.src.isImmediate = false → isBlocked s.pending y = true)
    (hrest : (s.perform x).2 = { s with pending := s.pending.erase x }.exchanged x)
    (hcode : (s.perform x).1 = [.xchg x.src x.dest] ∨
        (x.src.isMemory = true ∧ x.dest.isMemory = true) ∧ (s.perform x).1 = exchangeCells x)

/-- A move that is next takes part in a round. -/
theorem round_of_next? {x : Move} (hx : next? s.pending = some x) (hdest : x.dest.isImmediate = false) : s.Round x := by
  obtain ⟨-, hmost⟩ := next?_some hx
  -- A constant is chosen only if nothing but constants is pending.
  have hlast : x.src.isImmediate = true → ∀ y ∈ s.pending, y.src.isImmediate = true := by
    intro himm y hy
    by_contra hyi
    have hle := hmost y hy
    rw [rank_constant himm] at hle
    cases hyb : isBlocked s.pending y with
    | true =>
      have := (rank_blocked (Bool.eq_false_iff.2 hyi) hyb).1
      omega
    | false =>
      have := rank_free (Bool.eq_false_iff.2 hyi) hyb
      omega
  -- A blocked move is chosen only if all are.
  have hall : x.src.isImmediate = false → isBlocked s.pending x = true →
      ∀ y ∈ s.pending, y.src.isImmediate = false → isBlocked s.pending y = true := by
    intro himm hblocked y hy hyi
    by_contra hyb
    have h1 := hmost y hy
    have h2 := (rank_blocked himm hblocked).2
    have h3 := rank_free hyi (Bool.eq_false_iff.2 hyb)
    omega
  have hfree : x.src.isImmediate = true ∨ isBlocked s.pending x = false →
      ∀ o ∈ s.pending, o.src.content ≠ x.dest.content := by
    rintro (himm | hnb) o ho heq
    · have hoi := hlast himm o ho
      simp only [Operand.isImmediate, heq] at hoi hdest
      rw [hdest] at hoi
      cases hoi
    · rw [isBlocked_eq_true_iff.2 ⟨o, ho, heq⟩] at hnb
      cases hnb
  rcases s.perform_cases x with ⟨hplain, hmm, heq⟩ | ⟨hnb, hsm, hdm, heq⟩ | ⟨himm, hblocked, hsm, hdm, heq⟩ |
    ⟨himm, hblocked, heq⟩
  · exact .copy (hfree hplain) hlast (by rw [heq]) (.inl ⟨hmm, by rw [heq]⟩)
  · exact .copy (hfree (.inr hnb)) hlast (by rw [heq]) (.inr ⟨⟨hsm, hdm⟩, by rw [heq]⟩)
  · exact .exchange himm (hall himm hblocked) (by rw [heq]) (.inr ⟨⟨hsm, hdm⟩, by rw [heq]⟩)
  · exact .exchange himm (hall himm hblocked) (by rw [heq]) (.inl (by rw [heq]))

/-- One round: the most urgent move is carried out, and there is progress. -/
theorem progress_step {w : World} (ha : Admissible base w.stackPointer slots moves) (hbase : base ≠ w.stackPointer)
    (hf : Framed base w.stackPointer slots m₀) (h : Progress base w.stackPointer slots moves m₀ s m) {x : Move}
    (hx : next? s.pending = some x) :
    ∃ m', m.execAll w (s.perform x).1 = some m' ∧
      Progress base w.stackPointer slots moves m₀ ((s.perform x).2.settle s.pending x.dest) m' := by
  have hmem := (next?_some hx).1
  obtain ⟨hb, ht⟩ := not_mem_touched ha
  have hfm : Framed base w.stackPointer slots m := hf.of_same (h.agree.sameFrame hb ht)
  have hdest := h.dests x hmem
  cases round_of_next? hx (isImmediate_of_place hdest) with
  | copy hfree _ hrest hcode =>
    rw [hrest]
    rcases hcode with ⟨hmm, hcode⟩ | ⟨⟨hsm, hdm⟩, hcode⟩
    · obtain ⟨m', hrun, hcopied⟩ := copied_mov hfm hdest hmm
      exact ⟨m', by rw [hcode, hrun], progress_copy ha h hmem hfree (by simp) hcopied⟩
    · obtain ⟨d, -, hdc⟩ := slot_of_place hdest hdm
      have hjunk : ∀ p ∈ s.scratch, p ≠ base ∧ p ≠ w.stackPointer := by
        intro p hp
        obtain ⟨-, hnr, ht'⟩ := h.scratch p hp
        have hpb : p ≠ base := fun hpb => hnr (hpb ▸ base_mem_readBy hmem hdc)
        refine ⟨hpb, fun hpt => ?_⟩
        rcases ht' with ht' | ht'
        · exact ht (hpt ▸ ht')
        · exact hpb ht'
      obtain ⟨m', hrun, hcopied⟩ := copied_throughScratch hbase hfm hdest hdm hjunk
      exact ⟨m', by rw [hcode, hrun], progress_copy ha h hmem hfree (fun p hp => ⟨hp, (hjunk p hp).1⟩) hcopied⟩
  | exchange himm hall hrest hcode =>
    rw [hrest]
    have hplace := place_of_source (h.sources x hmem) himm
    rcases hcode with hcode | ⟨⟨hsm, hdm⟩, hcode⟩
    · obtain ⟨m', hrun, hswapped⟩ := swapped_xchg hfm hplace hdest (h.proper x hmem)
      exact ⟨m', by rw [hcode, hrun], progress_swap ha h hmem himm hall hswapped⟩
    · obtain ⟨m', hrun, hswapped⟩ := swapped_exchangeCells hbase hfm hplace hdest hsm hdm (h.proper x hmem)
      exact ⟨m', by rw [hcode, hrun], progress_swap ha h hmem himm hall hswapped⟩

/-- Every round leaves fewer moves pending. -/
theorem perform_length {x : Move} (hx : x ∈ s.pending) :
    ((s.perform x).2.settle s.pending x.dest).pending.length < s.pending.length := by
  have herase : (s.pending.erase x).length < s.pending.length := by
    have := List.length_erase_of_mem hx
    have := List.length_pos_of_mem hx
    omega
  have hexch : ({ s with pending := s.pending.erase x }.exchanged x).pending.length ≤ (s.pending.erase x).length := by
    simpa using (exchanged_dests { s with pending := s.pending.erase x } x).length_le
  simp only [settle]
  rcases perform_cases s x with ⟨-, -, heq⟩ | ⟨-, -, -, heq⟩ | ⟨-, -, -, -, heq⟩ | ⟨-, -, heq⟩ <;> rw [heq]
  · exact herase
  · exact herase
  · exact Nat.lt_of_le_of_lt hexch herase
  · exact Nat.lt_of_le_of_lt hexch herase

/-- Enough rounds make all moves. -/
theorem progress_run {w : World} (ha : Admissible base w.stackPointer slots moves) (hbase : base ≠ w.stackPointer)
    (hf : Framed base w.stackPointer slots m₀) (steps : Nat) :
    ∀ (s : Sequencer) (m : Machine), s.pending.length ≤ steps → Progress base w.stackPointer slots moves m₀ s m →
      ∃ s' m', m.execAll w (run steps s) = some m' ∧ s'.pending = [] ∧
        Progress base w.stackPointer slots moves m₀ s' m' := by
  induction steps with
  | zero =>
    intro s m hlen h
    exact ⟨s, m, rfl, List.length_eq_zero_iff.1 (by omega), h⟩
  | succ steps ih =>
    intro s m hlen h
    cases hx : next? s.pending with
    | none => exact ⟨s, m, by simp [run, hx, execAll], next?_none hx, h⟩
    | some x =>
      obtain ⟨m₁, hrun, hprogress⟩ := progress_step ha hbase hf h hx
      have hless := perform_length (s := s) (next?_some hx).1
      obtain ⟨s', m', hrest, hdone, hend⟩ := ih _ m₁ (by omega) hprogress
      refine ⟨s', m', ?_, hdone, hend⟩
      simp only [run, hx, execAll_append, hrun, Option.bind_some, hrest]

end Sequencer

namespace Move

open Machine

/-- A set of moves is refused exactly if two of them write the same place. -/
theorem repeated?_eq_none_iff (moves : List Move) : ∀ seen, repeated? seen moves = none ↔
    (moves.map (fun x => x.dest.content)).Nodup ∧ ∀ o ∈ seen, ∀ x ∈ moves, o.content ≠ x.dest.content := by
  induction moves with
  | nil => intro seen; simp [repeated?]
  | cons x moves ih =>
    intro seen
    simp only [repeated?]
    split
    · rename_i h
      obtain ⟨o, ho, heq⟩ := List.any_eq_true.1 h
      simp only [reduceCtorEq, false_iff]
      intro hall
      exact hall.2 o ho x List.mem_cons_self (by simpa [Operand.sameLocation] using heq)
    · rename_i h
      have hseen : ∀ o ∈ seen, o.content ≠ x.dest.content := by
        intro o ho heq
        exact h (List.any_eq_true.2 ⟨o, ho, by simpa [Operand.sameLocation] using heq⟩)
      rw [ih (x.dest :: seen)]
      simp only [List.map_cons, List.nodup_cons, List.mem_map, List.mem_cons, forall_eq_or_imp]
      constructor
      · rintro ⟨hnd, hx, hrest⟩
        refine ⟨⟨?_, hnd⟩, fun o ho => ⟨hseen o ho, hrest o ho⟩⟩
        rintro ⟨y, hy, heq⟩
        exact hx y hy heq.symm
      · rintro ⟨⟨hx, hnd⟩, hrest⟩
        exact ⟨hnd, fun y hy heq => hx ⟨y, hy, heq.symm⟩, fun o ho => (hrest o ho).2⟩

/-- Moves that write distinct places are not refused. -/
theorem sequence_eq_ok {moves : List Move} (h : (moves.map (fun x => x.dest.content)).Nodup) :
    sequence moves = .ok (Sequencer.run moves.length (.initial moves)) := by
  have : repeated? [] moves = none := (repeated?_eq_none_iff moves []).2 ⟨h, by simp⟩
  simp [sequence, this]

/-- Only moves that write distinct places are turned into code. -/
theorem nodup_of_sequence {moves : List Move} {code : List Instruction} (h : sequence moves = .ok code) :
    (moves.map (fun x => x.dest.content)).Nodup := by
  unfold sequence at h
  split at h
  · cases h
  · rename_i hr
    exact ((repeated?_eq_none_iff moves []).1 hr).1

/-- The code of moves, run where slots are in order, leaves the word of every source in its destination. It changes
nothing but the registers that moves read or write, the cells that they write, and the two cells below the top of the
stack. -/
theorem sequence_effect {base : PhysReg} {slots : Set Int} {w : World} {moves : List Move} {code : List Instruction}
    (ha : Sequencer.Admissible base w.stackPointer slots moves) (hcode : sequence moves = .ok code)
    (hbase : base ≠ w.stackPointer) {m : Machine} (hf : Framed base w.stackPointer slots m) :
    ∃ m', m.execAll w code = some m' ∧ (∀ x ∈ moves, m'.get x.dest.content = m.get x.src.content) ∧
      AgreeOff (touched moves) (written base w.stackPointer m moves) m m' := by
  rw [sequence_eq_ok ha.distinct, Except.ok.injEq] at hcode
  have hlen : (Sequencer.initial moves).pending.length ≤ moves.length := List.length_filter_le _ _
  obtain ⟨s', m', hrun, hdone, h⟩ := Sequencer.progress_run ha hbase hf moves.length _ m hlen
    (Sequencer.progress_initial ha m)
  rw [hcode] at hrun
  refine ⟨m', hrun, fun x hx => (h.done x hx ?_).1, h.agree⟩
  simp [hdone]

/-- **Moves that happen at once.** Moves that write distinct places and read places or constants, where places are
registers other than `%rsp` and `%rbp` and slots relative to `%rbp`, are turned into code. Run on any machine on which
distinct slots are distinct cells above the top of the stack, the code leaves in every destination the word that its
source held before. `%rsp` and `%rbp` stay as they are, and so does every slot that is no destination, every register
that is neither a source nor a destination, and the destination of every move that changes nothing. -/
theorem sequence_parallel (moves : List Move) (slots : Set Int)
    (hdistinct : moves.Pairwise (fun x y => ¬x.dest.sameLocation y.dest))
    (hdest : ∀ x ∈ moves, Place .bp .sp slots x.dest.content)
    (hsrc : ∀ x ∈ moves, Source .bp .sp slots x.src.content) :
    ∃ code, sequence moves = .ok code ∧
      ∀ (w : World) (m : Machine), w.stackPointer = .sp → m.Framed .bp .sp slots →
        ∃ m', m.execAll w code = some m' ∧
          (∀ x ∈ moves, m'.value x.dest = m.value x.src) ∧
          m'.regs (.phys .sp) = m.regs (.phys .sp) ∧ m'.regs (.phys .bp) = m.regs (.phys .bp) ∧
          (∀ d ∈ slots, (∀ x ∈ moves, x.dest.content ≠ slotAt .bp d) →
            m'.get (slotAt .bp d) = m.get (slotAt .bp d)) ∧
          (∀ p, (∀ x ∈ moves, x.src.content ≠ .reg (.phys p) ∧ x.dest.content ≠ .reg (.phys p)) →
            m'.regs (.phys p) = m.regs (.phys p)) ∧
          ∀ x ∈ moves, x.isNoop = true → m'.value x.dest = m.value x.dest := by
  have hnd : (moves.map (fun x => x.dest.content)).Nodup := by
    rw [List.Nodup, List.pairwise_map]
    exact hdistinct.imp (fun h => by simpa [Operand.sameLocation] using h)
  refine ⟨_, sequence_eq_ok hnd, ?_⟩
  intro w m hsp hf
  rw [← hsp] at hdest hsrc hf
  have ha : Sequencer.Admissible .bp w.stackPointer slots moves := ⟨hsrc, hdest, hnd⟩
  obtain ⟨m', hrun, hvalues, hagree⟩ := sequence_effect ha (sequence_eq_ok hnd) (by rw [hsp]; decide) hf
  obtain ⟨hbp, hsp'⟩ := Sequencer.not_mem_touched ha
  have hsame := hagree.sameFrame hbp hsp'
  refine ⟨m', hrun, hvalues, hsp ▸ hsame.2, hsame.1, ?_, ?_, ?_⟩
  · exact fun d hd hnot => Sequencer.get_slot_of_agree ha hf hagree hd hnot
  · intro p hp
    apply hagree.phys
    rintro ⟨x, hx, h | h⟩
    · exact (hp x hx).1 h
    · exact (hp x hx).2 h
  · intro x hx hnoop
    have hval : m'.value x.dest = m.value x.src := hvalues x hx
    rw [hval, value, value, isNoop_eq_true_iff.1 hnoop]

/-- A rotation of two registers and a slot, with a copy between slots and a constant. -/
def rotation : List Move :=
  [⟨.phys .quad .a, .phys .quad .b⟩, ⟨.phys .quad .b, ⟨.quad, slotAt .bp (-8)⟩⟩,
    ⟨⟨.quad, slotAt .bp (-8)⟩, .phys .quad .a⟩, ⟨⟨.quad, slotAt .bp (-16)⟩, ⟨.quad, slotAt .bp (-24)⟩⟩,
    ⟨.imm .quad 5, .phys .quad .c⟩]

/-- A machine with numbered registers, a frame at `0x10000` and cells that hold their own addresses. -/
def numbered : Machine where
  regs := fun
    | .phys .bp => 0x10000
    | .phys .sp => 0xff00
    | .phys p => BitVec.ofNat 64 p.index
    | .virt _ => 0
  memory := id
  flags := (0, 0)
  calls := []

/-- The slots of `rotation` are in order on `numbered`. -/
theorem numbered_framed : numbered.Framed .bp .sp {-8, -16, -24} where
  apart := by
    rintro d (rfl | rfl | rfl) e (rfl | rfl | rfl) h <;> first | rfl | exact absurd h (by decide)
  clear := by
    rintro d (rfl | rfl | rfl) <;> decide

/-- In the example a rotation through registers and slots gives all places what the others held before. -/
theorem sequence_parallel_rotation :
    ∃ code m', sequence rotation = .ok code ∧ numbered.execAll ⟨.sp, [], fun _ _ => 0⟩ code = some m' ∧
      m'.regs (.phys .a) = 0xfff8 ∧ m'.regs (.phys .b) = 0 ∧ m'.regs (.phys .c) = 5 ∧
      m'.get (slotAt .bp (-8)) = 1 ∧ m'.get (slotAt .bp (-24)) = 0xfff0 ∧ m'.get (slotAt .bp (-16)) = 0xfff0 := by
  obtain ⟨code, hcode, hrun⟩ := sequence_parallel rotation {-8, -16, -24} (by decide)
    (by
      intro x hx
      simp only [rotation, List.mem_cons, List.not_mem_nil, or_false] at hx
      rcases hx with rfl | rfl | rfl | rfl | rfl
      · exact .reg .b (by decide) (by decide)
      · exact .slot (-8) (by simp)
      · exact .reg .a (by decide) (by decide)
      · exact .slot (-24) (by simp)
      · exact .reg .c (by decide) (by decide))
    (by
      intro x hx
      simp only [rotation, List.mem_cons, List.not_mem_nil, or_false] at hx
      rcases hx with rfl | rfl | rfl | rfl | rfl
      · exact .inl (.reg .a (by decide) (by decide))
      · exact .inl (.reg .b (by decide) (by decide))
      · exact .inl (.slot (-8) (by simp))
      · exact .inl (.slot (-16) (by simp))
      · exact .inr ⟨5, rfl⟩)
  obtain ⟨m', hm', hvalues, -, -, hslots, -, -⟩ := hrun ⟨.sp, [], fun _ _ => 0⟩ numbered rfl numbered_framed
  refine ⟨code, m', hcode, hm', ?_, ?_, ?_, ?_, ?_, ?_⟩
  · exact (hvalues _ (by simp [rotation] : ⟨⟨.quad, slotAt .bp (-8)⟩, .phys .quad .a⟩ ∈ rotation)).trans (by decide)
  · exact (hvalues _ (by simp [rotation] : ⟨.phys .quad .a, .phys .quad .b⟩ ∈ rotation)).trans (by decide)
  · exact (hvalues _ (by simp [rotation] : ⟨.imm .quad 5, .phys .quad .c⟩ ∈ rotation)).trans (by decide)
  · exact (hvalues _ (by simp [rotation] : ⟨.phys .quad .b, ⟨.quad, slotAt .bp (-8)⟩⟩ ∈ rotation)).trans (by decide)
  · exact (hvalues _ (by simp [rotation] :
      ⟨⟨.quad, slotAt .bp (-16)⟩, ⟨.quad, slotAt .bp (-24)⟩⟩ ∈ rotation)).trans (by decide)
  · exact (hslots (-16) (by simp) (by decide)).trans (by decide)

end Move

end RegAlloc
