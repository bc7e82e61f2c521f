import RegAlloc.Proofs.Rounds
import Mathlib.Logic.Relation

/-!
# The addresses that moves read from

A move may load from memory at an address in registers. `Move.Overwrites` says that a register of such an address is
written in a round while the load is still to come, so that it reads from somewhere else. What puts a load at risk are
copies to a register of its address, and not all of them: constants are copied last, and moves on a cycle wait until
all loads are made (`Sequencer.Phase`). A copy of a register to one that nothing else reads always comes before the
load, since it is more urgent (`Sequencer.exists_round_before`). Where no register of its address is overwritten, a
load finds the address that its registers held before the first move (`Sequencer.Orderly.regs_of_rounds`).
-/

namespace RegAlloc

/-- The instruction writes a register. -/
def Instruction.Writes (i : Instruction) (r : Register) : Prop := ∃ access ∈ i.defs, access.register = r

/-- The registers that the address of an operand is computed from. -/
def Operand.addressRegisters (o : Operand) : List Register :=
  match o.content with
  | .mem a => a.registers
  | _ => []

namespace Instruction

variable {o src dest : Operand} {r : Register}

/-- An operand that is written is a register exactly if its content is that register. -/
theorem writes_iff_content {memoryOk : Bool} :
    (∃ access ∈ (o.writes memoryOk).toList, access.register = r) ↔ o.content = .reg r := by
  obtain ⟨w, c⟩ := o
  cases c <;> simp [Operand.writes]

/-- A move writes the register that is its destination. -/
theorem writes_mov : (mov src dest).Writes r ↔ dest.content = .reg r := writes_iff_content

theorem writes_pop : (pop o).Writes r ↔ o.content = .reg r := writes_iff_content

/-- A push writes no register that it names. -/
theorem not_writes_push : ¬(push o).Writes r := by
  rintro ⟨access, hmem, -⟩
  cases hmem

theorem writes_xchg : (xchg src dest).Writes r ↔ src.content = .reg r ∨ dest.content = .reg r := by
  simp only [Writes, defs, List.mem_append, or_and_right, exists_or, writes_iff_content]

end Instruction

namespace Move

/-- In some round a register is written while another move is pending that reads from an address in that register. -/
def Overwrites (moves : List Move) (r : Register) (z : Move) : Prop :=
  ∃ round ∈ rounds moves, z ∈ round.1.pending ∧ z ≠ round.2 ∧ r ∈ z.src.addressRegisters ∧
    ∃ i ∈ Sequencer.roundCode round, i.Writes r

/-- The second move reads what the first one writes. -/
def Feeds (moves : List Move) (x y : Move) : Prop := x ∈ moves ∧ y ∈ moves ∧ y.src.content = x.dest.content

/-- The move is on a cycle of moves, each of which reads what the one before it writes. -/
def OnCycle (moves : List Move) (x : Move) : Prop := Relation.TransGen (Feeds moves) x x

/-- A move on a cycle that changes something is read by another one on the cycle. -/
theorem OnCycle.exists_reader {moves : List Move} {x : Move} (hnd : (moves.map (fun x => x.dest.content)).Nodup)
    (h : OnCycle moves x) (hx : x.isNoop = false) :
    ∃ y ∈ moves, y.isNoop = false ∧ OnCycle moves y ∧ y.src.content = x.dest.content := by
  obtain ⟨y, hfeeds, hback⟩ := Relation.TransGen.head'_iff.1 h
  refine ⟨y, hfeeds.2.1, Bool.eq_false_iff.2 fun hnoop => ?_, .tail' hback hfeeds, hfeeds.2.2⟩
  have hyx := Sequencer.eq_of_dest_eq hnd hfeeds.2.1 hfeeds.1 ((isNoop_eq_true_iff.1 hnoop).symm.trans hfeeds.2.2)
  rw [hyx, hx] at hnoop
  cases hnoop

end Move

namespace Sequencer

open Move

variable {moves : List Move} {s : Sequencer} {x y z : Move} {r : Register} {i : Instruction}

/-! ## What a round writes -/

/-- The registers that a round writes: that of the destination, one for other use, or, in an exchange, that of the
source. -/
theorem Round.writes (h : s.Round x) (hi : i ∈ (s.perform x).1) (hw : i.Writes r) :
    x.dest.content = .reg r ∨ (∃ p ∈ s.scratch, r = .phys p) ∨
      x.src.content = .reg r ∧ x.src.isImmediate = false ∧
        ∀ y ∈ s.pending, y.src.isImmediate = false → isBlocked s.pending y = true := by
  cases h with
  | copy _ _ _ hcode =>
    rcases hcode with ⟨-, hcode⟩ | ⟨-, hcode⟩
    · rw [hcode, List.mem_singleton] at hi
      exact .inl (Instruction.writes_mov.1 (hi ▸ hw))
    · rw [hcode] at hi
      cases hscratch : s.scratch with
      | nil =>
        rw [hscratch] at hi
        rcases List.mem_cons.1 hi with rfl | hi
        · exact absurd hw Instruction.not_writes_push
        · rw [List.mem_singleton.1 hi] at hw
          exact .inl (Instruction.writes_pop.1 hw)
      | cons p rest =>
        rw [hscratch] at hi
        rcases List.mem_cons.1 hi with rfl | hi
        · refine .inr (.inl ⟨p, List.mem_cons_self, ?_⟩)
          exact (Content.reg.inj (Instruction.writes_mov.1 hw)).symm
        · rw [List.mem_singleton.1 hi] at hw
          exact .inl (Instruction.writes_mov.1 hw)
  | exchange himm hall _ hcode =>
    suffices h : x.src.content = .reg r ∨ x.dest.content = .reg r by
      rcases h with h | h
      · exact .inr (.inr ⟨h, himm, hall⟩)
      · exact .inl h
    rcases hcode with hcode | ⟨-, hcode⟩
    · rw [hcode, List.mem_singleton] at hi
      exact Instruction.writes_xchg.1 (hi ▸ hw)
    · rw [hcode] at hi
      simp only [exchangeCells, List.mem_cons, List.not_mem_nil, or_false] at hi
      rcases hi with rfl | rfl | rfl | rfl
      · exact absurd hw Instruction.not_writes_push
      · exact absurd hw Instruction.not_writes_push
      · exact .inl (Instruction.writes_pop.1 hw)
      · exact .inr (Instruction.writes_pop.1 hw)

/-- A source whose address has a register is in memory. -/
theorem isMemory_of_address (hr : r ∈ z.src.addressRegisters) : ∃ a, z.src.content = .mem a ∧ r ∈ a.registers := by
  rw [Operand.addressRegisters] at hr
  cases hc : z.src.content with
  | imm n =>
    rw [hc] at hr
    cases hr
  | reg q =>
    rw [hc] at hr
    cases hr
  | mem a =>
    rw [hc] at hr
    exact ⟨a, rfl, hr⟩

theorem isImmediate_of_address (hr : r ∈ z.src.addressRegisters) : z.src.isImmediate = false := by
  obtain ⟨a, ha, -⟩ := isMemory_of_address hr
  rw [Operand.isImmediate, ha]

/-- The registers of addresses count as read. -/
theorem mem_readBy_of_address {l : List Move} {p : PhysReg} (hz : z ∈ l) (hr : .phys p ∈ z.src.addressRegisters) :
    p ∈ readBy l := by
  obtain ⟨a, ha, hr⟩ := isMemory_of_address hr
  refine mem_readBy.2 ⟨z, hz, ⟨.phys p, false⟩, .inl ?_, rfl⟩
  rw [Operand.reads, ha]
  exact List.mem_map.2 ⟨_, hr, rfl⟩

/-- A register of an address is written only if a pending move that is no constant is to be brought there. -/
theorem Orderly.exists_dest_of_writes (h : Orderly moves s) (hd : ∀ o ∈ moves, o.dest.isImmediate = false)
    (hx : next? s.pending = some x) (hz : z ∈ s.pending) (hr : r ∈ z.src.addressRegisters) (hi : i ∈ (s.perform x).1)
    (hw : i.Writes r) : ∃ v ∈ s.pending, v.src.isImmediate = false ∧ v.dest.content = .reg r := by
  have hround := h.round hd hx
  have hx := (next?_some hx).1
  rcases hround.writes hi hw with hdest | ⟨p, hp, rfl⟩ | ⟨hsrc, himm, hall⟩
  · refine ⟨x, hx, ?_, hdest⟩
    cases hround with
    | copy _ hlast _ _ =>
      -- Constants are left to the end.
      by_contra himm
      have hzi := hlast (Bool.eq_true_of_not_eq_false himm) z hz
      rw [isImmediate_of_address hr] at hzi
      cases hzi
    | exchange himm _ _ _ => exact himm
  · exact absurd (mem_readBy_of_address hz hr) (h.scratch p hp).2.1
  · obtain ⟨-, v, hv, hvi, hvd⟩ := blocked_sources h.distinct (h.dest_isImmediate hd) hall hx himm
    exact ⟨v, hv, hvi, hvd.trans hsrc⟩

/-! ## Loads come before exchanges -/

/-- Until places are exchanged, the pending moves are moves of the list as they were given, and those on cycles are
among them. From then on only places are read that moves write. -/
def Phase (moves : List Move) (s : Sequencer) : Prop :=
  ((∀ x ∈ s.pending, x ∈ moves) ∧ ∀ x ∈ moves, x.isNoop = false → OnCycle moves x → x ∈ s.pending) ∨
    ∀ x ∈ s.pending, x.src.isImmediate = false → ∃ o ∈ moves, o.dest.content = x.src.content

/-- The phases hold before the first move. -/
theorem phase_initial (moves : List Move) : Phase moves (.initial moves) :=
  .inl ⟨fun _ hx => List.mem_of_mem_filter hx, fun _ hx hnoop _ => List.mem_filter.2 ⟨hx, by rw [hnoop]; rfl⟩⟩

/-- When all moves are blocked, what is read is written. -/
theorem Orderly.exists_dest_of_blocked (h : Orderly moves s) (hd : ∀ o ∈ moves, o.dest.isImmediate = false)
    (hall : ∀ y ∈ s.pending, y.src.isImmediate = false → isBlocked s.pending y = true) (hz : z ∈ s.pending)
    (himm : z.src.isImmediate = false) : ∃ o ∈ moves, o.dest.content = z.src.content := by
  obtain ⟨-, v, hv, -, hvd⟩ := blocked_sources h.distinct (h.dest_isImmediate hd) hall hz himm
  obtain ⟨o, ho, -, hod, -⟩ := h.origin v hv
  exact ⟨o, ho, by rw [hod, hvd]⟩

/-- Making the next move keeps the phases. -/
theorem Phase.step (hp : Phase moves s) (hnd : (moves.map (fun x => x.dest.content)).Nodup) (h : Orderly moves s)
    (hd : ∀ o ∈ moves, o.dest.isImmediate = false) (hx : next? s.pending = some x) : Phase moves (s.after x) := by
  cases h.round hd hx with
  | copy hfree _ hrest _ =>
    have hmem := fun z => mem_after_copy (z := z) h.distinct hrest
    rcases hp with ⟨hgiven, hcycles⟩ | hclosed
    · refine .inl ⟨fun z hz => hgiven z ((hmem z).1 hz).2, fun o ho hnoop hcycle =>
        (hmem o).2 ⟨?_, hcycles o ho hnoop hcycle⟩⟩
      -- A move on a cycle is read by another one, and so is not copied.
      rintro rfl
      obtain ⟨y, hy, hynoop, hycycle, hyo⟩ := hcycle.exists_reader hnd hnoop
      exact hfree y (hcycles y hy hynoop hycycle) hyo
    · exact .inr fun z hz => hclosed z ((hmem z).1 hz).2
  | exchange _ hall _ _ =>
    refine .inr fun z hz himm => ?_
    obtain ⟨-, -, -, -, -, -, v, hv, hsrc⟩ := h.before hd hx hz
    rw [← hsrc]
    refine h.exists_dest_of_blocked hd hall hv ?_
    rwa [Operand.isImmediate, hsrc]

/-- A round in which a register of a load's address is written, where the load reads from no place that moves write: a
move to that register is copied, which is no constant and on no cycle. -/
theorem Orderly.copy_of_writes (h : Orderly moves s) (hp : Phase moves s)
    (hnd : (moves.map (fun x => x.dest.content)).Nodup) (hd : ∀ o ∈ moves, o.dest.isImmediate = false)
    (hx : next? s.pending = some x) (hz : z ∈ s.pending) (hr : r ∈ z.src.addressRegisters)
    (hout : ∀ o ∈ moves, o.dest.content ≠ z.src.content) (hi : i ∈ (s.perform x).1) (hw : i.Writes r) :
    x ∈ moves ∧ x.dest.content = .reg r ∧ x.src.isImmediate = false ∧ ¬OnCycle moves x := by
  have hzi := isImmediate_of_address hr
  have hround := h.round hd hx
  have hmem := (next?_some hx).1
  -- The load is pending, so that nothing has been exchanged so far.
  have hnot : ¬∀ y ∈ s.pending, y.src.isImmediate = false → isBlocked s.pending y = true := by
    intro hall
    obtain ⟨o, ho, hod⟩ := h.exists_dest_of_blocked hd hall hz hzi
    exact hout o ho hod
  rcases hp with ⟨hgiven, hcycles⟩ | hclosed
  · cases hround with
    | copy hfree hlast hrest hcode =>
      have hdest : x.dest.content = .reg r := by
        rcases (Round.copy hfree hlast hrest hcode).writes hi hw with hdest | ⟨p, hp, rfl⟩ | ⟨-, -, hall⟩
        · exact hdest
        · exact absurd (mem_readBy_of_address hz hr) (h.scratch p hp).2.1
        · exact absurd hall hnot
      refine ⟨hgiven x hmem, hdest, Bool.eq_false_iff.2 fun himm => ?_, fun hcycle => ?_⟩
      · rw [hlast himm z hz] at hzi
        cases hzi
      · have hnoop : x.isNoop = false := Bool.eq_false_iff.2 fun hnoop => h.proper x hmem (isNoop_eq_true_iff.1 hnoop)
        obtain ⟨y, hy, hynoop, hycycle, hyx⟩ := hcycle.exists_reader hnd hnoop
        exact hfree y (hcycles y hy hynoop hycycle) hyx
    | exchange _ hall _ _ => exact absurd hall hnot
  · obtain ⟨o, ho, hod⟩ := hclosed z hz hzi
    exact absurd hod (hout o ho)

/-! ## Copies of registers come before loads -/

theorem rank_load {l : List Move} (hz : z.src.isMemory = true) : (urgency l z).rank ≤ 5 := by
  have himm : z.src.isImmediate = false := by
    rw [Operand.isMemory] at hz
    rw [Operand.isImmediate]
    cases hc : z.src.content <;> simp_all
  simp only [urgency, himm, hz]
  cases isBlocked l z <;> cases z.dest.isMemory <;> simp [Urgency.rank]

/-- A register that is not blocked is moved before every load. -/
theorem rank_free_register {l : List Move} {q : Register} (hsrc : x.src.content = .reg q) (hb : isBlocked l x = false) :
    6 ≤ (urgency l x).rank := by
  have himm : x.src.isImmediate = false := by rw [Operand.isImmediate, hsrc]
  have hmem : x.src.isMemory = false := by rw [Operand.isMemory, hsrc]
  simp only [urgency, himm, hmem, hb]
  cases x.dest.isMemory <;> simp [Urgency.rank]

/-- A register is copied to a place that nothing reads before any load is made. -/
theorem exists_round_before {q : Register} (hsrc : x.src.content = .reg q)
    (hfree : ∀ o ∈ moves, o.src.content ≠ x.dest.content) (hd : ∀ o ∈ moves, o.dest.isImmediate = false)
    (hz : z.src.isMemory = true) (n : Nat) (s : Sequencer) (hn : s.pending.length ≤ n) (h : Orderly moves s)
    (hgiven : ∀ y ∈ s.pending, y ∈ moves) (hxs : x ∈ s.pending) (hzs : z ∈ s.pending) :
    ∃ round ∈ rounds n s, round.2 = x ∧ z ∈ round.1.pending ∧ roundCode round = [.mov x.src x.dest] := by
  induction n generalizing s with
  | zero =>
    rw [List.length_eq_zero_iff.1 (Nat.le_zero.1 hn)] at hxs
    cases hxs
  | succ n ih =>
    have hnb : isBlocked s.pending x = false := by
      refine Bool.eq_false_iff.2 fun hb => ?_
      obtain ⟨o, ho, heq⟩ := isBlocked_eq_true_iff.1 hb
      exact hfree o (hgiven o ho) heq
    -- While the copy is pending it is not blocked, and so nothing is exchanged.
    have hnot : ¬∀ y ∈ s.pending, y.src.isImmediate = false → isBlocked s.pending y = true := by
      intro hall
      rw [hall x hxs (by rw [Operand.isImmediate, hsrc])] at hnb
      cases hnb
    cases hv : next? s.pending with
    | none =>
      rw [next?_none hv] at hxs
      cases hxs
    | some v =>
      rw [rounds_succ hv]
      obtain ⟨hvs, hmost⟩ := next?_some hv
      by_cases hvx : v = x
      · refine ⟨(s, v), List.mem_cons_self, hvx, hzs, ?_⟩
        subst hvx
        cases h.round hd hv with
        | copy _ _ _ hcode =>
          rcases hcode with ⟨-, hcode⟩ | ⟨⟨hmem, -⟩, -⟩
          · exact hcode
          · rw [Operand.isMemory, hsrc] at hmem
            cases hmem
        | exchange _ hall _ _ => exact absurd hall hnot
      · -- The load is less urgent than the copy, and so than the move that is carried out.
        have hvz : v ≠ z := by
          rintro rfl
          have hx := rank_free_register hsrc hnb
          have hz := rank_load (l := s.pending) hz
          have := hmost x hxs
          omega
        have hrest : (s.perform v).2 = { s with pending := s.pending.erase v } := by
          cases h.round hd hv with
          | copy _ _ hrest _ => exact hrest
          | exchange _ hall _ _ => exact absurd hall hnot
        have hmem := fun y => mem_after_copy (z := y) h.distinct hrest
        have hless : (s.after v).pending.length < s.pending.length := perform_length hvs
        obtain ⟨round, hround, hrest⟩ :=
          ih (s.after v) (by omega) (h.step hd hv) (fun y hy => hgiven y ((hmem y).1 hy).2)
          ((hmem x).2 ⟨Ne.symm hvx, hxs⟩) ((hmem z).2 ⟨Ne.symm hvz, hzs⟩)
        exact ⟨round, List.mem_cons_of_mem _ hround, hrest⟩

/-! ## What registers hold when a load is made -/

section Run

open Machine

variable {w : World} {m m' : Machine}

/-- Writing a place changes no other register. -/
theorem regs_set {c : Content} (h : c ≠ .reg r) (m : Machine) (v : Word) : (m.set c v).regs r = m.regs r := by
  cases c with
  | imm n => rfl
  | reg q => exact if_neg fun heq : r = q => h (heq ▸ rfl)
  | mem a => rfl

/-- An operand in memory is no immediate. -/
theorem isImmediate_of_isMemory {o : Operand} (h : o.isMemory = true) : o.isImmediate = false := by
  rw [Operand.isMemory] at h
  rw [Operand.isImmediate]
  cases hc : o.content <;> simp_all

/-- An operand in memory is no register. -/
theorem content_ne_reg {o : Operand} (h : o.isMemory = true) (q : Register) : o.content ≠ .reg q := by
  intro heq
  rw [Operand.isMemory, heq] at h
  cases h

/-- A push moves the stack pointer down by a word, and no other register. -/
theorem regs_push (m : Machine) (v : Word) (q : Register) :
    (m.push w v).regs q = if q = .phys w.stackPointer then m.regs (.phys w.stackPointer) - 8 else m.regs q := rfl

/-- Taking a word from the stack takes back what putting one there did to the registers. -/
theorem regs_popped {v : Word} (h : ∀ q, m'.regs q = (m.push w v).regs q) (q : Register) :
    (m'.popped w).regs q = m.regs q := by
  rw [popped, setReg_regs, h, regs_push, if_pos rfl]
  split_ifs with hq
  · rw [hq]
    exact BitVec.sub_add_cancel _ 8
  · rw [h, regs_push, if_neg hq]

/-- A pop into memory changes the registers as dropping a word does. -/
theorem exec_pop {o : Operand} (ho : o.isMemory = true) (m : Machine) :
    ∃ m', m.exec w (.pop o) = some m' ∧ ∀ q, m'.regs q = (m.popped w).regs q :=
  ⟨_, put_eq (isImmediate_of_isMemory ho) _ _, fun q => regs_set (content_ne_reg ho q) _ _⟩

/-- A push and a pop into memory leave all registers as they were. -/
theorem exec_push_pop (src : Operand) {dest : Operand} (hdest : dest.isMemory = true) (m : Machine) :
    ∃ m', m.execAll w [.push src, .pop dest] = some m' ∧ ∀ q, m'.regs q = m.regs q := by
  obtain ⟨m', hrun, hregs⟩ := exec_pop (w := w) hdest (m.push w (m.value src))
  refine ⟨m', by rw [execAll, exec, Option.bind_some, execAll, hrun, Option.bind_some, execAll], fun q => ?_⟩
  rw [hregs, regs_popped fun _ => rfl]

theorem exec_exchangeCells (hsrc : x.src.isMemory = true) (hdest : x.dest.isMemory = true) (m : Machine) :
    ∃ m', m.execAll w (exchangeCells x) = some m' ∧ ∀ q, m'.regs q = m.regs q := by
  generalize hm₁ : m.push w (m.value (x.src.withWidth .quad)) = m₁
  obtain ⟨m₃, hrun₃, hregs₃⟩ :=
    exec_pop (w := w) (o := x.src.withWidth .quad) hsrc (m₁.push w (m₁.value (x.dest.withWidth .quad)))
  obtain ⟨m', hrun, hregs⟩ := exec_pop (w := w) (o := x.dest.withWidth .quad) hdest m₃
  refine ⟨m', ?_, fun q => ?_⟩
  · simp only [exchangeCells, execAll, exec, hm₁, Option.bind_some] at hrun₃ hrun ⊢
    simp only [hrun₃, hrun, Option.bind_some]
  · rw [hregs]
    refine regs_popped (v := m.value (x.src.withWidth .quad)) (fun q => ?_) q
    rw [hregs₃, regs_popped fun _ => rfl, hm₁]

/-- A move changes no register but its destination. -/
theorem exec_mov_regs (src : Operand) {dest : Operand} (hdest : dest.isImmediate = false)
    (h : (src.isMemory && dest.isMemory) = false) (m : Machine) :
    ∃ m', m.exec w (.mov src dest) = some m' ∧ ∀ q, dest.content ≠ .reg q → m'.regs q = m.regs q := by
  refine ⟨m.set dest.content (m.value src), ?_, fun _ hq => regs_set hq m _⟩
  rw [exec, h, if_neg Bool.false_ne_true, put_eq hdest]

/-- An exchange changes no register but its two sides. -/
theorem exec_xchg_regs {src dest : Operand} (hsrc : src.isImmediate = false) (hdest : dest.isImmediate = false)
    (m : Machine) :
    ∃ m', m.exec w (.xchg src dest) = some m' ∧ ∀ q, src.content ≠ .reg q → dest.content ≠ .reg q →
      m'.regs q = m.regs q := by
  refine ⟨(m.set src.content (m.value dest)).set dest.content (m.value src), ?_, fun q hs hd => ?_⟩
  · rw [exec, put_eq hsrc, Option.bind_eq_bind, Option.bind_some, put_eq hdest]
  · rw [regs_set hd, regs_set hs]

/-- The code of a round runs, and leaves all registers alone that it does not write. -/
theorem Round.exec (h : s.Round x) (hdest : x.dest.isImmediate = false) (w : World) (m : Machine) :
    ∃ m', m.execAll w (s.perform x).1 = some m' ∧ ∀ q, (∀ i ∈ (s.perform x).1, ¬i.Writes q) → m'.regs q = m.regs q := by
  cases h with
  | copy _ _ _ hcode =>
    rcases hcode with ⟨hmm, hcode⟩ | ⟨⟨hsm, hdm⟩, hcode⟩
    · rw [hcode]
      obtain ⟨m', hrun, hregs⟩ := exec_mov_regs (w := w) _ hdest hmm m
      refine ⟨m', by rw [execAll, hrun, Option.bind_some, execAll], fun q hq => hregs q fun heq => ?_⟩
      exact hq _ (List.mem_singleton_self _) (Instruction.writes_mov.2 heq)
    · rw [hcode]
      cases s.scratch with
      | nil =>
        have hdm' : (x.dest.withWidth .quad).isMemory = true := hdm
        obtain ⟨m', hrun, hregs⟩ := exec_push_pop (w := w) (x.src.withWidth .quad) hdm' m
        exact ⟨m', hrun, fun q _ => hregs q⟩
      | cons p rest =>
        have hp : (Operand.phys x.dest.width p).isImmediate = false := rfl
        obtain ⟨m₁, hrun₁, hregs₁⟩ := exec_mov_regs (w := w) x.src hp (Bool.and_false _) m
        obtain ⟨m', hrun, hregs⟩ := exec_mov_regs (w := w) (.phys x.dest.width p) hdest rfl m₁
        refine ⟨m', by simp only [throughScratch, execAll, hrun₁, hrun, Option.bind_some], fun q hq => ?_⟩
        rw [hregs q (content_ne_reg hdm q), hregs₁ q fun heq => ?_]
        exact hq _ List.mem_cons_self (Instruction.writes_mov.2 heq)
  | exchange himm _ _ hcode =>
    rcases hcode with hcode | ⟨⟨hsm, hdm⟩, hcode⟩
    · rw [hcode]
      obtain ⟨m', hrun, hregs⟩ := exec_xchg_regs (w := w) himm hdest m
      refine ⟨m', by rw [execAll, hrun, Option.bind_some, execAll], fun q hq => ?_⟩
      have hnot := hq _ (List.mem_singleton_self _)
      rw [Instruction.writes_xchg, not_or] at hnot
      exact hregs q hnot.1 hnot.2
    · rw [hcode]
      obtain ⟨m', hrun, hregs⟩ := exec_exchangeCells (w := w) hsm hdm m
      exact ⟨m', hrun, fun q _ => hregs q⟩

/-- A load from a place that no move writes is pending after a round only if it was before, and is not the move that
was made. -/
theorem Orderly.pending_of_after (h : Orderly moves s) (hd : ∀ o ∈ moves, o.dest.isImmediate = false)
    (hx : next? s.pending = some x) (himm : z.src.isImmediate = false)
    (hout : ∀ o ∈ moves, o.dest.content ≠ z.src.content) (hz : z ∈ (s.after x).pending) :
    z ∈ s.pending ∧ z ≠ x := by
  cases h.round hd hx with
  | copy _ _ hrest _ => exact ((mem_after_copy h.distinct hrest).1 hz).symm
  | exchange _ hall _ _ =>
    obtain ⟨-, -, -, -, -, -, v, hv, hsrc⟩ := h.before hd hx hz
    obtain ⟨o, ho, hod⟩ := h.exists_dest_of_blocked hd hall hv (by rwa [Operand.isImmediate, hsrc])
    exact absurd (hod.trans hsrc) (hout o ho)

/-- A move whose source no move writes keeps that source, so it was pending from the beginning. -/
theorem Orderly.pending_of_rounds (h : Orderly moves s) (hd : ∀ o ∈ moves, o.dest.isImmediate = false)
    (himm : z.src.isImmediate = false) (hout : ∀ o ∈ moves, o.dest.content ≠ z.src.content) {n : Nat}
    {round : Sequencer × Move} (hround : round ∈ rounds n s) (hz : z ∈ round.1.pending) : z ∈ s.pending :=
  of_round (P := fun s => z ∈ s.pending) hd (fun _ _ h hx hz => (h.pending_of_after hd hx himm hout hz).1) h hround hz

/-- The rounds before a load is made run, and leave the registers of its address alone if none of them is
overwritten. -/
theorem Orderly.regs_of_rounds (h : Orderly moves s) (hd : ∀ o ∈ moves, o.dest.isImmediate = false)
    (himm : z.src.isImmediate = false) (hout : ∀ o ∈ moves, o.dest.content ≠ z.src.content) {n : Nat}
    {before later : List (Sequencer × Move)} {round : Sequencer × Move}
    (hrounds : rounds n s = before ++ round :: later) (hz : z ∈ round.1.pending)
    (hkept : ∀ round ∈ rounds n s, z ∈ round.1.pending → z ≠ round.2 →
      ∀ r ∈ z.src.addressRegisters, ∀ i ∈ roundCode round, ¬i.Writes r)
    (w : World) (m : Machine) :
    ∃ m', m.execAll w (before.flatMap roundCode) = some m' ∧ ∀ r ∈ z.src.addressRegisters, m'.regs r = m.regs r := by
  induction before generalizing n s m with
  | nil => exact ⟨m, rfl, fun _ _ => rfl⟩
  | cons first before ih =>
    cases n with
    | zero => cases hrounds
    | succ n =>
      cases hx : next? s.pending with
      | none =>
        rw [rounds, hx] at hrounds
        cases hrounds
      | some x =>
        rw [rounds_succ hx] at hrounds hkept
        obtain ⟨rfl, hrest⟩ := List.cons.inj hrounds
        have hlater : round ∈ rounds n (s.after x) := hrest ▸ List.mem_append_right _ List.mem_cons_self
        have hafter := (h.step hd hx).pending_of_rounds hd himm hout hlater hz
        obtain ⟨hpending, hne⟩ := h.pending_of_after hd hx himm hout hafter
        obtain ⟨m₁, hrun₁, hregs₁⟩ := (h.round hd hx).exec (h.dest_isImmediate hd x (next?_some hx).1) w m
        obtain ⟨m', hrun, hregs⟩ :=
          ih (h.step hd hx) hrest (fun later hmem => hkept later (List.mem_cons_of_mem _ hmem)) m₁
        refine ⟨m', ?_, fun r hr => ?_⟩
        · rw [List.flatMap_cons, execAll_append, roundCode, hrun₁, Option.bind_some, hrun]
        · rw [hregs r hr, hregs₁ r (hkept (s, x) List.mem_cons_self hpending hne r hr)]

/-- An address depends on its registers only. -/
theorem address_congr {a : Address} (h : ∀ r ∈ a.registers, m'.regs r = m.regs r) : m'.address a = m.address a := by
  obtain ⟨d, base, index, scale⟩ := a
  have hbase : base.map m'.regs = base.map m.regs := by
    cases base with
    | none => rfl
    | some r => exact congrArg some (h r (List.mem_append_left _ (List.mem_singleton_self r)))
  have hindex : index.map m'.regs = index.map m.regs := by
    cases index with
    | none => rfl
    | some r => exact congrArg some (h r (List.mem_append_right _ (List.mem_singleton_self r)))
  simp only [address, hbase, hindex]

end Run

end Sequencer

namespace Move

/-- **Addresses.** Moves to distinct places are turned into code in rounds. A register of a load's address is
overwritten before the load only by a move to that register which is no constant and changes something; if the load
does not read a place that moves write, this is another move, and on no cycle. A register that is copied to a register
of the address always overwrites it, unless moves read that register. A load of whose address nothing is overwritten
finds the address that it had before all moves. -/
theorem sequence_addresses (moves : List Move) (hdistinct : moves.Pairwise (fun x y => ¬x.dest.sameLocation y.dest))
    (hdest : ∀ x ∈ moves, x.dest.isImmediate = false) :
    sequence moves = .ok ((rounds moves).flatMap Sequencer.roundCode) ∧
      (∀ r z, Overwrites moves r z → ∃ x ∈ moves, x.dest.content = .reg r ∧ x.src.isImmediate = false ∧
      x.isNoop = false ∧ ((∀ o ∈ moves, o.dest.content ≠ z.src.content) → x ≠ z ∧ ¬OnCycle moves x)) ∧
      (∀ x ∈ moves, ∀ z ∈ moves, ∀ q r, x.src.content = .reg q → x.dest.content = .reg r →
      (∀ o ∈ moves, o.src.content ≠ .reg r) → r ∈ z.src.addressRegisters → z.isNoop = false → Overwrites moves r z) ∧
      ∀ z a, z.src.content = .mem a → (∀ o ∈ moves, o.dest.content ≠ .mem a) → (∀ r, ¬Overwrites moves r z) →
        ∀ before round later, rounds moves = before ++ round :: later → z ∈ round.1.pending →
        ∀ (w : World) (m : Machine), ∃ m', m.execAll w (before.flatMap Sequencer.roundCode) = some m' ∧
        m'.address a = m.address a := by
  have hnd := nodup_dests hdistinct
  have hinitial := Sequencer.orderly_initial hnd
  refine ⟨sequence_eq_rounds hnd, ?_, ?_, ?_⟩
  · rintro r z ⟨⟨s, x⟩, hround, hz, hne, hr, i, hi, hw⟩
    obtain ⟨⟨h, hp⟩, hx⟩ :=
      Sequencer.rounds_induction (P := fun s => Sequencer.Orderly moves s ∧ Sequencer.Phase moves s) (fun s x h hx =>
      ⟨h.1.step hdest hx, h.2.step hnd h.1 hdest hx⟩) moves.length
      ⟨hinitial, Sequencer.phase_initial moves⟩ (s, x) hround
    by_cases hout : ∀ o ∈ moves, o.dest.content ≠ z.src.content
    · obtain ⟨hxm, hxd, hxi, hcycle⟩ := h.copy_of_writes hp hnd hdest hx hz hr hout hi hw
      have hnoop : x.isNoop = false :=
        Bool.eq_false_iff.2 fun hnoop => h.proper x (next?_some hx).1 (isNoop_eq_true_iff.1 hnoop)
      exact ⟨x, hxm, hxd, hxi, hnoop, fun _ => ⟨Ne.symm hne, hcycle⟩⟩
    · obtain ⟨v, hv, hvi, hvd⟩ := h.exists_dest_of_writes hdest hx hz hr hi hw
      obtain ⟨o, ho, hnoop, hod, -, hoi⟩ := h.origin v hv
      exact ⟨o, ho, by rw [hod, hvd], hoi.trans hvi, hnoop, fun h => absurd h hout⟩
  · intro x hx z hz q r hxs hxd hfree hr hznoop
    have hxnoop : x.isNoop = false := Bool.eq_false_iff.2 fun hnoop =>
      hfree x hx ((isNoop_eq_true_iff.1 hnoop).trans hxd)
    obtain ⟨a, ha, -⟩ := Sequencer.isMemory_of_address hr
    have hzm : z.src.isMemory = true := by rw [Operand.isMemory, ha]
    obtain ⟨⟨s, v⟩, hround, rfl, hzs, hcode⟩ :=
      Sequencer.exists_round_before hxs (fun o ho => hxd ▸ hfree o ho) hdest hzm moves.length (.initial moves)
      (List.length_filter_le _ _) hinitial (fun y hy => List.mem_of_mem_filter hy)
      (List.mem_filter.2 ⟨hx, by rw [hxnoop]; rfl⟩) (List.mem_filter.2 ⟨hz, by rw [hznoop]; rfl⟩)
    have hzv : z ≠ v := by
      rintro rfl
      rw [ha] at hxs
      cases hxs
    exact ⟨(s, v), hround, hzs, hzv, hr, .mov v.src v.dest, hcode ▸ List.mem_singleton_self _,
      Instruction.writes_mov.2 hxd⟩
  · intro z a ha hout hkept before round later hrounds hz w m
    have himm : z.src.isImmediate = false := by rw [Operand.isImmediate, ha]
    have haddress : z.src.addressRegisters = a.registers := by rw [Operand.addressRegisters, ha]
    obtain ⟨m', hrun, hregs⟩ := hinitial.regs_of_rounds hdest himm (ha ▸ hout) hrounds hz
      (fun round hround hz hne r hr i hi hw => hkept r ⟨round, hround, hz, hne, hr, i, hi, hw⟩) w m
    exact ⟨m', hrun, Sequencer.address_congr (haddress ▸ hregs)⟩

/-- A load from an address in a register. -/
def load : Move := ⟨.mem .quad (.offset (.phys .b) 0), .phys .quad .c⟩

/-- The register of the address is exchanged with another one. -/
def circled : List Move := [⟨.phys .quad .a, .phys .quad .b⟩, ⟨.phys .quad .b, .phys .quad .a⟩, load]

/-- The load is made before the exchange. -/
theorem sequence_addresses_circled :
    circled.Pairwise (fun x y => ¬x.dest.sameLocation y.dest) ∧ (∀ x ∈ circled, x.dest.isImmediate = false) ∧
      ∀ before round later, rounds circled = before ++ round :: later → load ∈ round.1.pending →
      ∀ (w : World) (m : Machine), ∃ m', m.execAll w (before.flatMap Sequencer.roundCode) = some m' ∧
          m'.address (.offset (.phys .b) 0) = m.address (.offset (.phys .b) 0) := by
  refine ⟨by decide, by decide, ?_⟩
  obtain ⟨-, honly, -, hkept⟩ := sequence_addresses circled (by decide) (by decide)
  refine hkept load _ rfl (by decide) fun r hr => ?_
  obtain ⟨x, hx, -, -, -, hother⟩ := honly r load hr
  obtain ⟨hne, hcycle⟩ := hother (by decide)
  have hthere : Feeds circled ⟨.phys .quad .a, .phys .quad .b⟩ ⟨.phys .quad .b, .phys .quad .a⟩ :=
    ⟨by decide, by decide, rfl⟩
  have hback : Feeds circled ⟨.phys .quad .b, .phys .quad .a⟩ ⟨.phys .quad .a, .phys .quad .b⟩ :=
    ⟨by decide, by decide, rfl⟩
  simp only [circled, List.mem_cons, List.not_mem_nil, or_false] at hx
  rcases hx with rfl | rfl | rfl
  · exact hcycle (.tail (.single hthere) hback)
  · exact hcycle (.tail (.single hback) hthere)
  · exact hne rfl

/-- The register of the address is written, and its value is not needed elsewhere. -/
def stranded : List Move := [⟨.phys .quad .a, .phys .quad .b⟩, load]

/-- The register is written before the load is made, which then reads from another address. -/
theorem sequence_stranded :
    stranded.Pairwise (fun x y => ¬x.dest.sameLocation y.dest) ∧ Overwrites stranded (.phys .b) load ∧
      ∃ code m', sequence stranded = .ok code ∧ numbered.execAll ⟨.sp, [], fun _ _ => 0⟩ code = some m' ∧
        m'.value load.dest = numbered.memory 0 ∧ numbered.value load.src = numbered.memory 1 ∧
        numbered.memory 0 ≠ numbered.memory 1 := by
  refine ⟨by decide, ⟨(.initial stranded, ⟨.phys .quad .a, .phys .quad .b⟩), by decide, by decide, by decide, by decide,
    .mov (.phys .quad .a) (.phys .quad .b), by decide, ⟨.phys .b, false⟩, by decide, rfl⟩, ?_⟩
  exact ⟨_, _, rfl, rfl, by decide, by decide, by decide⟩

end Move

end RegAlloc
