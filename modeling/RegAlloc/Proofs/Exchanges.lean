import RegAlloc.Proofs.Cycles
import RegAlloc.Proofs.Order
import RegAlloc.Proofs.Rounds

/-!
# How many instructions moves between registers take

Moves between registers make a graph, with an edge from what a move reads to what it writes, and only its cycles need
exchanges. Every round emits one instruction (`Sequencer.Orderly.count_round`). A copy is made to a register that
nothing reads, so it is on no cycle. An exchange is made when only cycles are left: it carries out one move of a cycle
and leads the next one past it, which shortens the cycle by one (`Sequencer.Orderly.bypass`), and the last exchange of
a cycle carries out two moves at once (`Sequencer.Orderly.length_after_exchange`).
-/

namespace RegAlloc

/-- Whether an instruction exchanges two places. -/
def Instruction.isExchange : Instruction → Bool
  | .xchg _ _ => true
  | _ => false

/-- Registers are told apart by what an operand holds. -/
theorem Content.phys_inj {p q : PhysReg} (h : Content.reg (.phys p) = .reg (.phys q)) : p = q :=
  Register.phys.inj (Content.reg.inj h)

theorem Operand.isImmediate_of_phys {o : Operand} {p : PhysReg} (h : o.content = .reg (.phys p)) :
    o.isImmediate = false := by
  rw [isImmediate, h]

instance : Finite PhysReg := (Fintype.ofList PhysReg.all PhysReg.mem_all).finite

namespace Move

variable {moves : List Move}

/-- The graph of moves: some move reads the first register and writes the second. -/
def Edge (moves : List Move) (p q : PhysReg) : Prop :=
  ∃ x ∈ moves, x.src.content = .reg (.phys p) ∧ x.dest.content = .reg (.phys q)

/-- The cycles of at least two registers in the graph of moves. -/
def cycles (moves : List Move) : Set (Cycle PhysReg) := simpleCycles (Edge moves)

/-- Moves from registers or constants to registers. -/
structure OnRegisters (moves : List Move) : Prop where
  dests : ∀ x ∈ moves, ∃ p, x.dest.content = .reg (.phys p)
  sources : ∀ x ∈ moves, (∃ p, x.src.content = .reg (.phys p)) ∨ ∃ v, x.src.content = .imm v

namespace OnRegisters

variable {x : Move}

/-- Moves between registers have destinations that can be written. -/
theorem dest_isImmediate (h : OnRegisters moves) : ∀ x ∈ moves, x.dest.isImmediate = false := by
  intro x hx
  obtain ⟨p, hp⟩ := h.dests x hx
  exact Operand.isImmediate_of_phys hp

/-- None of their sources is in memory. -/
theorem src_isMemory (h : OnRegisters moves) (hx : x ∈ moves) : x.src.isMemory = false := by
  rcases h.sources x hx with ⟨p, hp⟩ | ⟨v, hv⟩
  · rw [Operand.isMemory, hp]
  · rw [Operand.isMemory, hv]

/-- A source that is no immediate is a register. -/
theorem exists_source (h : OnRegisters moves) (hx : x ∈ moves) (himm : x.src.isImmediate = false) :
    ∃ p, x.src.content = .reg (.phys p) := by
  refine (h.sources x hx).resolve_right fun hv => ?_
  rw [isImmediate_eq_true_iff.2 hv] at himm
  cases himm

end OnRegisters

/-- Only one register is moved to a register. -/
theorem edge_into (hnd : (moves.map (fun x => x.dest.content)).Nodup) :
    ∀ u v w, Edge moves u w → Edge moves v w → u = v := by
  rintro u v w ⟨x, hx, hxu, hxw⟩ ⟨y, hy, hyv, hyw⟩
  obtain rfl := Sequencer.eq_of_dest_eq hnd hx hy (hxw.trans hyw.symm)
  exact Content.phys_inj (hxu.symm.trans hyv)

/-- Moves that change nothing are on no cycle. -/
theorem cycles_initial (hnd : (moves.map (fun x => x.dest.content)).Nodup) :
    cycles (Sequencer.initial moves).pending = cycles moves := by
  refine simpleCycles_eq_of_loops (edge_into hnd) fun u v => ?_
  constructor
  · rintro ⟨x, hx, hu, hv⟩
    obtain ⟨hx, hnoop⟩ := List.mem_filter.1 hx
    refine ⟨⟨x, hx, hu, hv⟩, ?_⟩
    rintro rfl
    rw [isNoop_eq_true_iff.2 (hu.trans hv.symm)] at hnoop
    cases hnoop
  · rintro ⟨⟨x, hx, hu, hv⟩, hne⟩
    refine ⟨x, List.mem_filter.2 ⟨hx, ?_⟩, hu, hv⟩
    rw [Bool.not_eq_true', Bool.eq_false_iff, Ne, isNoop_eq_true_iff, hu, hv]
    exact fun heq => hne (Content.phys_inj heq)

end Move

namespace Sequencer

open Move

variable {moves : List Move} {s : Sequencer} {x : Move} {p q : PhysReg}

namespace Orderly

/-- What is still to be moved is moved between registers, too. -/
theorem onRegisters (h : Orderly moves s) (hm : OnRegisters moves) : OnRegisters s.pending := by
  constructor
  · intro x hx
    obtain ⟨o, ho, -, hdest, -⟩ := h.origin x hx
    exact hdest ▸ hm.dests o ho
  · intro x hx
    obtain ⟨o, ho, hsrc⟩ := h.sources x hx
    exact hsrc ▸ hm.sources o ho

/-- A copy leaves the cycles as they are. -/
theorem cycles_after_copy (h : Orderly moves s) (hm : OnRegisters moves) (hx : x ∈ s.pending)
    (hfree : ∀ o ∈ s.pending, o.src.content ≠ x.dest.content)
    (hrest : (s.perform x).2 = { s with pending := s.pending.erase x }) :
    cycles (s.after x).pending = cycles s.pending := by
  obtain ⟨q, hq⟩ := (h.onRegisters hm).dests x hx
  refine simpleCycles_eq_of_dead_end (b := q) ?_ fun u v => ?_
  · rintro v ⟨o, ho, hoq, -⟩
    exact hfree o ho (hoq.trans hq.symm)
  · constructor
    · rintro ⟨y, hy, hu, hv⟩
      obtain ⟨hyx, hy⟩ := (mem_after_copy h.distinct hrest).1 hy
      refine ⟨⟨y, hy, hu, hv⟩, ?_⟩
      rintro rfl
      exact hyx (eq_of_dest_eq h.distinct hy hx (hv.trans hq.symm))
    · rintro ⟨⟨y, hy, hu, hv⟩, hvq⟩
      refine ⟨y, (mem_after_copy h.distinct hrest).2 ⟨?_, hy⟩, hu, hv⟩
      rintro rfl
      exact hvq (Content.phys_inj (hv.symm.trans hq))

section Exchange

variable (h : Orderly moves s) (hm : OnRegisters moves)
  (hall : ∀ y ∈ s.pending, y.src.isImmediate = false → isBlocked s.pending y = true)

include h hm hall

/-- When all moves are blocked, a register is moved to one register only. -/
theorem edge_out : ∀ u v w, Edge s.pending u v → Edge s.pending u w → v = w := by
  rintro u v w ⟨y, hy, hyu, hyv⟩ ⟨z, hz, hzu, hzw⟩
  have himm := Operand.isImmediate_of_phys hyu
  obtain ⟨honly, -⟩ := blocked_sources h.distinct (h.onRegisters hm).dest_isImmediate hall hy himm
  obtain rfl := honly z hz (hzu.trans hyu.symm)
  exact Content.phys_inj (hyv.symm.trans hzw)

/-- When all moves are blocked, every move from a register is on a cycle. -/
theorem exists_cycle (hedge : Edge s.pending p q) : ∃ c ∈ cycles s.pending, p ∈ c := by
  refine exists_simpleCycle (edge_into h.distinct) ?_ ?_ hedge
  · rintro u ⟨y, hy, hyu, hyu'⟩
    exact h.proper y hy (hyu.trans hyu'.symm)
  · rintro u v ⟨y, hy, hyu, hyv⟩
    have himm := Operand.isImmediate_of_phys hyu
    obtain ⟨o, ho, hov⟩ := isBlocked_eq_true_iff.1 (hall y hy himm)
    obtain ⟨w, hw⟩ := (h.onRegisters hm).dests o ho
    exact ⟨w, o, ho, hov.trans hyv, hw⟩

variable (hx : x ∈ s.pending) (hp : x.src.content = .reg (.phys p)) (hq : x.dest.content = .reg (.phys q))

include hx hp hq

/-- An exchange brings another value into place only if it closes a cycle of two. -/
theorem isNoop_redirect {y : Move} (hy : y ∈ s.pending.erase x) :
    (redirect x y).isNoop = true ↔ y.src.content = .reg (.phys q) ∧ y.dest.content = .reg (.phys p) := by
  have himm := Operand.isImmediate_of_phys hp
  obtain ⟨hyx, hy⟩ := (mem_erase_pending h.distinct).1 hy
  obtain ⟨honly, -⟩ := blocked_sources h.distinct (h.onRegisters hm).dest_isImmediate hall hx himm
  rw [isNoop_eq_true_iff, redirect_src fun heq => hyx (honly y hy heq), redirect_dest, hq, hp]
  split_ifs with hyq
  · exact ⟨fun heq => ⟨hyq, heq.symm⟩, fun heq => heq.2.symm⟩
  · exact ⟨fun heq => absurd heq (h.proper y hy), fun heq => absurd heq.1 hyq⟩

variable (hrest : (s.perform x).2 = { s with pending := s.pending.erase x }.exchanged x)

include hrest

/-- An exchange leads the move that reads its destination past it. -/
theorem bypass : Bypass (Edge s.pending) (Edge (s.after x).pending) p q := by
  have himm := Operand.isImmediate_of_phys hp
  have hpq : p ≠ q := by
    rintro rfl
    exact h.proper x hx (hp.trans hq.symm)
  have hmem := fun z => mem_after_exchange (z := z) h.distinct (h.onRegisters hm).dest_isImmediate hx himm hall hrest
  refine ⟨h.edge_out hm hall, edge_into h.distinct, ⟨x, hx, hp, hq⟩, fun u v => ?_⟩
  constructor
  · rintro ⟨z, hz, hu, hv⟩
    obtain ⟨y, hy, -, hsrc, rfl, hne⟩ := (hmem z).1 hz
    split_ifs at hu hv hne with hyq
    · refine .inl ⟨Content.phys_inj (hu.symm.trans hp), ?_, y, hy, hyq.trans hq, hv⟩
      rintro rfl
      exact hne (hp.trans hv.symm)
    · refine .inr ⟨?_, ?_, y, hy, hu, hv⟩
      · rintro rfl
        exact hsrc (hu.trans hp.symm)
      · rintro rfl
        exact hyq (hu.trans hq.symm)
  · rintro (⟨rfl, hvp, y, hy, hyq, hyv⟩ | ⟨hup, huq, y, hy, hyu, hyv⟩)
    · have hsrc : y.src.content ≠ x.src.content := fun heq =>
        hpq (Content.phys_inj (hp.symm.trans (heq.symm.trans hyq)))
      refine ⟨⟨x.src.withWidth y.src.width, y.dest⟩,
        (hmem _).2 ⟨y, hy, fun heq => hsrc (heq ▸ rfl), hsrc, ?_, ?_⟩, hp, hyv⟩
      · rw [if_pos (hyq.trans hq.symm)]
      · exact fun heq => hvp (Content.phys_inj (hyv.symm.trans (heq.symm.trans hp)))
    · have hsrc : y.src.content ≠ x.src.content := fun heq => hup (Content.phys_inj (hyu.symm.trans (heq.trans hp)))
      refine ⟨y, (hmem _).2 ⟨y, hy, fun heq => hsrc (heq ▸ rfl), hsrc, ?_, h.proper y hy⟩, hyu, hyv⟩
      rw [if_neg fun heq => huq (Content.phys_inj (hyu.symm.trans (heq.trans hq)))]

/-- An exchange carries out one move, and two if it closes a cycle of two. -/
theorem length_after_exchange :
    (Edge s.pending q p → s.pending.length = (s.after x).pending.length + 2) ∧
      (¬Edge s.pending q p → s.pending.length = (s.after x).pending.length + 1) := by
  have hpending : (s.after x).pending = ((s.pending.erase x).map (redirect x)).filter (fun z => !z.isNoop) := by
    rw [after, hrest]
    rfl
  have hlen : s.pending.length =
      (s.after x).pending.length + ((s.pending.erase x).countP fun y => (redirect x y).isNoop) + 1 := by
    have h1 := List.length_erase_of_mem hx
    have h2 := List.length_pos_of_mem hx
    have h3 := List.length_eq_countP_add_countP Move.isNoop (l := (s.pending.erase x).map (redirect x))
    rw [List.length_map, List.countP_map] at h3
    rw [hpending, ← List.countP_eq_length_filter]
    simp only [Bool.not_eq_true, Bool.decide_eq_false, Function.comp_def] at h3
    omega
  have hnoop := fun y hy => h.isNoop_redirect hm hall hx hp hq (y := y) hy
  constructor
  · rintro ⟨y, hy, hyq, hyp⟩
    have hyx : y ≠ x := by
      rintro rfl
      exact h.proper y hy (hyq.trans hq.symm)
    have hy' := (mem_erase_pending h.distinct).2 ⟨hyx, hy⟩
    have hone : ((s.pending.erase x).countP fun z => (redirect x z).isNoop) = (s.pending.erase x).count y := by
      refine List.countP_congr fun z hz => ?_
      rw [hnoop z hz, beq_iff_eq]
      constructor
      · rintro ⟨-, hzp⟩
        exact eq_of_dest_eq h.distinct (List.mem_of_mem_erase hz) hy (hzp.trans hyp.symm)
      · rintro rfl
        exact ⟨hyq, hyp⟩
    rw [hlen, hone, List.count_eq_one_of_mem ((List.Nodup.of_map _ h.distinct).erase x) hy']
  · intro hnone
    have hzero : ((s.pending.erase x).countP fun z => (redirect x z).isNoop) = 0 := by
      rw [List.countP_eq_zero]
      intro z hz hz'
      obtain ⟨hzq, hzp⟩ := (hnoop z hz).1 hz'
      exact hnone ⟨z, List.mem_of_mem_erase hz, hzq, hzp⟩
    rw [hlen, hzero]

end Exchange

/-- What a round emits, and what it makes of the pending moves and their cycles. -/
theorem count_round (h : Orderly moves s) (hm : OnRegisters moves) (hx : next? s.pending = some x) :
    ((s.perform x).1 = [.mov x.src x.dest] ∧ s.pending.length = (s.after x).pending.length + 1 ∧
        cycles (s.after x).pending = cycles s.pending) ∨
      (s.perform x).1 = [.xchg x.src x.dest] ∧
        s.pending.length + (cycles (s.after x).pending).ncard =
          (s.after x).pending.length + (cycles s.pending).ncard + 1 ∧
        (∑ᶠ c ∈ cycles s.pending, (c.length - 1)) = (∑ᶠ c ∈ cycles (s.after x).pending, (c.length - 1)) + 1 := by
  have hround := h.round hm.dest_isImmediate hx
  have hx := (next?_some hx).1
  have hmem := (h.onRegisters hm).src_isMemory hx
  cases hround with
  | copy hfree _ hrest hcode =>
    refine .inl ⟨?_, ?_, h.cycles_after_copy hm hx hfree hrest⟩
    · rcases hcode with ⟨-, hcode⟩ | ⟨⟨hsrc, -⟩, -⟩
      · exact hcode
      · rw [hmem] at hsrc
        cases hsrc
    · have h1 := List.length_erase_of_mem hx
      have h2 := List.length_pos_of_mem hx
      rw [after, hrest]
      simp only [settle]
      omega
  | exchange himm hall hrest hcode =>
    obtain ⟨p, hp⟩ := (h.onRegisters hm).exists_source hx himm
    obtain ⟨q, hq⟩ := (h.onRegisters hm).dests x hx
    have hbypass := h.bypass hm hall hx hp hq hrest
    obtain ⟨hsum, hclosed, hopen⟩ := hbypass.count_simpleCycles (h.exists_cycle hm hall hbypass.edge)
    obtain ⟨hclosed', hopen'⟩ := h.length_after_exchange hm hall hx hp hq hrest
    refine .inr ⟨?_, ?_, hsum⟩
    · rcases hcode with hcode | ⟨⟨hsrc, -⟩, -⟩
      · exact hcode
      · rw [hmem] at hsrc
        cases hsrc
    · rw [cycles, cycles]
      by_cases hqp : Edge s.pending q p
      · rw [hclosed hqp, hclosed' hqp]
        omega
      · rw [hopen hqp, hopen' hqp]
        omega

/-- The instructions from a state on. -/
theorem count_run (hm : OnRegisters moves) (n : Nat) (s : Sequencer) (h : Orderly moves s)
    (hlen : s.pending.length ≤ n) :
    (run n s).length + (cycles s.pending).ncard = s.pending.length ∧
      (run n s).countP Instruction.isExchange = (∑ᶠ c ∈ cycles s.pending, (c.length - 1)) ∧
      ∀ i ∈ run n s, (∃ src dest, i = .mov src dest) ∨ ∃ left right, i = .xchg left right := by
  have hnil : cycles [] = ∅ := by
    refine simpleCycles_eq_empty ?_
    rintro u v ⟨x, hx, -⟩
    cases hx
  induction n generalizing s with
  | zero =>
    rw [List.length_eq_zero_iff.1 (Nat.le_zero.1 hlen), hnil]
    simp [run]
  | succ n ih =>
    cases hx : next? s.pending with
    | none =>
      rw [next?_none hx, hnil]
      simp [run, hx]
    | some x =>
      have hrun : run (n + 1) s = (s.perform x).1 ++ run n (s.after x) := by rw [run, hx, after]
      have hless : (s.after x).pending.length < s.pending.length := perform_length (next?_some hx).1
      obtain ⟨ihlen, ihsum, ihkind⟩ := ih (s.after x) (h.step hm.dest_isImmediate hx) (by omega)
      rw [hrun]
      rcases h.count_round hm hx with ⟨hcode, hpending, hcycles⟩ | ⟨hcode, hpending, hsum⟩
      · rw [hcycles] at ihlen ihsum
        rw [hcode]
        refine ⟨?_, ?_, ?_⟩
        · rw [List.singleton_append, List.length_cons]
          omega
        · rw [List.singleton_append, List.countP_cons_of_neg Bool.false_ne_true, ihsum]
        · exact List.forall_mem_cons.2 ⟨.inl ⟨_, _, rfl⟩, ihkind⟩
      · rw [hcode]
        refine ⟨?_, ?_, ?_⟩
        · rw [List.singleton_append, List.length_cons]
          omega
        · rw [List.singleton_append, List.countP_cons_of_pos rfl, ihsum, hsum]
        · exact List.forall_mem_cons.2 ⟨.inr ⟨_, _, rfl⟩, ihkind⟩

end Orderly

end Sequencer

namespace Move

/-- **Moves between registers take as few instructions as their cycles allow.** Moves from registers or constants to
distinct registers are turned into one instruction for each move that changes something, less one for each cycle of at
least two registers. On every cycle all but one of the instructions are exchanges, and all other instructions are
copies: nothing goes through the stack. -/
theorem sequence_count (moves : List Move) (hdistinct : moves.Pairwise (fun x y => ¬x.dest.sameLocation y.dest))
    (hdest : ∀ x ∈ moves, ∃ p, x.dest.content = .reg (.phys p))
    (hsrc : ∀ x ∈ moves, (∃ p, x.src.content = .reg (.phys p)) ∨ ∃ v, x.src.content = .imm v) :
    (cycles moves).Finite ∧ ∃ code, sequence moves = .ok code ∧
      code.length + (cycles moves).ncard = moves.countP (fun x => !x.isNoop) ∧
      code.countP Instruction.isExchange = (∑ᶠ c ∈ cycles moves, (c.length - 1)) ∧
      ∀ i ∈ code, (∃ src dest, i = .mov src dest) ∨ ∃ left right, i = .xchg left right := by
  have hnd := nodup_dests hdistinct
  refine ⟨finite_simpleCycles _, _, sequence_eq_ok hnd, ?_⟩
  rw [← cycles_initial hnd, List.countP_eq_length_filter]
  exact Sequencer.Orderly.count_run ⟨hdest, hsrc⟩ _ _ (Sequencer.orderly_initial hnd) (List.length_filter_le _ _)

/-- A ring of three registers, a chain that begins with a constant, and a value that stays in its place. -/
def ring : List Move :=
  [⟨.phys .quad .a, .phys .quad .b⟩, ⟨.phys .quad .b, .phys .quad .c⟩, ⟨.phys .long .c, .phys .quad .a⟩,
    ⟨.imm .quad 5, .phys .quad .d⟩, ⟨.phys .quad .d, .phys .quad .si⟩, ⟨.phys .quad .r8, .phys .quad .r8⟩]

/-- The ring takes two exchanges, and the chain two copies. -/
theorem sequence_count_ring :
    sequence ring = .ok [.mov (.phys .quad .d) (.phys .quad .si), .xchg (.phys .quad .a) (.phys .quad .b),
        .xchg (.phys .quad .a) (.phys .quad .c), .mov (.imm .quad 5) (.phys .quad .d)] ∧
      (cycles ring).ncard = 1 ∧ (∑ᶠ c ∈ cycles ring, (c.length - 1)) = 2 := by
  have hdest : ∀ x ∈ ring, ∃ p, x.dest.content = .reg (.phys p) := by simp [ring, Operand.phys]
  have hsrc : ∀ x ∈ ring, (∃ p, x.src.content = .reg (.phys p)) ∨ ∃ v, x.src.content = .imm v := by
    simp [ring, Operand.phys, Operand.imm]
  obtain ⟨-, code, hcode, hlen, hsum, -⟩ := sequence_count ring (by decide) hdest hsrc
  obtain rfl := Except.ok.inj hcode
  have hmoves : ring.countP (fun x => !x.isNoop) = 5 := by decide
  refine ⟨rfl, ?_, hsum.symm⟩
  rw [hmoves] at hlen
  exact Nat.add_left_cancel (n := 4) hlen

end Move

end RegAlloc
