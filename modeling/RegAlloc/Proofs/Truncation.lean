import RegAlloc.Proofs.Rounds

/-!
# Moves of different widths

A narrow instruction transfers only the low bytes of a value (`Machine.execLow`). Copies are as wide as the moves that
they carry out, but an exchange carries out one move and takes the value of another one to a new place: that value is
cut if the exchange is narrower than the other move. `Move.exchangesWide` checks the rounds of moves for such
exchanges, and is exact (`Move.sequence_widths`): if it holds, every destination gets all low bytes that its source
had, and otherwise there is a machine on which some destination does not.

Bits are followed one column at a time. `Sequencer.Tracks` says which bit pending moves find in a column, and which
bit is in the destinations of moves that are done. For the converse the one bit that is set on the machine is that of
the value which is cut (`Machine.token`). Until places are exchanged it is in its source; then it is with the one
pending move whose value it is, and once that has been cut no pending move finds it any more.
-/

namespace RegAlloc

namespace Width

/-- The number of bits. -/
def bits (w : Width) : Nat := 8 * w.bytes

/-- No width has more bits than a word. -/
theorem bits_le (w : Width) : w.bits ≤ 64 := by cases w <;> decide

/-- A word with as many low bits of another one as the width says. -/
def overlay (w : Width) (old new : Word) : Word :=
  (old &&& BitVec.allOnes 64 <<< w.bits) ||| (new &&& ~~~(BitVec.allOnes 64 <<< w.bits))

/-- A write of some width changes the low bits. -/
theorem getLsbD_overlay (w : Width) (old new : Word) (j : Nat) :
    (w.overlay old new).getLsbD j = (if j < w.bits then new else old).getLsbD j := by
  have hle := w.bits_le
  by_cases hj : j < 64
  · have hsub : j - w.bits < 64 := by omega
    simp only [overlay, BitVec.getLsbD_or, BitVec.getLsbD_and, BitVec.getLsbD_not, BitVec.getLsbD_shiftLeft,
      BitVec.getLsbD_allOnes, hj, hsub]
    by_cases hw : j < w.bits
    · simp [hw]
    · simp [hw]
  · have hge := Nat.le_of_not_lt hj
    rw [BitVec.getLsbD_of_ge _ _ hge, BitVec.getLsbD_of_ge _ _ hge]

/-- A write of a whole word changes all. -/
theorem overlay_quad (old new : Word) : Width.quad.overlay old new = new := by
  apply BitVec.eq_of_getLsbD_eq
  intro j hj
  rw [getLsbD_overlay, if_pos (show j < Width.quad.bits from hj)]

/-- Words agree up to a width if they agree bit by bit. -/
theorem setWidth_eq_iff {n : Nat} {x y : Word} : x.setWidth n = y.setWidth n ↔ ∀ j < n, x.getLsbD j = y.getLsbD j := by
  rw [BitVec.eq_of_getLsbD_eq_iff]
  simp only [BitVec.getLsbD_setWidth]
  constructor
  · intro h j hj
    simpa [hj] using h j hj
  · intro h j hj
    simp [hj, h j hj]

end Width

/-! ## Narrow instructions -/

namespace Machine

/-- Write the low bytes of an operand, as many as it is wide. -/
def putLow (m : Machine) (o : Operand) (x : Word) : Option Machine := m.put o (o.width.overlay (m.value o) x)

/-- Carry out one instruction. One that moves values transfers only as many low bytes as it is wide. -/
def execLow (w : World) (m : Machine) : Instruction → Option Machine
  | .mov src dest => if src.isMemory && dest.isMemory then none else m.putLow dest (m.value src)
  | .xchg left right => do (← m.putLow left (m.value right)).putLow right (m.value left)
  | .pop operand => (m.popped w).putLow operand (m.memory (m.regs (.phys w.stackPointer)))
  | i => m.exec w i

/-- Carry out instructions one after the other. -/
def execAllLow (w : World) (m : Machine) : List Instruction → Option Machine
  | [] => some m
  | i :: rest => (m.execLow w i).bind (fun m' => execAllLow w m' rest)

/-- Code that cuts values runs by running its parts. -/
theorem execAllLow_append (w : World) (m : Machine) (c d : List Instruction) :
    m.execAllLow w (c ++ d) = (m.execAllLow w c).bind (fun m' => m'.execAllLow w d) := by
  induction c generalizing m with
  | nil => rfl
  | cons i c ih =>
    simp only [List.cons_append, execAllLow]
    cases m.execLow w i with
    | none => rfl
    | some m' => exact ih m'

variable {base : PhysReg} {slots : Set Int} {w : World} {m m' : Machine} {src dest o : Operand} {x : Move}

/-- Writing a place writes its low bits. -/
theorem putLow_place {top : PhysReg} (h : Place base top slots o.content) (m : Machine) (v : Word) :
    m.putLow o v = some (m.set o.content (o.width.overlay (m.get o.content) v)) := put_place h m _

theorem putLow_quad (h : o.width = .quad) (m : Machine) (v : Word) : m.putLow o v = m.put o v := by
  rw [putLow, h, Width.overlay_quad]

theorem execLow_pop (h : o.width = .quad) : m.execLow w (.pop o) = m.exec w (.pop o) := putLow_quad h _ _

/-- Whole words are copied through the stack. -/
theorem execAllLow_push_pop (src dest : Operand) (m : Machine) :
    m.execAllLow w [.push (src.withWidth .quad), .pop (dest.withWidth .quad)] =
      m.execAll w [.push (src.withWidth .quad), .pop (dest.withWidth .quad)] := by
  simp only [execAllLow, execAll, execLow_pop (show (dest.withWidth .quad).width = .quad from rfl)]
  rfl

/-- Whole words are exchanged through the stack. -/
theorem execAllLow_exchangeCells (x : Move) (m : Machine) :
    m.execAllLow w (Move.exchangeCells x) = m.execAll w (Move.exchangeCells x) := by
  simp only [Move.exchangeCells, execAllLow, execAll, execLow_pop (show (x.src.withWidth .quad).width = .quad from rfl),
    execLow_pop (show (x.dest.withWidth .quad).width = .quad from rfl)]
  rfl

/-- An operand in memory has no register of its own. -/
theorem not_mem_regsOf (h : o.isMemory = true) (p : PhysReg) : p ∉ regsOf o.content := by
  intro hp
  rw [Operand.isMemory, hp] at h
  cases h

/-- What a copy does: the destination holds the low bits of the source. Next to it only the registers of `junk`
change. -/
structure CopiedLow (base top : PhysReg) (slots : Set Int) (n : Nat) (junk : Set PhysReg) (src dest : Content)
    (m m' : Machine) :
    Prop where
  target : ∀ j < n, (m'.get dest).getLsbD j = (m.get src).getLsbD j
  others : ∀ c, Source base top slots c → c ≠ dest → (∀ p ∈ junk, c ≠ .reg (.phys p)) → m'.get c = m.get c
  frame : SameFrame base top m m'

/-- What an exchange does: each of two places holds the low bits of the other. -/
structure SwappedLow (base top : PhysReg) (slots : Set Int) (n : Nat) (src dest : Content) (m m' : Machine) : Prop where
  target : ∀ j, (m'.get dest).getLsbD j = (if j < n then m.get src else m.get dest).getLsbD j
  back : ∀ j, (m'.get src).getLsbD j = (if j < n then m.get dest else m.get src).getLsbD j
  others : ∀ c, Source base top slots c → c ≠ src → c ≠ dest → m'.get c = m.get c
  frame : SameFrame base top m m'

theorem copiedLow_mov (src dest : Operand) (hf : Framed base w.stackPointer slots m)
    (hd : Place base w.stackPointer slots dest.content) (h : (src.isMemory && dest.isMemory) = false) :
    ∃ m', m.execLow w (.mov src dest) = some m' ∧
      CopiedLow base w.stackPointer slots dest.width.bits ∅ src.content dest.content m m' := by
  refine ⟨m.set dest.content (dest.width.overlay (m.get dest.content) (m.get src.content)), ?_, fun j hj => ?_,
    fun c hc hne _ => get_set_ne hf hd hc hne, sameFrame_set hd m _⟩
  · rw [execLow, h, if_neg Bool.false_ne_true, putLow_place hd, value]
  · rw [get_set_self hd, Width.getLsbD_overlay, if_pos hj]

theorem copiedLow_throughScratch (hbase : base ≠ w.stackPointer) (hf : Framed base w.stackPointer slots m)
    (hd : Place base w.stackPointer slots x.dest.content) (hdm : x.dest.isMemory = true) {scratch : List PhysReg}
    (hscratch : ∀ p ∈ scratch, p ≠ base ∧ p ≠ w.stackPointer) :
    ∃ m', m.execAllLow w (Move.throughScratch scratch x) = some m' ∧
      CopiedLow base w.stackPointer slots x.dest.width.bits {p | p ∈ scratch} x.src.content x.dest.content m m' := by
  cases scratch with
  | nil =>
    obtain ⟨m', hrun, hcopied⟩ := copied_throughScratch (x := x) hbase hf hd hdm hscratch
    refine ⟨m', (execAllLow_push_pop _ _ m).trans hrun, fun j _ => by rw [hcopied.target], hcopied.others, ?_⟩
    have hnot : ∀ p, p ∉ regsOf x.dest.content ∪ {p | p ∈ ([] : List PhysReg)} := by
      rintro p (hp | hp)
      · exact not_mem_regsOf hdm p hp
      · cases hp
    exact hcopied.agree.sameFrame (hnot _) (hnot _)
  | cons p rest =>
    obtain ⟨hpb, hpt⟩ := hscratch p List.mem_cons_self
    have hp : Place base w.stackPointer slots (Operand.phys x.dest.width p).content := .reg p hpb hpt
    obtain ⟨m₁, hrun₁, h₁⟩ := copiedLow_mov x.src (.phys x.dest.width p) hf hp (Bool.and_false _)
    obtain ⟨m', hrun, h⟩ := copiedLow_mov (.phys x.dest.width p) x.dest (hf.of_same h₁.frame) hd rfl
    refine ⟨m', by simp only [Move.throughScratch, execAllLow, hrun₁, hrun, Option.bind_some], fun j hj => ?_, ?_,
      h₁.frame.trans h.frame⟩
    · rw [h.target j hj, h₁.target j hj]
    · intro c hc hne hjunk
      rw [h.others c hc hne (fun _ hq => absurd hq (Set.notMem_empty _)),
        h₁.others c hc (hjunk p List.mem_cons_self) (fun _ hq => absurd hq (Set.notMem_empty _))]

/-- An exchange swaps the low bits of two places. -/
theorem swappedLow_xchg (hf : Framed base w.stackPointer slots m) (hs : Place base w.stackPointer slots src.content)
    (hd : Place base w.stackPointer slots dest.content) (hne : src.content ≠ dest.content)
    (hwidth : src.width = dest.width) :
    ∃ m', m.execAllLow w [.xchg src dest] = some m' ∧
      SwappedLow base w.stackPointer slots dest.width.bits src.content dest.content m m' := by
  generalize hm₁ : m.set src.content (dest.width.overlay (m.get src.content) (m.get dest.content)) = m₁
  have hframe₁ : SameFrame base w.stackPointer m m₁ := hm₁ ▸ sameFrame_set hs m _
  have hf₁ := hf.of_same hframe₁
  have hsrc₁ : m₁.get src.content = dest.width.overlay (m.get src.content) (m.get dest.content) := by
    rw [← hm₁, get_set_self hs]
  have hothers₁ : ∀ c, Source base w.stackPointer slots c → c ≠ src.content → m₁.get c = m.get c := fun c hc hcs => by
    rw [← hm₁, get_set_ne hf hs hc hcs]
  refine ⟨m₁.set dest.content (dest.width.overlay (m₁.get dest.content) (m.get src.content)), ?_, fun j => ?_,
    fun j => ?_, fun c hc hcs hcd => ?_, hframe₁.trans (sameFrame_set hd m₁ _)⟩
  · have hleft : m.putLow src (m.get dest.content) = some m₁ := by rw [putLow_place hs, hwidth, hm₁]
    simp only [execAllLow, execLow, value, hleft, Option.bind_eq_bind, Option.bind_some, putLow_place hd]
  · rw [get_set_self hd, Width.getLsbD_overlay, hothers₁ _ (.inl hd) hne.symm]
  · rw [get_set_ne hf₁ hd (.inl hs) hne, hsrc₁, Width.getLsbD_overlay]
  · rw [get_set_ne hf₁ hd hc hcd, hothers₁ c hc hcs]

/-- An exchange of cells swaps whole words. -/
theorem swappedLow_exchangeCells (hbase : base ≠ w.stackPointer) (hf : Framed base w.stackPointer slots m)
    (hs : Place base w.stackPointer slots x.src.content) (hd : Place base w.stackPointer slots x.dest.content)
    (hsm : x.src.isMemory = true) (hdm : x.dest.isMemory = true) (hne : x.src.content ≠ x.dest.content) :
    ∃ m', m.execAllLow w (Move.exchangeCells x) = some m' ∧
      SwappedLow base w.stackPointer slots 64 x.src.content x.dest.content m m' := by
  obtain ⟨m', hrun, hswapped⟩ := swapped_exchangeCells hbase hf hs hd hsm hdm hne
  have hge : ∀ {j} (v : Word), ¬j < 64 → v.getLsbD j = false := fun v hj =>
    BitVec.getLsbD_of_ge _ _ (Nat.le_of_not_lt hj)
  refine ⟨m', (execAllLow_exchangeCells x m).trans hrun, fun j => ?_, fun j => ?_, hswapped.others, ?_⟩
  · rw [hswapped.target]
    split_ifs with hj
    · rfl
    · rw [hge _ hj, hge _ hj]
  · rw [hswapped.back]
    split_ifs with hj
    · rfl
    · rw [hge _ hj, hge _ hj]
  · have hnot : ∀ p, p ∉ regsOf x.src.content ∪ regsOf x.dest.content := by
      rintro p (hp | hp)
      · exact not_mem_regsOf hsm p hp
      · exact not_mem_regsOf hdm p hp
    exact hswapped.agree.sameFrame (hnot _) (hnot _)

end Machine

namespace Sequencer

open Move Machine

variable {base top : PhysReg} {slots : Set Int} {moves : List Move} {s : Sequencer} {x y z : Move} {w : World}
  {m m' : Machine} {n : Nat}

/-- What is asked of moves: next to being admissible, each has one width, and registers for other use hold no frame. -/
structure Sized (base top : PhysReg) (slots : Set Int) (moves : List Move) :
    Prop extends Admissible base top slots moves where
  widths : ∀ x ∈ moves, x.src.width = x.dest.width
  apart : base ≠ top
  reserved : ∀ p, PhysReg.isReserved p = false → p ≠ base ∧ p ≠ top

namespace Sized

theorem dest_isImmediate (hz : Sized base top slots moves) : ∀ o ∈ moves, o.dest.isImmediate = false := fun o ho =>
  isImmediate_of_place (hz.dests o ho)

/-- Every destination that is left is a place. -/
theorem dest_place (hz : Sized base top slots moves) (h : Orderly moves s) (hx : x ∈ s.pending) :
    Place base top slots x.dest.content := by
  obtain ⟨o, ho, -, hod, -⟩ := h.origin x hx
  exact hod ▸ hz.dests o ho

/-- Every source that is left is a place or a constant. -/
theorem src_source (hz : Sized base top slots moves) (h : Orderly moves s) (hx : x ∈ s.pending) :
    Source base top slots x.src.content := by
  obtain ⟨o, ho, hos⟩ := h.sources x hx
  exact hos ▸ hz.sources o ho

/-- A move has one width, also after its source was exchanged. -/
theorem width_eq (hz : Sized base top slots moves) (h : Orderly moves s) (hx : x ∈ s.pending) :
    x.src.width = x.dest.width := by
  obtain ⟨o, ho, -, hod, how, -⟩ := h.origin x hx
  rw [← how, ← hod, hz.widths o ho]

/-- A pending move has the width of the move that writes the same place. -/
theorem dest_eq (hz : Sized base top slots moves) (h : Orderly moves s) (hx : x ∈ s.pending) {o : Move} (ho : o ∈ moves)
    (heq : x.dest.content = o.dest.content) : x.dest = o.dest := by
  obtain ⟨o', ho', -, hod, -⟩ := h.origin x hx
  rw [← hod, eq_of_dest_eq hz.distinct ho' ho (hod ▸ heq)]

/-- A bit of one move to a place is a bit of every move to it. -/
theorem lt_bits (hz : Sized base top slots moves) {o : Move} (ho : o ∈ moves) {j : Nat} (hj : j < o.dest.width.bits) :
    ∀ o' ∈ moves, o'.dest.content = o.dest.content → j < o'.dest.width.bits := fun _ ho' heq =>
  eq_of_dest_eq hz.distinct ho' ho heq ▸ hj

end Sized

/-- A round that copies low bits to a place which nothing pending reads. -/
structure Copies (base top : PhysReg) (slots : Set Int) (s : Sequencer) (x : Move) (m m' : Machine) : Prop where
  free : ∀ o ∈ s.pending, o.src.content ≠ x.dest.content
  rest : (s.perform x).2 = { s with pending := s.pending.erase x }
  low : CopiedLow base top slots x.dest.width.bits {p | p ∈ s.scratch} x.src.content x.dest.content m m'

/-- A round that exchanges `n` low bits when every pending move is blocked. -/
structure Exchanges (base top : PhysReg) (slots : Set Int) (s : Sequencer) (x : Move) (n : Nat) (m m' : Machine) :
    Prop where
  imm : x.src.isImmediate = false
  blocked : ∀ y ∈ s.pending, y.src.isImmediate = false → isBlocked s.pending y = true
  rest : (s.perform x).2 = { s with pending := s.pending.erase x }.exchanged x
  width : x.dest.width.bits ≤ n
  low : SwappedLow base top slots n x.src.content x.dest.content m m'

/-- What a round does to a machine. -/
inductive Transfers (base top : PhysReg) (slots : Set Int) (s : Sequencer) (x : Move) (m m' : Machine) : Prop where
  | copy (h : Copies base top slots s x m m')
  | exchange (n : Nat) (h : Exchanges base top slots s x n m m')
      (hcode : roundCode (s, x) = [.xchg x.src x.dest] ∧ n = x.dest.width.bits ∨
        roundCode (s, x) = exchangeCells x ∧ n = 64)

/-- Every round runs. -/
theorem exists_transfers (hz : Sized base w.stackPointer slots moves) (h : Orderly moves s)
    (hx : next? s.pending = some x) (hf : Framed base w.stackPointer slots m) :
    ∃ m', m.execAllLow w (roundCode (s, x)) = some m' ∧
      Framed base w.stackPointer slots m' ∧ Transfers base w.stackPointer slots s x m m' := by
  have hmem := (next?_some hx).1
  have hdest := hz.dest_place h hmem
  cases h.round hz.dest_isImmediate hx with
  | copy hfree _ hrest hcode =>
    rcases hcode with ⟨hmm, hcode⟩ | ⟨⟨-, hdm⟩, hcode⟩
    · obtain ⟨m', hrun, hcopied⟩ := copiedLow_mov (w := w) x.src x.dest hf hdest hmm
      refine ⟨m', ?_, hf.of_same hcopied.frame,
        .copy ⟨hfree, hrest, hcopied.target, fun c hc hne _ => ?_, hcopied.frame⟩⟩
      · rw [roundCode, hcode, execAllLow, hrun, Option.bind_some, execAllLow]
      · exact hcopied.others c hc hne fun _ hp => absurd hp (Set.notMem_empty _)
    · have hscratch : ∀ p ∈ s.scratch, p ≠ base ∧ p ≠ w.stackPointer := fun p hp => hz.reserved p (h.scratch p hp).2.2
      obtain ⟨m', hrun, hcopied⟩ := copiedLow_throughScratch hz.apart hf hdest hdm hscratch
      exact ⟨m', by rw [roundCode, hcode, hrun], hf.of_same hcopied.frame, .copy ⟨hfree, hrest, hcopied⟩⟩
  | exchange himm hall hrest hcode =>
    have hsrc := place_of_source (hz.src_source h hmem) himm
    rcases hcode with hcode | ⟨⟨hsm, hdm⟩, hcode⟩
    · obtain ⟨m', hrun, hswapped⟩ := swappedLow_xchg (w := w) hf hsrc hdest (h.proper x hmem) (hz.width_eq h hmem)
      exact ⟨m', by rw [roundCode, hcode, hrun], hf.of_same hswapped.frame,
        .exchange _ ⟨himm, hall, hrest, Nat.le_refl _, hswapped⟩ (.inl ⟨hcode, rfl⟩)⟩
    · obtain ⟨m', hrun, hswapped⟩ := swappedLow_exchangeCells hz.apart hf hsrc hdest hsm hdm (h.proper x hmem)
      exact ⟨m', by rw [roundCode, hcode, hrun], hf.of_same hswapped.frame,
        .exchange _ ⟨himm, hall, hrest, Width.bits_le _, hswapped⟩ (.inr ⟨hcode, rfl⟩)⟩

namespace Exchanges

/-- No other move reads what an exchange brings to its destination. -/
theorem eq_of_src (he : Exchanges base top slots s x n m m') (hz : Sized base top slots moves) (h : Orderly moves s)
    (hx : x ∈ s.pending) (hy : y ∈ s.pending) (heq : y.src.content = x.src.content) : y = x :=
  (blocked_sources h.distinct (h.dest_isImmediate hz.dest_isImmediate) he.blocked hx he.imm).1 y hy heq

/-- After an exchange, what is left are the other moves, with the sources that were exchanged. -/
theorem mem_after (he : Exchanges base top slots s x n m m') (hz : Sized base top slots moves) (h : Orderly moves s)
    (hx : x ∈ s.pending) : z ∈ (s.after x).pending ↔ ∃ y ∈ s.pending, y ≠ x ∧ y.src.content ≠ x.src.content ∧
      z = (if y.src.content = x.dest.content then ⟨x.src.withWidth y.src.width, y.dest⟩ else y) ∧
      z.src.content ≠ z.dest.content :=
  mem_after_exchange h.distinct (h.dest_isImmediate hz.dest_isImmediate) hx he.imm he.blocked he.rest

/-- Another move that is done with an exchange is the one that goes the opposite way. -/
theorem arrived (he : Exchanges base top slots s x n m m') (hz : Sized base top slots moves) (h : Orderly moves s)
    (hx : x ∈ s.pending) (hy : y ∈ s.pending) (hyx : y ≠ x)
    (hnot : ∀ z ∈ (s.after x).pending, z.dest.content ≠ y.dest.content) :
    y.src.content = x.dest.content ∧ x.src.content = y.dest.content := by
  have hsrc : y.src.content ≠ x.src.content := fun heq => hyx (he.eq_of_src hz h hx hy heq)
  have hread : y.src.content = x.dest.content := by
    by_contra hread
    exact hnot y ((he.mem_after hz h hx).2 ⟨y, hy, hyx, hsrc, (if_neg hread).symm, h.proper y hy⟩) rfl
  refine ⟨hread, ?_⟩
  by_contra hne
  exact hnot ⟨x.src.withWidth y.src.width, y.dest⟩
    ((he.mem_after hz h hx).2 ⟨y, hy, hyx, hsrc, (if_pos hread).symm, hne⟩) rfl

end Exchanges

/-- What every round keeps holds when all moves are made; it may speak of the rounds that are left. -/
theorem exists_run {P : Nat → Sequencer → Machine → Prop} (hz : Sized base w.stackPointer slots moves)
    (hstep : ∀ n s x m m', Orderly moves s → P (n + 1) s m → next? s.pending = some x →
      Transfers base w.stackPointer slots s x m m' → P n (s.after x) m') (n : Nat) (s : Sequencer) (m : Machine)
    (hn : s.pending.length ≤ n) (h : Orderly moves s) (hf : Framed base w.stackPointer slots m) (hP : P n s m) :
    ∃ n' s' m', m.execAllLow w (run n s) = some m' ∧ s'.pending = [] ∧ P n' s' m' := by
  induction n generalizing s m with
  | zero => exact ⟨0, s, m, rfl, List.length_eq_zero_iff.1 (Nat.le_zero.1 hn), hP⟩
  | succ n ih =>
    cases hx : next? s.pending with
    | none => exact ⟨n + 1, s, m, by simp only [run, hx, execAllLow], next?_none hx, hP⟩
    | some x =>
      obtain ⟨m₁, hrun₁, hf₁, htransfers⟩ := exists_transfers hz h hx hf
      have hless : (s.after x).pending.length < s.pending.length := perform_length (next?_some hx).1
      obtain ⟨n', s', m', hrun, hend⟩ := ih (s.after x) m₁ (by omega) (h.step hz.dest_isImmediate hx) hf₁
        (hstep n s x m m₁ h hP hx htransfers)
      refine ⟨n', s', m', ?_, hend⟩
      simp only [run, hx, execAllLow_append]
      rw [show m.execAllLow w (s.perform x).1 = some m₁ from hrun₁, Option.bind_some]
      exact hrun

/-! ## Bits on their way -/

/-- Bits of the values that moves carry: those given by `V` are found where pending moves read, those given by `W` are
in the destinations of moves that are done. -/
structure Tracks (moves : List Move) (V W : Move → Nat → Bool → Prop) (s : Sequencer) (m : Machine) : Prop where
  pending : ∀ o ∈ moves, ∀ x ∈ s.pending, x.dest.content = o.dest.content → ∀ j b, V o j b →
    (m.get x.src.content).getLsbD j = b
  done : ∀ o ∈ moves, (∀ x ∈ s.pending, x.dest.content ≠ o.dest.content) → ∀ j b, W o j b →
    (m.get o.dest.content).getLsbD j = b

namespace Tracks

variable {V W : Move → Nat → Bool → Prop}

/-- Copies keep all bits on their way, and bring the low ones to their end. -/
theorem copy (ht : Tracks moves V W s m) (hW : ∀ o ∈ moves, ∀ j b, W o j b → V o j b ∧ j < o.dest.width.bits)
    (hz : Sized base top slots moves) (h : Orderly moves s) (hx : x ∈ s.pending) (hc : Copies base top slots s x m m') :
    Tracks moves V W (s.after x) m' := by
  have hmem := fun y => mem_after_copy (z := y) h.distinct hc.rest
  refine ⟨fun o ho y hy heq j b hV => ?_, fun o ho hnot j b hj => ?_⟩
  · have hy := ((hmem y).1 hy).2
    rw [hc.low.others _ (hz.src_source h hy) (hc.free y hy), ht.pending o ho y hy heq j b hV]
    exact fun p hp hreg => (h.scratch p hp).2.1 (mem_readBy_of_src hy hreg)
  · by_cases hox : x.dest.content = o.dest.content
    · obtain ⟨hV, hlt⟩ := hW o ho j b hj
      rw [← hox, hc.low.target j (hz.dest_eq h hx ho hox ▸ hlt), ht.pending o ho x hx hox j b hV]
    · have hnot' : ∀ y ∈ s.pending, y.dest.content ≠ o.dest.content := by
        intro y hy heq
        exact hnot y ((hmem y).2 ⟨fun hyx => hox (hyx ▸ heq), hy⟩) heq
      rw [hc.low.others _ (.inl (hz.dests o ho)) (Ne.symm hox), ht.done o ho hnot' j b hj]
      exact fun p hp hreg => (h.scratch p hp).1 (h.frozen o ho hnot' p hreg)

/-- Exchanges keep the bits that they take along, and those that are the same on the way back. -/
theorem exchange (ht : Tracks moves V W s m) (hW : ∀ o ∈ moves, ∀ j b, W o j b → V o j b ∧ j < o.dest.width.bits)
    (hz : Sized base top slots moves) (h : Orderly moves s) (hx : x ∈ s.pending)
      (he : Exchanges base top slots s x n m m')
    (hcut : ∀ o ∈ moves, ∀ y ∈ s.pending, y ≠ x → y.src.content = x.dest.content → y.dest.content = o.dest.content →
      ∀ j b, V o j b → n ≤ j → (m.get x.src.content).getLsbD j = b) : Tracks moves V W (s.after x) m' := by
  obtain ⟨-, v, hv, -, hvx⟩ := blocked_sources h.distinct (h.dest_isImmediate hz.dest_isImmediate) he.blocked hx he.imm
  -- The bit of the move that read the destination is now in the source.
  have hback : ∀ o ∈ moves, ∀ y ∈ s.pending, y ≠ x → y.src.content = x.dest.content → y.dest.content = o.dest.content →
      ∀ j b, V o j b → (m'.get x.src.content).getLsbD j = b := by
    intro o ho y hy hyx hsrc heq j b hV
    rw [he.low.back]
    split_ifs with hj
    · rw [← hsrc, ht.pending o ho y hy heq j b hV]
    · exact hcut o ho y hy hyx hsrc heq j b hV (Nat.le_of_not_lt hj)
  refine ⟨fun o ho z hz' heq j b hV => ?_, fun o ho hnot j b hj => ?_⟩
  · obtain ⟨y, hy, hyx, hsrc, rfl, -⟩ := (he.mem_after hz h hx).1 hz'
    by_cases hread : y.src.content = x.dest.content
    · rw [if_pos hread] at heq ⊢
      exact hback o ho y hy hyx hread heq j b hV
    · rw [if_neg hread] at heq ⊢
      rw [he.low.others _ (hz.src_source h hy) hsrc hread, ht.pending o ho y hy heq j b hV]
  · obtain ⟨hV, hlt⟩ := hW o ho j b hj
    by_cases hox : x.dest.content = o.dest.content
    · have hlt : j < x.dest.width.bits := hz.dest_eq h hx ho hox ▸ hlt
      rw [← hox, he.low.target, if_pos (Nat.lt_of_lt_of_le hlt he.width), ht.pending o ho x hx hox j b hV]
    · by_cases hpend : ∃ y ∈ s.pending, y.dest.content = o.dest.content
      · obtain ⟨y, hy, hyo⟩ := hpend
        have hyx : y ≠ x := fun heq => hox (heq ▸ hyo)
        obtain ⟨hread, hplace⟩ := he.arrived hz h hx hy hyx (hyo ▸ hnot)
        rw [← hyo, ← hplace, hback o ho y hy hyx hread hyo j b hV]
      · have hnot' : ∀ y ∈ s.pending, y.dest.content ≠ o.dest.content := fun y hy heq => hpend ⟨y, hy, heq⟩
        have hsrc : o.dest.content ≠ x.src.content := fun heq => hnot' v hv (hvx.trans heq.symm)
        rw [he.low.others _ (.inl (hz.dests o ho)) hsrc (Ne.symm hox), ht.done o ho hnot' j b hj]

end Tracks

end Sequencer

/-! ## Exchanges that are wide enough -/

/-- Whether an exchange is at least as wide as the pending moves whose values it takes to other places. -/
def Instruction.spares (pending : List Move) : Instruction → Bool
  | .xchg left right =>
    pending.all (fun z => !(z.src.sameLocation left || z.src.sameLocation right) || z.src.width.bits ≤ right.width.bits)
  | _ => true

namespace Sequencer

open Move Machine

variable {base top : PhysReg} {slots : Set Int} {moves : List Move} {s : Sequencer} {x y z : Move} {w : World}
  {m m' : Machine} {n : Nat}

/-- Whether the instructions of a round cut no value. -/
def wide (round : Sequencer × Move) : Bool := (roundCode round).all (Instruction.spares round.1.pending)

/-- An exchange that cuts no value is as wide as the moves that read its destination. -/
theorem le_of_wide (h : wide (s, x) = true) (hcode : roundCode (s, x) = [.xchg x.src x.dest]) (hy : y ∈ s.pending)
    (hread : y.src.content = x.dest.content) : y.src.width.bits ≤ x.dest.width.bits := by
  rw [wide, hcode, List.all_cons, List.all_nil, Bool.and_true] at h
  have hy := List.all_eq_true.1 h y hy
  simpa [Operand.sameLocation, hread] using hy

/-- A round that cuts a value is an exchange that is narrower than the move which reads what it writes. -/
theorem Orderly.exists_cut (h : Orderly moves s) (hz : Sized base top slots moves) (hx : next? s.pending = some x)
    (hwide : wide (s, x) = false) : roundCode (s, x) = [.xchg x.src x.dest] ∧
      ∃ y ∈ s.pending, y ≠ x ∧ y.src.content = x.dest.content ∧ x.dest.width.bits < y.src.width.bits := by
  rw [wide] at hwide
  have hmem := (next?_some hx).1
  cases h.round hz.dest_isImmediate hx with
  | copy _ _ _ hcode =>
    rcases hcode with ⟨-, hcode⟩ | ⟨-, hcode⟩
    · rw [roundCode, hcode] at hwide
      cases hwide
    · rw [roundCode, hcode] at hwide
      cases hscratch : s.scratch with
      | nil =>
        rw [hscratch] at hwide
        cases hwide
      | cons p rest =>
        rw [hscratch] at hwide
        cases hwide
  | exchange himm hall _ hcode =>
    rcases hcode with hcode | ⟨-, hcode⟩
    · refine ⟨hcode, ?_⟩
      rw [roundCode, hcode, List.all_cons, List.all_nil, Bool.and_true, Instruction.spares, List.all_eq_false] at hwide
      obtain ⟨y, hy, hcut⟩ := hwide
      simp only [Operand.sameLocation, Bool.or_eq_true, Bool.not_eq_true', Bool.or_eq_false_iff, decide_eq_true_eq,
        decide_eq_false_iff_not, not_or, not_and_or, not_not, Nat.not_le] at hcut
      obtain ⟨hread, hlt⟩ := hcut
      have hyx : y ≠ x := by
        rintro rfl
        rw [hz.width_eq h hy] at hlt
        exact Nat.lt_irrefl _ hlt
      refine ⟨y, hy, hyx, ?_, hlt⟩
      rcases hread with hread | hread
      · have hblocked := blocked_sources h.distinct (h.dest_isImmediate hz.dest_isImmediate) hall hmem himm
        exact absurd (hblocked.1 y hy hread) hyx
      · exact hread
    · rw [roundCode, hcode] at hwide
      cases hwide

/-- Rounds that cut no value keep the low bits of the moves. -/
theorem Tracks.step {V : Move → Nat → Bool → Prop} (ht : Tracks moves V V s m)
    (hV : ∀ o ∈ moves, ∀ j b, V o j b → j < o.dest.width.bits) (hz : Sized base top slots moves) (h : Orderly moves s)
    (hx : next? s.pending = some x) (hwide : wide (s, x) = true) (htransfers : Transfers base top slots s x m m') :
    Tracks moves V V (s.after x) m' := by
  have hmem := (next?_some hx).1
  have hW : ∀ o ∈ moves, ∀ j b, V o j b → V o j b ∧ j < o.dest.width.bits := fun o ho j b h => ⟨h, hV o ho j b h⟩
  cases htransfers with
  | copy hc => exact ht.copy hW hz h hmem hc
  | exchange n he hcode =>
    refine ht.exchange hW hz h hmem he fun o ho y hy _ hread heq j b hj hnj => ?_
    -- The exchange is wide enough for the move that is redirected.
    have hlt : j < y.dest.width.bits := hz.dest_eq h hy ho heq ▸ hV o ho j b hj
    have hle : y.dest.width.bits ≤ n := by
      rcases hcode with ⟨hcode, rfl⟩ | ⟨-, rfl⟩
      · exact hz.width_eq h hy ▸ le_of_wide hwide hcode hy hread
      · exact Width.bits_le _
    omega

/-- If no exchange cuts a value, every move finds the low bits that it is to bring to its destination. -/
theorem Tracks.of_wide (hz : Sized base w.stackPointer slots moves) (hf : Framed base w.stackPointer slots m)
    (hwide : ∀ round ∈ rounds moves.length (.initial moves), wide round = true) :
    ∃ m', m.execAllLow w (run moves.length (.initial moves)) = some m' ∧
      ∀ o ∈ moves, ∀ j < o.dest.width.bits, (m'.get o.dest.content).getLsbD j = (m.get o.src.content).getLsbD j := by
  let V : Move → Nat → Bool → Prop := fun o j b => j < o.dest.width.bits ∧ (m.get o.src.content).getLsbD j = b
  have hinitial : Tracks moves V V (.initial moves) m := by
    refine ⟨fun o ho x hx heq j b h => ?_, fun o ho hnot j b h => ?_⟩
    · rw [eq_of_dest_eq hz.distinct (List.mem_of_mem_filter hx) ho heq, h.2]
    · rw [← isNoop_eq_true_iff.1 (isNoop_of_initial ho hnot), h.2]
  let P : Nat → Sequencer → Machine → Prop := fun n s m =>
    Tracks moves V V s m ∧ ∀ round ∈ rounds n s, wide round = true
  have hstep : ∀ n s x m m', Orderly moves s → P (n + 1) s m → next? s.pending = some x →
      Transfers base w.stackPointer slots s x m m' → P n (s.after x) m' := by
    rintro n s x m m' h ⟨ht, hwide⟩ hx htransfers
    rw [rounds_succ hx, List.forall_mem_cons] at hwide
    exact ⟨ht.step (fun _ _ _ _ h => h.1) hz h hx hwide.1 htransfers, hwide.2⟩
  obtain ⟨-, s', m', hrun, hdone, ht, -⟩ :=
    exists_run (P := P) hz hstep moves.length (.initial moves) m (List.length_filter_le _ _)
    (orderly_initial hz.distinct) hf ⟨hinitial, hwide⟩
  refine ⟨m', hrun, fun o ho j hj => ht.done o ho (fun x hx => ?_) j _ ⟨hj, rfl⟩⟩
  rw [hdone] at hx
  cases hx

end Sequencer

/-! ## Exchanges that cut a value -/

namespace Machine

variable {base top : PhysReg} {slots : Set Int} {m : Machine} {c c' : Content}

/-- A machine with the frame of another one and no bits set anywhere else. -/
def bare (base top : PhysReg) (m : Machine) : Machine :=
  ⟨fun r => if r = .phys base ∨ r = .phys top then m.regs r else 0, fun _ => 0, m.flags, m.calls⟩

/-- A machine without bits has the frame. -/
theorem framed_bare (hf : Framed base top slots m) : Framed base top slots (m.bare base top) :=
  hf.of_same ⟨if_pos (.inl rfl), if_pos (.inr rfl)⟩

theorem get_bare (hc : Place base top slots c) : (m.bare base top).get c = 0 := by
  cases hc with
  | reg p hb ht =>
    refine if_neg ?_
    rintro (h | h)
    · exact hb (Register.phys.inj h)
    · exact ht (Register.phys.inj h)
  | slot d hd => rw [get_slotAt, bare]

/-- The machine with all bits of one place set as well. -/
def token (base top : PhysReg) (m : Machine) (c : Content) : Machine := (m.bare base top).set c (BitVec.allOnes 64)

/-- A machine with bits in one place has the frame as well. -/
theorem framed_token (hf : Framed base top slots m) (hc : Place base top slots c) :
    Framed base top slots (m.token base top c) :=
  (framed_bare hf).of_same (sameFrame_set hc _ _)

theorem get_token (hf : Framed base top slots m) (hc : Place base top slots c) (hc' : Place base top slots c')
    {j : Nat} (hj : j < 64) :
    ((m.token base top c).get c').getLsbD j = decide (c' = c) := by
  by_cases heq : c' = c
  · subst heq
    rw [token, get_set_self hc', decide_eq_true rfl, BitVec.getLsbD_allOnes, decide_eq_true hj]
  · rw [token, get_set_ne (framed_bare hf) hc (.inl hc') heq, get_bare hc', decide_eq_false heq]
    exact BitVec.getLsbD_zero

end Machine

namespace Sequencer

open Move Machine

variable {base top : PhysReg} {slots : Set Int} {moves : List Move} {s : Sequencer} {x y z : Move} {w : World}
  {m m₀ m' : Machine} {n j k : Nat} {d : Content}

/-- One column of bits: those of the moves that are no constants. -/
def Column (j : Nat) (bit : Move → Bool) (o : Move) (i : Nat) (b : Bool) : Prop :=
  i = j ∧ o.src.isImmediate = false ∧ bit o = b

/-- The column of bits that pending moves find, and the bit of the move to `d` once it is done. -/
def Shows (moves : List Move) (d : Content) (j : Nat) (bit : Move → Bool) (s : Sequencer) (m : Machine) : Prop :=
  Tracks moves (Column j bit) (fun o i b => Column j bit o i b ∧ o.dest.content = d) s m

namespace Shows

variable {bit : Move → Bool}

/-- A source that is left holds the bit for its destination. -/
theorem bit_eq (ht : Shows moves d j bit s m) (h : Orderly moves s) (hx : x ∈ s.pending)
    (himm : x.src.isImmediate = false) : ∃ o ∈ moves, o.dest = x.dest ∧ (m.get x.src.content).getLsbD j = bit o := by
  obtain ⟨o, ho, -, hod, -, hoi⟩ := h.origin x hx
  exact ⟨o, ho, hod, ht.pending o ho x hx (by rw [hod]) j _ ⟨rfl, hoi.trans himm, rfl⟩⟩

/-- A copy puts the bit where it belongs. -/
theorem copy (ht : Shows moves d j bit s m) (hj : ∀ o ∈ moves, o.dest.content = d → j < o.dest.width.bits)
    (hz : Sized base top slots moves) (h : Orderly moves s) (hx : x ∈ s.pending) (hc : Copies base top slots s x m m') :
    Shows moves d j bit (s.after x) m' :=
  Tracks.copy ht (fun o ho _ _ hW => ⟨hW.1, hW.1.1 ▸ hj o ho hW.2⟩) hz h hx hc

/-- An exchange that does not cut the value for `d` leaves its bit with the move to `d`. -/
theorem exchange (ht : Shows moves d j bit s m) (hj : ∀ o ∈ moves, o.dest.content = d → j < o.dest.width.bits)
    (hz : Sized base top slots moves) (h : Orderly moves s) (hx : x ∈ s.pending)
      (he : Exchanges base top slots s x n m m')
    (hcut : ∀ o ∈ moves, ∀ y ∈ s.pending, y ≠ x → y.src.content = x.dest.content → y.dest.content = o.dest.content →
      n ≤ j → (m.get x.src.content).getLsbD j = bit o) : Shows moves d j bit (s.after x) m' := by
  refine Tracks.exchange ht (fun o ho _ _ hW => ⟨hW.1, hW.1.1 ▸ hj o ho hW.2⟩) hz h hx he ?_
  rintro o ho y hy hyx hread heq i b ⟨rfl, -, rfl⟩ hni
  exact hcut o ho y hy hyx hread heq hni

end Shows

/-- The round exchanges too few bits of the value that is to go to `d`. -/
def Cuts (d : Content) (j : Nat) (round : Sequencer × Move) : Prop :=
  roundCode round = [.xchg round.2.src round.2.dest] ∧ round.2.dest.width.bits ≤ j ∧
    ∃ y ∈ round.1.pending, y ≠ round.2 ∧ y.src.content = round.2.dest.content ∧ y.dest.content = d

/-- When moves are first exchanged, the bit that is set is with the one move that reads it. -/
theorem shows_of_blocked (hz : Sized base top slots moves) (h : Orderly moves s) (hgiven : ∀ x ∈ s.pending, x ∈ moves)
    (hall : ∀ y ∈ s.pending, y.src.isImmediate = false → isBlocked s.pending y = true) {o : Move} (ho : o ∈ s.pending)
    (himm : o.src.isImmediate = false) (hf : Framed base top slots m₀) (hj : j < 64)
    (ht : Shows moves o.dest.content j (fun x => ((m₀.token base top o.src.content).get x.src.content).getLsbD j) s m) :
    Shows moves o.dest.content j (fun x => decide (x.dest.content = o.dest.content)) s m := by
  have hplace : ∀ x ∈ moves, x.src.isImmediate = false → Place base top slots x.src.content := fun x hx =>
    place_of_source (hz.sources x hx)
  refine ⟨fun x hx y hy heq i b hV => ?_, fun x hx hnot i b hW => absurd hW.2.symm (hnot o ho)⟩
  obtain ⟨rfl, hxi, rfl⟩ := hV
  obtain rfl := eq_of_dest_eq hz.distinct (hgiven y hy) hx heq
  refine (ht.pending y hx y hy rfl i _ ⟨rfl, hxi, rfl⟩).trans ?_
  dsimp only
  rw [get_token hf (hplace o (hgiven o ho) himm) (hplace y hx hxi) hj, decide_eq_decide]
  constructor
  · intro hsrc
    rw [(blocked_sources h.distinct (h.dest_isImmediate hz.dest_isImmediate) hall ho himm).1 y hy hsrc]
  · intro hdest
    rw [eq_of_dest_eq h.distinct hy ho hdest]

/-- A narrow move does not find the bit of the move to `d`. -/
theorem Shows.bit_of_narrow (ht : Shows moves d j (fun o => decide (o.dest.content = d)) s m)
    (hj : ∀ o ∈ moves, o.dest.content = d → j < o.dest.width.bits) (h : Orderly moves s) (hx : x ∈ s.pending)
    (himm : x.src.isImmediate = false) (hnarrow : x.dest.width.bits ≤ j) : (m.get x.src.content).getLsbD j = false := by
  obtain ⟨o, ho, hod, hbit⟩ := ht.bit_eq h hx himm
  rw [hbit]
  refine decide_eq_false fun hdest => Nat.not_lt.2 hnarrow ?_
  exact hod ▸ hj o ho hdest

/-- An exchange that cuts the value for `d` leaves its bit behind, where nothing pending reads it. -/
theorem Shows.cut (ht : Shows moves d j (fun o => decide (o.dest.content = d)) s m)
    (hj : ∀ o ∈ moves, o.dest.content = d → j < o.dest.width.bits) (hz : Sized base top slots moves)
    (h : Orderly moves s) (hx : x ∈ s.pending) (he : Exchanges base top slots s x n m m') (hnj : n ≤ j)
    (hy : y ∈ s.pending) (hyx : y ≠ x) (hread : y.src.content = x.dest.content) (hyd : y.dest.content = d) :
    Shows moves d j (fun _ => false) (s.after x) m' := by
  have hbit := ht.bit_of_narrow hj h hx he.imm (Nat.le_trans he.width hnj)
  have hsource : (m'.get x.src.content).getLsbD j = false := by rw [he.low.back, if_neg (Nat.not_lt.2 hnj), hbit]
  -- The other moves do not find the bit, before and after the exchange.
  have hothers : Tracks moves (fun o i b => Column j (fun _ => false) o i b ∧ o.dest.content ≠ d)
      (fun _ _ _ => False) s m := by
    refine ⟨fun o ho z hz heq i b hV => ?_, fun _ _ _ _ _ => False.elim⟩
    obtain ⟨⟨rfl, hoi, rfl⟩, hne⟩ := hV
    exact ht.pending o ho z hz heq i _ ⟨rfl, hoi, decide_eq_false hne⟩
  have hafter := hothers.exchange (fun _ _ _ _ => False.elim) hz h hx he (by
    rintro o - - - - - - i b ⟨⟨rfl, -, rfl⟩, -⟩ -
    exact hbit)
  refine ⟨fun o ho z hz' heq i b hV => ?_, fun o ho hnot i b hW => ?_⟩
  · by_cases hod : o.dest.content = d
    · obtain ⟨rfl, -, rfl⟩ := hV
      obtain ⟨y', hy', -, -, rfl, -⟩ := (he.mem_after hz h hx).1 hz'
      have hyy : y' = y := by
        refine eq_of_dest_eq h.distinct hy' hy ?_
        rw [hyd, ← hod, ← heq]
        split_ifs <;> rfl
      rw [hyy, if_pos hread]
      exact hsource
    · exact hafter.pending o ho z hz' heq i b ⟨hV, hod⟩
  · obtain ⟨⟨rfl, -, rfl⟩, rfl⟩ := hW
    rw [← hyd, ← (he.arrived hz h hx hy hyx (hyd ▸ hnot)).2, hsource]

/-- A place that a move is to bring something to is still to be written in all rounds before. -/
theorem Orderly.dest_of_rounds (h : Orderly moves s) (hd : ∀ o ∈ moves, o.dest.isImmediate = false)
    {round : Sequencer × Move} (hround : round ∈ rounds n s) (hz : z ∈ round.1.pending) :
    ∃ y ∈ s.pending, y.dest = z.dest := by
  refine of_round (P := fun s => ∃ y ∈ s.pending, y.dest = z.dest) hd (fun s x h hx => ?_) h hround ⟨z, hz, rfl⟩
  rintro ⟨y, hy, hyz⟩
  obtain ⟨y', hy', -, hyy, -⟩ := h.before hd hx hy
  exact ⟨y', hy', hyy.symm.trans hyz⟩

/-- Where the bit of the value for the destination of `o` is, while rounds are left that cut it and after they did. -/
def Fated (base top : PhysReg) (moves : List Move) (m₀ : Machine) (o : Move) (j n : Nat) (s : Sequencer)
    (m : Machine) : Prop :=
  Shows moves o.dest.content j (fun _ => false) s m ∨
    ((∀ x ∈ s.pending, x ∈ moves) ∧
        Shows moves o.dest.content j (fun x => ((m₀.token base top o.src.content).get x.src.content).getLsbD j) s m ∨
      Shows moves o.dest.content j (fun x => decide (x.dest.content = o.dest.content)) s m) ∧
    ∃ round ∈ rounds n s, Cuts o.dest.content j round

namespace Fated

variable {o : Move}

/-- A copy keeps the bit as it is fated. -/
theorem copy (hP : Fated base top moves m₀ o j (n + 1) s m) (hz : Sized base top slots moves) (ho : o ∈ moves)
    (hj : j < o.dest.width.bits) (h : Orderly moves s) (hx : next? s.pending = some x)
    (hc : Copies base top slots s x m m') :
    Fated base top moves m₀ o j n (s.after x) m' := by
  have hmem := (next?_some hx).1
  have hjs := hz.lt_bits ho hj
  rcases hP with hB | ⟨hDA, round, hround, hcut⟩
  · exact .inl (hB.copy hjs hz h hmem hc)
  · rw [rounds_succ hx] at hround
    refine .inr ⟨?_, ?_⟩
    · rcases hDA with ⟨hgiven, hD⟩ | hA
      · exact .inl ⟨fun y hy => hgiven y ((mem_after_copy h.distinct hc.rest).1 hy).2, hD.copy hjs hz h hmem hc⟩
      · exact .inr (hA.copy hjs hz h hmem hc)
    · rcases List.mem_cons.1 hround with rfl | hround
      · obtain ⟨-, -, y, hy, -, hread, -⟩ := hcut
        exact absurd hread (hc.free y hy)
      · exact ⟨round, hround, hcut⟩

/-- From the first exchange on the bit is with the move to the destination, as long as that is to be cut. -/
theorem shows (hDA : (∀ x ∈ s.pending, x ∈ moves) ∧ Shows moves o.dest.content j
        (fun x => ((m₀.token base top o.src.content).get x.src.content).getLsbD j) s m ∨
      Shows moves o.dest.content j (fun x => decide (x.dest.content = o.dest.content)) s m)
    (hz : Sized base top slots moves) (ho : o ∈ moves) (hoi : o.src.isImmediate = false) (hj : j < o.dest.width.bits)
    (hf : Framed base top slots m₀) (h : Orderly moves s) (he : Exchanges base top slots s x k m m')
    {round : Sequencer × Move} (hround : round ∈ rounds n s) (hcut : Cuts o.dest.content j round) :
    Shows moves o.dest.content j (fun x => decide (x.dest.content = o.dest.content)) s m := by
  rcases hDA with ⟨hgiven, hD⟩ | hA
  · obtain ⟨-, -, y, hy, -, -, hyd⟩ := hcut
    obtain ⟨y', hy', hyy⟩ := h.dest_of_rounds hz.dest_isImmediate hround hy
    have hoy : y' = o := eq_of_dest_eq hz.distinct (hgiven y' hy') ho (by rw [hyy, hyd])
    exact shows_of_blocked hz h hgiven he.blocked (hoy ▸ hy') hoi hf (Nat.lt_of_lt_of_le hj (Width.bits_le _)) hD
  · exact hA

theorem exchange (hP : Fated base top moves m₀ o j (n + 1) s m) (hz : Sized base top slots moves) (ho : o ∈ moves)
    (hoi : o.src.isImmediate = false) (hj : j < o.dest.width.bits) (hf : Framed base top slots m₀)
    (h : Orderly moves s) (hx : next? s.pending = some x) (he : Exchanges base top slots s x k m m')
    (hcode : roundCode (s, x) = [.xchg x.src x.dest] ∧ k = x.dest.width.bits ∨
      roundCode (s, x) = exchangeCells x ∧ k = 64) :
    Fated base top moves m₀ o j n (s.after x) m' := by
  have hmem := (next?_some hx).1
  have hjs := hz.lt_bits ho hj
  rcases hP with hB | ⟨hDA, round, hround, hcut⟩
  · refine .inl (hB.exchange hjs hz h hmem he fun _ _ _ _ _ _ _ _ => ?_)
    obtain ⟨-, -, -, hbit⟩ := hB.bit_eq h hmem he.imm
    exact hbit
  have hA := shows hDA hz ho hoi hj hf h he hround hcut
  by_cases hnow : k ≤ j ∧ ∃ y ∈ s.pending, y ≠ x ∧ y.src.content = x.dest.content ∧ y.dest.content = o.dest.content
  · obtain ⟨hkj, y, hy, hyx, hread, hyd⟩ := hnow
    exact .inl (hA.cut hjs hz h hmem he hkj hy hyx hread hyd)
  · refine .inr ⟨.inr (hA.exchange hjs hz h hmem he fun o' _ y hy hyx hread heq hkj => ?_), ?_⟩
    · rw [hA.bit_of_narrow hjs h hmem he.imm (Nat.le_trans he.width hkj)]
      exact (decide_eq_false fun hod => hnow ⟨hkj, y, hy, hyx, hread, heq.trans hod⟩).symm
    · rw [rounds_succ hx] at hround
      rcases List.mem_cons.1 hround with rfl | hround
      · obtain ⟨hxchg, hle, hreader⟩ := hcut
        rcases hcode with ⟨-, rfl⟩ | ⟨hcells, -⟩
        · exact absurd ⟨hle, hreader⟩ hnow
        · rw [hcells] at hxchg
          cases hxchg
      · exact ⟨round, hround, hcut⟩

/-- Every round keeps the bit as it is fated. -/
theorem step (hP : Fated base top moves m₀ o j (n + 1) s m) (hz : Sized base top slots moves) (ho : o ∈ moves)
    (hoi : o.src.isImmediate = false) (hj : j < o.dest.width.bits) (hf : Framed base top slots m₀)
    (h : Orderly moves s) (hx : next? s.pending = some x) (ht : Transfers base top slots s x m m') :
    Fated base top moves m₀ o j n (s.after x) m' := by
  cases ht with
  | copy hc => exact hP.copy hz ho hj h hx hc
  | exchange k he hcode => exact hP.exchange hz ho hoi hj hf h hx he hcode

end Fated

/-- If an exchange cuts a value, there is a machine on which some destination does not get all the bits of its
source. -/
theorem exists_cut_value (hz : Sized base w.stackPointer slots moves) (hf : Framed base w.stackPointer slots m₀)
    {round : Sequencer × Move} (hround : round ∈ rounds moves.length (.initial moves)) (hwide : wide round = false) :
    ∃ m m', Framed base w.stackPointer slots m ∧ m.execAllLow w (run moves.length (.initial moves)) = some m' ∧
      ∃ o ∈ moves, ∃ j < o.dest.width.bits, (m'.get o.dest.content).getLsbD j ≠ (m.get o.src.content).getLsbD j := by
  have hinitial := orderly_initial hz.distinct
  obtain ⟨h, hx⟩ :=
    rounds_induction (P := Orderly moves) (fun s x h hx => h.step hz.dest_isImmediate hx) moves.length
    hinitial round hround
  obtain ⟨s, x⟩ := round
  obtain ⟨hcode, y, hy, hyx, hread, hlt⟩ := h.exists_cut hz hx hwide
  obtain ⟨o, ho, -, hod, how, hoi⟩ := h.origin y hy
  have hyi : y.src.isImmediate = false := by
    rw [← h.dest_isImmediate hz.dest_isImmediate x (next?_some hx).1, Operand.isImmediate, Operand.isImmediate, hread]
  have hoi : o.src.isImmediate = false := hoi.trans hyi
  have hj : x.dest.width.bits < o.dest.width.bits := by rwa [← hz.widths o ho, how]
  have hplace := place_of_source (hz.sources o ho) hoi
  have hfated : Fated base w.stackPointer moves m₀ o x.dest.width.bits moves.length (.initial moves)
      (m₀.token base w.stackPointer o.src.content) := by
    refine .inr ⟨.inl ⟨fun z hz => List.mem_of_mem_filter hz, ?_, ?_⟩,
      (s, x), hround, hcode, Nat.le_refl _, y, hy, hyx, hread, by rw [hod]⟩
    · rintro o' ho' z hz' heq i b ⟨rfl, -, rfl⟩
      rw [eq_of_dest_eq hz.distinct (List.mem_of_mem_filter hz') ho' heq]
    · rintro o' ho' hnot i b ⟨⟨rfl, -, rfl⟩, -⟩
      rw [← isNoop_eq_true_iff.1 (isNoop_of_initial ho' hnot)]
  obtain ⟨n', s', m', hrun, hdone, hend⟩ := exists_run hz
    (P := Fated base w.stackPointer moves m₀ o x.dest.width.bits) (fun _ _ _ _ _ h hP hx ht =>
      hP.step hz ho hoi hj hf h hx ht)
    moves.length (.initial moves) _ (List.length_filter_le _ _) hinitial (framed_token hf hplace) hfated
  refine ⟨_, m', framed_token hf hplace, hrun, o, ho, _, hj, ?_⟩
  rw [get_token hf hplace hplace (Nat.lt_of_lt_of_le hj (Width.bits_le _)), decide_eq_true rfl]
  have hnone : ∀ z ∈ s'.pending, z.dest.content ≠ o.dest.content := by
    rw [hdone]
    exact List.forall_mem_nil _
  rcases hend with hB | ⟨-, round, hround, -⟩
  · rw [hB.done o ho hnone _ _ ⟨⟨rfl, hoi, rfl⟩, rfl⟩]
    exact Bool.false_ne_true
  · cases n' with
    | zero => cases hround
    | succ n' =>
      rw [rounds, hdone] at hround
      cases hround

/-! ## Moves that are no wider than what they follow -/

/-- Every pending move is at most as wide as the pending move that writes its source. -/
def Narrowing (s : Sequencer) : Prop :=
  ∀ x ∈ s.pending, ∀ z ∈ s.pending, z.src.content = x.dest.content → z.src.width.bits ≤ x.dest.width.bits

/-- Making the next move keeps moves at most as wide as those that write their sources. -/
theorem Narrowing.step (hs : Narrowing s) (hz : Sized base top slots moves) (h : Orderly moves s)
    (hx : next? s.pending = some x) :
    Narrowing (s.after x) := by
  have hmem := (next?_some hx).1
  cases h.round hz.dest_isImmediate hx with
  | copy _ _ hrest _ =>
    intro y hy z hz'
    exact hs y ((mem_after_copy h.distinct hrest).1 hy).2 z ((mem_after_copy h.distinct hrest).1 hz').2
  | exchange himm hall hrest _ =>
    intro y hy z hz' hread
    obtain ⟨y', hy', -, hyd, -⟩ := h.before hz.dest_isImmediate hx hy
    obtain ⟨z', hmem', -, -, rfl, -⟩ :=
      (mem_after_exchange h.distinct (h.dest_isImmediate hz.dest_isImmediate) hmem himm hall hrest).1 hz'
    rw [hyd] at hread ⊢
    split_ifs at hread ⊢ with hzx
    · -- The value has come to the source of `x`, which is at most as wide as the move that is to write there.
      calc z'.src.width.bits ≤ x.dest.width.bits := hs x hmem z' hmem' hzx
        _ = x.src.width.bits := by rw [hz.width_eq h hmem]
        _ ≤ y'.dest.width.bits := hs y' hy' x hmem hread
    · exact hs y' hy' z' hmem' hread

/-- Then no round cuts a value. -/
theorem Narrowing.wide (hs : Narrowing s) (hz : Sized base top slots moves) (h : Orderly moves s)
    (hx : next? s.pending = some x) :
    Sequencer.wide (s, x) = true := by
  by_contra hwide
  obtain ⟨-, y, hy, -, hread, hlt⟩ := h.exists_cut hz hx (Bool.eq_false_iff.2 hwide)
  exact Nat.not_le.2 hlt (hs x (next?_some hx).1 y hy hread)

end Sequencer

namespace Move

open Machine

/-- Whether every exchange is at least as wide as the moves whose values it takes to other places. -/
def exchangesWide (moves : List Move) : Bool := (rounds moves).all Sequencer.wide

/-- So lists of moves that get narrower are made without cutting. -/
theorem exchangesWide_of_narrowing {base top : PhysReg} {slots : Set Int} {moves : List Move}
    (hz : Sequencer.Sized base top slots moves)
    (h : ∀ x ∈ moves, ∀ z ∈ moves, z.src.content = x.dest.content → z.src.width.bits ≤ x.dest.width.bits) :
    exchangesWide moves = true := by
  refine List.all_eq_true.2 fun round hround => ?_
  have hinitial : (Sequencer.initial moves).Narrowing := fun x hx z hz =>
    h x (List.mem_of_mem_filter hx) z (List.mem_of_mem_filter hz)
  obtain ⟨⟨horderly, hs⟩, hx⟩ := Sequencer.rounds_induction (P := fun s => Sequencer.Orderly moves s ∧ s.Narrowing)
    (fun s x h hx => ⟨h.1.step hz.dest_isImmediate hx, h.2.step hz h.1 hx⟩) moves.length
    ⟨Sequencer.orderly_initial hz.distinct, hinitial⟩ round hround
  exact hs.wide hz horderly hx

/-- **Widths.** Moves that have one width each and write distinct places are turned into code. Run so that narrow
instructions transfer only the low bytes, it leaves in every destination the bytes that the source of the move held,
on every machine where slots are in order, if and only if every exchange is at least as wide as the moves whose values
it takes to other places. That is so if no move is wider than the one that writes its source. -/
theorem sequence_widths (moves : List Move) (slots : Set Int)
    (hdistinct : moves.Pairwise (fun x y => ¬x.dest.sameLocation y.dest))
    (hdest : ∀ x ∈ moves, Place .bp .sp slots x.dest.content) (hsrc : ∀ x ∈ moves, Source .bp .sp slots x.src.content)
    (hwidth : ∀ x ∈ moves, x.src.width = x.dest.width) (hframe : ∃ m : Machine, m.Framed .bp .sp slots) :
    ∃ code, sequence moves = .ok code ∧
      (exchangesWide moves = true ↔ ∀ (w : World) (m : Machine), w.stackPointer = .sp → m.Framed .bp .sp slots →
        ∃ m', m.execAllLow w code = some m' ∧
          ∀ x ∈ moves, (m'.value x.dest).setWidth x.dest.width.bits = (m.value x.src).setWidth x.dest.width.bits) ∧
      ((∀ x ∈ moves, ∀ z ∈ moves, z.src.content = x.dest.content → z.src.width.bits ≤ x.dest.width.bits) →
        exchangesWide moves = true) := by
  have hnd := nodup_dests hdistinct
  have hreserved : ∀ p, PhysReg.isReserved p = false → p ≠ .bp ∧ p ≠ .sp := by
    rintro p hp
    simp only [PhysReg.isReserved, Bool.or_eq_false_iff, decide_eq_false_iff_not] at hp
    exact hp.symm
  have hz : Sequencer.Sized .bp .sp slots moves := ⟨⟨hsrc, hdest, hnd⟩, hwidth, by decide, hreserved⟩
  refine ⟨_, sequence_eq_ok hnd, ⟨fun hwide w m hsp hf => ?_, fun hall => ?_⟩, exchangesWide_of_narrowing hz⟩
  · rw [← hsp] at hz hf
    obtain ⟨m', hrun, hbits⟩ := Sequencer.Tracks.of_wide hz hf (List.all_eq_true.1 hwide)
    exact ⟨m', hrun, fun x hx => Width.setWidth_eq_iff.2 (hbits x hx)⟩
  · obtain ⟨m₀, hf⟩ := hframe
    by_contra hwide
    obtain ⟨round, hround, hcut⟩ := List.all_eq_false.1 (Bool.eq_false_iff.2 hwide)
    obtain ⟨m, m', hf', hrun, o, ho, j, hj, hne⟩ :=
      Sequencer.exists_cut_value (w := ⟨.sp, [], fun _ _ => 0⟩) hz hf hround (Bool.eq_false_iff.2 hcut)
    obtain ⟨m'', hrun', hbits⟩ := hall ⟨.sp, [], fun _ _ => 0⟩ m rfl hf'
    rw [hrun, Option.some.injEq] at hrun'
    exact hne (Width.setWidth_eq_iff.1 (hrun' ▸ hbits o ho) j hj)

/-- A cycle of a wide move, a narrow one and a slot, in which the wide move is carried out first. -/
def tapered : List Move :=
  [⟨.phys .quad .a, .phys .quad .b⟩, ⟨.phys .long .b, ⟨.long, slotAt .bp (-8)⟩⟩,
    ⟨⟨.long, slotAt .bp (-8)⟩, .phys .long .a⟩]

/-- In the example the low bits arrive, though a move of four bytes follows one of eight. -/
theorem sequence_widths_tapered :
    exchangesWide tapered = true ∧
      ∃ code m', sequence tapered = .ok code ∧ numbered.execAllLow ⟨.sp, [], fun _ _ => 0⟩ code = some m' ∧
        (m'.get (slotAt .bp (-8))).setWidth 32 = 1#32 ∧ (m'.regs (.phys .a)).setWidth 32 = 0xfff8#32 := by
  have hwide : exchangesWide tapered = true := by decide
  obtain ⟨code, hcode, hexact, -⟩ := sequence_widths tapered {-8, -16, -24} (by decide)
    (by
      intro x hx
      simp only [tapered, List.mem_cons, List.not_mem_nil, or_false] at hx
      rcases hx with rfl | rfl | rfl
      · exact .reg .b (by decide) (by decide)
      · exact .slot (-8) (by simp)
      · exact .reg .a (by decide) (by decide))
    (by
      intro x hx
      simp only [tapered, List.mem_cons, List.not_mem_nil, or_false] at hx
      rcases hx with rfl | rfl | rfl
      · exact .inl (.reg .a (by decide) (by decide))
      · exact .inl (.reg .b (by decide) (by decide))
      · exact .inl (.slot (-8) (by simp)))
    (by decide) ⟨numbered, numbered_framed⟩
  obtain ⟨m', hrun, hvalues⟩ := hexact.1 hwide ⟨.sp, [], fun _ _ => 0⟩ numbered rfl numbered_framed
  refine ⟨hwide, code, m', hcode, hrun, ?_, ?_⟩
  · exact (hvalues _ (by simp [tapered] : ⟨.phys .long .b, ⟨.long, slotAt .bp (-8)⟩⟩ ∈ tapered)).trans rfl
  · exact (hvalues _ (by simp [tapered] : ⟨⟨.long, slotAt .bp (-8)⟩, .phys .long .a⟩ ∈ tapered)).trans rfl

/-- A cycle in which the narrow move is carried out first. -/
def flared : List Move := [⟨.phys .long .a, .phys .long .b⟩, ⟨.phys .quad .b, .phys .quad .a⟩]

/-- The exchange takes only the low half of the wide value to its destination. -/
theorem sequence_flared :
    flared.Pairwise (fun x y => ¬x.dest.sameLocation y.dest) ∧ (∀ x ∈ flared, x.src.width = x.dest.width) ∧
      exchangesWide flared = false ∧
      ∃ code m', sequence flared = .ok code ∧
      (numbered.setReg (.phys .b) 0x100000002).execAllLow ⟨.sp, [], fun _ _ => 0⟩ code = some m' ∧
      m'.value (.phys .quad .a) = 2 := by
  refine ⟨by decide, by decide, by decide, _, _, rfl, rfl, by decide⟩

end Move

end RegAlloc
