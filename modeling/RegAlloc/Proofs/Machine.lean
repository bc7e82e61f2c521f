import RegAlloc.Instruction
import Mathlib.Data.Set.Insert

/-!
# The machine

What code means. A machine has registers, memory, the two sides of the last comparison and the calls made so far.
Every register and every memory cell holds one whole word, at whatever width it is accessed, and the registers include
the virtual ones, so that code means something before registers are chosen as well as after.

`Machine.exec` carries out one instruction that goes on with the next one; it has no result where the instruction
faults. Labels, jumps and returns are not its business, and neither are `enter` and `leave`, which are not
instructions of the machine. What depends on the surroundings is a `World`: which register `push` and `pop` go by, and
what a call leaves behind.
-/

namespace RegAlloc

/-- What a register or a memory cell holds. -/
abbrev Word := BitVec 64

/-- A call that was made: the callee and the values of the arguments. -/
structure Call where
  callee : String
  arguments : List Word
  deriving DecidableEq, Repr

/-- The state of a machine. -/
structure Machine where
  regs : Register → Word
  memory : Word → Word
  /-- The two sides of the last comparison, the right one first. -/
  flags : Word × Word
  /-- The calls made so far, the first one first. -/
  calls : List Call

/-- The surroundings of a machine. -/
structure World where
  /-- The register that `push` and `pop` go by. -/
  stackPointer : PhysReg
  /-- The registers that a call overwrites. -/
  clobbered : List PhysReg
  /-- What a call leaves in the registers it overwrites, from the calls made so far. -/
  answer : List Call → PhysReg → Word

/-- Whether a relation holds between the two sides of a comparison, the right one first. -/
def Relation.holds (relation : Relation) (sides : Word × Word) : Bool :=
  match relation with
  | .equal => sides.1 == sides.2
  | .notEqual => sides.1 != sides.2
  | .less => sides.1.slt sides.2
  | .lessEqual => sides.1.sle sides.2
  | .greater => sides.2.slt sides.1
  | .greaterEqual => sides.2.sle sides.1

/-- The result of two-address arithmetic. -/
def ArithOp.apply : ArithOp → Word → Word → Word
  | .add, right, left => right + left
  | .sub, right, left => right - left
  | .and, right, left => right &&& left
  | .imul, right, left => right * left

/-- The sides that a comparing instruction leaves behind. -/
def CompareOp.sides : CompareOp → Word → Word → Word × Word
  | .cmp, right, left => (right, left)
  | .test, right, left => (right &&& left, 0)

/-- Quotient and remainder of a two-word dividend, rounded towards zero. There is none for the divisor zero, or if the
quotient is more than a word. -/
def divide (high low divisor : Word) : Option (Word × Word) :=
  let dividend := (high ++ low).toInt
  let quotient := dividend.tdiv divisor.toInt
  if divisor = 0 ∨ (BitVec.ofInt 64 quotient).toInt ≠ quotient then none
  else some (BitVec.ofInt 64 quotient, BitVec.ofInt 64 (dividend.tmod divisor.toInt))

namespace Machine

/-- The cell an address stands for. -/
def address (m : Machine) (a : Address) : Word :=
  BitVec.ofInt 64 a.displacement + (a.base.map m.regs).getD 0 + (a.index.map m.regs).getD 0 * BitVec.ofNat 64 a.scale

/-- What an operand's content holds. -/
def get (m : Machine) : Content → Word
  | .imm value => BitVec.ofInt 64 value
  | .reg r => m.regs r
  | .mem a => m.memory (m.address a)

/-- The machine with another word in a register. -/
def setReg (m : Machine) (r : Register) (x : Word) : Machine :=
  { m with regs := fun s => if s = r then x else m.regs s }

/-- The machine with another word in a memory cell. -/
def setCell (m : Machine) (cell x : Word) : Machine :=
  { m with memory := fun a => if a = cell then x else m.memory a }

/-- The machine with another word in the place a content stands for. Constants stay as they are. -/
def set (m : Machine) (c : Content) (x : Word) : Machine :=
  match c with
  | .imm _ => m
  | .reg r => m.setReg r x
  | .mem a => m.setCell (m.address a) x

/-- The word of an operand. -/
def value (m : Machine) (o : Operand) : Word := m.get o.content

/-- Write an operand, which cannot be a constant. -/
def put (m : Machine) (o : Operand) (x : Word) : Option Machine :=
  if o.isImmediate then none else some (m.set o.content x)

/-- Put a word on the stack. -/
def push (w : World) (m : Machine) (x : Word) : Machine :=
  (m.setReg (.phys w.stackPointer) (m.regs (.phys w.stackPointer) - 8)).setCell (m.regs (.phys w.stackPointer) - 8) x

/-- The machine after a word was taken from the stack. -/
def popped (w : World) (m : Machine) : Machine :=
  m.setReg (.phys w.stackPointer) (m.regs (.phys w.stackPointer) + 8)

/-- The machine after a call: the call is on record, and the registers that a call overwrites hold what it left
there. -/
def call (w : World) (m : Machine) (c : Call) : Machine :=
  { m with
    regs := fun r =>
      match r with
      | .phys p => if w.clobbered.contains p then w.answer (m.calls ++ [c]) p else m.regs r
      | .virt _ => m.regs r
    calls := m.calls ++ [c] }

/-- Carry out one instruction. -/
def exec (w : World) (m : Machine) : Instruction → Option Machine
  | .arith op left right => m.put right (op.apply (m.value right) (m.value left))
  | .compare op left right => some { m with flags := op.sides (m.value right) (m.value left) }
  | .mov src dest => if src.isMemory && dest.isMemory then none else m.put dest (m.value src)
  | .neg operand => m.put operand (-m.value operand)
  | .setcc relation output => m.put output (if relation.holds m.flags then 1 else 0)
  | .cqto _ => some (m.setReg (.phys .d) (if (m.regs (.phys .a)).slt 0 then -1 else 0))
  | .idiv divisor => do
    let (quotient, remainder) ← divide (m.regs (.phys .d)) (m.regs (.phys .a)) (m.value divisor)
    return (m.setReg (.phys .a) quotient).setReg (.phys .d) remainder
  | .call callee arguments => some (m.call w ⟨callee, arguments.map m.value⟩)
  | .push operand => some (m.push w (m.value operand))
  | .pop operand => (m.popped w).put operand (m.memory (m.regs (.phys w.stackPointer)))
  | .xchg left right => do (← m.put left (m.value right)).put right (m.value left)
  | .enter | .leave | .jmp _ | .jcc _ _ | .label _ | .ret => none

/-- A place that is no constant is written. -/
theorem put_eq {o : Operand} (ho : o.isImmediate = false) (m : Machine) (x : Word) :
    m.put o x = some (m.set o.content x) := by
  rw [put, ho, if_neg Bool.false_ne_true]

/-- Immediates, and only they, cannot be written. -/
theorem put_eq_none {m : Machine} {o : Operand} {x : Word} : m.put o x = none ↔ o.isImmediate = true := by
  cases ho : o.isImmediate <;> simp [put, ho]

/-- Writing an operand writes its content. -/
theorem put_eq_some {m m' : Machine} {o : Operand} {x : Word} :
    m.put o x = some m' ↔ o.isImmediate = false ∧ m' = m.set o.content x := by
  cases ho : o.isImmediate <;> simp [put, ho, eq_comm]

/-- A division faults, or leaves the quotient and the remainder. -/
theorem exec_idiv (w : World) (m : Machine) (divisor : Operand) : m.exec w (.idiv divisor) =
    (divide (m.regs (.phys .d)) (m.regs (.phys .a)) (m.value divisor)).map
      (fun e => (m.setReg (.phys .a) e.1).setReg (.phys .d) e.2) := by
  rw [exec]
  cases divide (m.regs (.phys .d)) (m.regs (.phys .a)) (m.value divisor) <;> rfl

/-- Carry out instructions one after the other. -/
def execAll (w : World) (m : Machine) : List Instruction → Option Machine
  | [] => some m
  | i :: rest => (m.exec w i).bind (fun m' => execAll w m' rest)

/-- Code runs by running its parts, unless the first one faults. -/
theorem execAll_append (w : World) (m : Machine) (c d : List Instruction) :
    m.execAll w (c ++ d) = (m.execAll w c).bind (fun m' => m'.execAll w d) := by
  induction c generalizing m with
  | nil => rfl
  | cons i c ih =>
    simp only [List.cons_append, execAll]
    cases m.exec w i with
    | none => rfl
    | some m' => exact ih m'

/-! ## What one change leaves alone -/

/-- Writing a register changes that register. -/
@[simp] theorem setReg_regs (m : Machine) (r s : Register) (x : Word) :
    (m.setReg r x).regs s = if s = r then x else m.regs s := rfl

@[simp] theorem setReg_memory (m : Machine) (r : Register) (x : Word) : (m.setReg r x).memory = m.memory := rfl

@[simp] theorem setReg_flags (m : Machine) (r : Register) (x : Word) : (m.setReg r x).flags = m.flags := rfl

@[simp] theorem setReg_calls (m : Machine) (r : Register) (x : Word) : (m.setReg r x).calls = m.calls := rfl

@[simp] theorem setCell_regs (m : Machine) (c x : Word) : (m.setCell c x).regs = m.regs := rfl

@[simp] theorem setCell_memory (m : Machine) (c a x : Word) :
    (m.setCell c x).memory a = if a = c then x else m.memory a := rfl

@[simp] theorem setCell_flags (m : Machine) (c x : Word) : (m.setCell c x).flags = m.flags := rfl

@[simp] theorem setCell_calls (m : Machine) (c x : Word) : (m.setCell c x).calls = m.calls := rfl

/-- An address of a base and a displacement is their sum. -/
@[simp] theorem address_offset (m : Machine) (r : Register) (d : Int) :
    m.address (.offset r d) = BitVec.ofInt 64 d + m.regs r := by
  simp [address, Address.offset]

/-- Two machines that differ at most in the given physical registers and memory cells. -/
structure AgreeOff (R : Set PhysReg) (C : Set Word) (m m' : Machine) : Prop where
  regs : ∀ r : Register, (∀ p ∈ R, r ≠ .phys p) → m'.regs r = m.regs r
  memory : ∀ a, a ∉ C → m'.memory a = m.memory a
  flags : m'.flags = m.flags
  calls : m'.calls = m.calls

namespace AgreeOff

variable {R S : Set PhysReg} {C D : Set Word} {m m' m'' : Machine}

theorem refl (R : Set PhysReg) (C : Set Word) (m : Machine) : AgreeOff R C m m :=
  ⟨fun _ _ => rfl, fun _ _ => rfl, rfl, rfl⟩

theorem trans (h : AgreeOff R C m m') (h' : AgreeOff R C m' m'') : AgreeOff R C m m'' :=
  ⟨fun r hr => (h'.regs r hr).trans (h.regs r hr), fun a ha => (h'.memory a ha).trans (h.memory a ha),
    h'.flags.trans h.flags, h'.calls.trans h.calls⟩

/-- Machines that agree off some places agree off more of them. -/
theorem mono (h : AgreeOff R C m m') (hR : R ⊆ S) (hC : C ⊆ D) : AgreeOff S D m m' :=
  ⟨fun r hr => h.regs r (fun p hp => hr p (hR hp)), fun a ha => h.memory a (fun hc => ha (hC hc)), h.flags, h.calls⟩

/-- A physical register outside the set holds what it held. -/
theorem phys (h : AgreeOff R C m m') {p : PhysReg} (hp : p ∉ R) : m'.regs (.phys p) = m.regs (.phys p) := by
  apply h.regs
  intro q hq heq
  cases heq
  exact hp hq

end AgreeOff

/-- Writing a register changes nothing else. -/
theorem agreeOff_setReg (m : Machine) (p : PhysReg) (x : Word) : AgreeOff {p} ∅ m (m.setReg (.phys p) x) := by
  refine ⟨fun r hr => ?_, fun _ _ => rfl, rfl, rfl⟩
  rw [setReg_regs, if_neg (hr p rfl)]

/-- Writing a cell changes nothing else. -/
theorem agreeOff_setCell (m : Machine) (c x : Word) : AgreeOff ∅ {c} m (m.setCell c x) := by
  refine ⟨fun _ _ => rfl, fun a ha => ?_, rfl, rfl⟩
  rw [setCell_memory, if_neg (by simpa using ha)]

end Machine

end RegAlloc
