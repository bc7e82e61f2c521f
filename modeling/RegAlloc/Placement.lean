import RegAlloc.Allocation

/-!
# Code in place

Once registers are chosen, every virtual register in the code of a block is replaced by the place where its value is:
at the position where the instruction reads for what it reads, and at the position where it writes for what it writes.
Between the instructions stand the transfers to and from stack slots. An instruction that updates an operand whose
place changes between reading and writing is followed by a move. `enter` and `leave` are spelled out, now that the
size of the frame is known.
-/

namespace RegAlloc

/-- The code of a block with every value in its place, and the phis of the block over places. -/
structure PlacedBlock where
  id : BlockId
  label : String
  /-- The phis by the registers they write; an input is in its place at the end of its predecessor. -/
  phis : List (VirtReg × Phi)
  body : List Instruction
  deriving DecidableEq, Repr

namespace PlacedBlock

/-- The code of the block, its label first. -/
def code (b : PlacedBlock) : List Instruction := .label b.label :: b.body

/-- The input of the phi that writes a register, for a predecessor. -/
def input? (b : PlacedBlock) (v : VirtReg) (pred : BlockId) : Option Operand :=
  (lookupBy v b.phis).bind (fun φ => φ.input? pred)

end PlacedBlock

/-- A move, through the stack if both sides are memory. -/
def moveCode (src dest : Operand) : List Instruction :=
  if src.isMemory && dest.isMemory then [.push (src.withWidth .quad), .pop (dest.withWidth .quad)] else [.mov src dest]

/-- The move that takes an updated value to the place where it is written, if that is another one. -/
def fixup (input output : Operand) : List Instruction :=
  if input.sameLocation output then [] else moveCode input output

namespace Allocation

/-- A register of an address, which has to be in a physical register. -/
def addressRegister (a : Allocation) (p : Position) (r : Register) : Except Error Register :=
  match r with
  | .phys q => .ok (.phys q)
  | .virt v =>
    match a.registerAt? r p with
    | some q => .ok (.phys q)
    | none => .error (.spilledAddressRegister v p)

/-- An optional register of an address. -/
def addressPart (a : Allocation) (p : Position) : Option Register → Except Error (Option Register)
  | some r => do return some (← a.addressRegister p r)
  | none => .ok none

/-- An operand with every virtual register in its place at a position. -/
def place (a : Allocation) (p : Position) (o : Operand) : Except Error Operand :=
  match o.content with
  | .imm _ => .ok o
  | .reg r => a.storage o.width r p
  | .mem m => do
    let base ← a.addressPart p m.base
    let index ← a.addressPart p m.index
    return .mem o.width { m with base := base, index := index }

/-- The instruction of a transfer. -/
def transferCode (a : Allocation) (x : Transfer) : Instruction :=
  let register := Operand.phys x.register.width x.home
  match x.kind with
  | .spill => .mov register (a.slotCell x.slot x.register.width)
  | .reload => .mov (a.slotCell x.slot x.register.width) register

/-- The instructions of the transfers at a position. -/
def transferCodeAt (a : Allocation) (p : Position) : List Instruction := (a.transfersAt p).map a.transferCode

/-- The instructions that set up a frame. -/
def enterCode (a : Allocation) : Except Error (List Instruction) := do
  let size ← a.frameSize
  let base := Operand.phys .quad a.target.frameBase
  let top := Operand.phys .quad a.target.stackPointer
  return [.push base, .mov top base, .arith .sub (.imm .quad size) top]

/-- The instructions that take down a frame. -/
def leaveCode (a : Allocation) : List Instruction :=
  let base := Operand.phys .quad a.target.frameBase
  [.mov base (Operand.phys .quad a.target.stackPointer), .pop base]

/-- An instruction in place, where it reads at one position and writes at another. -/
def placeInstruction (a : Allocation) (read write : Position) : Instruction → Except Error (List Instruction)
  | .arith op left right => do
    let left ← a.place read left
    let input ← a.place read right
    let output ← a.place write right
    return .arith op left input :: fixup input output
  | .neg operand => do
    let input ← a.place read operand
    let output ← a.place write operand
    return .neg input :: fixup input output
  | .mov src dest => do
    let src ← a.place read src
    let dest ← a.place write dest
    return moveCode src dest
  | .compare op left right => do
    let left ← a.place read left
    let right ← a.place read right
    return [.compare op left right]
  | .setcc relation output => do return [.setcc relation (← a.place write output)]
  | .idiv divisor => do return [.idiv (← a.place read divisor)]
  | .push operand => do return [.push (← a.place read operand)]
  | .pop operand => do return [.pop (← a.place write operand)]
  | .xchg left right => do
    let left ← a.place read left
    let right ← a.place read right
    return [.xchg left right]
  | .enter => a.enterCode
  | .leave => .ok a.leaveCode
  | .cqto width => .ok [.cqto width]
  | .call callee arguments => .ok [.call callee arguments]
  | .jmp target => .ok [.jmp target]
  | .jcc relation target => .ok [.jcc relation target]
  | .label name => .ok [.label name]
  | .ret => .ok [.ret]

/-- Instruction `n` of a block in place, with the transfers where it reads and where it writes. -/
def placeNumbered (a : Allocation) (b : BlockId) (e : Instruction × Nat) : Except Error (List Instruction) := do
  let code ← a.placeInstruction (.readAt b e.2) (.writeAt b e.2) e.1
  return a.transferCodeAt (.readAt b e.2) ++ code ++ a.transferCodeAt (.writeAt b e.2)

/-- One input of a phi in its place at the end of its predecessor. -/
def placeInput (f : Function) (a : Allocation) (e : BlockId × Operand) : Except Error (BlockId × Operand) := do
  let stop ← f.stop e.1
  return (e.1, ← a.place stop e.2)

/-- A phi of block `b` over places. One that writes no virtual register, or one that is never read, is left out. -/
def placePhi (f : Function) (a : Allocation) (b : BlockId) (φ : Phi) : Except Error (Option (VirtReg × Phi)) :=
  match φ.virt? with
  | none => .ok none
  | some v =>
    if a.hasRegister v then do
      let output ← a.place (.entry b) φ.output
      let inputs ← φ.inputs.mapM (placeInput f a)
      return some (v, ⟨output, inputs⟩)
    else .ok none

/-- A block in place. -/
def placeBlock (f : Function) (a : Allocation) (b : BlockId) : Except Error PlacedBlock :=
  match f.block? b with
  | none => .error (.unknownBlock b)
  | some blk => do
    let phis ← blk.phis.mapM (placePhi f a b)
    let code ← blk.code.zipIdx.mapM (a.placeNumbered b)
    return ⟨b, blk.label, insertAllBy (·.1) (phis.filterMap id) [],
      a.transferCodeAt (.entry b) ++ code.flatten ++ a.transferCodeAt (blk.stop b)⟩

/-- All blocks of a function in place. -/
def placeBlocks (f : Function) (a : Allocation) : Except Error (List PlacedBlock) := f.blockIds.mapM (placeBlock f a)

end Allocation

end RegAlloc
