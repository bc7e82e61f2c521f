import RegAlloc.Error
import RegAlloc.Instruction

/-!
# Functions

A function is a list of blocks in the order in which they will be laid out; a block is known by its place in the list.
A block has phis, which choose a value by the predecessor that control came from, then instructions, then an exit. The
header of a loop also lists the blocks of the loop, itself included.
-/

namespace RegAlloc

/-- A choice of a value at the start of a block: `output` takes the input of the predecessor that control came from. -/
structure Phi where
  output : Operand
  /-- One operand for each predecessor, in the order of the predecessors. -/
  inputs : List (BlockId × Operand)
  deriving DecidableEq, Repr

namespace Phi

/-- The phi with the given inputs; of two inputs for one predecessor the later counts. -/
def ofInputs (output : Operand) (inputs : List (BlockId × Operand)) : Phi := ⟨output, insertAllBy (·.1) inputs []⟩

/-- The input for a predecessor. -/
def input? (φ : Phi) (pred : BlockId) : Option Operand := lookupBy pred φ.inputs

/-- The registers of the output and of every input. -/
def hints (φ : Phi) : List Register := φ.output.register?.toList ++ φ.inputs.filterMap (fun e => e.2.register?)

/-- The registers of the output and of the input for one predecessor. -/
def hintsFrom (φ : Phi) (pred : BlockId) : List Register :=
  φ.output.register?.toList ++ ((φ.input? pred).bind Operand.register?).toList

/-- The virtual register the phi writes, if it writes one. -/
def virt? (φ : Phi) : Option VirtReg := φ.output.register?.bind Register.virt?

end Phi

/-- How control leaves a block. -/
inductive Exit where
  /-- Return from the function. -/
  | ret
  /-- Go on in another block. -/
  | goto (target : BlockId)
  /-- Go on in `yes` if the last comparison stands in the relation, and in `no` otherwise. -/
  | branch (relation : Relation) (yes no : BlockId)
  deriving DecidableEq, Repr

/-- The blocks that control can go on in, each once. -/
def Exit.successors : Exit → List BlockId
  | .ret => []
  | .goto target => [target]
  | .branch _ yes no => if yes = no then [yes] else [yes, no]

/-- A block. `loopBody` is empty unless the block is the header of a loop, and then holds the blocks of the loop in
order. -/
structure Block where
  label : String
  phis : List Phi
  code : List Instruction
  exit : Exit
  loopBody : List BlockId
  deriving DecidableEq, Repr

/-- The place where a block ends. -/
def Block.stop (blk : Block) (b : BlockId) : Position := .exit b blk.code.length

/-- A function: its name and its blocks. -/
structure Function where
  name : String
  blocks : List Block
  deriving DecidableEq, Repr

namespace Function

/-- The numbers of the blocks. -/
def blockIds (f : Function) : List BlockId := List.range f.blocks.length

/-- The block of a number. -/
def block? (f : Function) (b : BlockId) : Option Block := f.blocks[b]?

/-- The label of a block. -/
def label (f : Function) (b : BlockId) : String := ((f.block? b).map (·.label)).getD ""

/-- The blocks that control can go on in after a block. -/
def successors (f : Function) (b : BlockId) : List BlockId := ((f.block? b).map (·.exit.successors)).getD []

/-- The blocks that can go on in a block, in order. -/
def predecessors (f : Function) (b : BlockId) : List BlockId := f.blockIds.filter (fun p => (f.successors p).contains b)

/-- The block laid out after a block. -/
def next? (f : Function) (b : BlockId) : Option BlockId := if b + 1 < f.blocks.length then some (b + 1) else none

/-- The end of a block, if the function has it. -/
def stop (f : Function) (b : BlockId) : Except Error Position :=
  match f.block? b with
  | some blk => .ok (blk.stop b)
  | none => .error (.unknownBlock b)

/-- The first block named by an exit or by a loop that the function does not have. -/
def strayBlock? (f : Function) : Option BlockId :=
  (f.blocks.flatMap (fun blk => blk.exit.successors ++ blk.loopBody)).find? (fun b => f.blocks.length ≤ b)

end Function

end RegAlloc
