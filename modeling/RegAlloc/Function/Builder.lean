import RegAlloc.Function

/-!
# Building functions

A `Builder` collects a function block by block. Blocks are laid out in the order in which they are created. Loops are
declared apart from their blocks and are settled when the function is finished, the last declaration for a header
counting. A finished function has an input in every phi for every predecessor of its block.
-/

namespace RegAlloc

/-- A function under construction, and the loops declared so far: header and body. -/
structure Builder where
  name : String
  blocks : List Block
  loops : List (BlockId × List BlockId)
  deriving Repr

namespace Builder

/-- A function without blocks. -/
def new (name : String) : Builder := ⟨name, [], []⟩

/-- Append an empty block that returns from the function. -/
def addBlock (b : Builder) (label : String) : Builder := { b with blocks := b.blocks ++ [⟨label, [], [], .ret, []⟩] }

/-- Change a block that exists. -/
def modifyBlock (b : Builder) (n : BlockId) (g : Block → Block) : Except Error Builder :=
  if n < b.blocks.length then .ok { b with blocks := b.blocks.modify n g } else .error (.unknownBlock n)

/-- Append an instruction to a block. -/
def push (b : Builder) (n : BlockId) (i : Instruction) : Except Error Builder :=
  b.modifyBlock n (fun blk => { blk with code := blk.code ++ [i] })

/-- Append a phi to a block. -/
def addPhi (b : Builder) (n : BlockId) (φ : Phi) : Except Error Builder :=
  b.modifyBlock n (fun blk => { blk with phis := blk.phis ++ [φ] })

/-- Set how control leaves a block. -/
def setExit (b : Builder) (n : BlockId) (exit : Exit) : Except Error Builder :=
  b.modifyBlock n (fun blk => { blk with exit := exit })

/-- Declare a block the header of a loop. -/
def addLoop (b : Builder) (header : BlockId) (body : List BlockId) : Builder :=
  { b with loops := b.loops ++ [(header, body)] }

/-- The blocks with one declared loop settled: the header is always part of it. -/
def settleLoop (blocks : List Block) (header : BlockId) (body : List BlockId) : Except Error (List Block) :=
  match (header :: body).find? (fun b => blocks.length ≤ b) with
  | some b => .error (.unknownBlock b)
  | none => .ok (blocks.modify header (fun blk => { blk with loopBody := insertAllBy id (header :: body) [] }))

/-- The function, its loops settled. -/
def function (b : Builder) : Except Error Function := do
  let blocks ← b.loops.foldlM (fun blocks l => settleLoop blocks l.1 l.2) b.blocks
  return ⟨b.name, blocks⟩

/-- The first predecessor of a block for which one of the block's phis has no input. -/
def missingInput? (f : Function) (b : BlockId) : Option BlockId :=
  (((f.block? b).map (·.phis)).getD []).findSome? (fun φ => (f.predecessors b).find? (fun p => (φ.input? p).isNone))

/-- Finish the function: every phi needs an input for every predecessor. -/
def build (b : Builder) : Except Error Function := do
  let f ← b.function
  match f.blockIds.findSome? (fun n => (missingInput? f n).map (fun p => (n, p))) with
  | some (n, p) => .error (.missingPhiInput (f.label n) (f.label p))
  | none => .ok f

end Builder

end RegAlloc
