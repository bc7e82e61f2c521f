import RegAlloc.ParallelMove
import RegAlloc.Placement

/-!
# Layout

The code of a function is the code of its blocks, one after the other. Two things are added. On every edge between
blocks the values live at the start of the second block are moved to their places there: at the end of the first block
if it has one successor, and at the start of the second if it has one predecessor. And every block ends with the jumps
of its exit; control falls through to the next block where it can.
-/

namespace RegAlloc

/-- Instructions added to a block because of an edge, after its label or at its end. -/
structure Patch where
  block : BlockId
  atEntry : Bool
  code : List Instruction
  deriving DecidableEq, Repr

/-- The code of a function, and how much of it moves values on edges. -/
structure Layout where
  code : List Instruction
  moves : Nat
  deriving DecidableEq, Repr

namespace Layout

/-- The move of a split that is live at the start of `succ`, on the edge from `pred`: from the input of a phi that
writes its register, or else from the place at the end of `pred`. -/
def edgeMove (f : Function) (a : Allocation) (placed : List PlacedBlock) (pred succ : BlockId) (x : Split) :
    Except Error Move := do
  let v := x.interval.register
  let dest ← a.storage v.width (.virt v) (.entry succ)
  match (placed[succ]?).bind (fun b => b.input? v pred) with
  | some input => return ⟨input.withWidth v.width, dest⟩
  | none => return ⟨← a.storage v.width (.virt v) (← f.stop pred), dest⟩

/-- The moves on an edge, those that change nothing included. An edge has to lead to a block of the function. -/
def edgeMoves (f : Function) (a : Allocation) (placed : List PlacedBlock) (pred succ : BlockId) :
    Except Error (List Move) :=
  match f.block? succ with
  | none => .error (.unknownBlock succ)
  | some _ => (a.liveAt (.entry succ)).mapM (edgeMove f a placed pred succ)

/-- The instructions for an edge out of a block with two successors. They stand at the start of the second block,
which can then have no other predecessor. -/
def branchPatch (f : Function) (a : Allocation) (placed : List PlacedBlock) (pred succ : BlockId) :
    Except Error (Option Patch) := do
  let moves ← edgeMoves f a placed pred succ
  let needed := moves.countP (fun m => !m.isNoop)
  if needed = 0 then return none
  else if 1 < (f.predecessors succ).length then .error (.criticalEdge (f.label pred) (f.label succ) needed)
  else return some ⟨succ, true, ← Move.sequence moves⟩

/-- The instructions for the edges out of a block. -/
def patchesFrom (f : Function) (a : Allocation) (placed : List PlacedBlock) (pred : BlockId) :
    Except Error (List Patch) :=
  match f.successors pred with
  | [succ] => do return [⟨pred, false, ← Move.sequence (← edgeMoves f a placed pred succ)⟩]
  | succs => do return (← succs.mapM (branchPatch f a placed pred)).filterMap id

/-- The instructions for all edges. -/
def patches (f : Function) (a : Allocation) (placed : List PlacedBlock) : Except Error (List Patch) := do
  return (← f.blockIds.mapM (patchesFrom f a placed)).flatten

/-- The jumps at the end of a block. -/
def exitCode (f : Function) (b : BlockId) : Exit → List Instruction
  | .ret => [.ret]
  | .goto target => if f.next? b = some target then [] else [.jmp (f.label target)]
  | .branch relation yes no =>
    if f.next? b = some no then [.jcc relation (f.label yes)]
    else if f.next? b = some yes then [.jcc relation.negated (f.label no)]
    else [.jcc relation (f.label yes), .jmp (f.label no)]

/-- What the patches add to a block, after its label or at its end. -/
def added (patches : List Patch) (b : BlockId) (atEntry : Bool) : List Instruction :=
  (patches.filter (fun p => p.block = b && p.atEntry = atEntry)).flatMap (·.code)

/-- The code of a block: its label, what edges add there, its own code, what edges add at the end, and its jumps. -/
def blockCode (f : Function) (patches : List Patch) (b : PlacedBlock) : List Instruction :=
  .label b.label :: (added patches b.id true ++ b.body ++ added patches b.id false ++
    exitCode f b.id (((f.block? b.id).map (·.exit)).getD .ret))

/-- The code of a function for which registers were chosen. -/
def ofAllocation (f : Function) (a : Allocation) : Except Error Layout := do
  let placed ← a.placeBlocks f
  let patches ← patches f a placed
  return ⟨placed.flatMap (blockCode f patches), (patches.flatMap (·.code)).length⟩

end Layout

end RegAlloc
