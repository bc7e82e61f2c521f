import RegAlloc.Error
import RegAlloc.Instruction

/-!
# Moves that happen at once

`sequence` turns a set of moves, all of which read before any of them writes, into instructions to be executed one
after the other. A pending move is blocked while another pending move still reads its destination. Moves that are not
blocked come first, and among them those that free a register. Once only blocked moves are left, one of them is
carried out by exchanging the two places, and the moves that read either place are redirected to where their value
went. Constants come last, since nothing changes them.

A value is moved from memory to memory through a register that nothing reads any more and that holds no value in its
final place, or else through the stack.
-/

namespace RegAlloc

/-- A copy of `src` to `dest`. -/
structure Move where
  src : Operand
  dest : Operand
  deriving DecidableEq, Repr

namespace Move

/-- Whether the value already is where it should be. -/
def isNoop (m : Move) : Bool := m.src.sameLocation m.dest

/-- The move as it is written in messages. -/
def text (m : Move) : String := m.src.text ++ " -> " ++ m.dest.text

/-- The kinds of pending moves, in increasing order of urgency. -/
inductive Urgency where
  | constant | blockedMemMem | blockedRegMem | blockedRegReg | freeMemReg | freeMemMem | freeRegReg | freeRegMem
  deriving DecidableEq, Repr

/-- The place of a kind in the order of urgency. -/
def Urgency.rank : Urgency → Nat
  | .constant => 0
  | .blockedMemMem => 1
  | .blockedRegMem => 2
  | .blockedRegReg => 3
  | .freeMemReg => 4
  | .freeMemMem => 5
  | .freeRegReg => 6
  | .freeRegMem => 7

/-- Whether a pending move still reads the destination of a move. -/
def isBlocked (pending : List Move) (m : Move) : Bool := pending.any (fun o => o.src.sameLocation m.dest)

/-- The kind of a pending move. -/
def urgency (pending : List Move) (m : Move) : Urgency :=
  if m.src.isImmediate then .constant
  else
    match isBlocked pending m, m.src.isMemory, m.dest.isMemory with
    | true, true, true => .blockedMemMem
    | true, false, false => .blockedRegReg
    | true, _, _ => .blockedRegMem
    | false, true, true => .freeMemMem
    | false, false, false => .freeRegReg
    | false, true, false => .freeMemReg
    | false, false, true => .freeRegMem

/-- The more urgent of two moves, and the first of two that are equally urgent. -/
def moreUrgent (pending : List Move) (best : Option Move) (m : Move) : Option Move :=
  match best with
  | some b => if (urgency pending b).rank < (urgency pending m).rank then some m else some b
  | none => some m

/-- The first of the most urgent pending moves. -/
def next? (pending : List Move) : Option Move := pending.foldl (moreUrgent pending) none

/-- The physical registers that pending moves read, those of the addresses they write to included. -/
def readBy (pending : List Move) : List PhysReg :=
  pending.flatMap (fun m => (m.src.reads false false ++ m.dest.reads true false).filterMap (fun a => a.register.phys?))

/-- Copy memory to memory, through a register if there is one and otherwise through the stack. -/
def throughScratch (scratch : List PhysReg) (m : Move) : List Instruction :=
  match scratch with
  | r :: _ => [.mov m.src (.phys m.dest.width r), .mov (.phys m.dest.width r) m.dest]
  | [] => [.push (m.src.withWidth .quad), .pop (m.dest.withWidth .quad)]

/-- Exchange two memory cells through the stack. -/
def exchangeCells (m : Move) : List Instruction :=
  [.push (m.src.withWidth .quad), .push (m.dest.withWidth .quad), .pop (m.src.withWidth .quad),
    .pop (m.dest.withWidth .quad)]

/-- A pending move after the places of `swap` were exchanged: it reads its value where it went. -/
def redirect (swap m : Move) : Move :=
  if m.src.sameLocation swap.dest then { m with src := swap.src.withWidth m.src.width }
  else if m.src.sameLocation swap.src then { m with src := swap.dest.withWidth m.src.width }
  else m

end Move

/-- Moves to be carried out, the registers that are free for other use, and those that hold a value in its final
place. -/
structure Sequencer where
  pending : List Move
  scratch : List PhysReg
  frozen : List PhysReg
  deriving DecidableEq, Repr

namespace Sequencer

open Move

/-- The state for a set of moves. A value that already is in its place stays there. -/
def initial (moves : List Move) : Sequencer :=
  ⟨moves.filter (fun m => !m.isNoop), [], (moves.filter isNoop).filterMap (fun m => m.dest.phys?)⟩

/-- The state after the places of a move were exchanged. Moves whose value thereby came into its place are done. -/
def exchanged (s : Sequencer) (swap : Move) : Sequencer :=
  let moved := s.pending.map (redirect swap)
  { s with
    pending := moved.filter (fun m => !m.isNoop)
    frozen := s.frozen ++ (moved.filter isNoop).filterMap (fun m => m.dest.phys?) }

/-- The state with a move taken out of the pending ones, and the instructions that carry it out. -/
def perform (s : Sequencer) (m : Move) : List Instruction × Sequencer :=
  let rest := { s with pending := s.pending.erase m }
  match urgency s.pending m with
  | .constant | .freeMemReg | .freeRegReg | .freeRegMem => ([.mov m.src m.dest], rest)
  | .freeMemMem => (throughScratch s.scratch m, rest)
  | .blockedMemMem => (exchangeCells m, rest.exchanged m)
  | .blockedRegMem | .blockedRegReg => ([.xchg m.src m.dest], rest.exchanged m)

/-- The state after a move to `dest`: the destination holds its final value, and registers that are no longer read can
be used for other values, unless they hold a final value or the frame. `before` are the moves that were pending. -/
def settle (s : Sequencer) (before : List Move) (dest : Operand) : Sequencer :=
  let frozen := s.frozen ++ dest.phys?.toList
  { s with
    frozen := frozen
    scratch := PhysReg.all.filter (fun r =>
      (s.scratch.contains r || (readBy before).contains r && !(readBy s.pending).contains r) &&
        !frozen.contains r && !r.isReserved) }

/-- Carry out pending moves, the most urgent one first, no more than a given number. -/
def run : Nat → Sequencer → List Instruction
  | 0, _ => []
  | steps + 1, s =>
    match next? s.pending with
    | none => []
    | some m => (s.perform m).1 ++ run steps ((s.perform m).2.settle s.pending m.dest)

end Sequencer

namespace Move

/-- The first destination that an earlier move writes too; `seen` are the destinations met so far. -/
def repeated? (seen : List Operand) : List Move → Option Operand
  | [] => none
  | m :: rest => if seen.any (fun o => o.sameLocation m.dest) then some m.dest else repeated? (m.dest :: seen) rest

/-- Instructions that have the effect of making all moves at once. -/
def sequence (moves : List Move) : Except Error (List Instruction) :=
  match repeated? [] moves with
  | some dest => .error (.duplicateDestination dest.text)
  | none => .ok (Sequencer.run moves.length (.initial moves))

end Move

end RegAlloc
