import RegAlloc.Interval
import RegAlloc.Liveness
import RegAlloc.Target

/-!
# Lifetimes

The lifetimes of a function are one interval for each virtual register that is ever live, and for each register that
may be given to values the range where the code itself needs it: arguments and results of calls, what calls overwrite,
the operands of divisions.

The intervals are made by going over the blocks from the last to the first and taking notes (`Note`), which are then
carried out in order. For each block the notes are: the reads at its end by the phis of its successors; that
everything live at its end is live in the whole of it; what its instructions write and read, the last instruction
first; what its phis write; and, if it is the header of a loop, that everything live at its start is live in all
blocks of the loop.
-/

namespace RegAlloc

/-- A fact about a register, in the order in which facts are found. -/
inductive Note where
  /-- The register is live in the whole of a block of `n` instructions. -/
  | alive (v : VirtReg) (b : BlockId) (n : Nat)
  /-- The register is written. -/
  | write (v : VirtReg) (p : Position) (memoryOk : Bool)
  /-- The register is read. -/
  | read (v : VirtReg) (p : Position) (memoryOk : Bool)
  /-- The register begins as a copy of one of these, or is one of them. -/
  | linkStart (v : VirtReg) (hints : List Register)
  /-- The register ends as one of these, or is one of them. -/
  | linkStop (v : VirtReg) (hints : List Register)
  deriving DecidableEq, Repr

namespace Note

open Liveness

/-- The notes on what a list of accesses writes at a position. A register that the instruction copies into begins
there. -/
def writes (names : List VirtReg) (p : Position) (hints : List Register) (accesses : List Access) : List Note :=
  accesses.flatMap (fun a =>
    match a.register with
    | .phys _ => []
    | .virt v =>
      .write (canonical names v) p a.memoryOk ::
        if hints.contains a.register
          then [.linkStart (canonical names v) (hints.map (canonicalRegister names))] else [])

/-- The notes on what a list of accesses reads at a position. A register that is copied and not live afterwards ends
there. -/
def reads (names : List VirtReg) (p : Position) (hints : List Register) : List Access → Live → List Note
  | [], _ => []
  | a :: rest, live =>
    match a.register with
    | .phys _ => reads names p hints rest live
    | .virt v =>
      .read (canonical names v) p a.memoryOk ::
        ((if !live.contains (canonical names v) && hints.contains a.register then
            [.linkStop (canonical names v) (hints.map (canonicalRegister names))]
          else []) ++
          reads names p hints rest (live.insert (canonical names v)))

/-- The notes on one instruction, from the registers live after it. -/
def instruction (names : List VirtReg) (b : BlockId) (n : Nat) (i : Instruction) (live : Live) : List Note :=
  writes names (.writeAt b n) i.hints i.defs ++
    reads names (.readAt b n) i.hints i.uses (remove names (virtRegs i.defs) live)

/-- The notes on instructions that are given with their numbers, the last one first. -/
def code (names : List VirtReg) (b : BlockId) : List (Instruction × Nat) → Live → List Note
  | [], _ => []
  | (i, n) :: rest, live => instruction names b n i live ++ code names b rest (through names i live)

/-- The notes on what the phis of the successors read at the end of a block. -/
def phiReads (f : Function) (names : List VirtReg) (b : BlockId) (stop : Position) : List Note :=
  (f.successors b).flatMap (fun s =>
    (((f.block? s).map (·.phis)).getD []).flatMap (fun φ =>
      (((φ.input? b).map (fun o => o.reads false true)).getD []).flatMap (fun a =>
        match a.register with
        | .phys _ => []
        | .virt v =>
          .read (canonical names v) stop a.memoryOk ::
            if (φ.hintsFrom b).contains a.register then
              [.linkStop (canonical names v) ((φ.hintsFrom b).map (canonicalRegister names))]
            else [])))

/-- The notes on what phis write at the start of their block. A phi whose output is not live is left out. -/
def phiWrites (names : List VirtReg) (b : BlockId) : List Phi → Live → List Note
  | [], _ => []
  | φ :: rest, live =>
    match φ.virt? with
    | none => phiWrites names b rest live
    | some v =>
      if live.contains (canonical names v) then
        .write (canonical names v) (.entry b) true ::
          .linkStart (canonical names v) (φ.hints.map (canonicalRegister names)) ::
            phiWrites names b rest (remove names [v] live)
      else phiWrites names b rest live

/-- The notes that registers are live in the whole of a block. -/
def wholeBlock (f : Function) (live : Live) (b : BlockId) : List Note :=
  live.map (fun v => .alive v b (((f.block? b).map (·.code.length)).getD 0))

/-- The notes on one block, where `later` holds the live sets at the start of the blocks after it. -/
def block (f : Function) (names : List VirtReg) (b : BlockId) (blk : Block) (later : List Live) : List Note :=
  phiReads f names b (blk.stop b) ++
    wholeBlock f (atExit f names b later) b ++
    code names b blk.code.zipIdx.reverse (atExit f names b later) ++
    phiWrites names b blk.phis (throughCode names blk (atExit f names b later)) ++
    blk.loopBody.flatMap (wholeBlock f (atEntry f names b blk later))

/-- The notes on all blocks, the last block first, from the live sets at their starts. -/
def blocks (f : Function) (names : List VirtReg) (entries : List Live) : List Note :=
  f.blocks.zipIdx.reverse.flatMap (fun e => block f names e.2 e.1 (entries.drop (e.2 + 1)))

/-- The notes on a function. -/
def all (f : Function) (names : List VirtReg) : List Note := blocks f names (entries f names)

/-- The interval of a register among intervals ordered by register. -/
def interval (intervals : List Interval) (v : VirtReg) : Interval :=
  (intervals.find? (fun i => i.register = v)).getD (Interval.new v)

/-- Change the interval of a register. -/
def update (intervals : List Interval) (v : VirtReg) (g : Interval → Interval) : List Interval :=
  insertBy Interval.register (g (interval intervals v)) intervals

/-- The registers that `v` is linked to by `hints`: itself, the hints, and what other virtual registers among them are
linked to so far. -/
def linked (intervals : List Interval) (v : VirtReg) (hints : List Register) : List Register :=
  .virt v :: hints.flatMap (fun h =>
    match h with
    | .phys _ => [h]
    | .virt w => if w = v then [h] else h :: ((interval intervals w).stopHints ++ (interval intervals w).startHints))

/-- Carry out a note. -/
def apply (intervals : List Interval) : Note → List Interval
  | .alive v b n => update intervals v (fun i => i.addBlock b n)
  | .write v p memoryOk => update intervals v (fun i => i.addDef p memoryOk)
  | .read v p memoryOk => update intervals v (fun i => i.addUse p memoryOk)
  | .linkStart v hints => update intervals v (fun i => i.addStartHints (linked intervals v hints))
  | .linkStop v hints => update intervals v (fun i => i.addStopHints (linked intervals v hints))

end Note

/-- Whether an instruction leaves a physical register changed: it writes it, or is a call that may overwrite it. -/
def Instruction.overwrites (i : Instruction) (t : Target) (r : PhysReg) : Bool :=
  i.defs.any (fun a => a.register = .phys r) || i.isCall && t.callerSaved.contains r

/-- Whether an instruction reads a physical register. -/
def Instruction.inspects (i : Instruction) (r : PhysReg) : Bool := i.uses.any (fun a => a.register = .phys r)

/-- The range of a physical register, extended by one instruction that stands before everything seen so far. -/
def pinInstruction (t : Target) (r : PhysReg) (b : BlockId) (range : LiveRange) (e : Instruction × Nat) : LiveRange :=
  let written := if e.1.overwrites t r then range.pinWrite (.writeAt b e.2) else range
  if e.1.inspects r then written.pinRead (.readAt b e.2) else written

/-- The range of a physical register, extended by the instructions of a block. -/
def pinBlock (t : Target) (r : PhysReg) (range : LiveRange) (e : Block × BlockId) : LiveRange :=
  e.1.code.zipIdx.reverse.foldl (pinInstruction t r e.2) range

/-- Where the code of a function needs a physical register. -/
def Function.pinned (f : Function) (t : Target) (r : PhysReg) : LiveRange :=
  f.blocks.zipIdx.reverse.foldl (pinBlock t r) .empty

/-- The intervals of the virtual registers of a function, ordered by register, and the ranges where the code needs the
registers that may be given to values, in their order. -/
structure Lifetimes where
  intervals : List Interval
  pinned : List (PhysReg × LiveRange)
  deriving DecidableEq, Repr

namespace Lifetimes

/-- The lifetimes of a function whose exits and loops name only blocks that it has. -/
def compute (f : Function) (t : Target) : Lifetimes :=
  ⟨(Note.all f f.mentions).foldl Note.apply [],
    (PhysReg.all.filter t.isAllocatable).map (fun r => (r, f.pinned t r))⟩

/-- The lifetimes of a function. -/
def ofFunction (f : Function) (t : Target) : Except Error Lifetimes :=
  match f.strayBlock? with
  | some b => .error (.unknownBlock b)
  | none => .ok (compute f t)

/-- The lifetimes made of the given intervals and ranges; of two for one register the later counts. -/
def ofParts (intervals : List Interval) (pinned : List (PhysReg × LiveRange)) : Lifetimes :=
  ⟨insertAllBy Interval.register intervals [], insertAllBy (·.1) pinned []⟩

end Lifetimes

end RegAlloc
