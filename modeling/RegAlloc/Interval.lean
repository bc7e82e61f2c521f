import RegAlloc.Error
import RegAlloc.LiveRange

/-!
# Intervals

An `Interval` is what is known about one virtual register, or about one piece of it: where it is live, the sites where
it is read or written, and the registers it would like to share a physical register with, at its start and at its end.
While intervals are computed, blocks are visited backwards: `addDef` narrows the segment of a block to start at a
write, `addUse` widens it to the start of the block.
-/

namespace RegAlloc

/-- A read or write of a register, and whether the instruction can access its stack slot instead. -/
structure Site where
  position : Position
  memoryOk : Bool
  deriving DecidableEq, Repr

/-- A virtual register, or a piece of it: where it is live, where it is accessed, and with which registers it would
like to share a physical register. -/
structure Interval where
  register : VirtReg
  range : LiveRange
  sites : List Site
  /-- Registers connected where the interval begins: the source of a move that writes it. -/
  startHints : List Register
  /-- Registers connected where the interval ends: the destination of a move that reads it. -/
  stopHints : List Register
  deriving DecidableEq, Repr

namespace Interval

/-- The interval of a register of which nothing is known yet. -/
def new (v : VirtReg) : Interval := ⟨v, .empty, [], [], []⟩

/-- The interval with the given segments, sites and hints, in whatever order they come. -/
def ofParts (v : VirtReg) (segments : List Segment) (sites : List Site) (startHints stopHints : List Register) :
    Interval :=
  ⟨v, .ofSegments segments, insertAllBy Site.position sites [], insertAllBy id startHints [],
    insertAllBy id stopHints []⟩

/-- The first live position. -/
def start (i : Interval) : Position := i.range.start?.getD .zero

/-- The last live position. -/
def stop (i : Interval) : Position := i.range.stop?.getD .zero

/-- Whether the interval covers a position. -/
def covers (i : Interval) (p : Position) : Bool := i.range.covers p

/-- Whether the interval is over before a position. -/
def endsBefore (i : Interval) (p : Position) : Bool := i.stop < p

/-- Whether the interval has a site. -/
def hasSites (i : Interval) : Bool := !i.sites.isEmpty

/-- The first site. -/
def firstSite? (i : Interval) : Option Position := i.sites.head?.map (·.position)

/-- The first site at a position or after it. -/
def nextSite? (i : Interval) (p : Position) : Option Position :=
  (i.sites.find? (fun s => p ≤ s.position)).map (·.position)

/-- The first site that cannot be served from memory. -/
def firstRegisterSite? (i : Interval) : Option Position := (i.sites.find? (fun s => !s.memoryOk)).map (·.position)

/-- The last site that is a write. -/
def lastDef? (i : Interval) : Option Position :=
  ((i.sites.filter (fun s => s.position.isWrite)).getLast?).map (·.position)

/-- The first site, if it is a read. -/
def firstUse? (i : Interval) : Option Position := i.firstSite?.filter Position.isRead

/-- The segment of a block. -/
def inBlock? (i : Interval) (b : BlockId) : Option Segment := (i.range.inBlock b).head?

/-- Add a site to sites in order. A position that already is a site can be served from memory only if both can. -/
def insertSite (sites : List Site) (s : Site) : List Site :=
  insertBy Site.position
    { s with memoryOk :=
      s.memoryOk && ((sites.find? (fun t => t.position = s.position)).map (·.memoryOk)).getD true } sites

/-- Record a site. -/
def addSite (i : Interval) (p : Position) (memoryOk : Bool) : Interval :=
  { i with sites := insertSite i.sites ⟨p, memoryOk⟩ }

/-- Make the interval live in the whole of a block of `n` instructions. -/
def addBlock (i : Interval) (b : BlockId) (n : Nat) : Interval :=
  { i with range := (i.range.eraseBlock b).insert (Segment.whole b n) }

/-- The range after a write at a position: the segment of the block starts there. A write that nothing reads has a
segment of its own. -/
def defRange (i : Interval) (p : Position) : LiveRange :=
  match i.inBlock? p.block with
  | some s => (i.range.erase s).insert (s.withFirst p.slot)
  | none => i.range.insert ⟨p.block, p.slot, p.slot⟩

/-- Record a write. -/
def addDef (i : Interval) (p : Position) (memoryOk : Bool) : Interval :=
  { i with range := i.defRange p }.addSite p memoryOk

/-- The range after a read at a position: the register is live from the start of the block, unless its segment already
reaches back to the read. -/
def useRange (i : Interval) (p : Position) : LiveRange :=
  match i.inBlock? p.block with
  | some s => if p.slot < s.first then (i.range.erase s).insert (s.withFirst 0) else i.range
  | none => i.range.insert ⟨p.block, 0, p.slot⟩

/-- Record a read. -/
def addUse (i : Interval) (p : Position) (memoryOk : Bool) : Interval :=
  { i with range := i.useRange p }.addSite p memoryOk

/-- Add registers to the hints of the start. -/
def addStartHints (i : Interval) (hints : List Register) : Interval :=
  { i with startHints := insertAllBy id hints i.startHints }

/-- Add registers to the hints of the end. -/
def addStopHints (i : Interval) (hints : List Register) : Interval :=
  { i with stopHints := insertAllBy id hints i.stopHints }

/-- The part of the interval before a position: it keeps the hints of the start. -/
def before (i : Interval) (p : Position) : Interval :=
  ⟨i.register, i.range.before p, i.sites.filter (fun s => s.position < p), i.startHints, []⟩

/-- The part of the interval from a position on: it keeps the hints of the end. -/
def after (i : Interval) (p : Position) : Interval :=
  ⟨i.register, i.range.after p, i.sites.filter (fun s => p ≤ s.position), [], i.stopHints⟩

/-- Cut the interval before a position. Both parts have to cover something. -/
def splitBefore (i : Interval) (p : Position) : Except Error (Interval × Interval) :=
  if p ≤ i.start ∨ i.stop < p then .error (.invalidSplit i.register p i.start i.stop)
  else .ok (i.before p, i.after p)

/-- The interval followed by a later piece of the same register. -/
def join (i j : Interval) : Interval :=
  { i with range := i.range.union j.range, sites := j.sites.foldl insertSite i.sites, stopHints := j.stopHints }

/-- One interval out of consecutive pieces of a register. -/
def joinAll : List Interval → Option Interval
  | [] => none
  | i :: rest => some (rest.foldl join i)

/-- The interval as it is written in messages. -/
def text (i : Interval) : String := i.register.text ++ " " ++ i.range.text

end Interval

end RegAlloc
