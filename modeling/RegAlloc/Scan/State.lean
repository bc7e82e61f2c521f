import RegAlloc.Lifetimes
import RegAlloc.Scan.Conflicts
import RegAlloc.Scan.SlotPool

/-!
# The state of the scan

The scan visits intervals in the order of their starts. What it visits are pieces: at first each interval is one
piece, and cutting a piece leaves its first part in place and adds the rest as a new piece, which waits in the queue.
A piece is known by its number. The pieces that have a register are `active` while they cover the position the scan
has reached and `inactive` while they are in a hole. A piece is `listed` once the scan has decided on it.
-/

namespace RegAlloc

/-- A piece of an interval, the register it was given, and whether it was decided on. -/
structure Piece where
  interval : Interval
  register : Option PhysReg
  listed : Bool
  deriving DecidableEq, Repr

/-- A piece that was decided on, with its number. -/
structure Split where
  id : Nat
  interval : Interval
  register : Option PhysReg
  deriving DecidableEq, Repr

/-- A waiting piece: where it starts, its first site, and the number of its register. -/
structure Ticket where
  start : Position
  firstSite : Horizon
  register : Nat
  piece : Nat
  deriving DecidableEq, Repr

namespace Ticket

/-- The ticket of a piece. -/
def ofInterval (i : Interval) (piece : Nat) : Ticket := ⟨i.start, .ofOption i.firstSite?, i.register.id, piece⟩

/-- Pieces are visited by their starts, then by their first sites, then by the numbers of their registers, then in the
order in which they were made. -/
instance : LT Ticket := ⟨fun a b =>
  a.start < b.start ∨ a.start = b.start ∧
    (a.firstSite < b.firstSite ∨ a.firstSite = b.firstSite ∧
      (a.register < b.register ∨ a.register = b.register ∧ a.piece < b.piece))⟩

instance : DecidableLT Ticket := fun a b =>
  inferInstanceAs (Decidable (a.start < b.start ∨ a.start = b.start ∧
    (a.firstSite < b.firstSite ∨ a.firstSite = b.firstSite ∧
      (a.register < b.register ∨ a.register = b.register ∧ a.piece < b.piece))))

end Ticket

/-- The pieces, the queue of those to visit, those that have a register now or later, and the stack slots. -/
structure Scan where
  pieces : List Piece
  queue : List Ticket
  active : List Nat
  inactive : List Nat
  slots : SlotPool
  deriving DecidableEq, Repr

namespace Scan

/-- The interval of a piece. -/
def interval (s : Scan) (n : Nat) : Interval := ((s.pieces[n]?).map (·.interval)).getD (Interval.new ⟨0, .byte⟩)

/-- The register of a piece. -/
def register? (s : Scan) (n : Nat) : Option PhysReg := (s.pieces[n]?).bind (·.register)

/-- Change a piece. -/
def modify (s : Scan) (n : Nat) (g : Piece → Piece) : Scan := { s with pieces := s.pieces.modify n g }

/-- The pieces of a register that were decided on, in the order of their starts. -/
def splits (s : Scan) (v : VirtReg) : List Split :=
  ((s.pieces.zipIdx.filter (fun e => e.1.listed && e.1.interval.register = v)).map
    (fun e => (⟨e.2, e.1.interval, e.1.register⟩ : Split))).foldl (fun l x =>
      placeBy (fun y => y.interval.start) x l) []

/-- The state before the first visit: every interval that is live anywhere is a piece and waits. -/
def initial (lt : Lifetimes) : Scan :=
  let live := lt.intervals.filter (fun i => !i.range.isEmpty)
  { pieces := live.map (fun i => ⟨i, none, false⟩)
    queue := insertAllBy id (live.zipIdx.map (fun e => Ticket.ofInterval e.1 e.2)) []
    active := []
    inactive := []
    slots := .empty }

/-- Whether a piece is not over at a position and covers it. -/
def coversAt (s : Scan) (p : Position) (n : Nat) : Bool := !(s.interval n).endsBefore p && (s.interval n).covers p

/-- Whether a piece is not over at a position and does not cover it. -/
def sleepsAt (s : Scan) (p : Position) (n : Nat) : Bool := !(s.interval n).endsBefore p && !(s.interval n).covers p

/-- Move on to a position: pieces that are over leave, and the others are active or inactive as they cover it or not.
Slots whose owners are over become free. -/
def advance (s : Scan) (p : Position) : Scan :=
  { s with
    active := (s.active ++ s.inactive).filter (s.coversAt p)
    inactive := (s.inactive ++ s.active).filter (s.sleepsAt p)
    slots := s.slots.release p }

end Scan

end RegAlloc
