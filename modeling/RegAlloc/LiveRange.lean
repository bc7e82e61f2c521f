import RegAlloc.Position
import RegAlloc.Sorted

/-!
# Live ranges

A `Segment` is a stretch of consecutive slots of one block, both ends included. A `LiveRange` is a set of positions
given as segments in the order of their starts; the segments of a range made by the operations below do not overlap,
but may touch. `LiveRange.covers` is the set of positions a range stands for.

`firstMeeting` walks two ranges in step, always passing over the segment that ends first, and stops at the first
position the two have in common.
-/

namespace RegAlloc

/-- The slots `first` to `last` of a block. -/
structure Segment where
  block : BlockId
  first : Nat
  last : Nat
  deriving DecidableEq, Repr

namespace Segment

/-- The first position. -/
def start (s : Segment) : Position := ⟨s.block, s.first⟩

/-- The last position. -/
def stop (s : Segment) : Position := ⟨s.block, s.last⟩

/-- The whole of a block of `n` instructions. -/
def whole (b : BlockId) (n : Nat) : Segment := ⟨b, 0, (Position.exit b n).slot⟩

/-- Whether a position lies in the segment. -/
def contains (s : Segment) (p : Position) : Bool := p.block = s.block && s.first ≤ p.slot && p.slot ≤ s.last

/-- The segment with another first slot. -/
def withFirst (s : Segment) (first : Nat) : Segment := { s with first := first }

/-- The segment with another last slot. -/
def withLast (s : Segment) (last : Nat) : Segment := { s with last := last }

/-- What two segments have in common, if anything. -/
def overlap? (s t : Segment) : Option Segment :=
  if s.block = t.block ∧ max s.first t.first ≤ min s.last t.last then
    some ⟨s.block, max s.first t.first, min s.last t.last⟩
  else none

/-- The number of positions. -/
def size (s : Segment) : Nat := s.last + 1 - s.first

/-- The segment as it is written in messages. -/
def text (s : Segment) : String :=
  blockText s.block ++ ":[" ++ toString s.first ++ "," ++ toString s.last ++ "]"

/-- Whether the first segment ends in the slot before the one where the second begins. -/
def touches (s t : Segment) : Bool := s.block = t.block && s.last + 1 = t.first

/-- Join segments that touch. -/
def fuse : List Segment → List Segment
  | [] => []
  | s :: rest =>
    match fuse rest with
    | [] => [s]
    | t :: more => if s.touches t then s.withLast t.last :: more else s :: t :: more

/-- One segment against the segments of another range, in step: `next` goes on without it. -/
def meetOne (s : Segment) (next : List Segment → Option Position) : List Segment → Option Position
  | [] => none
  | t :: ts =>
    match s.overlap? t with
    | some common => some common.start
    | none => if s.stop < t.stop then next (t :: ts) else meetOne s next ts

/-- The first common position of two ordered lists of segments. -/
def meet : List Segment → List Segment → Option Position
  | [], _ => none
  | s :: ss, ts => meetOne s (meet ss) ts

end Segment

/-- A set of positions, as segments in the order of their starts. -/
structure LiveRange where
  segments : List Segment
  deriving DecidableEq, Repr

namespace LiveRange

/-- The range that covers nothing. -/
def empty : LiveRange := ⟨[]⟩

/-- Whether the range has no segment. -/
def isEmpty (r : LiveRange) : Bool := r.segments.isEmpty

/-- The start of the first segment. -/
def start? (r : LiveRange) : Option Position := r.segments.head?.map Segment.start

/-- The end of the last segment. -/
def stop? (r : LiveRange) : Option Position := r.segments.getLast?.map Segment.stop

/-- The number of positions. -/
def size (r : LiveRange) : Nat := r.segments.foldr (fun s n => s.size + n) 0

/-- The segments of a block. -/
def inBlock (r : LiveRange) (b : BlockId) : List Segment := r.segments.filter (fun s => s.block = b)

/-- The segment a position lies in, if any. -/
def containing? (r : LiveRange) (p : Position) : Option Segment := r.segments.find? (fun s => s.contains p)

/-- Whether a position is in the range. -/
def covers (r : LiveRange) (p : Position) : Bool := r.segments.any (fun s => s.contains p)

/-- Add a segment; one that starts at the same position is replaced. -/
def insert (r : LiveRange) (s : Segment) : LiveRange := ⟨insertBy Segment.start s r.segments⟩

/-- The range made of the given segments. -/
def ofSegments (l : List Segment) : LiveRange := ⟨insertAllBy Segment.start l []⟩

/-- Take out the segment that starts where the given one does. -/
def erase (r : LiveRange) (s : Segment) : LiveRange := ⟨r.segments.filter (fun t => t.start ≠ s.start)⟩

/-- Take out every segment of a block. -/
def eraseBlock (r : LiveRange) (b : BlockId) : LiveRange := ⟨r.segments.filter (fun s => s.block ≠ b)⟩

/-- What of the range lies before a position. -/
def before (r : LiveRange) (p : Position) : LiveRange :=
  ⟨(r.segments.filter (fun s => s.start < p)).map (fun s => if s.contains p then s.withLast (p.slot - 1) else s)⟩

/-- What of the range lies at a position or after it. -/
def after (r : LiveRange) (p : Position) : LiveRange :=
  ⟨(r.segments.filter (fun s => s.contains p || p ≤ s.start)).map
    (fun s => if s.contains p then s.withFirst p.slot else s)⟩

/-- The union of two ranges, with touching segments joined. -/
def union (r s : LiveRange) : LiveRange := ⟨Segment.fuse (insertAllBy Segment.start s.segments r.segments)⟩

/-- The first position that both ranges cover. Nothing before the later of the two starts is looked at. -/
def firstMeeting (r s : LiveRange) : Option Position :=
  match r.start?, s.start? with
  | some p, some q =>
    Segment.meet (r.segments.dropWhile (fun t => t.stop < p.later q))
      (s.segments.dropWhile (fun t => t.stop < p.later q))
  | _, _ => none

/-- Record that a physical register is written at a position. What lies before it in its segment is cut off; a write
that nothing reads occupies its own position. -/
def pinWrite (r : LiveRange) (p : Position) : LiveRange :=
  match r.containing? p with
  | some s => (r.erase s).insert (s.withFirst p.slot)
  | none => r.insert ⟨p.block, p.slot, p.slot⟩

/-- Record that a physical register is read at a position. It is occupied from the start of the block, unless a later
read already occupies it there. -/
def pinRead (r : LiveRange) (p : Position) : LiveRange :=
  if r.covers p then r else r.insert ⟨p.block, 0, p.slot⟩

/-- The range as it is written in messages. -/
def text (r : LiveRange) : String := " ".intercalate (r.segments.map Segment.text)

end LiveRange

end RegAlloc
