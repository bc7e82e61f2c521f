import RegAlloc.Scan.Verdict

/-!
# Running the scan

A step of the scan takes the first piece of the queue, moves on to its start, decides on it and carries the verdict
out. Every cut leaves both parts with something to cover, so there are never more pieces than positions covered by the
intervals at the start, and that many steps empty the queue.
-/

namespace RegAlloc

namespace Scan

/-- Cut a piece before a position. The rest is a new piece and waits. -/
def cut (s : Scan) (n : Nat) (p : Position) : Except Error Scan := do
  let (before, after) ← (s.interval n).splitBefore p
  return { s with
    pieces := s.pieces.modify n (fun x => { x with interval := before }) ++ [⟨after, none, false⟩]
    queue := insertBy id (Ticket.ofInterval after s.pieces.length) s.queue }

/-- Give the register of a piece a stack slot for its whole lifetime. -/
def spill (lt : Lifetimes) (s : Scan) (n : Nat) : Scan :=
  let life := Note.interval lt.intervals (s.interval n).register
  { s with slots := s.slots.request life.register life.start life.stop }

/-- Give the register of a piece a stack slot, and cut the piece before a horizon that it reaches. -/
def suspend (lt : Lifetimes) (s : Scan) (n : Nat) : Horizon → Except Error Scan
  | .never => .ok (s.spill lt n)
  | .pos p => if (s.interval n).stop < p then .ok (s.spill lt n) else (s.spill lt n).cut n p

/-- Record that a piece was decided on. -/
def list (s : Scan) (n : Nat) : Scan := s.modify n (fun x => { x with listed := true })

/-- Give a piece a register. It becomes active, in place of any active piece with that register. -/
def assign (s : Scan) (n : Nat) (r : PhysReg) : Except Error Scan :=
  match s.register? n with
  | some _ => .error (.registerReassigned (s.interval n).register (s.interval n).start r)
  | none =>
    let given := s.modify n (fun x => { x with register := some r, listed := true })
    .ok { given with active := given.active.filter (fun m => given.register? m ≠ some r) ++ [n] }

/-- Take the register from an active piece at a position. A piece that starts there is left without a register until
its next site. -/
def evictActive (lt : Lifetimes) (p : Position) (s : Scan) (n : Nat) : Except Error Scan :=
  if (s.interval n).start < p then s.suspend lt n (.pos p)
  else
    let freed := s.modify n (fun x => { x with register := none })
    suspend lt { freed with active := freed.active.filter (fun m => m ≠ n) } n (.ofOption ((s.interval n).nextSite? p))

/-- Cut an inactive piece where it meets the piece `n`. -/
def evictInactive (lt : Lifetimes) (n : Nat) (s : Scan) (m : Nat) : Except Error Scan :=
  match (s.interval m).range.firstMeeting (s.interval n).range with
  | some p => s.suspend lt m (.pos p)
  | none => .ok s

/-- Give a piece a register that others have, and cut it where the code needs the register. -/
def evict (lt : Lifetimes) (s : Scan) (n : Nat) (r : PhysReg) : Except Error Scan := do
  let s ← (s.active.filter (fun m => s.register? m = some r)).foldlM (evictActive lt (s.interval n).start) s
  let s ← (s.inactive.filter (fun m => s.register? m = some r)).foldlM (evictInactive lt n) s
  let s ← s.assign n r
  match (lookupBy r lt.pinned).bind (fun range => range.firstMeeting (s.interval n).range) with
  | some p => s.suspend lt n (.pos p)
  | none => return s

/-- Carry out a verdict on a piece. -/
def carryOut (lt : Lifetimes) (s : Scan) (n : Nat) : Verdict → Except Error Scan
  | .take r => s.assign n r
  | .takeUntil r p => do (← s.suspend lt n (.pos p)).assign n r
  | .wait h => do return (← s.suspend lt n h).list n
  | .evict r => s.evict lt n r
  | .leave => .ok s

/-- Visit a piece. -/
def visit (lt : Lifetimes) (t : Target) (s : Scan) (n : Nat) : Except Error Scan :=
  let s := s.advance (s.interval n).start
  s.carryOut lt n (s.verdict lt t (s.interval n))

/-- Visit the first piece of the queue, if there is one. -/
def step (lt : Lifetimes) (t : Target) (s : Scan) : Except Error Scan :=
  match s.queue with
  | [] => .ok s
  | ticket :: rest => visit lt t { s with queue := rest } ticket.piece

/-- Take steps until the queue is empty, and no more than a given number. -/
def run (lt : Lifetimes) (t : Target) : Nat → Scan → Except Error Scan
  | 0, s => .ok s
  | steps + 1, s => if s.queue.isEmpty then .ok s else do run lt t steps (← s.step lt t)

/-- The number of steps that is enough: the number of positions that the intervals cover. -/
def budget (lt : Lifetimes) : Nat := lt.intervals.foldr (fun i n => i.range.size + n) 0

/-- The state when the queue is empty. -/
def complete (lt : Lifetimes) (t : Target) : Except Error Scan := run lt t (budget lt) (initial lt)

end Scan

end RegAlloc
