import RegAlloc.Scan.State

/-!
# Deciding on a piece

What happens to the piece being visited is decided in two steps. First each register is asked how long it stays free:
until the code needs it, until an inactive owner covers the piece, or not at all if an active piece has it. If the
best of them is free at the start of the piece, the piece gets it, for as long as it is free. Otherwise each register
is asked when its owners, or the code, need it next. The piece takes the register that is needed last from its owners,
unless it is itself needed later, and then waits in memory until a site that needs a register.

In both steps a register that the piece is linked to is preferred, if it can be used to the end of the piece or as
long as the best.
-/

namespace RegAlloc

/-- What happens to a piece. -/
inductive Verdict where
  /-- It gets a register for all of its range. -/
  | take (r : PhysReg)
  /-- It gets a register up to a position and is cut there. -/
  | takeUntil (r : PhysReg) (p : Position)
  /-- It stays in memory, and is cut where it needs a register. -/
  | wait (h : Horizon)
  /-- It takes a register from the pieces that have it. -/
  | evict (r : PhysReg)
  /-- There is no register at all. -/
  | leave
  deriving DecidableEq, Repr

namespace Scan

/-- When the code needs the registers, within the range of an interval. -/
def pinnedConflicts (lt : Lifetimes) (t : Target) (i : Interval) : Conflicts :=
  lt.pinned.foldl
    (fun c e =>
      match e.2.firstMeeting i.range with
      | some p => c.add e.1 (.pos p)
      | none => c)
    (.none t.allocatable)

/-- The conflict with an active piece: its register is not free at all. -/
def addActive (s : Scan) (i : Interval) (c : Conflicts) (n : Nat) : Conflicts :=
  match s.register? n with
  | some r => c.add r (.pos i.start)
  | none => c

/-- The conflict with an inactive piece: its register is free until the two meet. -/
def addInactive (s : Scan) (i : Interval) (c : Conflicts) (n : Nat) : Conflicts :=
  match s.register? n, (s.interval n).range.firstMeeting i.range with
  | some r, some p => c.add r (.pos p)
  | _, _ => c

/-- How long the registers stay free for an interval. -/
def freeUntil (lt : Lifetimes) (t : Target) (s : Scan) (i : Interval) : Conflicts :=
  s.inactive.foldl (s.addInactive i) (s.active.foldl (s.addActive i) (pinnedConflicts lt t i))

/-- The next need of an owner that meets the interval. One that is not accessed any more gives up its register for
free. -/
def addOwner (s : Scan) (i : Interval) (c : Conflicts) (n : Nat) : Conflicts :=
  match s.register? n, (s.interval n).range.firstMeeting i.range, (s.interval n).nextSite? i.start with
  | some r, some _, some p => c.add r (.pos p)
  | _, _, _ => c

/-- When the registers are needed next, by their owners or by the code. -/
def neededAt (lt : Lifetimes) (t : Target) (s : Scan) (i : Interval) : Conflicts :=
  (s.active ++ s.inactive).foldl (s.addOwner i) (pinnedConflicts lt t i)

/-- The physical register that a hint of an interval stands for at the moment. Of another virtual register `pick`
chooses the piece that counts. -/
def resolveHint (s : Scan) (i : Interval) (pick : List Split → Option Split) : Register → Option PhysReg
  | .phys r => some r
  | .virt v => if v.id = i.register.id then none else (pick (s.splits v)).bind (·.register)

/-- The registers an interval is linked to: first those linked to both its ends, then those linked to its end, then
those linked to its start. -/
def preferred (s : Scan) (i : Interval) : List PhysReg :=
  let starts := i.startHints.filterMap (s.resolveHint i List.getLast?)
  let stops := i.stopHints.filterMap (s.resolveHint i List.head?)
  PhysReg.all.filter (fun r => starts.contains r && stops.contains r) ++
    PhysReg.all.filter (fun r => stops.contains r && !starts.contains r) ++
    PhysReg.all.filter (fun r => starts.contains r && !stops.contains r)

/-- Whether a register with a horizon can be used to the end of an interval. -/
def lastsFor (i : Interval) : Horizon → Bool
  | .never => true
  | .pos p => i.endsBefore p

/-- The register to use for an interval: a preferred one that lasts or is as good as the best, and otherwise the
best. -/
def choose (s : Scan) (i : Interval) (c : Conflicts) : Option (PhysReg × Horizon) :=
  c.best?.map (fun best =>
    ((s.preferred i).findSome? (fun r =>
      match c.get? r with
      | some h => if lastsFor i h || h = best.2 then some (r, h) else none
      | none => none)).getD best)

/-- The verdict if a register is free at the start of the interval. -/
def freeVerdict? (lt : Lifetimes) (t : Target) (s : Scan) (i : Interval) : Option Verdict :=
  match s.choose i (freeUntil lt t s i) with
  | none => none
  | some (r, h) =>
    if h ≤ .pos i.start then none
    else
      match h with
      | .never => some (.take r)
      | .pos p => if i.stop < p then some (.take r) else some (.takeUntil r p)

/-- The verdict if no register is free at the start of the interval. -/
def blockedVerdict (lt : Lifetimes) (t : Target) (s : Scan) (i : Interval) : Verdict :=
  match s.choose i (neededAt lt t s i) with
  | none => .leave
  | some (r, h) =>
    let firstSite := Horizon.ofOption i.firstSite?
    let registerSite := Horizon.ofOption i.firstRegisterSite?
    if h ≤ .pos i.start then .wait (.ofOption (i.nextSite? i.start.next))
    else if firstSite = .never then .wait .never
    else if h < firstSite ∨ firstSite = h ∧ h < registerSite then .wait registerSite
    else .evict r

/-- What happens to an interval that is visited now. -/
def verdict (lt : Lifetimes) (t : Target) (s : Scan) (i : Interval) : Verdict :=
  (freeVerdict? lt t s i).getD (blockedVerdict lt t s i)

end Scan

end RegAlloc
