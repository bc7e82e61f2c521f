import RegAlloc.Position
import RegAlloc.Register

/-!
# Stack slots

A `SlotPool` gives stack slots to registers. A register keeps the slot of its first request. A slot is free again once
the lifetime of its last owner is over, and is then given only to a register whose lifetime begins after that.
-/

namespace RegAlloc

/-- The slots given out, the end of the last owner's lifetime for each slot, and the slots that are free. -/
structure SlotPool where
  slots : List (VirtReg × Nat)
  busyUntil : List Position
  free : List Nat
  deriving DecidableEq, Repr

namespace SlotPool

/-- The pool that has given out nothing. -/
def empty : SlotPool := ⟨[], [], []⟩

/-- The slot of a register, if it has one. -/
def slot? (s : SlotPool) (v : VirtReg) : Option Nat := lookupBy v s.slots

/-- Whether a slot's last owner is over before a position. -/
def isOver (s : SlotPool) (slot : Nat) (p : Position) : Bool := (s.busyUntil[slot]?).any (fun q => decide (q < p))

/-- Give a slot to a register that has none, which lives from `first` to `last`: the lowest free slot whose last owner
is over before `first`, or else a new one. -/
def grant (s : SlotPool) (v : VirtReg) (first last : Position) : SlotPool :=
  match s.free.find? (fun slot => s.isOver slot first) with
  | some slot =>
    ⟨insertBy (·.1) (v, slot) s.slots, s.busyUntil.set slot last, s.free.filter (fun n => n ≠ slot)⟩
  | none => ⟨insertBy (·.1) (v, s.busyUntil.length) s.slots, s.busyUntil ++ [last], s.free⟩

/-- Make sure that a register, which lives from `first` to `last`, has a slot. -/
def request (s : SlotPool) (v : VirtReg) (first last : Position) : SlotPool :=
  if (s.slot? v).isSome then s else s.grant v first last

/-- Free every slot whose last owner is over before a position. -/
def release (s : SlotPool) (p : Position) : SlotPool :=
  { s with free := insertAllBy id ((List.range s.busyUntil.length).filter (fun slot => s.isOver slot p)) s.free }

end SlotPool

end RegAlloc
