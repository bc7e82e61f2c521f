import RegAlloc.Error

/-!
# Targets

A `Target` says which registers may be given to values, which of them a call overwrites, which registers hold the
frame, and how the frame is made up. `Target.validate` finds the first reason why a target cannot be used.
-/

namespace RegAlloc

/-- The registers and the frame that code is made for. -/
structure Target where
  /-- Registers that values may be given, in the order of preference. -/
  allocatable : List PhysReg
  /-- Registers that a call may overwrite. -/
  callerSaved : List PhysReg
  /-- The register that stack slots are addressed from. -/
  frameBase : PhysReg
  /-- The register that points to the top of the stack. -/
  stackPointer : PhysReg
  /-- The number of bytes of a stack slot. -/
  slotSize : Nat
  /-- The number of bytes that the size of a frame is a multiple of. -/
  frameAlignment : Nat
  deriving DecidableEq, Repr

namespace Target

/-- Every general purpose register holds values and is overwritten by calls; slots have 8 bytes, frames are aligned to
16. -/
def standard : Target := ⟨PhysReg.general, PhysReg.general, .bp, .sp, 8, 16⟩

/-- The standard target with fewer registers for values. -/
def withAllocatable (registers : List PhysReg) : Target := { standard with allocatable := registers }

/-- Whether a register may be given to a value. -/
def isAllocatable (t : Target) (r : PhysReg) : Bool := t.allocatable.contains r

/-- Whether a register is one of the two that hold the frame. -/
def holdsFrame (t : Target) (r : PhysReg) : Bool := r = t.frameBase || r = t.stackPointer

/-- The first register of a list that also stands earlier in it. -/
def firstRepeated (seen : List PhysReg) : List PhysReg → Option PhysReg
  | [] => none
  | r :: rest => if seen.contains r then some r else firstRepeated (r :: seen) rest

/-- The first problem of a target, in words. -/
def problem? (t : Target) : Option String :=
  if t.allocatable.isEmpty then some "no allocatable registers"
  else if let some r := t.allocatable.find? t.holdsFrame then some (r.text ++ " is reserved")
  else if let some r := t.callerSaved.find? t.holdsFrame then some (r.text ++ " is reserved and cannot be caller-saved")
  else if let some r := firstRepeated [] t.allocatable then some (r.text ++ " is listed twice")
  else if t.slotSize = 0 ∨ t.frameAlignment % t.slotSize ≠ 0 then
    some ("slot size " ++ toString t.slotSize ++ " does not divide frame alignment " ++ toString t.frameAlignment)
  else none

/-- Check that code can be made for a target. -/
def validate (t : Target) : Except Error Unit :=
  match t.problem? with
  | some problem => .error (.invalidTarget problem)
  | none => .ok ()

end Target

end RegAlloc
