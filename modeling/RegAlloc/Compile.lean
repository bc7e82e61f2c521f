import RegAlloc.Layout

/-!
# Compiling functions

`compile` takes a function over virtual registers to code over physical ones: it checks the target, finds the
lifetimes, gives registers to them and lays the code out. `compileAll` does so for functions that have nothing to do
with each other.
-/

namespace RegAlloc

/-- Numbers collected while a function is compiled. -/
structure Stats where
  /-- Virtual registers that are live anywhere. -/
  virtualRegisters : Nat
  /-- Splits of all of them. -/
  intervals : Nat
  spillSlots : Nat
  spills : Nat
  reloads : Nat
  /-- Instructions that move values on edges. -/
  resolutionMoves : Nat
  /-- Bytes of the frame. -/
  frameSize : Nat
  deriving DecidableEq, Repr

/-- A function without virtual registers. -/
structure Compiled where
  name : String
  code : List Instruction
  stats : Stats
  deriving DecidableEq, Repr

/-- Compile a function. -/
def compile (f : Function) (t : Target) : Except Error Compiled := do
  t.validate
  let lifetimes ← Lifetimes.ofFunction f t
  let allocation ← Allocation.ofLifetimes lifetimes t
  let layout ← Layout.ofAllocation f allocation
  return ⟨f.name, layout.code,
    { virtualRegisters := lifetimes.intervals.length
      intervals := allocation.splitCount
      spillSlots := allocation.slotCount
      spills := allocation.count .spill
      reloads := allocation.count .reload
      resolutionMoves := layout.moves
      frameSize := ← allocation.frameSize }⟩

/-- Compile a function, and say which one it was if that fails. -/
def compileNamed (t : Target) (f : Function) : Except Report Compiled :=
  (compile f t).mapError (Report.during ("Failed to compile function " ++ f.name))

/-- Compile functions independently of each other. -/
def compileAll (fs : List Function) (t : Target) : Except Report (List Compiled) := do
  t.validate.mapError (Report.during "Target configuration rejected")
  fs.mapM (compileNamed t)

end RegAlloc
