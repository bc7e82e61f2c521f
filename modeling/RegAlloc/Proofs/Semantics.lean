import RegAlloc.Function
import RegAlloc.Target
import RegAlloc.Proofs.Machine

/-!
# Running functions and running code

Two machines that go through a program step by step. `Function.step` runs a function over its registers, virtual ones
included: an instruction a step, and on the way from one block to the next the phis of the second, all at once.
`Code.step` runs flat code: labels are passed, and jumps go to the first label of their name. A run goes on until it
returns or an instruction faults; the calls made on the way are in the machine.

`enter` and `leave` set up and take down the frame of a function. How large it is is not for the function to say, so
its run depends on a size; it matters to nothing but the words in the two registers that hold the frame.
-/

namespace RegAlloc

/-- How far a run has come. -/
inductive Status where
  | running | returned | faulted
  deriving DecidableEq, Repr

/-- The surroundings of code for a target: `answer` says what a call leaves in the registers it overwrites. The
machine pushes and pops by `%rsp`, whatever register the target has the top of the frame in. -/
def Target.world (t : Target) (answer : List Call → PhysReg → Word) : World := ⟨.sp, t.callerSaved, answer⟩

/-- On a target that has the top of the frame in `%rsp`, the machine pushes and pops there. -/
theorem Target.world_eq {t : Target} (h : t.stackPointer = .sp) (answer : List Call → PhysReg → Word) :
    t.world answer = ⟨t.stackPointer, t.callerSaved, answer⟩ := by
  rw [world, h]

namespace Machine

/-- Set up a frame: the caller's frame base goes on the stack, the frame base points to it, and room is made below
it. -/
def enter (m : Machine) (t : Target) (size : Nat) : Machine :=
  let top := m.regs (.phys t.stackPointer) - 8
  ((m.setCell top (m.regs (.phys t.frameBase))).setReg (.phys t.frameBase) top).setReg (.phys t.stackPointer)
    (top - BitVec.ofNat 64 size)

/-- Take down a frame: the stack pointer and the frame base are the caller's again. -/
def leave (m : Machine) (t : Target) : Machine :=
  (m.setReg (.phys t.stackPointer) (m.regs (.phys t.frameBase) + 8)).setReg (.phys t.frameBase)
    (m.memory (m.regs (.phys t.frameBase)))

/-- Carry out one instruction of a function whose frame has the given size. -/
def execIn (t : Target) (size : Nat) (w : World) (m : Machine) : Instruction → Option Machine
  | .enter => some (m.enter t size)
  | .leave => some (m.leave t)
  | i => m.exec w i

/-- What a phi gives a register when control comes from `pred`, if there is a phi for it. -/
def phiValue? (m : Machine) (phis : List Phi) (pred : BlockId) (r : Register) : Option Word :=
  ((phis.find? (fun φ => φ.output.register? = some r)).bind (fun φ => φ.input? pred)).map m.value

/-- The machine after all phis of a block have chosen. -/
def choose (m : Machine) (phis : List Phi) (pred : BlockId) : Machine :=
  { m with regs := fun r => (m.phiValue? phis pred r).getD (m.regs r) }

end Machine

/-- Where an exit leads to. -/
def Exit.next? (e : Exit) (m : Machine) : Option BlockId :=
  match e with
  | .ret => none
  | .goto target => some target
  | .branch relation yes no => some (if relation.holds m.flags then yes else no)

namespace Function

/-- A run of a function: the block it is in and the number of the next instruction. -/
structure State where
  status : Status
  block : BlockId
  index : Nat
  machine : Machine

/-- The phis of a block. -/
def phis (f : Function) (b : BlockId) : List Phi := ((f.block? b).map (·.phis)).getD []

/-- One step of a run. -/
def step (f : Function) (t : Target) (size : Nat) (answer : List Call → PhysReg → Word) (s : State) : State :=
  match s.status with
  | .returned | .faulted => s
  | .running =>
    match f.block? s.block with
    | none => { s with status := .faulted }
    | some blk =>
      match blk.code[s.index]? with
      | some i =>
        match s.machine.execIn t size (t.world answer) i with
        | some m => { s with index := s.index + 1, machine := m }
        | none => { s with status := .faulted }
      | none =>
        match blk.exit.next? s.machine with
        | some b => ⟨.running, b, 0, s.machine.choose (f.phis b) s.block⟩
        | none => { s with status := .returned }

/-- So many steps of a run. -/
def run (f : Function) (t : Target) (size : Nat) (answer : List Call → PhysReg → Word) : Nat → State → State
  | 0, s => s
  | n + 1, s => f.step t size answer (run f t size answer n s)

/-- The run that begins on a machine. -/
def start (m : Machine) : State := ⟨.running, 0, 0, m⟩

end Function

namespace Code

/-- A run of code: the number of the next instruction. -/
structure State where
  status : Status
  pc : Nat
  machine : Machine

/-- Go on at the first label of a name. -/
def jump (code : List Instruction) (name : String) (s : State) : State :=
  match code.findIdx? (fun i => i = .label name) with
  | some pc => { s with pc := pc }
  | none => { s with status := .faulted }

/-- One step of a run. -/
def step (code : List Instruction) (w : World) (s : State) : State :=
  match s.status with
  | .returned | .faulted => s
  | .running =>
    match code[s.pc]? with
    | none => { s with status := .faulted }
    | some (.label _) => { s with pc := s.pc + 1 }
    | some (.jmp name) => jump code name s
    | some (.jcc relation name) =>
      if relation.holds s.machine.flags then jump code name s else { s with pc := s.pc + 1 }
    | some .ret => { s with status := .returned }
    | some i =>
      match s.machine.exec w i with
      | some m => { s with pc := s.pc + 1, machine := m }
      | none => { s with status := .faulted }

/-- So many steps of a run. -/
def run (code : List Instruction) (w : World) : Nat → State → State
  | 0, s => s
  | n + 1, s => step code w (run code w n s)

/-- The run that begins on a machine. -/
def start (m : Machine) : State := ⟨.running, 0, m⟩

end Code

end RegAlloc
