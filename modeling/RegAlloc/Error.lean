import RegAlloc.Position
import RegAlloc.Register

/-!
# What can go wrong

`Error` lists the causes for which a function is given up, and `Error.message` holds their wording. Three further
causes are references to something that does not exist: a block that the function does not have, a piece of an
interval that the allocation does not have, and a frame made of slots of no size. `Report` is an error seen from
outside: the work that was being done, outermost first, and the cause, which may also be that a file or a text could
not be read.
-/

namespace RegAlloc

/-- The causes for which a function is given up. -/
inductive Error where
  /-- A phi of `block` has no input for one of the block's predecessors. -/
  | missingPhiInput (block predecessor : String)
  /-- The target description cannot be used. -/
  | invalidTarget (problem : String)
  /-- One of the two parts of a cut interval would be empty. -/
  | invalidSplit (register : VirtReg) (position first last : Position)
  /-- A piece of an interval was given a second register. -/
  | registerReassigned (register : VirtReg) (position : Position) (physical : PhysReg)
  /-- A register that lives in memory is written nowhere in its first piece. -/
  | missingDefinition (register : VirtReg)
  /-- A register is needed where it has neither a physical register nor a stack slot. -/
  | missingLocation (register : VirtReg) (position : Position)
  /-- A register that is part of an address is in memory. -/
  | spilledAddressRegister (register : VirtReg) (position : Position)
  /-- Moves are needed on an edge at neither end of which they can be placed. -/
  | criticalEdge (predecessor successor : String) (moves : Nat)
  /-- Two moves that happen at once write the same place. -/
  | duplicateDestination (destination : String)
  /-- A block is named that the function does not have. -/
  | unknownBlock (block : BlockId)
  /-- A piece is named that the allocation does not have. -/
  | unknownPiece (piece : Nat)
  /-- The frame is made of slots of size zero. -/
  | zeroSlotSize
  deriving DecidableEq, Repr

/-- The text of an error. -/
def Error.message : Error → String
  | .missingPhiInput block predecessor => "phi in block " ++ block ++ " has no input for predecessor " ++ predecessor
  | .invalidTarget problem =>
    "invalid target configuration: " ++ problem ++
      "\nSuggestion: Allocate only from general purpose registers other than %rsp and %rbp."
  | .invalidSplit register position first last =>
    "cannot split the interval of " ++ register.text ++ " at " ++ position.text ++ ": it lives in " ++ first.text ++
      "..=" ++ last.text
  | .registerReassigned register position physical =>
    "interval of " ++ register.text ++ " starting at " ++ position.text ++ " was reassigned to " ++ physical.text
  | .missingDefinition register => register.text ++ " is spilled but never defined"
  | .missingLocation register position =>
    register.text ++ " has neither a register nor a spill slot at " ++ position.text
  | .spilledAddressRegister register position =>
    "address register " ++ register.text ++ " is spilled at " ++ position.text
  | .criticalEdge predecessor successor moves =>
    "critical edge " ++ predecessor ++ " -> " ++ successor ++ " needs " ++ toString moves ++
      " move(s)\nSuggestion: Split the edge with a trampoline block during instruction selection."
  | .duplicateDestination destination => "parallel move set writes " ++ destination ++ " more than once"
  | .unknownBlock block => "the function has no block " ++ blockText block
  | .unknownPiece piece => "the allocation has no piece " ++ toString piece
  | .zeroSlotSize => "stack slots have size zero"

/-- Why work could not be done: an error of this library, or input that could not be read. -/
inductive Cause where
  | error (e : Error)
  | unreadable
  deriving DecidableEq, Repr

/-- A cause and the work it interrupted, outermost first. -/
structure Report where
  contexts : List String
  cause : Cause
  deriving DecidableEq, Repr

namespace Report

/-- An error that interrupted one piece of work. -/
def during (context : String) (e : Error) : Report := ⟨[context], .error e⟩

/-- Input that could not be read in one piece of work. -/
def unreadableDuring (context : String) : Report := ⟨[context], .unreadable⟩

/-- The same report seen from further outside. -/
def inside (context : String) (r : Report) : Report := { r with contexts := context :: r.contexts }

/-- The text of a report: the whole chain down to the error, or only the outermost work where the cause has no text of
its own. -/
def message (r : Report) : String :=
  match r.cause with
  | .error e => ": ".intercalate (r.contexts ++ [e.message])
  | .unreadable => r.contexts.headD ""

end Report

end RegAlloc
