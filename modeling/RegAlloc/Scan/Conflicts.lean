import RegAlloc.Position
import RegAlloc.Register

/-!
# How long registers can be used

When a register is looked for, the candidates are compared by how long each of them can be used: a `Horizon`, which is
a position or never ends. `Conflicts` holds a horizon for each register of a list; if the list holds a register more
than once, its first entry is the one that counts.
-/

namespace RegAlloc

/-- Where something stops: at a position, or nowhere. -/
inductive Horizon where
  | pos (p : Position)
  | never
  deriving DecidableEq, Repr

namespace Horizon

/-- An absent position is one that never comes. -/
def ofOption : Option Position → Horizon
  | some p => .pos p
  | none => .never

/-- Whether the first comes before the second; `never` comes last. -/
def before : Horizon → Horizon → Bool
  | .pos p, .pos q => decide (p < q)
  | .pos _, .never => true
  | .never, _ => false

instance : LT Horizon := ⟨fun a b => a.before b = true⟩

instance : DecidableLT Horizon := fun a b => inferInstanceAs (Decidable (a.before b = true))

instance : LE Horizon := ⟨fun a b => b.before a = false⟩

instance : DecidableLE Horizon := fun a b => inferInstanceAs (Decidable (b.before a = false))

/-- The horizon as it is written in messages. -/
def text : Horizon → String
  | .pos p => p.text
  | .never => "never"

end Horizon

/-- A horizon for each of some registers, in the order of preference. -/
structure Conflicts where
  entries : List (PhysReg × Horizon)
  deriving DecidableEq, Repr

namespace Conflicts

/-- No register meets a conflict. -/
def none (registers : List PhysReg) : Conflicts := ⟨registers.map (fun r => (r, .never))⟩

/-- Lower the horizon in the first entry of a register, if the given one is earlier. -/
def lower (r : PhysReg) (h : Horizon) : List (PhysReg × Horizon) → List (PhysReg × Horizon)
  | [] => []
  | e :: rest => if e.1 = r then (r, if h < e.2 then h else e.2) :: rest else e :: lower r h rest

/-- Record a conflict of a register; a register that is not listed is ignored. -/
def add (c : Conflicts) (r : PhysReg) (h : Horizon) : Conflicts := ⟨lower r h c.entries⟩

/-- The horizon of a register, if it is listed. -/
def get? (c : Conflicts) (r : PhysReg) : Option Horizon := lookupBy r c.entries

/-- The better of two entries: the later horizon, and the first of two equal ones. -/
def better (best : Option (PhysReg × Horizon)) (e : PhysReg × Horizon) : Option (PhysReg × Horizon) :=
  match best with
  | some b => if b.2 < e.2 then some e else some b
  | .none => some e

/-- The register that can be used the longest, and until when; of equal ones the preferred register. -/
def best? (c : Conflicts) : Option (PhysReg × Horizon) := c.entries.foldl better .none

end Conflicts

end RegAlloc
