import RegAlloc.Compile
import RegAlloc.Json.Reader

/-!
# The library's values in JSON

A `Codec` says how values of a type are written in JSON and read back. A name of an enumeration is a string, or an
object whose one field has that name and the value null. A record is an object with its fields in any order, among
which fields that it does not have are passed over, or an array of its fields' values in order. A number has to be
written as a plain whole number within its bounds.
-/

namespace RegAlloc

/-- How values of a type are written and read. -/
structure Codec (α : Type) where
  encode : α → Json
  decode? : Json → Option α

namespace Codec

/-- The number of unsigned 32-bit numbers. -/
def word32 : Nat := 0x100000000

/-- The number of unsigned 64-bit numbers. -/
def word64 : Nat := 0x10000000000000000

/-- The number that decimal digits stand for. -/
def ofDigits (cs : List Char) : Nat := cs.foldl (fun n c => 10 * n + (c.toNat - '0'.toNat)) 0

/-- A natural number below a bound. -/
def natBelow (bound : Nat) : Codec Nat where
  encode := Json.nat
  decode?
    | .number text =>
      if text.toList.all Char.isDigit && ofDigits text.toList < bound then some (ofDigits text.toList) else none
    | _ => none

/-- The name of a value in an enumeration. -/
def nameOf {α : Type} [DecidableEq α] (names : List (String × α)) (a : α) : String :=
  ((names.find? (fun e => e.2 = a)).map (·.1)).getD ""

/-- A value of an enumeration, by its name. -/
def enumeration {α : Type} [DecidableEq α] (names : List (String × α)) : Codec α where
  encode a := Json.text (nameOf names a)
  decode?
    | .string (some s) => lookupBy s names
    | .object [(some s, .null)] => lookupBy s names
    | _ => none

/-- A list of values. -/
def list {α : Type} (c : Codec α) : Codec (List α) where
  encode l := .array (l.map c.encode)
  decode?
    | .array items => items.mapM c.decode?
    | _ => none

/-- The value of the one field with a name: there has to be exactly one. -/
def field? (fields : List (Option String × Json)) (name : String) : Option Json :=
  match fields.filter (fun e => e.1 = some name) with
  | [e] => some e.2
  | _ => none

/-- The values of the named fields of a record, in the order of the names. -/
def fieldValues? (names : List String) : Json → Option (List Json)
  | .array items => if items.length = names.length then some items else none
  | .object fields => if fields.all (fun e => e.1.isSome) then names.mapM (field? fields) else none
  | _ => none

/-- Widths. -/
def width : Codec Width := enumeration [("Byte", .byte), ("Word", .word), ("Long", .long), ("Quad", .quad)]

/-- Physical registers. -/
def physReg : Codec PhysReg := enumeration
  [("A", .a), ("B", .b), ("C", .c), ("D", .d), ("Sp", .sp), ("Bp", .bp), ("Si", .si), ("Di", .di), ("R8", .r8),
    ("R9", .r9), ("R10", .r10), ("R11", .r11), ("R12", .r12), ("R13", .r13), ("R14", .r14), ("R15", .r15)]

/-- Relations. -/
def relation : Codec Relation := enumeration
  [("Equal", .equal), ("NotEqual", .notEqual), ("Less", .less), ("LessEqual", .lessEqual), ("Greater", .greater),
    ("GreaterEqual", .greaterEqual)]

/-- Virtual registers. -/
def virtReg : Codec VirtReg where
  encode v := Json.record [("id", .nat v.id), ("width", width.encode v.width)]
  decode? j :=
    match fieldValues? ["id", "width"] j with
    | some [id, w] => do return ⟨← (natBelow word32).decode? id, ← width.decode? w⟩
    | _ => none

/-- Registers: an object whose one field says which kind it is. -/
def register : Codec Register where
  encode
    | .virt v => Json.record [("Virtual", virtReg.encode v)]
    | .phys p => Json.record [("Physical", physReg.encode p)]
  decode?
    | .object [(some "Virtual", j)] => (virtReg.decode? j).map .virt
    | .object [(some "Physical", j)] => (physReg.decode? j).map .phys
    | _ => none

/-- The numbers collected while a function is compiled. -/
def stats : Codec Stats where
  encode s := Json.record
    [("virtual_registers", .nat s.virtualRegisters), ("intervals", .nat s.intervals),
      ("spill_slots", .nat s.spillSlots), ("spills", .nat s.spills), ("reloads", .nat s.reloads),
      ("resolution_moves", .nat s.resolutionMoves), ("frame_size", .nat s.frameSize)]
  decode? j :=
    match fieldValues? ["virtual_registers", "intervals", "spill_slots", "spills", "reloads", "resolution_moves",
      "frame_size"] j with
    | some [a, b, c, d, e, f, g] => do
      return ⟨← (natBelow word64).decode? a, ← (natBelow word64).decode? b, ← (natBelow word32).decode? c,
        ← (natBelow word64).decode? d, ← (natBelow word64).decode? e, ← (natBelow word64).decode? f,
        ← (natBelow word32).decode? g⟩
    | _ => none

/-- Targets. -/
def target : Codec Target where
  encode t := Json.record
    [("allocatable", (list physReg).encode t.allocatable), ("caller_saved", (list physReg).encode t.callerSaved),
      ("frame_base", physReg.encode t.frameBase), ("stack_pointer", physReg.encode t.stackPointer),
      ("slot_size", .nat t.slotSize), ("frame_alignment", .nat t.frameAlignment)]
  decode? j :=
    match fieldValues? ["allocatable", "caller_saved", "frame_base", "stack_pointer", "slot_size",
      "frame_alignment"] j with
    | some [a, b, c, d, e, f] => do
      return ⟨← (list physReg).decode? a, ← (list physReg).decode? b, ← physReg.decode? c, ← physReg.decode? d,
        ← (natBelow word32).decode? e, ← (natBelow word32).decode? f⟩
    | _ => none

/-- Read a value from a text. -/
def read? {α : Type} (c : Codec α) (s : String) : Option α := (Json.parse? s).bind c.decode?

/-- Write a value without blanks. -/
def write {α : Type} (c : Codec α) (a : α) : String := (c.encode a).compact

end Codec

namespace Target

/-- Read a target from a text and check it. -/
def ofText (s : String) : Except Report Target :=
  match Codec.target.read? s with
  | none => .error (.unreadableDuring "Failed to parse target configuration")
  | some t => do
    t.validate.mapError (Report.during "Target configuration is invalid")
    return t

/-- Read a target from the text of a file, if there is such a file, and check it. -/
def ofFile (path : String) : Option String → Except Report Target
  | none => .error (.unreadableDuring ("Failed to read target configuration " ++ path))
  | some s => (ofText s).mapError (Report.inside ("Failed to load " ++ path))

/-- The text of a file that holds a target. -/
def fileText (t : Target) : String := (Codec.target.encode t).pretty

end Target

end RegAlloc
