/-!
# JSON values and how they are written

A `Json` is what a JSON text says. A number is kept as it is written. A string is absent where its literal names half
of a surrogate pair, since no text holds that; whether that is an error depends on whether the string is needed.

`compact` writes a value without blanks. `pretty` writes one element or field per line, indented by two blanks for
each level, with an empty array or object on one line.
-/

namespace RegAlloc

/-- What a JSON text says. -/
inductive Json where
  | null
  | bool (b : Bool)
  | number (text : String)
  | string (s : Option String)
  | array (items : List Json)
  | object (fields : List (Option String × Json))

namespace Json

/-- A natural number. -/
def nat (n : Nat) : Json := .number (toString n)

/-- A text. -/
def text (s : String) : Json := .string (some s)

/-- An object with the given fields. -/
def record (fields : List (String × Json)) : Json := .object (fields.map (fun e => (some e.1, e.2)))

/-- The hexadecimal digit of a number below sixteen. -/
def hexDigit (n : Nat) : Char := Nat.digitChar n

/-- A character in a string literal. -/
def escape (c : Char) : String :=
  if c = '\x22' then "\\\""
  else if c = '\x5c' then "\\\\"
  else if c = '\n' then "\\n"
  else if c = '\r' then "\\r"
  else if c = '\t' then "\\t"
  else if c.toNat = 8 then "\\b"
  else if c.toNat = 12 then "\\f"
  else if c.toNat < 32 then String.ofList ['\x5c', 'u', '0', '0', hexDigit (c.toNat / 16), hexDigit (c.toNat % 16)]
  else String.ofList [c]

/-- A string literal. -/
def quote (s : String) : String := "\"" ++ String.join (s.toList.map escape) ++ "\""

/-- The beginning of a line at a level of indentation. -/
def line (level : Nat) : String := "\n" ++ String.join (List.replicate level "  ")

mutual

/-- The value without blanks. -/
def compact : Json → String
  | .null => "null"
  | .bool b => if b then "true" else "false"
  | .number text => text
  | .string s => quote (s.getD "")
  | .array items => "[" ++ ",".intercalate (compactItems items) ++ "]"
  | .object fields => "\x7b" ++ ",".intercalate (compactFields fields) ++ "\x7d"

/-- The elements of an array without blanks. -/
def compactItems : List Json → List String
  | [] => []
  | item :: rest => compact item :: compactItems rest

/-- The fields of an object without blanks. -/
def compactFields : List (Option String × Json) → List String
  | [] => []
  | (key, value) :: rest => (quote (key.getD "") ++ ":" ++ compact value) :: compactFields rest

end

/-- Brackets around parts, one part a line. -/
def spread (level : Nat) (opening closing : String) (parts : List String) : String :=
  if parts.isEmpty then opening ++ closing
  else opening ++ line (level + 1) ++ ("," ++ line (level + 1)).intercalate parts ++ line level ++ closing

mutual

/-- The value over several lines, the first of which stands at a level of indentation. -/
def prettyAt (level : Nat) : Json → String
  | .null => "null"
  | .bool b => if b then "true" else "false"
  | .number text => text
  | .string s => quote (s.getD "")
  | .array items => spread level "[" "]" (prettyItems (level + 1) items)
  | .object fields => spread level "\x7b" "\x7d" (prettyFields (level + 1) fields)

/-- The elements of an array at a level of indentation. -/
def prettyItems (level : Nat) : List Json → List String
  | [] => []
  | item :: rest => prettyAt level item :: prettyItems level rest

/-- The fields of an object at a level of indentation. -/
def prettyFields (level : Nat) : List (Option String × Json) → List String
  | [] => []
  | (key, value) :: rest => (quote (key.getD "") ++ ": " ++ prettyAt level value) :: prettyFields level rest

end

/-- The value over several lines. -/
def pretty (j : Json) : String := prettyAt 0 j

end Json

end RegAlloc
