import RegAlloc.Json.Value

/-!
# Reading JSON

`Json.parse?` reads a text that is one JSON value between blanks. The functions below it take the characters still to
be read and give what they found with the characters left over; they fail where the text is not JSON. Arrays and
objects nest, and every level of nesting takes at least one character, which bounds the recursion.
-/

namespace RegAlloc

namespace Json

/-- What was read, and the characters left over. -/
abbrev Result (α : Type) := Option (α × List Char)

/-- The characters that may stand between the parts of a JSON text. -/
def isBlank (c : Char) : Bool := c = ' ' || c = '\t' || c = '\n' || c = '\r'

/-- The characters after leading blanks. -/
def skipBlanks (cs : List Char) : List Char := cs.dropWhile isBlank

/-- Read a given word. -/
def word? : List Char → List Char → Option (List Char)
  | [], cs => some cs
  | w :: ws, c :: cs => if w = c then word? ws cs else none
  | _ :: _, [] => none

/-- Read one or more digits. -/
def digits? (cs : List Char) : Result (List Char) :=
  match cs.takeWhile Char.isDigit with
  | [] => none
  | ds => some (ds, cs.dropWhile Char.isDigit)

/-- Read the whole part of a number: `0` does not begin a longer one. -/
def wholePart? (cs : List Char) : Result (List Char) :=
  match digits? cs with
  | some (['0'], rest) => some (['0'], rest)
  | some ('0' :: _, _) => none
  | found => found

/-- Read the fraction of a number, if there is one. -/
def fraction? : List Char → Result (List Char)
  | '.' :: cs => (digits? cs).map (fun e => ('.' :: e.1, e.2))
  | cs => some ([], cs)

/-- Read the sign of an exponent, if there is one. -/
def exponentSign : List Char → List Char × List Char
  | '+' :: cs => (['+'], cs)
  | '-' :: cs => (['-'], cs)
  | cs => ([], cs)

/-- Read the exponent of a number, if there is one. -/
def exponent? : List Char → Result (List Char)
  | c :: cs =>
    if c = 'e' || c = 'E' then
      (digits? (exponentSign cs).2).map (fun e => (c :: (exponentSign cs).1 ++ e.1, e.2))
    else some ([], c :: cs)
  | [] => some ([], [])

/-- Read a number without its sign. -/
def unsigned? (cs : List Char) : Option (List Char × List Char) := do
  let (whole, cs) ← wholePart? cs
  let (fraction, cs) ← fraction? cs
  let (exponent, cs) ← exponent? cs
  return (whole ++ fraction ++ exponent, cs)

/-- Read a number. -/
def number? (cs : List Char) : Result String :=
  match cs with
  | '-' :: rest => (unsigned? rest).map (fun e => (String.ofList ('-' :: e.1), e.2))
  | _ => (unsigned? cs).map (fun e => (String.ofList e.1, e.2))

/-- The value of a hexadecimal digit. -/
def hexValue? (c : Char) : Option Nat :=
  if '0' ≤ c ∧ c ≤ '9' then some (c.toNat - '0'.toNat)
  else if 'a' ≤ c ∧ c ≤ 'f' then some (c.toNat - 'a'.toNat + 10)
  else if 'A' ≤ c ∧ c ≤ 'F' then some (c.toNat - 'A'.toNat + 10)
  else none

/-- The value of four hexadecimal digits. -/
def hexUnit? (a b c d : Char) : Option Nat := do
  return (((← hexValue? a) * 16 + (← hexValue? b)) * 16 + (← hexValue? c)) * 16 + (← hexValue? d)

/-- The character that a letter after a backslash stands for. -/
def escaped? (c : Char) : Option Char :=
  if c = '\x22' || c = '\x5c' || c = '/' then some c
  else if c = 'b' then some '\x08'
  else if c = 'f' then some '\x0c'
  else if c = 'n' then some '\n'
  else if c = 'r' then some '\r'
  else if c = 't' then some '\t'
  else none

/-- A part of a string literal: a character, or a number written with `\u`. -/
inductive Part where
  | char (c : Char)
  | unit (n : Nat)
  deriving DecidableEq, Repr

/-- Read the parts of a string literal up to the closing quote. A character below the blank has to be escaped. -/
def parts? : List Char → Result (List Part)
  | [] => none
  | '\x22' :: cs => some ([], cs)
  | '\x5c' :: 'u' :: a :: b :: c :: d :: cs =>
    match hexUnit? a b c d with
    | some n => (parts? cs).map (fun e => (.unit n :: e.1, e.2))
    | none => none
  | '\x5c' :: c :: cs =>
    match escaped? c with
    | some x => (parts? cs).map (fun e => (.char x :: e.1, e.2))
    | none => none
  | c :: cs => if c.toNat < 32 || c = '\x5c' then none else (parts? cs).map (fun e => (.char c :: e.1, e.2))

/-- Whether a number is the first half of a surrogate pair. -/
def isHigh (n : Nat) : Bool := 0xD800 ≤ n && n ≤ 0xDBFF

/-- Whether a number is the second half of a surrogate pair. -/
def isLow (n : Nat) : Bool := 0xDC00 ≤ n && n ≤ 0xDFFF

/-- The characters of the parts of a literal, unless half of a surrogate pair stands alone. -/
def chars? : List Part → Option (List Char)
  | [] => some []
  | .char c :: rest => (chars? rest).map (c :: ·)
  | .unit m :: .unit n :: rest =>
    if isHigh m then
      if isLow n then (chars? rest).map (Char.ofNat ((m - 0xD800) * 0x400 + (n - 0xDC00) + 0x10000) :: ·) else none
    else if isLow m then none
    else (chars? (.unit n :: rest)).map (Char.ofNat m :: ·)
  | .unit m :: rest => if isHigh m || isLow m then none else (chars? rest).map (Char.ofNat m :: ·)

/-- Read a string literal after its opening quote. -/
def literal? (cs : List Char) : Result (Option String) :=
  (parts? cs).map (fun e => ((chars? e.1).map String.ofList, e.2))

/-- Read the name of a field and the colon after it. -/
def key? (cs : List Char) : Option (Option String × List Char) :=
  match skipBlanks cs with
  | '\x22' :: rest => do
    let (key, rest) ← literal? rest
    match skipBlanks rest with
    | ':' :: rest => return (key, rest)
    | _ => none
  | _ => none

mutual

/-- Read a value, nested no deeper than the first argument allows. -/
def value? : Nat → List Char → Result Json
  | 0, _ => none
  | depth + 1, cs =>
    match skipBlanks cs with
    | '\x22' :: rest => (literal? rest).map (fun e => (.string e.1, e.2))
    | '[' :: rest =>
      match skipBlanks rest with
      | ']' :: rest => some (.array [], rest)
      | rest => (items? depth rest).map (fun e => (.array e.1, e.2))
    | '\x7b' :: rest =>
      match skipBlanks rest with
      | '\x7d' :: rest => some (.object [], rest)
      | rest => (fields? depth rest).map (fun e => (.object e.1, e.2))
    | 'n' :: rest => (word? ['u', 'l', 'l'] rest).map (fun rest => (.null, rest))
    | 't' :: rest => (word? ['r', 'u', 'e'] rest).map (fun rest => (.bool true, rest))
    | 'f' :: rest => (word? ['a', 'l', 's', 'e'] rest).map (fun rest => (.bool false, rest))
    | rest => (number? rest).map (fun e => (.number e.1, e.2))

/-- Read the elements of an array, of which there is at least one, and the closing bracket. -/
def items? : Nat → List Char → Result (List Json)
  | 0, _ => none
  | depth + 1, cs =>
    match value? depth cs with
    | none => none
    | some (item, rest) =>
      match skipBlanks rest with
      | ',' :: rest => (items? depth rest).map (fun e => (item :: e.1, e.2))
      | ']' :: rest => some ([item], rest)
      | _ => none

/-- Read the fields of an object, of which there is at least one, and the closing brace. -/
def fields? : Nat → List Char → Result (List (Option String × Json))
  | 0, _ => none
  | depth + 1, cs =>
    match key? cs with
    | none => none
    | some (key, rest) =>
      match value? depth rest with
      | none => none
      | some (value, rest) =>
        match skipBlanks rest with
        | ',' :: rest => (fields? depth rest).map (fun e => ((key, value) :: e.1, e.2))
        | '\x7d' :: rest => some ([(key, value)], rest)
        | _ => none

end

/-- Read a text that is one JSON value. -/
def parse? (s : String) : Option Json :=
  match value? (2 * s.length + 2) s.toList with
  | some (j, rest) => if (skipBlanks rest).isEmpty then some j else none
  | none => none

end Json

end RegAlloc
