/-!
# `Vault/Text/Json.lean` — reading JSON

Configurations arrive as JSON text. The reader is strict: one value, blanks around it, nothing
else; no trailing commas, no leading zeros, no bare control characters inside strings.

**A string is kept as the list of its code points rather than as a `String`,** because an escape
may write a surrogate that has no partner. Such a string is harmless inside a value nobody looks
at and an error where a name is expected, so the decision is left to whoever asks for the text
(`text?`).

A number is kept only as far as a configuration can use it: natural numbers by value, everything
else — signs, fractions, exponents — as `otherNumber`.
-/

set_option autoImplicit false

namespace Vault.Text

/-- A JSON value. -/
inductive Json where
  | null
  | bool (value : Bool)
  | natural (value : Nat)
  | otherNumber
  | string (points : List Nat)
  | array (items : List Json)
  | object (members : List (List Nat × Json))

namespace Json

/-! ## Strings -/

/-- Joins the two halves of every surrogate pair. -/
def joinSurrogates : List Nat → List Nat
  | hi :: lo :: rest =>
    if 0xD800 ≤ hi && hi ≤ 0xDBFF && 0xDC00 ≤ lo && lo ≤ 0xDFFF then
      (0x10000 + (hi - 0xD800) * 0x400 + (lo - 0xDC00)) :: joinSurrogates rest
    else hi :: joinSurrogates (lo :: rest)
  | points => points

/-- The text that the code points write, unless a surrogate is among them. -/
def text? (points : List Nat) : Option String :=
  if points.any fun n => 0xD800 ≤ n && n ≤ 0xDFFF then none
  else some (String.ofList (points.map Char.ofNat))

/-- The value of a hexadecimal digit. -/
def hexValue? (c : Char) : Option Nat :=
  if c.isDigit then some (c.toNat - 48)
  else if 'a' ≤ c && c ≤ 'f' then some (c.toNat - 87)
  else if 'A' ≤ c && c ≤ 'F' then some (c.toNat - 55)
  else none

/-- The code point that a one-letter escape stands for. -/
def escapeValue? : Char → Option Nat
  | '"' => some 34
  | '\\' => some 92
  | '/' => some 47
  | 'b' => some 8
  | 'f' => some 12
  | 'n' => some 10
  | 'r' => some 13
  | 't' => some 9
  | _ => none

/-- Reads a string up to its closing quote; the opening one is already read. -/
def stringBody : List Char → Option (List Nat × List Char)
  | '"' :: rest => some ([], rest)
  | '\\' :: 'u' :: a :: b :: c :: d :: rest => do
    let n := (← hexValue? a) * 4096 + (← hexValue? b) * 256 + (← hexValue? c) * 16 + (← hexValue? d)
    let (tail, rest) ← stringBody rest
    return (n :: tail, rest)
  | '\\' :: c :: rest => do
    let n ← escapeValue? c
    let (tail, rest) ← stringBody rest
    return (n :: tail, rest)
  | c :: rest =>
    if c.toNat < 0x20 || c = '\\' then none
    else do
      let (tail, rest) ← stringBody rest
      return (c.toNat :: tail, rest)
  | [] => none

/-! ## Numbers -/

/-- The number that decimal digits write. -/
def digitsValue (digits : List Char) : Nat :=
  digits.foldl (fun n c => n * 10 + (c.toNat - 48)) 0

/-- Splits off the leading decimal digits; there has to be one. -/
def digits? (cs : List Char) : Option (List Char × List Char) :=
  match cs.span Char.isDigit with
  | ([], _) => none
  | found => some found

/-- The digits before the point: a single zero, or digits that do not start with one. -/
def whole? (cs : List Char) : Option (List Char × List Char) := do
  let (digits, rest) ← digits? cs
  match digits with
  | '0' :: _ :: _ => none
  | _ => some (digits, rest)

/-- What is left behind an optional fraction, and whether there was one. -/
def fraction? : List Char → Option (Bool × List Char)
  | '.' :: rest => (digits? rest).map fun found => (true, found.2)
  | rest => some (false, rest)

/-- What is left behind an optional exponent, and whether there was one. -/
def exponent? : List Char → Option (Bool × List Char)
  | c :: rest =>
    if c = 'e' || c = 'E' then
      let rest := match rest with
        | '+' :: rest => rest
        | '-' :: rest => rest
        | rest => rest
      (digits? rest).map fun found => (true, found.2)
    else some (false, c :: rest)
  | [] => some (false, [])

/-- Reads a number. -/
def number? (cs : List Char) : Option (Json × List Char) := do
  let (negative, cs) := match cs with
    | '-' :: rest => (true, rest)
    | rest => (false, rest)
  let (digits, cs) ← whole? cs
  let (fractional, cs) ← fraction? cs
  let (scaled, cs) ← exponent? cs
  if negative || fractional || scaled then return (.otherNumber, cs)
  else return (.natural (digitsValue digits), cs)

/-! ## Values -/

/-- The text without the blanks in front. -/
def skipBlank (cs : List Char) : List Char :=
  cs.dropWhile fun c => c = ' ' || c = '\t' || c = '\n' || c = '\r'

mutual

/-- Reads one value. The fuel bounds the depth and the number of values still to come; a value
takes at least one character, so the length of the text is enough. -/
def value? : (fuel : Nat) → List Char → Option (Json × List Char)
  | 0, _ => none
  | fuel + 1, cs =>
    match skipBlank cs with
    | 'n' :: 'u' :: 'l' :: 'l' :: rest => some (.null, rest)
    | 't' :: 'r' :: 'u' :: 'e' :: rest => some (.bool true, rest)
    | 'f' :: 'a' :: 'l' :: 's' :: 'e' :: rest => some (.bool false, rest)
    | '"' :: rest => (stringBody rest).map fun found => (.string (joinSurrogates found.1), found.2)
    | '[' :: rest =>
      match skipBlank rest with
      | ']' :: rest => some (.array [], rest)
      | rest => (items? fuel rest).map fun found => (.array found.1, found.2)
    | '{' :: rest =>
      match skipBlank rest with
      | '}' :: rest => some (.object [], rest)
      | rest => (members? fuel rest).map fun found => (.object found.1, found.2)
    | rest => number? rest

/-- Reads the items of an array up to its closing bracket. -/
def items? : (fuel : Nat) → List Char → Option (List Json × List Char)
  | 0, _ => none
  | fuel + 1, cs => do
    let (item, rest) ← value? fuel cs
    match skipBlank rest with
    | ',' :: rest =>
      let (items, rest) ← items? fuel rest
      return (item :: items, rest)
    | ']' :: rest => return ([item], rest)
    | _ => none

/-- Reads the members of an object up to its closing brace. -/
def members? : (fuel : Nat) → List Char → Option (List (List Nat × Json) × List Char)
  | 0, _ => none
  | fuel + 1, cs => do
    match skipBlank cs with
    | '"' :: rest =>
      let (name, rest) ← stringBody rest
      match skipBlank rest with
      | ':' :: rest =>
        let (value, rest) ← value? fuel rest
        match skipBlank rest with
        | ',' :: rest =>
          let (members, rest) ← members? fuel rest
          return ((joinSurrogates name, value) :: members, rest)
        | '}' :: rest => return ([(joinSurrogates name, value)], rest)
        | _ => none
      | _ => none
    | _ => none

end

/-- The value that a whole text writes. -/
def ofText? (s : String) : Option Json := do
  let cs := s.toList
  let (value, rest) ← value? (cs.length + 1) cs
  if (skipBlank rest).isEmpty then some value else none

/-! ## Looking at values -/

/-- The members of an object with their names as texts; nothing if a name is no text. -/
def members : Json → Option (List (String × Json))
  | .object members => members.mapM fun m => (text? m.1).map fun name => (name, m.2)
  | _ => none

/-- The value of a member that may be missing but must not be there twice. -/
def member? (members : List (String × Json)) (name : String) : Option (Option Json) :=
  match members.filter fun m => m.1 == name with
  | [] => some none
  | [m] => some (some m.2)
  | _ => none

/-- What `read` makes of a member, or `otherwise` when it is missing. -/
def field {α : Type} (members : List (String × Json)) (name : String) (read : Json → Option α)
    (otherwise : α) : Option α := do
  match ← member? members name with
  | none => some otherwise
  | some value => read value

/-- A natural number below `limit`. -/
def naturalBelow? (limit : Nat) : Json → Option Nat
  | .natural n => if n < limit then some n else none
  | _ => none

/-- A truth value. -/
def bool? : Json → Option Bool
  | .bool b => some b
  | _ => none

/-- The name of one of several alternatives: a string, or an object whose only member has that
name and the value `null`. -/
def alternative? : Json → Option String
  | .string points => text? points
  | .object [(name, .null)] => text? name
  | _ => none

end Json

end Vault.Text
