import Stylesheet.Json.Double

/-!
# Reading JSON

`Json.parse?` reads a whole document. The grammar is the strict one: no trailing commas, no
leading zeros, no control characters in strings. Nothing but blanks may follow the document.
-/

set_option autoImplicit false

namespace Stylesheet.Json

namespace Reader

/-- The blanks of JSON. -/
def isBlank (c : Char) : Bool := c = ' ' || c = '\n' || c = '\t' || c = '\r'

/-- Drops the blanks at the start. -/
def skip (cs : List Char) : List Char := cs.dropWhile isBlank

/-- The value of a hexadecimal digit. -/
def hexDigit? (c : Char) : Option Nat :=
  if '0' ≤ c && c ≤ '9' then some (c.toNat - '0'.toNat)
  else if 'a' ≤ c && c ≤ 'f' then some (c.toNat - 'a'.toNat + 10)
  else if 'A' ≤ c && c ≤ 'F' then some (c.toNat - 'A'.toNat + 10)
  else none

/-- Four hexadecimal digits. -/
def hex4? (a b c d : Char) : Option Nat := do
  let a ← hexDigit? a
  let b ← hexDigit? b
  let c ← hexDigit? c
  let d ← hexDigit? d
  return ((a * 16 + b) * 16 + c) * 16 + d

/-- The character that a short escape stands for. -/
def shortEscape? (c : Char) : Option Char :=
  if c = '"' || c = '\\' || c = '/' then some c
  else if c = 'b' then some '\x08'
  else if c = 'f' then some '\x0c'
  else if c = 'n' then some '\n'
  else if c = 'r' then some '\r'
  else if c = 't' then some '\t'
  else none

/-- Reads the inside of a string up to its closing quote, as UTF-16 units for escapes by number
and as characters otherwise. -/
def units : List Char → Option (List (Char ⊕ Nat) × List Char)
  | [] => none
  | '"' :: rest => some ([], rest)
  | '\\' :: 'u' :: a :: b :: c :: d :: rest => do
    let n ← hex4? a b c d
    let (us, rest) ← units rest
    return (.inr n :: us, rest)
  | '\\' :: c :: rest => do
    let c ← shortEscape? c
    let (us, rest) ← units rest
    return (.inl c :: us, rest)
  | c :: rest =>
    if c.toNat < 0x20 || c = '\\' then none
    else do
      let (us, rest) ← units rest
      return (.inl c :: us, rest)

/-- Whether a UTF-16 unit is the first half of a pair. -/
def isHigh (n : Nat) : Bool := 0xD800 ≤ n && n < 0xDC00

/-- Whether a UTF-16 unit is the second half of a pair. -/
def isLow (n : Nat) : Bool := 0xDC00 ≤ n && n < 0xE000

/-- Joins the halves of pairs; `none` when a half stands alone. -/
def joinUnits : List (Char ⊕ Nat) → Option (List Char)
  | [] => some []
  | .inl c :: rest => (joinUnits rest).map (c :: ·)
  | .inr n :: rest =>
    if isHigh n then match rest with
      | .inr m :: rest =>
        if isLow m then
          (joinUnits rest).map (Char.ofNat (0x10000 + (n - 0xD800) * 0x400 + (m - 0xDC00)) :: ·)
        else none
      | _ => none
    else if isLow n then none
    else (joinUnits rest).map (Char.ofNat n :: ·)

/-- A string behind its opening quote; the inner `none` is a string without a value. -/
def string? (cs : List Char) : Option (Option String × List Char) :=
  (units cs).map fun (us, rest) => ((joinUnits us).map String.ofList, rest)

/-- Cuts the decimal digits off the front. -/
def digits (cs : List Char) : List Char × List Char :=
  (cs.takeWhile Char.isDigit, cs.dropWhile Char.isDigit)

/-- The number that decimal digits write. -/
def natOf (ds : List Char) : Nat := ds.foldl (fun n c => n * 10 + (c.toNat - '0'.toNat)) 0

/-- The whole part of a number, which has no leading zero. -/
def whole? (cs : List Char) : Option (List Char × List Char) :=
  match digits cs with
  | ([], _) => none
  | ('0' :: _ :: _, _) => none
  | p => some p

/-- The digits behind the point, if there is one. -/
def fraction? : List Char → Option (List Char × List Char)
  | '.' :: rest =>
    match digits rest with
    | ([], _) => none
    | p => some p
  | cs => some ([], cs)

/-- The exponent with its sign, if there is one. -/
def exponent? : List Char → Option (Option Int × List Char)
  | c :: rest =>
    if c = 'e' || c = 'E' then
      let (negative, rest) := match rest with
        | '+' :: r => (false, r)
        | '-' :: r => (true, r)
        | r => (false, r)
      match digits rest with
      | ([], _) => none
      | (ds, rest) => some (some (if negative then -(natOf ds : Int) else natOf ds), rest)
    else some (none, c :: rest)
  | [] => some (none, [])

/-- Appends decimal digits to a number as long as it fits 64 bits; the digits that are left over
come second. -/
def appendDigits : Nat → List Char → Nat × List Char
  | n, [] => (n, [])
  | n, c :: cs =>
    let m := n * 10 + (c.toNat - '0'.toNat)
    if m < UInt64.size then appendDigits m cs else (n, c :: cs)

/-- The decimal that digits before and behind the point write. The mantissa keeps the leading digits
that fit 64 bits, and the exponent counts those dropped before the point; behind the point the
mantissa goes on as long as digits fit. -/
def decimal (negative : Bool) (wholePart fractionPart : List Char) (exponent : Int) : Decimal :=
  let (m, dropped) := appendDigits 0 wholePart
  let (m, unread) := appendDigits m fractionPart
  ⟨negative, m, exponent + dropped.length - (fractionPart.length - unread.length : Nat)⟩

/-- The value of a number: an integer where it is written as one and fits 64 bits. -/
def numberValue (negative : Bool) (wholePart fractionPart : List Char) (exponent : Option Int) :
    Json :=
  let n := natOf wholePart
  let plain := fractionPart.isEmpty && exponent.isNone
  if plain && !negative && n < UInt64.size then .int n
  else if plain && negative && 0 < n && n ≤ UInt64.size / 2 then .int (-n)
  else
    let d := decimal negative wholePart fractionPart (exponent.getD 0)
    if (Double.ofDecimal? d).isSome then .decimal d else .valueless

/-- A number. -/
def number? (cs : List Char) : Option (Json × List Char) := do
  let (negative, cs) := match cs with
    | '-' :: rest => (true, rest)
    | cs => (false, cs)
  let (w, cs) ← whole? cs
  let (f, cs) ← fraction? cs
  let (e, cs) ← exponent? cs
  return (numberValue negative w f e, cs)

/-- An object of members whose names may lack a value. -/
def object (members : List (Option String × Json)) : Json :=
  match members.mapM fun (name, value) => name.map (·, value) with
  | some ms => .obj ms
  | none => .valueless

mutual

/-- Reads a value; `fuel` bounds the characters and nestings read. -/
def value (fuel : Nat) (cs : List Char) : Option (Json × List Char) :=
  match fuel with
  | 0 => none
  | fuel + 1 =>
    match skip cs with
    | '\x7b' :: rest =>
      match skip rest with
      | '\x7d' :: rest => some (.obj [], rest)
      | rest => (members fuel rest).map fun (ms, rest) => (object ms, rest)
    | '[' :: rest =>
      match skip rest with
      | ']' :: rest => some (.arr [], rest)
      | rest => (items fuel rest).map fun (js, rest) => (.arr js, rest)
    | '"' :: rest =>
      (string? rest).map fun (s, rest) => ((s.map Json.str).getD .valueless, rest)
    | 't' :: 'r' :: 'u' :: 'e' :: rest => some (.bool true, rest)
    | 'f' :: 'a' :: 'l' :: 's' :: 'e' :: rest => some (.bool false, rest)
    | 'n' :: 'u' :: 'l' :: 'l' :: rest => some (.null, rest)
    | cs => number? cs

/-- Reads items up to the closing bracket. -/
def items (fuel : Nat) (cs : List Char) : Option (List Json × List Char) :=
  match fuel with
  | 0 => none
  | fuel + 1 => do
    let (j, cs) ← value fuel cs
    match skip cs with
    | ',' :: rest =>
      let (js, rest) ← items fuel rest
      return (j :: js, rest)
    | ']' :: rest => return ([j], rest)
    | _ => none

/-- Reads members up to the closing brace. -/
def members (fuel : Nat) (cs : List Char) : Option (List (Option String × Json) × List Char) :=
  match fuel with
  | 0 => none
  | fuel + 1 =>
    match skip cs with
    | '"' :: cs => do
      let (name, cs) ← string? cs
      match skip cs with
      | ':' :: cs =>
        let (j, cs) ← value fuel cs
        match skip cs with
        | ',' :: rest =>
          let (ms, rest) ← members fuel rest
          return ((name, j) :: ms, rest)
        | '\x7d' :: rest => return ([(name, j)], rest)
        | _ => none
      | _ => none
    | _ => none

end

end Reader

/-- Reads a whole document from characters. -/
def parseChars? (cs : List Char) : Option Json :=
  match Reader.value (2 * cs.length + 2) cs with
  | some (j, rest) => if (Reader.skip rest).isEmpty then some j else none
  | none => none

/-- Reads a whole document. -/
def parse? (text : String) : Option Json := parseChars? text.toList

end Stylesheet.Json
