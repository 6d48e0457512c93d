/-!
# JSON values

`Json` is a JSON document as it was written: the members of an object in their order and with
their repetitions, numbers apart by whether they are integers of 64 bits. What a repeated member
means is for the reader of the value to decide: `valuesOf` gives all its values, `get` the last
one, and `canonical` keeps the last one and sorts the members.
-/

set_option autoImplicit false

namespace Stylesheet

/-- A number that is no integer of 64 bits: `mantissa * 10 ^ exponent`, with its sign. The mantissa
is below `2 ^ 64`; a number of more digits is cut to those that fit. -/
structure Decimal where
  negative : Bool
  mantissa : Nat
  exponent : Int
deriving DecidableEq, Repr, Inhabited

/-- A JSON document. -/
inductive Json where
  | null
  | bool (b : Bool)
  | int (i : Int)
  | decimal (d : Decimal)
  | str (s : String)
  | arr (items : List Json)
  | obj (members : List (String × Json))
  /-- Correct in form but without a value: a string with half of a surrogate pair, or a number
  beyond the range of doubles. It fits only where any value is passed over. -/
  | valueless
deriving Repr, Inhabited

namespace Json

/-! ## Nesting -/

mutual

/-- How deep arrays and objects are nested in a document. -/
def depth : Json → Nat
  | arr items => depthItems items + 1
  | obj members => depthMembers members + 1
  | _ => 0

/-- The largest depth of the items. -/
def depthItems : List Json → Nat
  | [] => 0
  | j :: rest => max (depth j) (depthItems rest)

/-- The largest depth of the members. -/
def depthMembers : List (String × Json) → Nat
  | [] => 0
  | (_, j) :: rest => max (depth j) (depthMembers rest)

end

mutual

/-- Whether every part of a document has a value. -/
def hasValue : Json → Bool
  | arr items => hasValueItems items
  | obj members => hasValueMembers members
  | valueless => false
  | _ => true

/-- Whether every item has a value. -/
def hasValueItems : List Json → Bool
  | [] => true
  | j :: rest => hasValue j && hasValueItems rest

/-- Whether every member has a value. -/
def hasValueMembers : List (String × Json) → Bool
  | [] => true
  | (_, j) :: rest => hasValue j && hasValueMembers rest

end

/-- The nesting that a reader of values follows. -/
def maxDepth : Nat := 127

/-- Whether a document that stands `level` levels deep can be read as a value. -/
def readable (level : Nat) (j : Json) : Bool := j.hasValue && j.depth + level ≤ maxDepth

/-! ## Canonical form -/

/-- Puts a member into a list that is sorted by name; one of the same name is replaced. -/
def insertMember (name : String) (value : Json) : List (String × Json) → List (String × Json)
  | [] => [(name, value)]
  | (n, v) :: rest =>
    if name = n then (name, value) :: rest
    else if name < n then (name, value) :: (n, v) :: rest
    else (n, v) :: insertMember name value rest

mutual

/-- The document with the members of every object sorted by name; of repeated members the last
stays. -/
def canonical : Json → Json
  | arr items => arr (canonicalItems items)
  | obj members => obj (canonicalMembers members [])
  | j => j

/-- The items in canonical form. -/
def canonicalItems : List Json → List Json
  | [] => []
  | j :: rest => canonical j :: canonicalItems rest

/-- Adds the members in canonical form to a sorted list. -/
def canonicalMembers : List (String × Json) → List (String × Json) → List (String × Json)
  | [], sorted => sorted
  | (n, j) :: rest, sorted => canonicalMembers rest (insertMember n (canonical j) sorted)

end

/-! ## Members -/

/-- The values of the members with a given name. -/
def valuesOf (name : String) (members : List (String × Json)) : List Json :=
  (members.filter (·.1 = name)).map (·.2)

/-- The member `name`: `null` when there is none. Of repeated members the last counts. -/
def get (j : Json) (name : String) : Json :=
  match j with
  | obj members => (valuesOf name members).getLast?.getD .null
  | _ => .null

end Json

end Stylesheet
