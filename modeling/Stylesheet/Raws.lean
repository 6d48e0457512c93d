/-!
# Preserved formatting

A node keeps the formatting it was read with in named slots (`before`, `between`, `after`,
`semicolon`, `afterName`, `important`, `left`, `right`, `ownSemicolon`, and the lexeme slots
`selector`, `params` and `value`). `Raws` maps slot names to `RawValue`s; the laws at the end say
what each operation does to `get?`.
-/

set_option autoImplicit false

namespace Stylesheet

/-- One preserved piece of formatting. -/
inductive RawValue where
  | text (text : String)
  | flag (on : Bool)
  /-- The lexeme `raw` that `value` was read from. It is printed only while the node still holds
  `value`. -/
  | lexeme (value raw : String)
deriving DecidableEq, Repr, Inhabited

namespace RawValue

/-- The text a raw prints as; a flag prints as nothing. -/
def toText : RawValue → String
  | text t => t
  | flag _ => ""
  | lexeme _ raw => raw

/-- A flag that is set, or a text that is not empty. -/
def isTruthy : RawValue → Bool
  | flag on => on
  | v => v.toText ≠ ""

end RawValue

/-- Formatting slots of a node; each slot name occurs at most once. -/
structure Raws where
  slots : List (String × RawValue)
deriving DecidableEq, Repr, Inhabited

namespace Raws

/-- No slot is set. -/
def empty : Raws := ⟨[]⟩

instance : EmptyCollection Raws := ⟨empty⟩

/-- The value in a slot. -/
def get? (r : Raws) (slot : String) : Option RawValue := r.slots.lookup slot

/-- The text of the value in a slot. -/
def text? (r : Raws) (slot : String) : Option String := (r.get? slot).map RawValue.toText

/-- Whether the slot is set. -/
def contains (r : Raws) (slot : String) : Bool := (r.get? slot).isSome

/-- Whether no slot is set. -/
def isEmpty (r : Raws) : Bool := r.slots.isEmpty

/-- Keeps the slots whose names `keep` accepts. -/
def retain (r : Raws) (keep : String → Bool) : Raws := ⟨r.slots.filter fun s => keep s.1⟩

/-- Clears a slot. -/
def remove (r : Raws) (slot : String) : Raws := r.retain (· != slot)

/-- Puts a value into a slot. -/
def set (r : Raws) (slot : String) (value : RawValue) : Raws :=
  ⟨(slot, value) :: (r.remove slot).slots⟩

/-- Puts a text into a slot. -/
def setText (r : Raws) (slot text : String) : Raws := r.set slot (.text text)

/-- Extends the text in a slot; a slot that holds no plain text is set to `text`. -/
def pushText (r : Raws) (slot text : String) : Raws :=
  match r.get? slot with
  | some (.text t) => r.setText slot (t ++ text)
  | _ => r.setText slot text

/-- The lexeme in a slot, if it was read as `current`. -/
def lexemeFor (r : Raws) (slot current : String) : Option String :=
  match r.get? slot with
  | some (.lexeme value raw) => if value = current then some raw else none
  | _ => none

/-- Drops the formatting that depends on where a node stands; `between` only unless it is kept. -/
def clean (r : Raws) (keepBetween : Bool) : Raws :=
  r.retain fun slot => slot != "before" && slot != "after" && (keepBetween || slot != "between")

/-! ## What the operations do to a look-up -/

@[simp] theorem get?_empty (slot : String) : (∅ : Raws).get? slot = none := rfl

theorem get?_retain (r : Raws) (keep : String → Bool) (slot : String) :
    (r.retain keep).get? slot = if keep slot then r.get? slot else none := by
  obtain ⟨slots⟩ := r
  simp only [retain, get?]
  induction slots with
  | nil => simp
  | cons s slots ih =>
    obtain ⟨name, value⟩ := s
    by_cases hn : slot = name
    · subst hn
      by_cases hk : keep slot
      · simp [hk]
      · simpa [List.filter_cons, hk] using ih
    · by_cases hk : keep name
      · simpa [List.filter_cons, List.lookup_cons, hk,
          show (slot == name) = false by simpa using hn] using ih
      · simpa [List.filter_cons, List.lookup_cons, hk,
          show (slot == name) = false by simpa using hn] using ih

theorem get?_remove (r : Raws) (slot other : String) :
    (r.remove slot).get? other = if other = slot then none else r.get? other := by
  by_cases h : other = slot <;> simp [remove, get?_retain, h]

@[simp] theorem get?_set_self (r : Raws) (slot : String) (value : RawValue) :
    (r.set slot value).get? slot = some value := by
  simp [set, get?]

theorem get?_set_of_ne (r : Raws) {slot other : String} (value : RawValue) (h : other ≠ slot) :
    (r.set slot value).get? other = r.get? other := by
  have := get?_remove r slot other
  simp only [h, if_false] at this
  simpa [set, get?, List.lookup_cons, show (other == slot) = false by simpa using h] using this

end Raws

end Stylesheet
