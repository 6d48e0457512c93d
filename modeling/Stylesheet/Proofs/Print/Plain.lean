import Stylesheet.Proofs.Print.Pretty
import Stylesheet.Proofs.Token.Spelling

/-!
# Trees without formatting, token after token

A tree without formatting whose texts are words is printed as `Tree.spellRoot` spells it, token
after token (`Forest.Bare.css_eq`). The tokens are what the lexer finds in the text again
(`Proofs/Print/Spelling`), and what the parser makes of them is the matter of `Proofs/Parse/Reread`.
-/

set_option autoImplicit false

namespace Stylesheet

/-! ## Trees in words -/

namespace NodeData

/-- Whether the node is in words, and of a kind that stands without a block. -/
def isWordedLeaf : NodeData → Bool
  | declaration prop value _ => isWord prop && isWord value
  | comment text => isWord text
  | atRule name params => isWord name && (params = "" || isWord params)
  | _ => false

/-- Whether the node is in words, and of a kind that stands with a block. -/
def isWordedBlock : NodeData → Bool
  | rule selector => isWord selector
  | atRule name params => isWord name && (params = "" || isWord params)
  | _ => false

end NodeData

namespace Tree

mutual

/-- Whether all nodes are in words. -/
def isWorded : Tree NodeData → Bool
  | .leaf d => d.isWordedLeaf
  | .block d ts => d.isWordedBlock && isWordedAll ts

/-- Whether all nodes of the trees are in words. -/
def isWordedAll : List (Tree NodeData) → Bool
  | [] => true
  | t :: ts => isWorded t && isWordedAll ts

end

end Tree

/-! ## Spelling -/

namespace NodeData

/-- What stands behind the name of an at-rule. -/
def spellParams (params : String) : List Spelling :=
  if params = "" then [] else [(.space, " "), (.word, params)]

/-- What stands before the block or the semicolon of a node. -/
def spellHead : NodeData → List Spelling
  | atRule name params => (.atWord, "@" ++ name) :: spellParams params
  | rule selector => [(.word, selector)]
  | _ => []

/-- The mark of a declaration. -/
def spellMark (important : Bool) : List Spelling :=
  if important then [(.space, " "), (.word, "!important")] else []

/-- A node without a block. -/
def spellLeaf (d : NodeData) (semicolon : Bool) : List Spelling :=
  let close := if semicolon then [(.semicolon, ";")] else []
  match d with
  | declaration prop value important =>
    [(.word, prop), (.colon, ":"), (.space, " "), (.word, value)] ++
      spellMark important ++ close
  | comment text => [(.comment, "/* " ++ text ++ " */")]
  | d => d.spellHead ++ close

end NodeData

namespace Tree

mutual

/-- A tree as it is printed inside of `depth` blocks. `semicolon` says whether a semicolon follows
it. -/
def spell (depth : Nat) (semicolon : Bool) : Tree NodeData → List Spelling
  | .leaf d => d.spellLeaf semicolon
  | .block d ts =>
    d.spellHead ++ [(.space, " "), (.openCurly, "\x7b")] ++ spellAll (depth + 1) ts ++
      (if ts.isEmpty then [] else [(.space, lineBreak depth)]) ++ [(.closeCurly, "\x7d")]

/-- Siblings, each on a line of its own. -/
def spellAll (depth : Nat) : List (Tree NodeData) → List Spelling
  | [] => []
  | t :: ts => (.space, lineBreak depth) :: spell depth (!onlyComments ts) t ++ spellAll depth ts

end

/-- A whole stylesheet, which starts with no line break. -/
def spellRoot (ts : List (Tree NodeData)) : List Spelling := (spellAll 0 ts).tail

end Tree

/-! ## Spelling as text -/

namespace NodeData

theorem chars_spellHead_atRule (name params : String) :
    Spelling.chars (atRule name params).spellHead =
      ("@" ++ name ++ if params = "" then "" else " " ++ params).toList := by
  by_cases hparams : params = "" <;> simp [spellHead, spellParams, hparams]

theorem chars_spellLeaf {d : NodeData} (hd : d.isWordedLeaf) (semicolon : Bool) :
    Spelling.chars (d.spellLeaf semicolon) = (d.pretty false semicolon "").toList := by
  cases d with
  | root => cases hd
  | rule selector => cases hd
  | atRule name params =>
    have hhead := chars_spellHead_atRule name params
    cases semicolon <;> simp [spellLeaf, pretty, hhead]
  | declaration prop value important =>
    cases semicolon <;> cases important <;> simp [spellLeaf, spellMark, pretty]
  | comment text => simp [spellLeaf, pretty]

theorem chars_spellBlock {d : NodeData} (hd : d.isWordedBlock) (semicolon : Bool) (body : String) :
    Spelling.chars d.spellHead ++ " \x7b".toList ++ body.toList ++ "\x7d".toList =
      (d.pretty true semicolon body).toList := by
  cases d with
  | root => cases hd
  | declaration prop value important => cases hd
  | comment text => cases hd
  | rule selector => simp [spellHead, pretty]
  | atRule name params => simp [chars_spellHead_atRule, pretty]

end NodeData

namespace Tree

mutual

theorem chars_spell : {t : Tree NodeData} → t.isWorded → (depth : Nat) → (semicolon : Bool) →
    Spelling.chars (t.spell depth semicolon) = (t.pretty depth semicolon).toList
  | .leaf _, ht, _, semicolon => NodeData.chars_spellLeaf ht semicolon
  | .block d ts, ht, depth, semicolon => by
    rw [isWorded, Bool.and_eq_true] at ht
    rw [pretty, ← NodeData.chars_spellBlock ht.1, String.toList_append,
      ← chars_spellAll ht.2 (depth + 1)]
    cases ts <;> simp [spell, spellAll]

theorem chars_spellAll : {ts : List (Tree NodeData)} → isWordedAll ts → (depth : Nat) →
    Spelling.chars (spellAll depth ts) = (prettyAll depth (lineBreak depth) ts).toList
  | [], _, _ => rfl
  | t :: ts, hts, depth => by
    rw [isWordedAll, Bool.and_eq_true] at hts
    have ht := chars_spell hts.1 depth (!onlyComments ts)
    have hrest := chars_spellAll hts.2 depth
    simp [spellAll, prettyAll, ht, hrest]

end

theorem chars_spellRoot {ts : List (Tree NodeData)} (hts : isWordedAll ts) :
    Spelling.chars (spellRoot ts) = (prettyAll 0 "" ts).toList := by
  cases ts with
  | nil => rfl
  | cons t ts =>
    rw [isWordedAll, Bool.and_eq_true] at hts
    simp [spellRoot, spellAll, prettyAll, chars_spell hts.1, chars_spellAll hts.2]

end Tree

/-- A tree without formatting is printed as it is spelled. -/
theorem Forest.Bare.css_eq {f : Forest} {root : NodeId} (h : f.Bare root) (hf : f.WellFormed)
    {ts : List (Tree NodeData)} (hts : f.shape root = .block .root ts)
    (hw : Tree.isWordedAll ts) :
    (f.css root).toList = Spelling.chars (Tree.spellRoot ts) := by
  have hprints := (h.prints_root hf (data_of_shape hts) [] (by rintro a v ⟨⟩)).1
  rw [hts] at hprints
  exact hprints.trans (Tree.chars_spellRoot hw).symm

end Stylesheet
