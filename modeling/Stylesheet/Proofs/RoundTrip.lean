import Stylesheet.Proofs.Forest.Read

/-!
# Printing what was read

`Forest.css_parse`: a tree that was read and not changed is printed as the text it was read from,
character by character. The parser puts each token into one slot of one node (`Parser.Inv`), and the
printer asks for these slots and no others (`print_of_hangs`).
-/

set_option autoImplicit false

namespace Stylesheet

open Stylesheet.Text

theorem Fragment.toList_concat_map {α : Type} (xs : List (Piece (NodeId × α))) :
    (Fragment.concat (xs.map Piece.fragment)).toList = Piece.chars xs := by
  simp [Fragment.concat, Piece.chars, List.flatMap_map]

/-- The text that is read is what stands behind a byte order mark. -/
theorem Input.dropBom_toList (text : String) :
    (dropBom text).1.toList = text.toList.drop (if text.toList.head?.any isBom then 1 else 0) := by
  unfold dropBom
  split
  · next c rest hc =>
    by_cases hb : isBom c = true
    · simp [hc, hb]
    · simp [hc, hb]
  · next hc => simp [hc]

namespace Input

theorem file_of_make {files : Files} {text : String} {file : Option String} {setting : MapSetting}
    {i : Input} (h : make files text file setting = .ok i) : i.file = file := by
  unfold make at h
  simp only at h
  obtain ⟨map, -, h⟩ := Except.bind_ok h
  cases h
  rfl

theorem make_of_discover {files : Files} {text : String} {file : Option String}
    {setting : MapSetting} {map : Option PreviousMap}
    (h : PreviousMap.discover files (dropBom text).1 file setting = .ok map) :
    make files text file setting = .ok ⟨(dropBom text).1, file,
      "<input css " ++ Digest.ofText (dropBom text).1 ++ ">", (dropBom text).2, map⟩ := by
  unfold make
  simp only [h]
  rfl

/-- A text that starts with no byte order mark is read as it is. -/
theorem dropBom_eq {text : String} (h : text.toList.head?.any isBom = false) :
    (dropBom text).1 = text := by
  refine String.ext ?_
  rw [dropBom_toList, h]
  rfl

end Input

/-- A text without link comments comes without a map, unless the settings give it one. -/
theorem PreviousMap.discover_none (files : Files) (file : Option String) {text : String}
    {s : MapSetting} (hs : s.options?.bind (·.previous) = none)
    (hl : MapLink.lastOpening? text.toList = none) :
    discover files text file s = .ok none := by
  have hfind : MapLink.find text = none := by
    unfold MapLink.find
    rw [hl]
    rfl
  unfold discover locate
  simp only [hs, hfind]
  cases s.isDisabled <;> rfl

theorem Forest.parse_of_statements {f : Forest} {files : Files} {text : String}
    {file : Option String} {setting : MapSetting} {i : Input} {t : Tree Parsed}
    (hi : Input.make files text file setting = .ok i) (ht : Parser.parse i.text.toList = .ok t) :
    ∃ root g, f.parse files text file setting = .ok (root, g) := by
  unfold parse
  simp only [hi, addInput, parseInput, ht]
  exact ⟨_, _, rfl⟩

namespace Forest

/-- A tree that was read is printed as its pieces. -/
theorem Keeps.css {f : Forest} {root : NodeId} {input : InputId} {i : Input} {a : Parsed}
    {ts : List (Tree Parsed)} (h : f.Keeps root input i a ts) :
    (f.css root).toList = Piece.chars ((Tree.block a ts).pieces Parsed.wording false false) := by
  rw [Forest.css, h.print, Fragment.toList_concat_map, ← Tree.map_snd_numbered root
    (.block a ts), Tree.pieces_map, Piece.chars_map, Tree.map_snd_numbered]

/-- A tree that was just read is printed as its text. -/
theorem Reads.css {f : Forest} {root : NodeId} {input : InputId} {i : Input} {a : Parsed}
    {ts : List (Tree Parsed)} (h : f.Reads root input i a ts) : f.css root = i.text :=
  String.ext (h.keeps.css.trans h.text)

/-- **A text that can be read is printed again**, without the byte order mark before it. -/
theorem css_parse {f g : Forest} {files : Files} {text : String} {file : Option String}
    {setting : MapSetting} {root : NodeId} (h : f.parse files text file setting = .ok (root, g)) :
    (g.css root).toList =
      text.toList.drop (if text.toList.head?.any Input.isBom then 1 else 0) := by
  obtain ⟨i, a, ts, hi, -, -, -, hreads⟩ := parse_spec h
  rw [hreads.css, (Input.make_ok hi).1, Input.dropBom_toList]

theorem css_parse_hack : ∃ root g,
    Forest.empty.parse .empty "\ufeff@a b;c \x7b *d : e ! important ;; /*f*/ \x7d;"
      (some "x.css") .auto = .ok (root, g) ∧
    (g.css root).toList = "@a b;c \x7b *d : e ! important ;; /*f*/ \x7d;".toList := by
  obtain ⟨root, g, h, -⟩ : ∃ root g,
      Forest.empty.parse .empty "\ufeff@a b;c \x7b *d : e ! important ;; /*f*/ \x7d;"
        (some "x.css") .auto = .ok (root, g) ∧ root = 0 := by decide +kernel
  exact ⟨root, g, h, (css_parse h).trans (by decide)⟩

end Forest

end Stylesheet
