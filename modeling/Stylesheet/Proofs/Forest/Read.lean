import Stylesheet.Proofs.Forest.Plant
import Stylesheet.Proofs.Parse.Statements
import Stylesheet.Proofs.Print.Order

/-!
# What reading a text adds to a forest

`parse_spec`: a text that is read adds the nodes of its tree under the next numbers, and nothing
else changes. `print_parse`: the fragments that the new root is printed as are the pieces of the
tree that the parser made, each with the number of its node.
-/

set_option autoImplicit false

namespace Stylesheet

open Stylesheet.Text Stylesheet.Tree

variable {α β : Type}

/-! ## Numbered trees and labels -/

namespace Tree

mutual

/-- Numbering commutes with relabelling. -/
theorem numbered_map (g : α → β) (n : Nat) : (t : Tree α) →
    (t.map g).numbered n = (t.numbered n).map (Prod.map id g)
  | leaf a => rfl
  | block a ts => by simp [map, numbered, numberedAll_mapAll g (n + 1) ts]

theorem numberedAll_mapAll (g : α → β) (n : Nat) : (ts : List (Tree α)) →
    numberedAll n (mapAll g ts) = mapAll (Prod.map id g) (numberedAll n ts)
  | [] => rfl
  | t :: ts => by
    simp [mapAll, numberedAll, numbered_map g n t, size_map, numberedAll_mapAll g (n + t.size) ts]

end

end Tree

theorem Piece.fragment_map (g : α → β) (x : Piece (NodeId × α)) :
    (x.map (Prod.map id g)).fragment = x.fragment := by
  cases h : x.node <;> simp [Piece.fragment, Piece.map, h]

/-! ## Reading -/

/-- The printer's view of a numbered tree that was read. -/
abbrev readWording : NodeId × Parsed → Wording := Parsed.wording ∘ Prod.snd

/-- What is printed of the nodes below a root that was read. -/
def Parsed.body (a : Parsed) (ts : List (Tree Parsed)) : List (Piece Parsed) :=
  piecesAll Parsed.wording a.wording.closed a.wording.closed ts

namespace Input

/-- The root of a tree that was read: it ends where the text ends. -/
def rootElement (i : Input) (id : InputId) (n : Parsed) : Element :=
  { i.element id n with
    source := { (i.element id n).source with
      stop := some (i.position (byteSize i.text.toList)) } }

theorem make_ok {files : Files} {text : String} {file : Option String} {setting : MapSetting}
    {i : Input} (h : make files text file setting = .ok i) :
    i.text = (dropBom text).1 ∧ PreviousMap.discover files i.text file setting = .ok i.map := by
  unfold make at h
  simp only at h
  obtain ⟨map, hmap, h⟩ := Except.bind_ok h
  cases h
  exact ⟨rfl, hmap⟩

end Input

namespace Forest

/-- A tree that was read from the input `i`, as it is found in a forest: the root under the number
`root`, the other nodes behind it. Reading makes such a tree; cursors may have gone over it since,
and what stands behind it may be gone. -/
structure Keeps (f : Forest) (root : NodeId) (input : InputId) (i : Input) (a : Parsed)
    (ts : List (Tree Parsed)) : Prop where
  hangs : f.Hangs none (.block (root, i.rootElement input a)
    (mapAll (Prod.map id (i.element input)) (numberedAll (root + 1) ts)))
  size_le : (Tree.block a ts).size ≤ f.size
  input : f.input? input = some i
  formatted : RootFormatted Parsed.wording a ts

/-- A tree that was just read from the input `i`. -/
structure Reads (f : Forest) (root : NodeId) (input : InputId) (i : Input) (a : Parsed)
    (ts : List (Tree Parsed)) : Prop where
  holds : f.Holds none (.block (root, i.rootElement input a)
    (mapAll (Prod.map id (i.element input)) (numberedAll (root + 1) ts)))
  size : f.size = root + (Tree.block a ts).size
  input : f.input? input = some i
  formatted : RootFormatted Parsed.wording a ts
  parsed : Parser.parse i.text.toList = .ok (.block a ts)
  text : Piece.chars ((Tree.block a ts).pieces Parsed.wording false false) = i.text.toList
  placed : Placed [] ((Tree.block a ts).pieces Parsed.wording false false)

theorem reads_plantParsed {f : Forest} {input : InputId} {i : Input} {t : Tree Parsed}
    (hi : f.input? input = some i) (h : Parser.parse i.text.toList = .ok t) :
    (f.plantParsed input i t).1 = f.size ∧ (f.plantParsed input i t).2.inputs = f.inputs ∧
      (∀ j < f.size, (f.plantParsed input i t).2.node j = f.node j) ∧
      ∃ a ts, (f.plantParsed input i t).2.Reads f.size input i a ts := by
  obtain ⟨a, ts, rfl, hformatted, htext, hplaced⟩ := Parser.parse_spec h
  obtain ⟨hid, hext, hholds⟩ := plant_spec f none ((Tree.block a ts).map (i.element input))
  have hholds : (f.plant none ((Tree.block a ts).map (i.element input))).2.Holds none
    (.block (f.size, i.element input a) (numberedAll (f.size + 1)
      (mapAll (i.element input) ts))) := hholds
  rw [size_map] at hext
  rw [plantParsed]
  generalize f.plant none ((Tree.block a ts).map (i.element input)) = planted at hid hext hholds ⊢
  obtain ⟨root, g⟩ := planted
  simp only at hid hext hholds ⊢
  subst hid
  have hext' := extends_modify f hext (Nat.le_refl f.size) fun n => { n with
    source := { n.source with stop := some (i.position (byteSize i.text.toList)) } }
  refine ⟨rfl, hext'.inputs, hext'.node, a, ts, ⟨?_, ?_⟩, hext'.size, ?_, hformatted, h, htext,
    hplaced⟩
  · have hlt : f.size < g.size := by
      rw [hext.size, size_block]
      omega
    rw [node_modify_self _ hlt, hholds.1, numberedAll_mapAll]
    rfl
  · have hall := hholds.2
    rw [numberedAll_mapAll] at hall
    refine hall.congr fun j hj => node_modify_of_ne _ ?_
    rw [← numberedAll_mapAll, numbers_numberedAll, List.mem_range'_1] at hj
    exact Nat.ne_of_gt hj.1
  · rw [input?, hext'.inputs]
    exact hi

/-- **What reading a text adds**: a tree that is printed as the text, and an input. -/
theorem parse_spec {f g : Forest} {files : Files} {text : String} {file : Option String}
    {setting : MapSetting} {root : NodeId} (h : f.parse files text file setting = .ok (root, g)) :
    ∃ i a ts, Input.make files text file setting = .ok i ∧ root = f.size ∧
      g.inputs = f.inputs.push i ∧ (∀ j < f.size, g.node j = f.node j) ∧
      g.Reads root f.inputs.size i a ts := by
  unfold parse at h
  split at h
  · cases h
  · next i hi =>
    simp only [addInput, parseInput] at h
    cases ht : Parser.parse i.text.toList with
    | error e => rw [ht] at h; cases h
    | ok t =>
      simp only [ht, Except.ok.injEq] at h
      have hin : ({ f with inputs := f.inputs.push i } : Forest).input? f.inputs.size = some i := by
        simp [input?]
      obtain ⟨hid, hinputs, hnode, a, ts, hreads⟩ := reads_plantParsed hin ht
      rw [h] at hid hinputs hnode hreads
      obtain rfl : root = f.size := hid
      exact ⟨i, a, ts, hi, rfl, hinputs, hnode, hreads⟩

section
variable {f : Forest} {root : NodeId} {input : InputId} {i : Input} {a : Parsed}
  {ts : List (Tree Parsed)}

theorem Reads.keeps (h : f.Reads root input i a ts) : f.Keeps root input i a ts :=
  ⟨h.holds.hangs, by rw [h.size]; omega, h.input, h.formatted⟩

theorem Keeps.size_numbered_le (h : f.Keeps root input i a ts) :
    (Tree.block (root, i.rootElement input a) (mapAll (Prod.map id (i.element input))
      (numberedAll (root + 1) ts))).size ≤ f.size := by
  rw [size_block, sizeAll_mapAll, ← sizeAll_mapAll Prod.snd, mapAll_snd_numberedAll]
  exact h.size_le

/-- The nodes below the root. -/
theorem Keeps.descendants (h : f.Keeps root input i a ts) :
    f.descendants root = (preorderAll (numberedAll (root + 1) ts)).map Prod.fst := by
  have hout := outline_of_hangs h.hangs h.size_numbered_le
  rw [Tree.label] at hout
  rw [Forest.descendants, hout]
  simp [Tree.descendants, Tree.map, Tree.children, preorderAll_mapAll, Function.comp_def]

/-- What a forest knows of a node below the root. -/
theorem Keeps.element (h : f.Keeps root input i a ts) {b : NodeId × Parsed}
    (hb : b ∈ preorderAll (numberedAll (root + 1) ts)) :
    (f.node b.1).toElement = i.element input b.2 := by
  have hm : (b.1, i.element input b.2) ∈
      preorderAll (mapAll (Prod.map id (i.element input)) (numberedAll (root + 1) ts)) := by
    rw [preorderAll_mapAll]
    exact List.mem_map.2 ⟨b, hb, rfl⟩
  exact h.hangs.2.element hm

/-- The nodes below the root have all their formatting. -/
theorem Keeps.formattedAll (h : f.Keeps root input i a ts) :
    FormattedAll readWording (numberedAll (root + 1) ts) := by
  have := h.formatted.children
  rwa [← mapAll_snd_numberedAll (root + 1) ts, formattedAll_map] at this

theorem Keeps.formattedAll_elements (h : f.Keeps root input i a ts) :
    FormattedAll numberedWording
      (mapAll (Prod.map id (i.element input)) (numberedAll (root + 1) ts)) := by
  rw [formattedAll_map]
  exact h.formattedAll

theorem Keeps.source (h : f.Keeps root input i a ts) {b : NodeId × Parsed}
    (hb : b ∈ preorderAll (numberedAll (root + 1) ts)) :
    f.source b.1 = ⟨some input, some (i.position b.2.start), b.2.last.map i.endPosition⟩ :=
  congrArg Element.source (h.element hb)

theorem Keeps.data (h : f.Keeps root input i a ts) {b : NodeId × Parsed}
    (hb : b ∈ preorderAll (numberedAll (root + 1) ts)) : f.data b.1 = b.2.data :=
  congrArg Element.data (h.element hb)

theorem Keeps.raws (h : f.Keeps root input i a ts) {b : NodeId × Parsed}
    (hb : b ∈ preorderAll (numberedAll (root + 1) ts)) : f.raws b.1 = b.2.raws :=
  congrArg Element.raws (h.element hb)

/-- The children of a root that was read. -/
theorem Keeps.children_eq (h : f.Keeps root input i a ts) :
    f.children root = (numberedAll (root + 1) ts).map (·.label.1) := by
  rw [h.hangs.1.nodes, mapAll_eq, Option.getD_some, List.map_map]
  exact List.map_congr_left fun t _ => by simp [label_map]

/-! ## Printing -/

/-- The pieces of the root, under the numbers of the nodes. -/
theorem Keeps.print (h : f.Keeps root input i a ts) :
    f.print root = (((Tree.block a ts).numbered root).pieces readWording false false).map
      Piece.fragment := by
  have hroot : ∀ ts', (Tree.block (root, i.rootElement input a) ts').pieces numberedWording
      false false = (Tree.block (root, i.element input a) ts').pieces numberedWording
      false false := by
    intro ts'
    simp only [Tree.pieces, show (numberedWording (root, i.rootElement input a)).data = .root from
      h.formatted.data, show (numberedWording (root, i.element input a)).data = .root from
      h.formatted.data]
    rfl
  have hf : RootFormatted numberedWording (root, i.rootElement input a)
      (mapAll (Prod.map id (i.element input)) (numberedAll (root + 1) ts)) := by
    refine ⟨h.formatted.data, fun hne => h.formatted.semicolon ?_, h.formattedAll_elements⟩
    rintro rfl
    exact hne rfl
  have hmap : (Tree.block (root, i.element input a) (mapAll (Prod.map id (i.element input))
      (numberedAll (root + 1) ts))) =
      ((Tree.block a ts).numbered root).map (Prod.map id (i.element input)) := rfl
  have := print_of_hangs h.hangs h.size_numbered_le hf
  rw [hroot, hmap, pieces_map, List.map_map] at this
  rw [this]
  exact List.map_congr_left fun x _ => Piece.fragment_map _ x

/-- Printed behind what stands before it, a piece starts and ends where its node does. -/
theorem Reads.fits (h : f.Reads root input i a ts) {before behind : List (Piece (NodeId × Parsed))}
    {x : Piece (NodeId × Parsed)}
    (hx : ((Tree.block a ts).numbered root).pieces readWording false false =
      before ++ x :: behind) :
    (x.map Prod.snd).Fits (Piece.chars before) ∧
      i.text.toList = Piece.chars before ++ x.text.toList ++ Piece.chars behind := by
  have hpieces : (Tree.block a ts).pieces Parsed.wording false false =
      (before ++ x :: behind).map (Piece.map Prod.snd) := by
    rw [← hx, ← Tree.pieces_map, Tree.map_snd_numbered]
  have hplaced := h.placed
  have htext := h.text
  rw [hpieces] at hplaced htext
  refine ⟨?_, ?_⟩
  · rw [List.map_append, List.map_cons] at hplaced
    simpa using hplaced.fits
  · rw [← htext, Piece.chars_map]
    simp

/-- What is printed of the nodes is the start of the text. -/
theorem Reads.body_spec (h : f.Reads root input i a ts) :
    (∃ rest, i.text.toList = Piece.chars (a.body ts) ++ rest) ∧ Placed [] (a.body ts) := by
  have hpieces : (Tree.block a ts).pieces Parsed.wording false false =
      a.body ts ++ Piece.gap (a.wording.slot "after") := by
    rw [Tree.pieces, show a.wording.data = .root from h.formatted.data]
    rfl
  have htext := h.text
  have hplaced := h.placed
  rw [hpieces] at htext hplaced
  rw [Piece.chars_append] at htext
  exact ⟨⟨_, htext.symm⟩, (placed_append.1 hplaced).1⟩

end

end Forest

end Stylesheet
