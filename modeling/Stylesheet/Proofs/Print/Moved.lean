import Stylesheet.Proofs.Forest.Relocated
import Stylesheet.Proofs.Print.Shares
import Stylesheet.Proofs.Print.Survivors
import Stylesheet.Proofs.Ranges

/-!
# A node printed in another place

A node that is moved, or copied with cleaned formatting, loses what stood before it and below it in
certain slots, and is printed by the examples of the tree that it comes to. `Keeps.bare_relocated`:
blanks and comments apart it is printed as before, if what was lost was layout (`Plain`) and the
examples are, too (`Supplies`). The parser does put other tokens into these slots: the mark of a
hack stands before the property of a declaration, and is lost with the blanks
(`not_bare_relocated`).
-/

set_option autoImplicit false

namespace Stylesheet

open Relation Stylesheet.Text Stylesheet.Tree

namespace Forest

variable {f g : Forest} {id n m C x y r root top : NodeId} {keep : Bool} {slot : String}
  {a : Aspect} {own : Option String}

/-! ## Formatting by place -/

theorem isBlank_of_mem_blanks {s : String} {c : Char} (h : c ∈ (blanks s).toList) :
    isBlank c = true := by
  rw [blanks, String.toList_ofList] at h
  exact (List.mem_filter.1 h).2

theorem isBlank_of_linesIn? {v : RawValue} (h : f.linesIn? id slot = some v) {c : Char}
    (hc : c ∈ v.toText.toList) : isBlank c = true := by
  obtain ⟨t, -, rfl⟩ := Option.map_eq_some_iff.1 h
  exact isBlank_of_mem_blanks hc

/-- The aspects that tell the lines before and behind a node. -/
def IsPlace (a : Aspect) : Prop :=
  a = .beforeDeclaration ∨ a = .beforeComment ∨ a = .beforeRule ∨ a = .beforeClose

theorem isBlank_of_detect (ha : IsPlace a) {v : RawValue} (h : f.detect top own a = some v)
    {c : Char} (hc : c ∈ v.toText.toList) : isBlank c = true := by
  rcases ha with rfl | rfl | rfl | rfl <;> unfold detect findBelow at h <;> simp only at h
  all_goals
    obtain ⟨other, -, hother⟩ := List.exists_of_findSome?_eq_some h
    split at hother
  · exact isBlank_of_linesIn? hother hc
  · cases hother
  · exact isBlank_of_linesIn? hother hc
  · cases hother
  · exact isBlank_of_linesIn? hother hc
  · cases hother
  · cases hother
  · exact isBlank_of_linesIn? hother hc

theorem isBlank_of_lookup {as : List Aspect} (ha : ∀ a ∈ as, IsPlace a) {c : Char}
    (hc : c ∈ (f.lookup top own [] as).1.toText.toList) : isBlank c = true := by
  induction as generalizing own with
  | nil => cases hc
  | cons a as ih =>
    obtain ⟨hplace, has⟩ := List.forall_mem_cons.1 ha
    rw [lookup, List.lookup_nil] at hc
    cases hd : f.detect top own a with
    | some v =>
      rw [hd] at hc
      exact isBlank_of_detect hplace hd hc
    | none =>
      rw [hd] at hc
      simp only at hc
      split at hc
      · have hfixed : a.fallback.toText = "\n" := by
          rcases hplace with rfl | rfl | rfl | rfl <;> rfl
        rw [hfixed] at hc
        obtain rfl := List.mem_singleton.1 hc
        decide
      · exact ih has hc

/-- What stands before or behind a node by example: lines, and steps of indentation. -/
theorem toText_placed (f : Forest) (id : NodeId) (before : Bool) :
    (f.placed [] id before).1.toText =
      let text := (f.sample (f.top id) (placeAspect (f.kind id) before)).toText
      if text.toList.contains '\n' then
        text ++ String.join (List.replicate (f.depth id) (f.sample (f.top id) .indent).toText)
      else text := by
  have hasked : (placeAspect (f.kind id) before).AskedBy none := by
    cases f.kind id <;> cases before <;> trivial
  obtain ⟨hplace, hm⟩ := f.answers (f.top id) hasked [] (f.faithful_nil _)
  have hindent : f.Answers (f.top id) none Aspect.indent.chain (f.sample (f.top id) .indent) :=
    f.answers (f.top id) trivial
  have hstep := (hindent _ hm).1
  rw [show Aspect.indent.chain = [Aspect.indent] from rfl] at hstep
  unfold placed
  simp only [hplace]
  split
  · rw [hstep]
    rfl
  · rfl

theorem solid_replicate {s : String} (h : solid s.toList = []) (k : Nat) :
    solid (String.join (List.replicate k s)).toList = [] := by
  induction k with
  | zero => exact solid_nil
  | succ k ih =>
    have hjoin : (String.join (List.replicate (k + 1) s)).toList =
        s.toList ++ (String.join (List.replicate k s)).toList := by
      simp [List.replicate_succ]
    rw [hjoin, solid_append_of_nil h, ih]

/-- The step of indentation is layout, unless the tree says otherwise. -/
theorem solid_indent (h : solid ((f.rawText? top "indent").getD "").toList = []) :
    solid (f.sample top .indent).toText.toList = [] := by
  have hfixed : ∀ c ∈ (Aspect.fallback .indent).toText.toList, isBlank c = true :=
    List.all_eq_true.1 (by decide)
  rw [sample, show Aspect.indent.chain = [Aspect.indent] from rfl, lookup, List.lookup_nil]
  cases hd : f.detect top Aspect.indent.slot? .indent with
  | none => exact solid_of_blank hfixed
  | some v =>
    unfold detect at hd
    simp only at hd
    split at hd
    · cases hd
      exact h
    · obtain ⟨other, -, hother⟩ := List.exists_of_findSome?_eq_some hd
      split at hother
      · cases hother
      · split at hother
        · obtain ⟨t, -, rfl⟩ := Option.map_eq_some_iff.1 hother
          exact solid_of_blank fun c hc => isBlank_of_mem_blanks hc
        · cases hother

theorem solid_placed (h : solid (f.sample (f.top id) .indent).toText.toList = []) (before : Bool) :
    solid (f.placed [] id before).1.toText.toList = [] := by
  have hblank : ∀ c ∈ (f.sample (f.top id) (placeAspect (f.kind id) before)).toText.toList,
      isBlank c = true := by
    intro c hc
    refine isBlank_of_lookup (fun a ha => ?_) hc
    revert ha
    cases f.kind id <;> cases before <;> simp [placeAspect, Aspect.chain, IsPlace] <;> grind
  rw [toText_placed]
  simp only
  split
  · rw [String.toList_append, solid_append_of_nil (solid_of_blank hblank), solid_replicate h]
  · exact solid_of_blank hblank

/-- Without anything but blanks of its own, a child is printed behind layout. -/
theorem solidIn_before {p : NodeId} (hp : f.parent? id = some p)
    (hown : ∀ v, (f.raws id).get? "before" = some v → ∀ c ∈ v.toText.toList, isBlank c = true)
    (h : solid (f.sample (f.top id) .indent).toText.toList = []) :
    f.solidIn id "before" .before = [] := by
  unfold solidIn
  cases hv : (f.raws id).get? "before" with
  | some v =>
    rw [resolve_of_own hv]
    exact solid_of_blank (hown v hv)
  | none =>
    unfold resolve raw
    simp only [Option.bind_some, hv, hp]
    split
    · exact solid_nil
    · rw [if_pos trivial]
      exact solid_placed h true

/-! ## What is asked for -/

theorem Asked.askedBy (h : f.Asked r x slot a) : a.AskedBy (some slot) := by
  cases h with
  | left => rfl
  | right => rfl
  | _ => trivial

theorem Asked.ne_before (h : f.Asked x x slot a) : a ≠ .before := by
  rintro rfl
  cases h with
  | before h => exact h rfl

theorem Asked.of_after (h : f.Asked r x slot a) (ha : a = .after) : slot = "after" := by
  subst ha
  cases h with
  | after => rfl

/-! ## What was read -/

/-- The slots that are asked for are set. -/
theorem Furnished.contains (hf : f.Furnished x) (ha : f.Asked x x slot a) :
    (f.raws x).contains slot = true := by
  have hkind : f.kind x = (f.wording x).data.kind := rfl
  cases ha with
  | before hne => exact absurd rfl hne
  | beforeOpen ho => exact (hf.blockFormatted ho).between
  | after ho => exact (hf.blockFormatted ho).after
  | emptyBody ho => exact (hf.blockFormatted ho).after
  | colon hk =>
    obtain ⟨-, hslots⟩ := hf.leafFormatted (by simp [Opens, hk])
    rw [hkind] at hk
    cases hd : (f.wording x).data <;> simp [hd, NodeData.kind] at hslots hk
    exact hslots
  | left hk =>
    obtain ⟨-, hslots⟩ := hf.leafFormatted (by simp [Opens, hk])
    rw [hkind] at hk
    cases hd : (f.wording x).data <;> simp [hd, NodeData.kind] at hslots hk
    exact hslots.1
  | right hk =>
    obtain ⟨-, hslots⟩ := hf.leafFormatted (by simp [Opens, hk])
    rw [hkind] at hk
    cases hd : (f.wording x).data <;> simp [hd, NodeData.kind] at hslots hk
    exact hslots.2

/-- A slot that is set is printed as it is. -/
theorem solidIn_of_contains (h : (f.raws x).contains slot = true) (a : Aspect) :
    f.solidIn x slot a = solid ((f.wording x).slot slot).toList := by
  obtain ⟨v, hv⟩ := Option.isSome_iff_exists.1 h
  have hslot : (f.wording x).slot slot = v.toText := by
    rw [Wording.slot, Raws.text?, show (f.wording x).raws = f.raws x from rfl, hv]
    rfl
  rw [solidIn, resolve_of_own hv, hslot]

section
variable {input : InputId} {i : Input} {b : Parsed} {ts : List (Tree Parsed)}

/-- A node with children tells whether the last of them ends in a semicolon. -/
theorem Keeps.contains_semicolon (h : f.Keeps root input i b ts) (hx : x ∈ f.descendants root)
    (hne : f.children x ≠ []) : (f.raws x).contains "semicolon" = true := by
  rw [h.descendants, ← map_label_subtreesAll, List.map_map] at hx
  obtain ⟨u, hu, rfl⟩ := List.mem_map.1 hx
  obtain ⟨p, hp⟩ := h.subtree hu
  have hformatted : (u.map (Prod.map id (i.element input))).Formatted numberedWording := by
    apply h.formattedAll_elements.subtrees
    rw [subtreesAll_map]
    exact List.mem_map_of_mem hu
  cases u with
  | leaf q => exact absurd (children_of_leaf (Sits.children hp)) hne
  | block q us =>
    have hchildren : f.children q.1 = _ := children_of_block hp.1.children
    have hraws : f.raws q.1 = (i.element input q.2).raws := congrArg Element.raws hp.1.element
    change (f.raws q.1).contains "semicolon" = true
    rw [hraws]
    refine hformatted.2.1 fun hus => hne ?_
    exact hchildren.trans (by rw [hus]; rfl)

/-- A node that was read and is no declaration has no words in its slots. -/
theorem Keeps.spaced (h : f.Keeps root input i b ts)
    (hp : Parser.parse i.text.toList = .ok (.block b ts)) (hx : x ∈ f.descendants root)
    (hk : f.kind x ≠ .declaration) : IsGap ((f.wording x).slot "before").toList ∧
      solid ((f.wording x).slot "between").toList = [] ∧
      IsGap ((f.wording x).slot "after").toList := by
  rw [h.descendants, List.mem_map] at hx
  obtain ⟨q, hq, rfl⟩ := hx
  have hwording : f.wording q.1 = q.2.wording := by
    rw [wording, h.element hq]
    rfl
  have hmem : q.2 ∈ preorderAll ts := by
    have hnumbers := congrArg preorderAll (mapAll_snd_numberedAll (root + 1) ts)
    rw [preorderAll_mapAll] at hnumbers
    rw [← hnumbers]
    exact List.mem_map_of_mem hq
  have hspaced := Parser.spaced_parse hp hmem (by rwa [← h.data hq])
  rw [hwording]
  exact ⟨hspaced.before, hspaced.between, hspaced.after⟩

/-! ## The conditions -/

/-- What cleaning drops of a node and below it is layout, and one colon in each declaration. -/
structure Plain (f : Forest) (n : NodeId) (keep : Bool) : Prop where
  /-- Nothing stands before a property: no mark of a hack, and no other word. -/
  marks : ∀ x ∈ (f.outline n).preorder, f.kind x = .declaration →
    ∀ c ∈ solid ((f.wording x).slot "before").toList, c = ';'
  /-- There are no stray semicolons below the node. -/
  semicolons : ∀ x ∈ f.descendants n, ';' ∉ solid ((f.wording x).slot "before").toList
  ends : ∀ x ∈ (f.outline n).preorder, ';' ∉ solid ((f.wording x).slot "after").toList
  /-- If it is dropped, what stands between a property and its value is a colon. -/
  colons : keep = false → ∀ x ∈ (f.outline n).preorder, f.kind x = .declaration →
    solid ((f.wording x).slot "between").toList = [':']

/-- The examples of the tree below `top` in `g` are layout, and one colon for declarations, as far
as the nodes from `n` on need them once their formatting is cleaned. -/
structure Supplies (g : Forest) (top : NodeId) (f : Forest) (n : NodeId) (keep : Bool) : Prop where
  indent : solid ((g.rawText? top "indent").getD "").toList = []
  examples : ∀ x ∈ (f.outline n).preorder, ∀ slot a, f.Asked x x slot a →
    ((f.raws x).clean keep).get? slot = none → a ≠ .after →
    solid (g.sample top a).toText.toList = if a = .colon then [':'] else []

/-! ## One node -/

/-- What is dropped of a slot that was set is layout, or a colon. -/
theorem solidIn_dropped (h : f.Keeps root input i b ts)
    (hp : Parser.parse i.text.toList = .ok (.block b ts)) (hx : x ∈ f.descendants root)
    (hplain : f.Plain n keep) (hn : x ∈ (f.outline n).preorder) (ha : f.Asked x x slot a)
    (hnone : ((f.raws x).clean keep).get? slot = none) :
    f.solidIn x slot a = if a = .colon then [':'] else [] := by
  have hown := (h.furnished hx).contains ha
  have hdropped : slot = "before" ∨ slot = "after" ∨ (keep = false ∧ slot = "between") := by
    rw [get?_clean] at hnone
    by_contra hkept
    rw [if_neg hkept] at hnone
    exact not_contains hnone hown
  have hopens (ho : f.Opens x) : f.kind x ≠ .declaration := by
    rcases ho with hk | ⟨hk, -⟩ <;> simp [hk]
  rw [solidIn_of_contains hown]
  have hafter (ho : f.Opens x) : solid ((f.wording x).slot "after").toList = [] := by
    apply List.eq_nil_iff_forall_not_mem.2
    intro c hc
    have hgap := (h.spaced hp hx (hopens ho)).2.2
    exact hplain.ends x hn (eq_semicolon_of_mem_solid hgap hc ▸ hc)
  cases ha with
  | before hne => exact absurd rfl hne
  | colon hk => exact hplain.colons (by simpa using hdropped) x hn hk
  | beforeOpen ho => exact (h.spaced hp hx (hopens ho)).2.1
  | after ho => exact hafter ho
  | emptyBody ho => exact hafter ho
  | left => simp at hdropped
  | right => simp at hdropped

/-- **Each node is printed as before**, blanks and comments apart. -/
theorem Resembles.writesLike (hr : f.Resembles g keep x y) (h : f.Keeps root input i b ts)
    (hp : Parser.parse i.text.toList = .ok (.block b ts)) (hx : x ∈ f.descendants root)
    (hn : x ∈ (f.outline n).preorder) (hplain : f.Plain n keep)
    (hs : g.Supplies (g.top y) f n keep) : f.WritesLike g x y where
  data := hr.data
  raws slot hb hm ha := by
    rw [hr.raws slot hb, get?_clean, if_neg]
    rintro (he | he | ⟨-, he⟩)
    · exact hb he
    · exact ha he
    · exact hm he
  asked slot a ha := by
    have hslot : slot ≠ "before" := fun he => (ha.of_before he).1 rfl
    obtain ⟨p, hparent⟩ := hr.parent
    have hraw := hr.raws slot hslot
    cases hclean : ((f.raws x).clean keep).get? slot with
    | some v =>
      have hv : (f.raws x).get? slot = some v := by
        rw [get?_clean] at hclean
        split at hclean
        · cases hclean
        · exact hclean
      rw [solidIn, solidIn, resolve_of_own hv, resolve_of_own (hraw.trans hclean)]
    | none =>
      rw [hclean] at hraw
      rw [solidIn_dropped h hp hx hplain hn ha hclean, solidIn]
      by_cases hafter : a = .after
      · subst hafter
        obtain rfl := ha.of_after rfl
        rw [resolve_after hraw hparent]
        exact solid_placed (solid_indent hs.indent) false
      · rw [resolve_sample hraw hparent ha.ne_before hafter ha.askedBy]
        exact hs.examples x hn slot a ha hclean hafter
  statement hk hb := by
    have hsolid := (h.spaced hp hx (by rw [hk]; decide)).2.1
    change solid ((f.rawText? x "between").getD "").toList = [] at hsolid
    have hraw := hr.raws "between" (by decide)
    rw [get?_clean] at hraw
    split at hraw
    · rw [hsolid, rawText?, Raws.text?, hraw]
      exact solid_nil
    · rw [rawText?, Raws.text?, hraw]
      rfl
  semicolon hne := by
    obtain ⟨v, hv⟩ := Option.isSome_iff_exists.1 (h.contains_semicolon hx hne)
    have hraw := hr.raws "semicolon" (by decide)
    rw [get?_clean, if_neg (by simp), hv] at hraw
    rw [resolve_of_own hv, resolve_of_own hraw]

/-! ## The node with all below it -/

/-- Before a node that was read stand semicolons at most. -/
theorem eq_semicolon_of_mem_before (h : f.Keeps root input i b ts)
    (hp : Parser.parse i.text.toList = .ok (.block b ts)) (hx : x ∈ f.descendants root)
    (hplain : f.Plain n keep) (hn : x ∈ (f.outline n).preorder) {c : Char}
    (hc : c ∈ f.solidIn x "before" .before) : c = ';' := by
  rw [solidIn_of_contains (h.furnished hx).before] at hc
  by_cases hk : f.kind x = .declaration
  · exact hplain.marks x hn hk c hc
  · exact eq_semicolon_of_mem_solid (h.spaced hp hx hk).1 hc

/-- Below the node itself there are none of these. -/
theorem solidIn_before_below (h : f.Keeps root input i b ts)
    (hp : Parser.parse i.text.toList = .ok (.block b ts)) (hx : x ∈ f.descendants root)
    (hplain : f.Plain n keep) (hn : x ∈ f.descendants n) : f.solidIn x "before" .before = [] := by
  have hmem : x ∈ (f.outline n).preorder := by
    rw [preorder_eq]
    exact .tail _ hn
  apply List.eq_nil_iff_forall_not_mem.2
  intro c hc
  obtain rfl := eq_semicolon_of_mem_before h hp hx hplain hmem hc
  rw [solidIn_of_contains (h.furnished hx).before] at hc
  exact hplain.semicolons x hn hc

/-- The nodes in their new place, with those that they come from. -/
theorem Keeps.relocated_writesLike (hf : f.WellFormed) (h : f.Keeps root input i b ts)
    (hp : Parser.parse i.text.toList = .ok (.block b ts)) (hn : n ∈ f.descendants root)
    (hplain : f.Plain n keep) (hr : f.Relocates n C keep g m)
    (hs : g.Supplies (g.top m) f n keep) : n < f.size ∧ g.WellFormed ∧ m < g.size ∧
      ∃ t : Tree (NodeId × NodeId), t.map Prod.snd = f.outline n ∧ t.map Prod.fst = g.outline m ∧
        (∀ p ∈ t.preorder, f.WritesLike g p.2 p.1 ∧ f.kind p.2 ≠ .root) ∧
        (∀ p ∈ t.preorder, g.solidIn p.1 "before" .before = []) ∧
        ∀ p ∈ t.descendants, f.solidIn p.2 "before" .before = [] := by
  have hroot := lt_size_of_mem_descendants hn
  have hreach := (hf.mem_descendants_iff hroot).1 hn
  have hlt : n < f.size := by
    obtain ⟨p, -, hchild⟩ := TransGen.tail'_iff.1 hreach
    exact hf.lt_size hchild
  obtain ⟨hg, hmlt, t, hft, hgt, hres⟩ := hf.relocated hlt (hf.kind_ne_root hreach) hr
  have hold : ∀ p ∈ t.preorder, p.2 ∈ (f.outline n).preorder ∧ TransGen f.Child root p.2 := by
    intro p hpt
    have hmem : p.2 ∈ (f.outline n).preorder := by
      rw [← hft, preorder_map]
      exact List.mem_map_of_mem hpt
    refine ⟨hmem, hreach.trans_left ?_⟩
    rwa [mem_preorder_iff (hf.shows_outline hlt), label_outline] at hmem
  have htop : ∀ p ∈ t.preorder, g.top p.1 = g.top m := by
    intro p hpt
    have hmem : p.1 ∈ (g.outline m).preorder := by
      rw [← hgt, preorder_map]
      exact List.mem_map_of_mem hpt
    rw [mem_preorder_iff (hg.shows_outline hmlt), label_outline] at hmem
    exact hg.top_eq_of_reach hmem
  refine ⟨hlt, hg, hmlt, t, hft, hgt, fun p hpt => ?_, fun p hpt => ?_, fun p hpt => ?_⟩
  · obtain ⟨hmem, hbelow⟩ := hold p hpt
    refine ⟨?_, hf.kind_ne_root hbelow⟩
    exact (hres p hpt).writesLike h hp ((hf.mem_descendants_iff hroot).2 hbelow) hmem hplain
      (by rwa [htop p hpt])
  · obtain ⟨q, hparent⟩ := (hres p hpt).parent
    apply solidIn_before hparent (hres p hpt).before
    rw [htop p hpt]
    exact solid_indent hs.indent
  · have hmem : p ∈ t.preorder := by
      rw [preorder_eq]
      exact .tail _ hpt
    have hbelow : p.2 ∈ f.descendants n := by
      rw [Forest.descendants, ← hft, descendants_map]
      exact List.mem_map_of_mem hpt
    exact solidIn_before_below h hp ((hf.mem_descendants_iff hroot).2 (hold p hmem).2) hplain hbelow

/-- The first text is the second one, apart from semicolons before it and behind both. -/
def SameButSemicolons (xs ys : List Char) : Prop :=
  ∃ core k l l', xs = List.replicate k ';' ++ core ++ List.replicate l ';' ∧
    ys = core ++ List.replicate l' ';'

/-- **A node is printed in its new place as before**, apart from blanks, comments and the semicolons
around it, if cleaning drops nothing but layout and colons, and these are found again. -/
theorem Keeps.bare_relocated (hf : f.WellFormed) (h : f.Keeps root input i b ts)
    (hp : Parser.parse i.text.toList = .ok (.block b ts)) (hn : n ∈ f.descendants root)
    (hplain : f.Plain n keep) (hr : f.Relocates n C keep g m)
    (hs : g.Supplies (g.top m) f n keep) (hm : m ∈ g.descendants r) :
    ∃ xs ys, f.Writes root n xs ∧ g.Writes r m ys ∧
      SameButSemicolons (Strip.bare xs) (Strip.bare ys) := by
  obtain ⟨hlt, hg, hmlt, t, hft, hgt, halike, hnew, hbelow⟩ :=
    h.relocated_writesLike hf hp hn hplain hr hs
  obtain ⟨s, hwrites⟩ := hf.writes_share (lt_size_of_mem_descendants hn) hn
  obtain ⟨s', hwrites'⟩ := hg.writes_share (lt_size_of_mem_descendants hm) hm
  obtain ⟨l, hl⟩ := f.bare_share s n
  obtain ⟨l', hl'⟩ := g.bare_share s' m
  have hself : n ∈ (f.outline n).preorder := by
    rw [preorder_eq, label_outline]
    exact .head _
  -- before the node itself may have stood semicolons
  obtain ⟨k, hfront⟩ : ∃ k, f.solidIn n "before" .before = List.replicate k ';' :=
    ⟨_, List.eq_replicate_of_mem fun c hc => eq_semicolon_of_mem_before h hp hn hplain hself hc⟩
  have hempty : g.solidIn m "before" .before = [] := by
    have hlabel : t.label.1 = m := by
      rw [← label_map Prod.fst, hgt, label_outline]
    rw [← hlabel]
    apply hnew
    rw [preorder_eq]
    exact .head _
  have hbare := bare_scriptTree false t (by rw [hft]; exact hf.shows_outline hlt)
    (by rw [hgt]; exact hg.shows_outline hmlt) halike fun p hpt => by
      rw [hbelow p hpt]
      apply hnew
      rw [preorder_eq]
      exact .tail _ hpt
  rw [hft, hgt] at hbare
  refine ⟨f.share s n, g.share s' m, hwrites, hwrites',
    Strip.bare ((f.scriptTree false (f.outline n)).alone f), k, l, l', ?_, ?_⟩
  · rw [hl, hfront]
  · rw [hl', hempty, hbare, List.nil_append]

end

/-- A rule that is copied into another one: its blanks change, and the colon is that of the only
declaration. -/
theorem bare_relocated_copied : ∃ f g m,
    Forest.empty.parse .empty "a \x7b b : c; /* d */ \x7d\n@e f\x7b\x7d" none .auto = .ok (0, f) ∧
    f.Relocates 1 4 false g m ∧ f.Plain 1 false ∧ g.Supplies (g.top m) f 1 false ∧
    g.css 4 = "@e f\x7b\n a \x7b b : c; /* d */ \x7d\x7d" ∧
    ∃ xs ys, f.Writes 0 1 xs ∧ g.Writes 4 m ys ∧
      SameButSemicolons (Strip.bare xs) (Strip.bare ys) := by
  obtain ⟨_, f, hf, rfl, hn, hslot, g, hg, hm, hcss, hindent, hcolon, hsample⟩ : ∃ root f,
      Forest.empty.parse .empty "a \x7b b : c; /* d */ \x7d\n@e f\x7b\x7d" none .auto =
        .ok (root, f) ∧
      root = 0 ∧ 1 ∈ f.descendants 0 ∧
      (∀ x ∈ (f.outline 1).preorder, solid ((f.wording x).slot "before").toList = [] ∧
        solid ((f.wording x).slot "after").toList = [] ∧ (f.kind x = .declaration →
          solid ((f.wording x).slot "between").toList = [':'])) ∧
      ∃ g, (f.copy 1 { cleanRaws := true }).2.insert 4 .stop
          [(f.copy 1 { cleanRaws := true }).1] = .ok g ∧
        (f.copy 1 { cleanRaws := true }).1 ∈ g.descendants 4 ∧
        g.css 4 = "@e f\x7b\n a \x7b b : c; /* d */ \x7d\x7d" ∧
        let top := g.top (f.copy 1 { cleanRaws := true }).1
        solid ((g.rawText? top "indent").getD "").toList = [] ∧
        solid (g.sample top .colon).toText.toList = [':'] ∧
        ∀ a ∈ [Aspect.beforeOpen, .emptyBody, .commentLeft, .commentRight],
          solid (g.sample top a).toText.toList = [] := by
    decide +kernel
  obtain ⟨m, f', hcopy⟩ : ∃ m f', f.copy 1 { cleanRaws := true } = (m, f') := ⟨_, _, rfl⟩
  rw [hcopy] at hg hm hindent hcolon hsample
  have hbelow (x : NodeId) (hx : x ∈ f.descendants 1) : x ∈ (f.outline 1).preorder := by
    rw [preorder_eq]
    exact .tail _ hx
  have hplain : f.Plain 1 false :=
    { marks := fun x hx _ c hc => by
        rw [(hslot x hx).1] at hc
        cases hc
      semicolons := fun x hx hc => by
        rw [(hslot x (hbelow x hx)).1] at hc
        cases hc
      ends := fun x hx hc => by
        rw [(hslot x hx).2.1] at hc
        cases hc
      colons := fun _ x hx => (hslot x hx).2.2 }
  have hsupplies : g.Supplies (g.top m) f 1 false :=
    { indent := hindent
      examples := fun x _ slot a ha _ hafter => by
        cases ha with
        | before hne => exact absurd rfl hne
        | after => exact absurd rfl hafter
        | colon => exact hcolon
        | beforeOpen => exact hsample _ (by decide)
        | emptyBody => exact hsample _ (by decide)
        | left => exact hsample _ (by decide)
        | right => exact hsample _ (by decide) }
  have hr : f.Relocates 1 4 false g m := .copy hcopy hg
  obtain ⟨i, b, ts, -, -, -, -, hreads⟩ := parse_spec hf
  have hwf : f.WellFormed := wellFormed_empty.grown (grown_parse hf)
  exact ⟨f, g, m, hf, hr, hplain, hsupplies, hcss,
    hreads.keeps.bare_relocated hwf hreads.parsed hn hplain hr hsupplies hm⟩

/-- The mark of a hack stands before the property and is lost when the declaration is moved. -/
theorem not_bare_relocated : ¬ ∀ (text : String) (f g : Forest) (root n C m r : NodeId)
    (keep : Bool), Forest.empty.parse .empty text none .auto = .ok (root, f) →
      n ∈ f.descendants root → f.kind n ≠ .comment → f.Relocates n C keep g m →
      m ∈ g.descendants r → ∃ xs ys, f.Writes root n xs ∧ g.Writes r m ys ∧
        SameButSemicolons (Strip.bare xs) (Strip.bare ys) := by
  intro hall
  obtain ⟨_, f, hf, rfl, hn, hk, hmove, hm, hold, hold', hnew, hnew'⟩ : ∃ root f,
      Forest.empty.parse .empty "a\x7b*color:red\x7db\x7b\x7d" none .auto = .ok (root, f) ∧
      root = 0 ∧ 2 ∈ f.descendants 0 ∧ f.kind 2 ≠ .comment ∧
      (f.moveTo 2 3).2.toOption = some () ∧ 2 ∈ (f.moveTo 2 3).1.descendants 0 ∧
      '*' ∈ Strip.bare (f.share false 2) ∧ '*' ∈ Strip.bare (f.share true 2) ∧
      '*' ∉ Strip.bare ((f.moveTo 2 3).1.share false 2) ∧
      '*' ∉ Strip.bare ((f.moveTo 2 3).1.share true 2) := by
    decide +kernel
  cases hg : f.moveTo 2 3 with
  | mk g result =>
  rw [hg] at hmove hm hnew hnew'
  cases result with
  | error e => cases hmove
  | ok u =>
    obtain ⟨xs, ys, ⟨s, -, -, -, rfl⟩, ⟨s', -, -, -, rfl⟩, core, k, l, l', hxs, hys⟩ :=
      hall _ f g 0 2 3 2 0 _ hf hn hk (.move hg) hm
    have hstar : '*' ∈ Strip.bare (f.share s 2) := by
      cases s
      · exact hold
      · exact hold'
    have hlost : '*' ∉ Strip.bare (g.share s' 2) := by
      cases s'
      · exact hnew
      · exact hnew'
    rw [hys] at hlost
    rw [hxs] at hstar
    simp [List.mem_replicate] at hstar hlost
    exact hlost hstar

end Forest

end Stylesheet
