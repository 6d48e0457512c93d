import Stylesheet.Forest.Copy
import Stylesheet.Forest.Selectors
import Stylesheet.Proofs.Forest.Links
import Stylesheet.Proofs.ListValue.Items
import Stylesheet.Proofs.Parse.Declaration

/-!
# Setting the selectors of a rule

`selectors_setSelectors_iff` says when a rule has the selectors that were set: those that it had
before exactly if none but the last ends in a backslash and no empty one is lost (`Rejoins`), and
several others exactly if the separator that was found is commas and blanks.
-/

set_option autoImplicit false

namespace Stylesheet

open Stylesheet.Text Stylesheet.ListValue

namespace Forest

variable {f : Forest} {id : NodeId} {new : List String}

/-- The selectors of a rule, as characters. -/
theorem map_toList_selectors (f : Forest) (id : NodeId) : (f.selectors id).map String.toList =
    texts [','] true (f.data id).selector.toList := (map_ofList_eq_iff.1 rfl).symm

theorem selector_setSelectors (hk : f.kind id = .rule) (new : List String) :
    ((f.setSelectors id new).data id).selector = (f.selectorSeparator id).intercalate new := by
  have hlt : id < f.size := by
    apply Nat.lt_of_not_le
    intro hle
    rw [kind_of_le hle] at hk
    cases hk
  rw [data, setSelectors, modifyData, node_modify_self _ hlt]
  rw [kind, Node.kind] at hk
  cases hdata : (f.node id).data <;> rw [hdata] at hk <;> cases hk
  rfl

/-- **The selectors that are read** behind a change are the items of the joined text. -/
theorem selectors_setSelectors_eq_iff (hk : f.kind id = .rule) (new : List String) :
    (f.setSelectors id new).selectors id = new ↔
      texts [','] true ((f.selectorSeparator id).toList.intercalate (new.map String.toList)) =
        new.map String.toList := by
  rw [selectors, selector_setSelectors hk, comma, split_eq, map_ofList_eq_iff,
    String.toList_intercalate]

/-! ## Separators -/

/-- A separator is a comma and more. -/
theorem exists_selectorSeparator (f : Forest) (id : NodeId) :
    ∃ w, (f.selectorSeparator id).toList = ',' :: w := by
  unfold selectorSeparator
  split <;> exact ⟨_, String.toList_append⟩

/-- If the selector has a comma then the separator is one, and the blanks behind it. -/
theorem exists_selectorSeparator_of_comma (h : ',' ∈ (f.data id).selector.toList) :
    ∃ w, (f.selectorSeparator id).toList = ',' :: w ∧ IsFill [','] w := by
  unfold selectorSeparator
  split
  · next rest _ =>
    refine ⟨rest.takeWhile isBlank, ?_, isFill_comma (List.all_eq_true.1 List.all_takeWhile)⟩
    simp
  · next hnil =>
    exact absurd (of_decide_eq_true (List.dropWhile_eq_nil_iff.1 hnil _ h)) (by simp)

/-- A selector without a comma is the only one. -/
theorem map_toList_selectors_of_not_comma (h : ',' ∉ (f.data id).selector.toList) :
    ∃ s, (f.selectors id).map String.toList = [s] ∧ trimChars s = s ∧ Whole [','] .top s := by
  have hwhole : Whole [','] .top (f.data id).selector.toList := by
    intro front c rest he
    have hne : c ≠ ',' := by
      rintro rfl
      exact h (he ▸ by simp)
    simp [separates, hne]
  have htexts : texts [','] true (f.data id).selector.toList =
      [trimChars (f.data id).selector.toList] := by
    rw [texts_of_whole hwhole, if_pos (.inl rfl)]
  refine ⟨_, (map_toList_selectors f id).trans htexts, ?_⟩
  exact whole_of_mem_texts (htexts ▸ List.mem_singleton_self _)

/-! ## Setting them -/

/-- What selectors that were read from a rule need to be read again when they are set. -/
structure Rejoins (separator : String) (items : List String) : Prop where
  /-- The separator behind an item is not escaped. -/
  closed : ∀ s ∈ items.dropLast, (Nesting.top.read s.toList).escaped = false
  /-- Before its separator the first item leaves nothing to an empty piece. -/
  first : items.dropLast.head? ≠ some ""
  /-- The others have the blanks of the separator. -/
  inner : separator = "," → "" ∉ items.dropLast

theorem rejoins_iff {separator s : String} {ss : List String} {w : List Char}
    (hsep : separator.toList = ',' :: w)
    (hends : ∀ x ∈ ((s :: ss).map String.toList).dropLast,
      Nesting.top.read x = .top ∨ Nesting.top.read x = .escape) :
    Rejoins separator (s :: ss) ↔
      (∀ x ∈ ((s :: ss).map String.toList).dropLast, Nesting.top.read x = .top) ∧
        ∀ x ∈ (s.toList :: (ss.map String.toList).map (w ++ ·)).dropLast, x ≠ [] := by
  have hw : separator = "," ↔ w = [] := by
    rw [← String.toList_inj, hsep]
    simp
  have hclosed : (∀ x ∈ (s :: ss).dropLast, (Nesting.top.read x.toList).escaped = false) ↔
      ∀ x ∈ ((s :: ss).map String.toList).dropLast, Nesting.top.read x = .top := by
    rw [← List.map_dropLast] at hends ⊢
    rw [List.forall_mem_map] at hends ⊢
    refine forall₂_congr fun x hx => ?_
    rcases hends x hx with h | h <;> rw [h] <;> decide
  cases ss with
  | nil => exact ⟨fun h => ⟨hclosed.1 h.closed, nofun⟩, fun h => ⟨hclosed.2 h.1, nofun, nofun⟩⟩
  | cons s' ss =>
    have hinner : (∀ x ∈ ((s' :: ss).map (w ++ ·.toList)).dropLast, x ≠ []) ↔
        (w = [] → "" ∉ (s' :: ss).dropLast) := by
      rw [← List.map_dropLast, List.forall_mem_map]
      constructor
      · rintro h rfl hmem
        exact h "" hmem rfl
      · rintro h x hx he
        obtain ⟨hnil, hx'⟩ := List.append_eq_nil_iff.1 he
        exact h hnil (String.toList_eq_nil_iff.1 hx' ▸ hx)
    have hpieces : (∀ x ∈ (s.toList :: ((s' :: ss).map String.toList).map (w ++ ·)).dropLast,
        x ≠ []) ↔ s ≠ "" ∧ (w = [] → "" ∉ (s' :: ss).dropLast) := by
      rw [← hinner, List.map_map, List.map_cons, List.dropLast_cons_cons, List.forall_mem_cons,
        Ne, String.toList_eq_nil_iff]
      rfl
    rw [hpieces]
    constructor
    · intro h
      have hne : s ≠ "" := fun he => h.first (he ▸ rfl)
      exact ⟨hclosed.1 h.closed, hne, fun hnil hmem => h.inner (hw.2 hnil) (.tail _ hmem)⟩
    · rintro ⟨hall, hne, hmem⟩
      refine ⟨hclosed.2 hall, fun he => hne (Option.some.inj he), fun he => ?_⟩
      rw [List.dropLast_cons_cons, List.mem_cons, not_or]
      exact ⟨hne.symm, hmem (hw.1 he)⟩

/-- **Which selectors are read again** when they are set. -/
theorem selectors_setSelectors_selectors_iff (hk : f.kind id = .rule) :
    (f.setSelectors id (f.selectors id)).selectors id = f.selectors id ↔
      Rejoins (f.selectorSeparator id) (f.selectors id) := by
  rw [selectors_setSelectors_eq_iff hk]
  by_cases hcomma : ',' ∈ (f.data id).selector.toList
  · obtain ⟨w, hsep, hw⟩ := exists_selectorSeparator_of_comma hcomma
    have hitems : AreItems [','] ((f.selectors id).map String.toList) :=
      map_toList_selectors f id ▸ .of_texts ..
    have htrim : ∀ x ∈ (f.selectors id).map String.toList, trimChars x = x := by
      rw [map_toList_selectors]
      exact fun x hx => (whole_of_mem_texts hx).1
    cases hsels : f.selectors id with
    | nil =>
      have hnil := map_toList_selectors f id
      rw [hsels] at hnil
      exact (texts_ne_nil _ _ hnil.symm).elim
    | cons s ss =>
      rw [hsels] at hitems htrim
      rw [rejoins_iff hsep hitems.ends, hsep]
      exact hitems.texts_join_iff htrim separates_comma hw (b := []) nofun
  · obtain ⟨s, hsels, htrim, hwhole⟩ := map_toList_selectors_of_not_comma hcomma
    rw [hsels, List.intercalate_singleton, texts_of_whole hwhole, if_pos (.inl rfl), htrim]
    obtain ⟨t, ht, -⟩ := List.map_eq_singleton_iff.1 hsels
    exact iff_of_true rfl (ht ▸ ⟨nofun, nofun, nofun⟩)

/-- **Which lists of items are read back** when they are set. -/
theorem selectors_setSelectors_items_iff (hk : f.kind id = .rule) (hne : new ≠ [])
    (hnew : ∀ s ∈ new, IsItem [','] s.toList) :
    (f.setSelectors id new).selectors id = new ↔
      new.length = 1 ∨ IsPadding (f.selectorSeparator id).toList := by
  obtain ⟨w, hsep⟩ := exists_selectorSeparator f id
  have hpadding : IsPadding (',' :: w) ↔ IsPadding w := by simp [IsPadding]
  rw [selectors_setSelectors_eq_iff hk, hsep, hpadding]
  cases new with
  | nil => exact absurd rfl hne
  | cons s ss =>
    rw [List.map_cons, texts_comma_join_iff (by simpa using hnew)]
    simp

/-- **Setting the selectors of a rule.** Those that it has are kept exactly if they can be joined
again; a list of others is read back exactly if it has one member or the separator, which the rule
had before or which stands before an opening brace, is commas and blanks. -/
theorem selectors_setSelectors_iff (hk : f.kind id = .rule) :
    ((f.setSelectors id (f.selectors id)).selectors id = f.selectors id ↔
      Rejoins (f.selectorSeparator id) (f.selectors id)) ∧
    ∀ new : List String, new ≠ [] → (∀ s ∈ new, IsItem [','] s.toList) →
      ((f.setSelectors id new).selectors id = new ↔
        new.length = 1 ∨ IsPadding (f.selectorSeparator id).toList) :=
  ⟨selectors_setSelectors_selectors_iff hk, fun _ => selectors_setSelectors_items_iff hk⟩

/-- The selectors of a rule are kept, and others are joined as they were. -/
theorem selectors_setSelectors_iff_parsed : ∃ f : Forest,
    Forest.empty.parse .empty "a,\n b:not(c, d)\x7b\x7d" none .auto = .ok (0, f) ∧
      f.kind 1 = .rule ∧ f.selectors 1 = ["a", "b:not(c, d)"] ∧
      (f.setSelectors 1 (f.selectors 1)).selectors 1 = f.selectors 1 ∧
      (∀ s ∈ ["e\\,f", "[g=\",\"]"], IsItem [','] s.toList) ∧
      (f.setSelectors 1 ["e\\,f", "[g=\",\"]"]).selectors 1 = ["e\\,f", "[g=\",\"]"] := by
  obtain ⟨_, f, hf, rfl, hk, hsels, hsep⟩ : ∃ root f,
      Forest.empty.parse .empty "a,\n b:not(c, d)\x7b\x7d" none .auto = .ok (root, f) ∧
      root = 0 ∧ f.kind 1 = .rule ∧ f.selectors 1 = ["a", "b:not(c, d)"] ∧
      f.selectorSeparator 1 = ",\n " := by
    decide +kernel
  obtain ⟨hold, hnew⟩ := selectors_setSelectors_iff hk
  have hrejoins : Rejoins (f.selectorSeparator 1) (f.selectors 1) := by
    rw [hsels, hsep]
    exact ⟨by decide, by decide, fun h => absurd h (by decide)⟩
  have hitems : ∀ s ∈ ["e\\,f", "[g=\",\"]"], IsItem [','] s.toList := by
    decide +kernel
  have hpadding : IsPadding (f.selectorSeparator 1).toList := by
    rw [hsep]
    decide
  exact ⟨f, hf, hk, hsels, hold.2 hrejoins, hitems,
    (hnew _ (List.cons_ne_nil _ _) hitems).2 (.inr hpadding)⟩

/-- An escaped blank is trimmed away behind its backslash, which then escapes the comma; and the
comment before the brace gets into the separator. -/
theorem not_selectors_setSelectors :
    (¬ ∀ (text : String) (f : Forest) (root id : NodeId),
      Forest.empty.parse .empty text none .auto = .ok (root, f) → id ∈ f.descendants root →
        f.kind id = .rule → (f.setSelectors id (f.selectors id)).selectors id = f.selectors id) ∧
    ¬ ∀ (text : String) (f : Forest) (root id : NodeId) (new : List String),
      Forest.empty.parse .empty text none .auto = .ok (root, f) → id ∈ f.descendants root →
        f.kind id = .rule → new ≠ [] → (∀ s ∈ new, IsItem [','] s.toList) →
          (f.setSelectors id new).selectors id = new := by
  constructor
  · intro hall
    obtain ⟨root, f, hf, hmem, hk, hne⟩ : ∃ root f,
        Forest.empty.parse .empty "a\\ ,b\x7b\x7d" none .auto = .ok (root, f) ∧
        1 ∈ f.descendants root ∧ f.kind 1 = .rule ∧
        (f.setSelectors 1 (f.selectors 1)).selectors 1 ≠ f.selectors 1 := by
      decide +kernel
    exact hne (hall _ f root 1 hf hmem hk)
  · intro hall
    obtain ⟨root, f, hf, hmem, hk, hne⟩ : ∃ root f,
        Forest.empty.parse .empty "a/*x*/\x7b\x7d" none .auto = .ok (root, f) ∧
        1 ∈ f.descendants root ∧ f.kind 1 = .rule ∧
        (f.setSelectors 1 ["b", "c"]).selectors 1 ≠ ["b", "c"] := by
      decide +kernel
    exact hne (hall _ f root 1 ["b", "c"] hf hmem hk (by simp) (by decide +kernel))

end Forest

end Stylesheet
