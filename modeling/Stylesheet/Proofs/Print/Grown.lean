import Stylesheet.Proofs.Forest.Appended
import Stylesheet.Proofs.Parse.Grown
import Stylesheet.Proofs.Print.Parts

/-!
# Printing a tree with a new node

A tree that was read, with a new statement behind the children of one of its blocks, is printed as
the tokens of a tree of parts that has grown in the same way (`Appends.exists_grownAll`): the nodes
that were there are printed as before, but for a semicolon behind the statement before the new one.
-/

set_option autoImplicit false

namespace Stylesheet

open Stylesheet.Tree

namespace Tree

variable {d t t' : Tree Part} {ts ts' : List (Tree Part)} {semicolon : Bool} {a : Part}

theorem Grown.isSolid (h : Grown d t t') : t'.isSolid = t.isSolid := by
  cases t with
  | leaf a =>
    obtain rfl : t' = .leaf a := h
    rfl
  | block a ts => obtain ⟨_, -, rfl | ⟨-, rfl⟩⟩ := h <;> rfl

theorem GrownAll.any_isSolid (h : GrownAll d ts ts') :
    ts'.any Tree.isSolid = ts.any Tree.isSolid := by
  induction ts generalizing ts' with
  | nil =>
    obtain rfl : ts' = [] := h
    rfl
  | cons t ts ih =>
    obtain ⟨u, us, rfl, hu, hus⟩ := h
    rw [List.any_cons, List.any_cons, hu.isSolid, ih hus]

/-- The semicolons stay where they are. -/
theorem GrownAll.flagged (h : GrownAll d ts ts') (hf : Flagged semicolon ts) :
    Flagged semicolon ts' := by
  induction ts generalizing ts' with
  | nil =>
    obtain rfl : ts' = [] := h
    trivial
  | cons t ts ih =>
    obtain ⟨u, us, rfl, hu, hus⟩ := h
    refine ⟨fun a ha => ?_, ih hus hf.2⟩
    subst ha
    rw [hus.any_isSolid, hu.isSolid]
    cases t with
    | leaf b =>
      obtain rfl : a = b := Tree.leaf.inj hu
      exact hf.1 a rfl
    | block b ts => obtain ⟨_, -, he | ⟨-, he⟩⟩ := hu <;> cases he

/-- All statements before the last one end in semicolons. -/
theorem Flagged.push (h : Flagged semicolon ts) (hk : a.data.kind ≠ .comment) :
    Flagged a.closed (ts.map close ++ [.leaf a]) := by
  have hsolid : isSolid (.leaf a) = true := isSolid_iff.2 hk
  induction ts with
  | nil =>
    refine ⟨?_, trivial⟩
    rintro _ ⟨⟩
    rw [hsolid, List.any_nil, Bool.or_false, Bool.true_and]
  | cons t ts ih =>
    rw [List.map_cons, List.cons_append]
    refine ⟨fun b hb => ?_, ih h.2⟩
    have hany : (ts.map close ++ [leaf a]).any isSolid = true := by simp [hsolid]
    rw [hany, Bool.or_true, Bool.and_true]
    cases t with
    | leaf c =>
      obtain rfl : c.close = b := Tree.leaf.inj hb
      have hopen := h.1 c rfl
      show c.close.closed = decide (c.close.data.kind ≠ .comment)
      unfold Part.close
      split
      · next hc => simp [hopen, isSolid, label, hc]
      · next hc => exact (decide_eq_true hc).symm
    | block c ts => cases hb

end Tree

namespace Forest

variable {f g : Forest} {P id : NodeId} {data : NodeData} {a D : Part}
  {us : List (Tree (NodeId × Part))}

theorem PrintsLeaf.close (h : f.PrintsLeaf id a) : f.PrintsLeaf id a.close := by
  unfold Part.close
  split
  · exact h
  · exact ⟨h.data, h.kind, h.hasBlock, h.text⟩

/-- A semicolon behind a statement is not printed as a part of it. -/
theorem PrintsAll.exists_close (h : f.PrintsAll us) : ∃ us', f.PrintsAll us' ∧
    mapAll Prod.fst us' = mapAll Prod.fst us ∧
    mapAll Prod.snd us' = (mapAll Prod.snd us).map Tree.close := by
  induction us with
  | nil => exact ⟨[], trivial, rfl, rfl⟩
  | cons u us ih =>
    obtain ⟨us', hus', hfst, hsnd⟩ := ih h.2
    cases u with
    | leaf b =>
      refine ⟨.leaf (b.1, b.2.close) :: us', ⟨PrintsLeaf.close h.1, hus'⟩, ?_, ?_⟩
      · rw [mapAll, mapAll, hfst]
        rfl
      · rw [mapAll, mapAll, hsnd]
        rfl
    | block b ts =>
      refine ⟨.block b ts :: us', ⟨h.1, hus'⟩, ?_, ?_⟩
      · rw [mapAll, mapAll, hfst]
      · rw [mapAll, mapAll, hsnd]
        rfl

/-- The nodes of the tree are there, with what was read of them. -/
def Knows (f : Forest) (as : List (NodeId × Part)) : Prop :=
  ∀ b ∈ as, b.1 < f.size ∧ f.data b.1 = b.2.node.data ∧ f.raws b.1 = b.2.node.raws

/-- The statement `D` is what is printed of the new node behind the children of `P`. A semicolon
can be put behind each of these. -/
structure Places (f g : Forest) (P : NodeId) (D : Part) : Prop where
  block : (f.node P).hasBlock = true
  prints : g.PrintsLeaf f.size D
  kind : D.data.kind ≠ .comment
  closed : D.closed = (g.resolve P "semicolon" .semicolon).isTruthy
  unescaped : ∀ x ∈ f.children P, (g.node x).hasBlock = false →
    ((g.resolve x "before" .before).toText ++ g.stem x).toList.getLast? ≠ some '\\'

namespace Appends

theorem hasBlock_eq (hg : Appends f g P data) (hP : (f.node P).hasBlock = true) {x : NodeId}
    (hx : x < f.size) : (g.node x).hasBlock = (f.node x).hasBlock := by
  by_cases he : x = P
  · rw [he, hP, Node.hasBlock, hg.children]
    rfl
  · rw [hg.node x hx he]

/-- The new node behind the children of its container. -/
theorem exists_pushed (hd : Places f g P D) {semicolon : Bool} (h : g.PrintsAll us)
    (hf : Flagged semicolon (mapAll Prod.snd us)) : ∃ us', g.PrintsAll us' ∧
    Flagged (g.resolve P "semicolon" .semicolon).isTruthy (mapAll Prod.snd us') ∧
    mapAll Prod.fst us' = mapAll Prod.fst us ++ [.leaf f.size] ∧
    mapAll Prod.snd us' = (mapAll Prod.snd us).map Tree.close ++ [.leaf D] := by
  obtain ⟨us', hus', hfst, hsnd⟩ := h.exists_close
  have hall : g.PrintsAll (us' ++ [.leaf (f.size, D)]) := by
    clear hfst hsnd
    induction us' with
    | nil => exact ⟨hd.prints, trivial⟩
    | cons u us' ih => exact ⟨hus'.1, ih hus'.2⟩
  have happend : ∀ {β : Type} (k : NodeId × Part → β), mapAll k (us' ++ [.leaf (f.size, D)]) =
      mapAll k us' ++ [.leaf (k (f.size, D))] := by
    intro β k
    simp [mapAll_eq, Tree.map]
  refine ⟨_, hall, ?_, by rw [happend, hfst], by rw [happend, hsnd]⟩
  rw [happend, hsnd, ← hd.closed]
  exact hf.push hd.kind

/-- Where what is printed of the children ends in no backslash, their tokens do not either. -/
theorem unescaped (hd : Places f g P D) (h : g.PrintsAll us)
    (hchildren : ∀ u ∈ us, u.label.1 ∈ f.children P) : Unescaped (mapAll Prod.snd us) := by
  induction us with
  | nil => nofun
  | cons u us ih =>
    obtain ⟨hu, hus⟩ := List.forall_mem_cons.1 hchildren
    intro a ha hopen s hs hlast
    rcases List.mem_cons.1 ha with ha | ha
    · cases u with
      | block b ts => cases ha
      | leaf b =>
        obtain rfl : a = b.2 := Tree.leaf.inj ha
        have hleaf : g.PrintsLeaf b.1 b.2 := h.1
        refine hd.unescaped b.1 hu hleaf.hasBlock ?_
        obtain ⟨body, hbody⟩ := List.getLast?_eq_some_iff.1 hs
        rw [hleaf.text, hbody, Spelling.chars_append, Spelling.chars_append, ← List.append_assoc,
          List.getLast?_append]
        simp [hlast]
    · exact ih h.2 hus a ha hopen s hs hlast

mutual

/-- **A tree that grows** is printed as the tokens of its parts, which grow as well. -/
theorem exists_grown (hg : Appends f g P data) (hd : Places f g P D) :
    {t : Tree (NodeId × Part)} → f.Shows (t.map Prod.fst) → f.Knows t.preorder →
    (t.map Prod.snd).Formatted (·.node.wording) → (t.map Prod.snd).Printed →
    ∃ u : Tree (NodeId × Part), g.PrintsTree u ∧ u.label.1 = t.label.1 ∧
      u.map Prod.fst = push (· = P) (.leaf f.size) (t.map Prod.fst) ∧
      Tree.Grown (.leaf D) (t.map Prod.snd) (u.map Prod.snd)
  | .leaf a, hs, hk, hf, hp => by
    obtain ⟨hlt, hdata, hraws⟩ := hk a (by simp [preorder])
    have hblock : (f.node a.1).hasBlock = false := by
      rw [Node.hasBlock, show (f.node a.1).children = none from hs]
      rfl
    refine ⟨.leaf a, ?_, rfl, rfl, rfl⟩
    exact printsLeaf_of_read ((hg.data_eq hlt).trans hdata) ((hg.raws_eq hlt).trans hraws)
      ((hg.hasBlock_eq hd.block hlt).trans hblock) hf hp
  | .block a ts, hs, hk, hf, hp => by
    rw [map, Shows] at hs
    obtain ⟨hids, hall⟩ := hs
    rw [preorder] at hk
    obtain ⟨⟨hlt, hdata, hraws⟩, hknows⟩ := List.forall_mem_cons.1 hk
    obtain ⟨hblockf, hsemicolon, hformatted⟩ := hf
    obtain ⟨hblockp, hflagged, hprinted⟩ := hp
    have hblock : (f.node a.1).hasBlock = true := by
      rw [Node.hasBlock, hids]
      rfl
    obtain ⟨us, hus, hlabels, hfst, hgrown⟩ := exists_grownAll hg hd hall hknows hformatted hprinted
    have hprints (isEmpty : Bool) : g.PrintsBlock a.1 a.2 isEmpty :=
      printsBlock_of_read ((hg.data_eq hlt).trans hdata) ((hg.raws_eq hlt).trans hraws)
        ((hg.hasBlock_eq hd.block hlt).trans hblock) hblockf hblockp isEmpty
    have hflagged := hgrown.flagged hflagged
    by_cases ha : a.1 = P
    · obtain ⟨us', hus', hflag, hfst', hsnd⟩ := exists_pushed hd hus hflagged
      have hchildren : ∀ u ∈ us, u.label.1 ∈ f.children P := by
        have hlabel : us.map (·.label.1) = f.children P := by
          rw [hlabels, ← ha, children_of_block hids, map_label_fst]
        exact fun u hu => hlabel ▸ List.mem_map_of_mem hu
      refine ⟨.block a us', ⟨hprints _, ha ▸ hflag, hus'⟩, rfl, ?_, _, hgrown,
        .inr ⟨unescaped hd hus hchildren, ?_⟩⟩
      · rw [map, map, push, if_pos (by simpa using ha), hfst', hfst]
      · rw [map, hsnd]
    · refine ⟨.block a us, ⟨hprints _, ?_, hus⟩, rfl, ?_, _, hgrown, .inl rfl⟩
      · refine flagged_of_read (w := a.2.node.wording) ((hg.raws_eq hlt).trans hraws)
          (fun hne => hsemicolon ?_) hflagged
        rintro hnil
        obtain rfl : ts = [] := by simpa [mapAll_eq] using hnil
        obtain rfl : us = [] := by simpa using hlabels
        exact hne rfl
      · rw [map, map, push, if_neg (by simpa using ha), hfst]

theorem exists_grownAll (hg : Appends f g P data) (hd : Places f g P D) :
    {ts : List (Tree (NodeId × Part))} → f.ShowsAll (mapAll Prod.fst ts) →
    f.Knows (preorderAll ts) → FormattedAll (·.node.wording) (mapAll Prod.snd ts) →
    PrintedAll (mapAll Prod.snd ts) →
    ∃ us : List (Tree (NodeId × Part)), g.PrintsAll us ∧
      us.map (·.label.1) = ts.map (·.label.1) ∧
      mapAll Prod.fst us = pushAll (· = P) (.leaf f.size) (mapAll Prod.fst ts) ∧
      GrownAll (.leaf D) (mapAll Prod.snd ts) (mapAll Prod.snd us)
  | [], _, _, _, _ => ⟨[], trivial, rfl, rfl, rfl⟩
  | t :: ts, hs, hk, hf, hp => by
    obtain ⟨hkt, hkts⟩ := List.forall_mem_append.1 hk
    obtain ⟨u, hu, hlabel, hfst, hgrown⟩ := exists_grown hg hd hs.1 hkt hf.1 hp.1
    obtain ⟨us, hus, hlabels, hfsts, hgrowns⟩ := exists_grownAll hg hd hs.2 hkts hf.2 hp.2
    refine ⟨u :: us, ⟨hu, hus⟩, ?_, ?_, u.map Prod.snd, mapAll Prod.snd us, rfl, hgrown, hgrowns⟩
    · rw [List.map_cons, List.map_cons, hlabel, hlabels]
    · rw [mapAll, mapAll, pushAll, hfst, hfsts]

end

end Appends

end Forest

end Stylesheet
