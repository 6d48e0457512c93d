import Stylesheet.Proofs.Print.Formatted

/-!
# The order of pieces

`mem_preorder_of_mem_pieces`: the pieces of a tree belong to its nodes. `exists_first_piece`: every
node of a tree has a first piece, which is no end of a block, and before it stand only pieces of
other nodes.
-/

set_option autoImplicit false

namespace Stylesheet

variable {α β γ ι : Type}

namespace Tree

mutual

theorem map_map (h : β → γ) (g : α → β) : (t : Tree α) → (t.map g).map h = t.map (h ∘ g)
  | .leaf a => rfl
  | .block a ts => by simp [map, mapAll_mapAll h g ts]

theorem mapAll_mapAll (h : β → γ) (g : α → β) : (ts : List (Tree α)) →
    mapAll h (mapAll g ts) = mapAll (h ∘ g) ts
  | [] => rfl
  | t :: ts => by simp [mapAll, map_map h g t, mapAll_mapAll h g ts]

end

mutual

theorem map_id : (t : Tree α) → t.map id = t
  | .leaf a => rfl
  | .block a ts => by simp [map, mapAll_id ts]

theorem mapAll_id : (ts : List (Tree α)) → mapAll id ts = ts
  | [] => rfl
  | t :: ts => by simp [mapAll, map_id t, mapAll_id ts]

end

mutual

theorem preorder_map (g : α → β) : (t : Tree α) → (t.map g).preorder = t.preorder.map g
  | .leaf a => rfl
  | .block a ts => by simp [map, preorder, preorderAll_mapAll g ts]

theorem preorderAll_mapAll (g : α → β) : (ts : List (Tree α)) →
    preorderAll (mapAll g ts) = (preorderAll ts).map g
  | [] => rfl
  | t :: ts => by simp [mapAll, preorderAll, preorder_map g t, preorderAll_mapAll g ts]

end

theorem descendants_map (g : α → β) (t : Tree α) :
    (t.map g).descendants = t.descendants.map g := by
  cases t with
  | leaf a => rfl
  | block a ts => exact preorderAll_mapAll g ts

theorem node_of_mem_gap {text : String} {x : Piece α} (h : x ∈ (Piece.gap text : List (Piece α))) :
    x.node = none := by
  unfold Piece.gap at h
  split at h
  · cases h
  · rw [List.mem_singleton.1 h]

theorem node_of_mem_ending {w : α → Wording} {a : α} {x : Piece α} (h : x ∈ ending w a) :
    x.node = none ∨ x.node = some a := by
  rcases List.mem_append.1 h with h | h
  · exact .inl (node_of_mem_gap h)
  · rcases List.mem_cons.1 h with rfl | h
    · exact .inr rfl
    · split at h
      · cases h
      · rw [List.mem_singleton.1 h]
        exact .inr rfl

mutual

/-- Pieces belong to the nodes of the tree. -/
theorem mem_preorder_of_mem_pieces {w : α → Wording} {x : Piece α} {b : α} (hb : x.node = some b) :
    {s v : Bool} → (t : Tree α) → x ∈ t.pieces w s v → b ∈ t.preorder
  | s, v, .leaf a, h => by
    rw [pieces, List.mem_singleton] at h
    rw [h] at hb
    cases hb
    simp [preorder]
  | s, v, .block a ts, h => by
    have hinner := mem_preorderAll_of_mem_pieces (w := w) hb (s := (w a).closed)
      (v := (w a).closed) ts
    rw [preorder, List.mem_cons]
    unfold pieces at h
    split at h
    · rcases List.mem_append.1 h with h | h
      · exact .inr (hinner h)
      · rw [node_of_mem_gap h] at hb
        cases hb
    · rcases List.mem_append.1 h with h | h
      · rcases List.mem_cons.1 h with rfl | h
        · cases hb
          exact .inl rfl
        · exact .inr (hinner h)
      · rcases node_of_mem_ending h with he | he
        · rw [he] at hb
          cases hb
        · rw [he] at hb
          cases hb
          exact .inl rfl

theorem mem_preorderAll_of_mem_pieces {w : α → Wording} {x : Piece α} {b : α}
    (hb : x.node = some b) : {s v : Bool} → (ts : List (Tree α)) → x ∈ piecesAll w s v ts →
    b ∈ preorderAll ts
  | _, _, [], h => by cases h
  | s, v, t :: ts, h => by
    rw [piecesAll, List.mem_append, List.mem_append] at h
    rw [preorderAll, List.mem_append]
    rcases h with (h | h) | h
    · rw [node_of_mem_gap h] at hb
      cases hb
    · exact .inl (mem_preorder_of_mem_pieces hb t h)
    · exact .inr (mem_preorderAll_of_mem_pieces hb ts h)

end

/-- Among the pieces, `b` has a first one, which opens it. -/
def HasFirst (key : α → ι) (b : α) (xs : List (Piece α)) : Prop :=
  ∃ before x behind, xs = before ++ x :: behind ∧ x.node = some b ∧ x.role ≠ some .stop ∧
    ∀ y ∈ before, ∀ c, y.node = some c → key c ≠ key b

theorem HasFirst.append {key : α → ι} {b : α} {xs : List (Piece α)} (h : HasFirst key b xs)
    (ys : List (Piece α)) : HasFirst key b (xs ++ ys) := by
  obtain ⟨before, x, behind, rfl, hn, hr, hb⟩ := h
  exact ⟨before, x, behind ++ ys, by simp, hn, hr, hb⟩

theorem HasFirst.prepend {key : α → ι} {b : α} {xs ys : List (Piece α)} (h : HasFirst key b xs)
    (hy : ∀ y ∈ ys, ∀ c, y.node = some c → key c ≠ key b) : HasFirst key b (ys ++ xs) := by
  obtain ⟨before, x, behind, rfl, hn, hr, hb⟩ := h
  refine ⟨ys ++ before, x, behind, by simp, hn, hr, fun y hmem => ?_⟩
  rcases List.mem_append.1 hmem with hmem | hmem
  · exact hy y hmem
  · exact hb y hmem

mutual

/-- Every node but a root has a first piece. -/
theorem exists_first_piece {w : α → Wording} (key : α → ι) {b : α} (hroot : (w b).data ≠ .root) :
    {s v : Bool} → (t : Tree α) → (t.preorder.map key).Nodup → b ∈ t.preorder →
    HasFirst key b (t.pieces w s v)
  | s, v, .leaf a, hd, hb => by
    rw [preorder, List.mem_singleton] at hb
    rw [hb, pieces]
    exact ⟨[], _, [], rfl, rfl, by simp, by simp⟩
  | s, v, .block a ts, hd, hb => by
    simp only [preorder, List.map_cons, List.nodup_cons] at hd
    rw [preorder, List.mem_cons] at hb
    have hinner := exists_first_pieceAll key hroot (s := (w a).closed) (v := (w a).closed) ts hd.2
    have hne : b ∈ preorderAll ts → key a ≠ key b := by
      intro h he
      exact hd.1 (he ▸ List.mem_map_of_mem h)
    unfold pieces
    split
    · next hdata =>
      rcases hb with rfl | hb
      · exact absurd hdata hroot
      · exact (hinner hb).append _
    · rcases hb with rfl | hb
      · exact ⟨[], _, _, rfl, rfl, by simp [opening], by simp⟩
      · have hopening : ∀ y ∈ [opening w a], ∀ c, y.node = some c → key c ≠ key b := by
          intro y hy c hc
          rw [List.mem_singleton.1 hy] at hc
          cases hc
          exact hne hb
        exact ((hinner hb).prepend hopening).append _

theorem exists_first_pieceAll {w : α → Wording} (key : α → ι) {b : α} (hroot : (w b).data ≠ .root) :
    {s v : Bool} → (ts : List (Tree α)) → ((preorderAll ts).map key).Nodup → b ∈ preorderAll ts →
    HasFirst key b (piecesAll w s v ts)
  | s, v, [], _, hb => by cases hb
  | s, v, t :: ts, hd, hb => by
    rw [preorderAll, List.map_append, List.nodup_append] at hd
    rw [preorderAll, List.mem_append] at hb
    have hgap : ∀ {text : String}, ∀ y ∈ (Piece.gap text : List (Piece α)), ∀ c, y.node = some c →
        key c ≠ key b := by
      intro text y hy c hc
      rw [node_of_mem_gap hy] at hc
      cases hc
    rw [piecesAll]
    by_cases ht : b ∈ t.preorder
    · exact ((exists_first_piece key hroot t hd.1 ht).prepend hgap).append _
    · have hts := hb.resolve_left ht
      refine (exists_first_pieceAll key hroot ts hd.2.1 hts).prepend fun y hy c hc => ?_
      rcases List.mem_append.1 hy with hy | hy
      · exact hgap y hy c hc
      · exact hd.2.2 _ (List.mem_map_of_mem (mem_preorder_of_mem_pieces hc t hy)) _
          (List.mem_map_of_mem hts)

end

mutual

/-- A comment is a single piece. -/
theorem text_of_isComment {w : α → Wording} {x : Piece α} {b : α} (hb : x.node = some b)
    (hc : (w b).data.kind = .comment) : {s v : Bool} → (t : Tree α) → t.Formatted w →
    x ∈ t.pieces w s v → x.text = (w b).leaf false
  | s, v, .leaf a, hf, hx => by
    have hleaf := pieces_of_isComment (w := w) (t := .leaf a) hf
    rw [pieces, List.mem_singleton] at hx
    rw [hx] at hb ⊢
    cases hb
    have := hleaf (decide_eq_true hc) s v false v
    simpa only [pieces, List.cons.injEq, Piece.mk.injEq, and_true] using this
  | s, v, .block a ts, hf, hx => by
    have hne : (w a).data.kind ≠ .comment := by
      rcases hf.1.data with hk | hk <;> simp [hk]
    rw [pieces_of_blockFormatted hf.1] at hx
    rcases List.mem_append.1 hx with hx | hx
    · rcases List.mem_cons.1 hx with rfl | hx
      · cases hb
        exact absurd hc hne
      · exact text_of_isCommentAll hb hc ts hf.2.2 hx
    · rcases node_of_mem_ending hx with he | he
      · rw [he] at hb
        cases hb
      · rw [he] at hb
        cases hb
        exact absurd hc hne

theorem text_of_isCommentAll {w : α → Wording} {x : Piece α} {b : α} (hb : x.node = some b)
    (hc : (w b).data.kind = .comment) : {s v : Bool} → (ts : List (Tree α)) → FormattedAll w ts →
    x ∈ piecesAll w s v ts → x.text = (w b).leaf false
  | _, _, [], _, hx => by cases hx
  | s, v, t :: ts, hf, hx => by
    rw [piecesAll, List.mem_append, List.mem_append] at hx
    rcases hx with (hx | hx) | hx
    · rw [node_of_mem_gap hx] at hb
      cases hb
    · exact text_of_isComment hb hc t hf.1 hx
    · exact text_of_isCommentAll hb hc ts hf.2 hx

end

end Tree

end Stylesheet
