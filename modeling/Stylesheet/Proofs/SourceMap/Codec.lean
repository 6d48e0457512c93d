import Stylesheet.Proofs.Json.RoundTrip
import Stylesheet.Proofs.SourceMap.Vlq
import Stylesheet.SourceMap.Reader
import Stylesheet.SourceMap.Writer
import Mathlib.Data.List.Destutter

/-!
# Source maps read back

`SourceMap.parse?_write`: a map that is written is read back, except that a token which repeats the
one before it is written once. The tokens have to be in order and to fit: numbers of 32 bits, and
only sources and names that there are (`Writable`).

The writer goes from token to token and the reader from line to line. `ReadsOn` says what the two
have in common behind a token: what is still written is the rest of its line and the lines below,
and the reader reads both as the tokens that are left.
-/

set_option autoImplicit false

namespace Stylesheet

open Stylesheet.Text

/-- The token refers only to one of so many sources and names, and its numbers have 32 bits. A token
without a source is as the reader makes it. -/
structure MapToken.Fits (bounds : SourceMap.Reader.Bounds) (t : MapToken) : Prop where
  plain : t.range = false
  dstCol : t.dstCol < UInt32.size
  srcLine : t.srcLine < UInt32.size
  srcCol : t.srcCol < UInt32.size
  source : ∀ i ∈ t.source, i < bounds.sources ∧ i < UInt32.size
  name : ∀ i ∈ t.name, i < bounds.names ∧ i < UInt32.size
  sourceless : t.source = none →
    t.srcLine = MapToken.maxIndex ∧ t.srcCol = MapToken.maxIndex ∧ t.name = none

namespace SourceMap

namespace Writer

/-! ## Segments -/

/-- The numbers that run on for the reader. -/
def Running.forReader (run : Running) : Reader.Running :=
  ⟨run.source, run.srcLine, run.srcCol, run.name⟩

/-- Running numbers of 32 bits. -/
structure Running.Small (run : Running) : Prop where
  col : run.col < UInt32.size
  source : run.source < UInt32.size
  srcLine : run.srcLine < UInt32.size
  srcCol : run.srcCol < UInt32.size
  name : run.name < UInt32.size

/-- The running numbers at the start of a line. -/
def Running.reset (run : Running) : Running := { run with col := 0 }

theorem Running.Small.reset {run : Running} (h : run.Small) : run.reset.Small :=
  ⟨Nat.zero_lt_succ _, h.source, h.srcLine, h.srcCol, h.name⟩

/-- What the numbers start with. -/
def Running.start : Running := ⟨0, 0, 0, 0, 0, 0⟩

theorem Running.Small.start : Running.start.Small :=
  ⟨by decide, by decide, by decide, by decide, by decide⟩

/-- A number is moved on by the difference that was written. -/
theorem move_difference {n : Nat} (h : n < UInt32.size) (before : Nat) :
    Reader.move before ((n : Int) - before) = n := by
  rw [Reader.move, show ((before : Int) + ((n : Int) - before)) = n by omega,
    Int.emod_eq_of_lt (by omega) (by omega), Int.toNat_natCast]

theorem natAbs_difference {n before : Nat} (hn : n < UInt32.size) (hb : before < UInt32.size) :
    ((n : Int) - before).natAbs < Vlq.maxNumber := by
  have hsize : UInt32.size < Vlq.maxNumber := by decide
  omega

/-- The numbers of a token, relative to those before. -/
def numbers (run : Running) (t : MapToken) : List Int :=
  ((t.dstCol : Int) - run.col) :: match t.source with
    | none => []
    | some source => ((source : Int) - run.source) :: ((t.srcLine : Int) - run.srcLine) ::
        ((t.srcCol : Int) - run.srcCol) :: match t.name with
          | none => []
          | some name => [(name : Int) - run.name]

theorem segment_fst (run : Running) (t : MapToken) :
    (segment run t).1 = (numbers run t).flatMap Vlq.encode := by
  unfold segment numbers difference
  cases t.source with
  | none => simp
  | some source => cases t.name <;> simp

variable {bounds : Reader.Bounds} {run : Running} {t : MapToken}

theorem segment_small (hrun : run.Small) (ht : t.Fits bounds) : (segment run t).2.Small := by
  unfold segment
  cases hsource : t.source with
  | none => exact ⟨ht.dstCol, hrun.source, hrun.srcLine, hrun.srcCol, hrun.name⟩
  | some source =>
    have hs := (ht.source source hsource).2
    cases hname : t.name with
    | none => exact ⟨ht.dstCol, hs, ht.srcLine, ht.srcCol, hrun.name⟩
    | some name => exact ⟨ht.dstCol, hs, ht.srcLine, ht.srcCol, (ht.name name hname).2⟩

theorem segment_place (run : Running) (t : MapToken) :
    (segment run t).2.line = t.dstLine ∧ (segment run t).2.col = t.dstCol := by
  unfold segment
  cases t.source with
  | none => exact ⟨rfl, rfl⟩
  | some source => cases t.name <;> exact ⟨rfl, rfl⟩

/-- A segment is read as the numbers it was written from. -/
theorem decodeSegment_segment (hrun : run.Small) (ht : t.Fits bounds) :
    Vlq.decodeSegment (segment run t).1 = .ok (numbers run t) := by
  rw [segment_fst]
  refine Vlq.decodeSegment_encode fun i hi => ?_
  unfold numbers at hi
  rcases List.mem_cons.1 hi with rfl | hi
  · exact natAbs_difference ht.dstCol hrun.col
  cases hsource : t.source with
  | none =>
    rw [hsource] at hi
    cases hi
  | some source =>
    rw [hsource] at hi
    simp only [List.mem_cons] at hi
    rcases hi with rfl | rfl | rfl | hi
    · exact natAbs_difference (ht.source source hsource).2 hrun.source
    · exact natAbs_difference ht.srcLine hrun.srcLine
    · exact natAbs_difference ht.srcCol hrun.srcCol
    · cases hname : t.name with
      | none =>
        rw [hname] at hi
        cases hi
      | some name =>
        rw [hname, List.mem_singleton] at hi
        subst hi
        exact natAbs_difference (ht.name name hname).2 hrun.name

/-- The numbers of a token are read as the token. -/
theorem token_numbers (ht : t.Fits bounds) :
    Reader.token bounds run.forReader t.dstLine t.dstCol false (numbers run t) =
      some ((segment run t).2.forReader, t) := by
  obtain ⟨line, col, source, srcLine, srcCol, name, range⟩ := t
  obtain rfl : range = false := ht.plain
  cases source with
  | none =>
    obtain ⟨rfl, rfl, rfl⟩ := ht.sourceless rfl
    rfl
  | some source =>
    obtain ⟨hbound, hs⟩ := ht.source source rfl
    have hplace : Reader.move run.source ((source : Int) - run.source) = source ∧
        Reader.move run.srcLine ((srcLine : Int) - run.srcLine) = srcLine ∧
        Reader.move run.srcCol ((srcCol : Int) - run.srcCol) = srcCol :=
      ⟨move_difference hs _, move_difference ht.srcLine _, move_difference ht.srcCol _⟩
    cases name with
    | none =>
      simp only [numbers, Reader.token, Running.forReader, hplace, if_neg (Nat.not_le_of_lt hbound)]
      rfl
    | some name =>
      obtain ⟨hname, hn⟩ := ht.name name rfl
      simp only [numbers, Reader.token, Running.forReader, hplace, if_neg (Nat.not_le_of_lt hbound),
        move_difference hn, if_neg (Nat.not_le_of_lt hname)]
      rfl

/-- What is written of a token is a segment of its own. -/
theorem mem_segment (run : Running) (t : MapToken) {c : Char} (h : c ∈ (segment run t).1) :
    c ≠ ';' ∧ c ≠ ',' := by
  rw [segment_fst] at h
  obtain ⟨i, -, hi⟩ := List.mem_flatMap.1 h
  obtain ⟨k, rfl⟩ := Vlq.mem_digits hi
  exact @Base64.of_digit (fun c => c ≠ ';' ∧ c ≠ ',') _ (by decide) k

theorem segment_ne_nil (run : Running) (t : MapToken) : (segment run t).1 ≠ [] := by
  rw [segment_fst, numbers, List.flatMap_cons]
  exact List.append_ne_nil_of_left_ne_nil (Vlq.encode_ne_nil _) _

end Writer

/-! ## Lines -/

theorem parts_replicate (sep : Char) (n : Nat) (cs : List Char) :
    parts sep (List.replicate n sep ++ cs) = List.replicate n [] ++ parts sep cs := by
  induction n with
  | zero => rfl
  | succ n ih =>
    rw [List.replicate_succ, List.cons_append, parts, cut_cons, if_pos rfl, ih]
    rfl

namespace Reader

variable {bounds : Bounds} {run run' : Running} {line col : Nat} {t : MapToken}
  {ts : List MapToken} {lines segments : List (List Char)} {segment text : List Char}

theorem mappingTokens_noRanges : mappingTokens bounds run line [[]] lines =
    mappingTokens bounds run line [] lines := by
  cases lines with
  | nil => rfl
  | cons text lines => cases text <;> rfl

theorem mappingTokens_blank (n : Nat) :
    mappingTokens bounds run line [] (List.replicate n [] ++ lines) =
      mappingTokens bounds run (line + n) [] lines := by
  induction n generalizing line with
  | zero => rfl
  | succ n ih =>
    rw [List.replicate_succ, List.cons_append, mappingTokens, List.tail_nil, ih]
    congr 1
    omega

/-- A line is read segment by segment, and the lines below behind it. -/
theorem mappingTokens_line {ts' : List MapToken} (htext : text ≠ [])
    (hline : lineTokens bounds line run 0 [] (parts ',' text) = some (run', ts))
    (hlines : mappingTokens bounds run' (line + 1) [] lines = some ts') :
    mappingTokens bounds run line [] (text :: lines) = some (ts ++ ts') := by
  obtain ⟨c, cs, rfl⟩ := List.exists_cons_of_ne_nil htext
  rw [mappingTokens]
  · show ((rangeBits []).bind _) = _
    rw [show rangeBits [] = some [] from rfl]
    simp [hline, hlines]
  · simp

theorem lineTokens_segment {is : List Int} (hne : segment ≠ [])
    (hread : Vlq.decodeSegment segment = .ok is)
    (htoken : token bounds run line (move col (is.headD 0)) false is = some (run', t)) :
    lineTokens bounds line run col [] (segment :: segments) =
      (lineTokens bounds line run' (move col (is.headD 0)) [] segments).map
        fun p => (p.1, t :: p.2) := by
  obtain ⟨c, cs, rfl⟩ := List.exists_cons_of_ne_nil hne
  rw [lineTokens]
  · simp only [hread, List.headD_nil, htoken, Option.bind_eq_bind, Option.bind_some, List.tail_nil]
    cases lineTokens bounds line run' (move col (is.headD 0)) [] segments <;> rfl
  · simp

/-- Behind a token at `line` and `col`, the reader reads the text as the tokens. -/
structure ReadsOn (bounds : Bounds) (run : Running) (line col : Nat) (text : List Char)
    (ts : List MapToken) : Prop where
  /-- The next token of the line is separated from this one. -/
  apart : (cut ',' (cut ';' text).1).1 = []
  reads : ∃ run' here below,
    lineTokens bounds line run col [] (cut ',' (cut ';' text).1).2 = some (run', here) ∧
      mappingTokens bounds run' (line + 1) [] (cut ';' text).2 = some below ∧ here ++ below = ts

end Reader

namespace Writer

open Reader (ReadsOn)

variable {bounds : Reader.Bounds} {run : Running} {s t : MapToken} {ts us : List MapToken}
  {text : List Char}

/-- A segment and what is written behind it are one line and the lines below. -/
theorem readsOn_segment (hrun : run.Small) (ht : t.Fits bounds)
    (h : ReadsOn bounds (segment run t).2.forReader t.dstLine t.dstCol text us) :
    (cut ';' ((segment run t).1 ++ text)).1 ≠ [] ∧ ∃ run' here below,
      Reader.lineTokens bounds t.dstLine run.forReader run.col []
        (parts ',' (cut ';' ((segment run t).1 ++ text)).1) = some (run', here) ∧
      Reader.mappingTokens bounds run' (t.dstLine + 1) [] (cut ';' ((segment run t).1 ++ text)).2 =
        some below ∧ here ++ below = t :: us := by
  obtain ⟨hapart, run', here, below, hline, hbelow, hus⟩ := h
  have hmem := fun c hc => mem_segment run t (c := c) hc
  have hmove : Reader.move run.col ((numbers run t).headD 0) = t.dstCol := by
    rw [numbers, List.headD_cons]
    exact move_difference ht.dstCol _
  rw [cut_append fun c hc => (hmem c hc).1]
  refine ⟨List.append_ne_nil_of_left_ne_nil (segment_ne_nil run t) _, run', t :: here, below, ?_,
    hbelow, by rw [List.cons_append, hus]⟩
  have hparts : parts ',' ((segment run t).1 ++ (cut ';' text).1) =
      (segment run t).1 :: (cut ',' (cut ';' text).1).2 := by
    rw [parts, cut_append fun c hc => (hmem c hc).2, hapart, List.append_nil]
  rw [hparts, Reader.lineTokens_segment (segment_ne_nil run t) (decodeSegment_segment hrun ht)
    (hmove.symm ▸ token_numbers ht), hmove, hline]
  rfl

/-- A token further down is read at the start of its line. -/
theorem mappingTokens_below {line n : Nat} (hrun : run.Small) (hcol : run.col = 0)
    (ht : t.Fits bounds) (hline : line + n = t.dstLine)
    (h : ReadsOn bounds (segment run t).2.forReader t.dstLine t.dstCol text us) :
    Reader.mappingTokens bounds run.forReader line []
      (parts ';' (List.replicate n ';' ++ ((segment run t).1 ++ text))) = some (t :: us) := by
  obtain ⟨hne, run', here, below, hhere, hbelow, hus⟩ := readsOn_segment hrun ht h
  rw [parts_replicate, Reader.mappingTokens_blank, hline, parts, ← hus]
  rw [hcol] at hhere
  exact Reader.mappingTokens_line hne hhere hbelow

/-- The tokens in order, but those that repeat the one before. -/
def unrepeated (t : MapToken) (ts : List MapToken) : List MapToken :=
  (ts.destutter' (· ≠ ·) t).tail

theorem destutter'_eq_cons (t : MapToken) (ts : List MapToken) :
    ts.destutter' (· ≠ ·) t = t :: unrepeated t ts := by
  induction ts generalizing t with
  | nil => rfl
  | cons u ts ih =>
    by_cases h : t = u
    · rw [unrepeated, List.destutter'_cons_neg _ (by simpa using h), ih]
      rfl
    · rw [unrepeated, List.destutter'_cons_pos _ h]
      rfl

theorem unrepeated_self : unrepeated s (s :: ts) = unrepeated s ts := by
  rw [unrepeated, List.destutter'_cons_neg _ (by simp)]
  rfl

theorem unrepeated_cons (h : s ≠ t) : unrepeated s (t :: ts) = t :: unrepeated t ts := by
  rw [unrepeated, List.destutter'_cons_pos _ h, List.tail_cons, destutter'_eq_cons]

/-- What is written of a token in a line of its own, seen from a line further up. -/
theorem tokens_below {before : Option MapToken} (h : t.dstLine ≠ run.line) :
    tokens before run (t :: ts) = List.replicate (t.dstLine - run.line) ';' ++
      ((segment run.reset t).1 ++ tokens (some t) (segment run.reset t).2 ts) := by
  rw [tokens, if_pos h]
  exact List.append_assoc ..

/-- **Behind a token**, the tokens that are left are read back. -/
theorem readsOn_tokens (hrun : run.Small) (hline : run.line = s.dstLine) (hcol : run.col = s.dstCol)
    (hts : ∀ t ∈ ts, t.Fits bounds)
    (horder : (s :: ts).IsChain (fun s t => s.dstLine ≤ t.dstLine)) :
    ReadsOn bounds run.forReader s.dstLine s.dstCol (tokens (some s) run ts) (unrepeated s ts) := by
  induction ts generalizing s run with
  | nil => exact ⟨rfl, run.forReader, [], [], rfl, rfl, rfl⟩
  | cons t ts ih =>
    have ht := hts t (.head _)
    obtain ⟨hle, horder'⟩ := List.isChain_cons_cons.1 horder
    have hts' : ∀ u ∈ ts, u.Fits bounds := fun u hu => hts u (.tail _ hu)
    by_cases hsame : t.dstLine = run.line
    · by_cases heq : s = t
      · subst heq
        rw [tokens, if_neg (by simp [hsame]), if_pos rfl, unrepeated_self]
        exact ih hrun hline hcol hts' horder'
      · -- a segment behind a comma
        obtain ⟨hsegLine, hsegCol⟩ := segment_place run t
        obtain ⟨-, run', here, below, hhere, hbelow, hus⟩ := readsOn_segment hrun ht
          (ih (segment_small hrun ht) hsegLine hsegCol hts' horder')
        have htext : tokens (some s) run (t :: ts) =
            ',' :: ((segment run t).1 ++ tokens (some t) (segment run t).2 ts) := by
          rw [tokens, if_neg (by simp [hsame]), if_neg (by simpa using heq)]
          rfl
        rw [hsame, hline, hcol] at hhere
        rw [hsame, hline] at hbelow
        rw [htext, unrepeated_cons heq]
        exact ⟨rfl, run', here, below, hhere, hbelow, hus⟩
    · -- the first segment of a line further down
      have hreset := hrun.reset
      obtain ⟨hsegLine, hsegCol⟩ := segment_place run.reset t
      have hread := ih (segment_small hreset ht) hsegLine hsegCol hts' horder'
      obtain ⟨n, hn⟩ : ∃ n, t.dstLine - run.line = n + 1 := ⟨t.dstLine - run.line - 1, by omega⟩
      have hne : s ≠ t := by
        rintro rfl
        exact hsame hline.symm
      have hbelow := mappingTokens_below (n := n) hreset rfl ht
        (show s.dstLine + 1 + n = t.dstLine by omega) hread
      rw [tokens_below hsame, hn, List.replicate_succ, List.cons_append, unrepeated_cons hne]
      exact ⟨rfl, run.forReader, [], _, rfl, hbelow, rfl⟩

/-- **The mappings are read back**, but a token that repeats the one before it is read once. -/
theorem mappingTokens_tokens (hts : ∀ t ∈ ts, t.Fits bounds)
    (horder : ts.IsChain (fun s t => s.dstLine ≤ t.dstLine)) :
    Reader.mappingTokens bounds ⟨0, 0, 0, 0⟩ 0 [[]] (parts ';' (tokens none .start ts)) =
      some (ts.destutter (· ≠ ·)) := by
  rw [Reader.mappingTokens_noRanges]
  cases ts with
  | nil => rfl
  | cons t ts =>
    have ht := hts t (.head _)
    obtain ⟨hline, hcol⟩ := segment_place .start t
    have hread := readsOn_tokens (segment_small .start ht) hline hcol
      (fun u hu => hts u (.tail _ hu)) horder
    have htext : tokens none .start (t :: ts) = List.replicate t.dstLine ';' ++
        ((segment .start t).1 ++ tokens (some t) (segment .start t).2 ts) := by
      by_cases h : t.dstLine = 0
      · rw [tokens, if_neg (by simp [h, Running.start]), if_neg (by simp), h]
        rfl
      · exact tokens_below h
    rw [List.destutter_cons', destutter'_eq_cons, htext]
    exact mappingTokens_below .start rfl ht (Nat.zero_add _) hread

end Writer

/-! ## Documents -/

/-- The map can be written: its tokens are in order and fit. -/
structure Writable (m : SourceMap) : Prop where
  fits : ∀ t ∈ m.tokens, t.Fits ⟨m.sources.length, m.names.length⟩
  sorted : m.tokens.Pairwise fun s t => s.le t = true

/-- What is read back of a map: repeated tokens are written once, and a list of texts only if one is
known. -/
def reread (m : SourceMap) : SourceMap :=
  { m with
    contents := if m.contents.any Option.isSome then m.contents else []
    tokens := m.tokens.destutter (· ≠ ·) }

theorem contentOf_reread (m : SourceMap) (source : Nat) :
    m.reread.contentOf source = m.contentOf source := by
  unfold contentOf reread
  cases hany : m.contents.any Option.isSome with
  | true => rfl
  | false =>
    have hnone : ∀ s ∈ m.contents, s = none := by simpa using hany
    cases hs : m.contents[source]? with
    | none => simp
    | some s => simp [hnone s (List.mem_of_getElem? hs)]

theorem find?_destutter' (p : MapToken → Bool) (t : MapToken) (ts : List MapToken) :
    (ts.destutter' (· ≠ ·) t).find? p = (t :: ts).find? p := by
  induction ts generalizing t with
  | nil => rfl
  | cons u ts ih =>
    by_cases h : t = u
    · subst h
      rw [List.destutter'_cons_neg _ (by simp), ih, List.find?_cons, List.find?_cons]
      cases hp : p t <;> simp [hp]
    · rw [List.destutter'_cons_pos _ h, List.find?_cons, ih, ← List.find?_cons]

theorem getLast?_destutter' (p : MapToken → Bool) (t : MapToken) (ts : List MapToken) :
    ((ts.destutter' (· ≠ ·) t).filter p).getLast? = ((t :: ts).filter p).getLast? := by
  induction ts generalizing t with
  | nil => rfl
  | cons u ts ih =>
    by_cases h : t = u
    · subst h
      rw [List.destutter'_cons_neg _ (by simp), ih]
      cases hp : p t <;> simp [hp]
    · rw [List.destutter'_cons_pos _ h]
      cases hp : p t <;> simp [hp, ih, List.getLast?_cons]

/-- **Every place is looked up alike** in a map and in what is read back of it. -/
theorem lookup_reread (m : SourceMap) (line col : Nat) :
    m.reread.lookup line col = m.lookup line col := by
  unfold lookup
  rw [reread]
  cases m.tokens with
  | nil => rfl
  | cons t ts => rw [List.destutter_cons', find?_destutter', getLast?_destutter']

theorem isExactItems_map {α : Type} {f : α → Json} (hf : ∀ a, (f a).isExact = true) (as : List α) :
    Json.isExactItems (as.map f) = true := by
  induction as with
  | nil => rfl
  | cons a as ih => rw [List.map_cons, Json.isExactItems, hf, ih]; rfl

theorem items_readable {α : Type} {f : α → Json} (hf : ∀ a, (f a).hasValue = true ∧ (f a).depth = 0)
    (as : List α) : Json.hasValueItems (as.map f) = true ∧ Json.depthItems (as.map f) = 0 := by
  induction as with
  | nil => exact ⟨rfl, rfl⟩
  | cons a as ih =>
    rw [List.map_cons, Json.hasValueItems, Json.depthItems, (hf a).1, (hf a).2, ih.1, ih.2]
    exact ⟨rfl, rfl⟩

/-- The text of a source, or null. -/
def contentJson : Option String → Json
  | some s => .str s
  | none => .null

/-- The members of the document of a map. -/
def members (m : SourceMap) : List (String × Json) :=
  [("version", .int 3)] ++ (m.file.map fun f => ("file", Json.str f)).toList ++
    [("sources", .arr (m.sources.map .str))] ++
    (if m.contents.any Option.isSome then [("sourcesContent", .arr (m.contents.map contentJson))]
      else []) ++
    [("names", .arr (m.names.map .str)), ("mappings", .str m.mappings)]

theorem toJson_eq (m : SourceMap) : m.toJson = .obj m.members := by
  unfold toJson members
  cases m.file <;> rfl

theorem isExact_toJson (m : SourceMap) : m.toJson.isExact = true := by
  have htexts (as : List String) := isExactItems_map (f := .str) (fun _ => rfl) as
  have hcontents := isExactItems_map (f := contentJson) (fun s => by cases s <;> rfl) m.contents
  rw [toJson_eq, members]
  cases m.file <;> cases m.contents.any Option.isSome <;>
    simp [Json.isExact, Json.isExactMembers, htexts, hcontents]

theorem readable_toJson (m : SourceMap) : (Json.obj m.members).readable 0 = true := by
  have htexts (as : List String) := items_readable (f := .str) (fun _ => ⟨rfl, rfl⟩) as
  have hcontents := items_readable (f := contentJson) (fun s => by cases s <;> exact ⟨rfl, rfl⟩)
    m.contents
  rw [members]
  cases m.file <;> cases m.contents.any Option.isSome <;>
    simp [Json.readable, Json.hasValue, Json.depth, Json.hasValueMembers, Json.depthMembers, htexts,
      hcontents, Json.maxDepth]

theorem mapM_map {α β : Type} {f : α → Json} {r : Json → Option β} {g : α → β}
    (h : ∀ a, r (f a) = some (g a)) (as : List α) : (as.map f).mapM r = some (as.map g) := by
  induction as with
  | nil => rfl
  | cons a as ih => simp [h, ih]

theorem Writable.mappings {m : SourceMap} (h : m.Writable) :
    Reader.mappingTokens ⟨m.sources.length, m.names.length⟩ ⟨0, 0, 0, 0⟩ 0 (parts ';' [])
      (parts ';' m.mappings.toList) = some (m.tokens.destutter (· ≠ ·)) := by
  have hlines : m.tokens.IsChain fun s t => s.dstLine ≤ t.dstLine := by
    refine h.sorted.isChain.imp fun s t hle => ?_
    simp only [MapToken.le, MapToken.atOrBefore, Bool.or_eq_true, Bool.and_eq_true,
      decide_eq_true_eq] at hle
    omega
  rw [SourceMap.mappings, String.toList_ofList]
  exact Writer.mappingTokens_tokens h.fits hlines

theorem Writable.sortTokens {m : SourceMap} (h : m.Writable) :
    sortTokens (m.tokens.destutter (· ≠ ·)) = m.tokens.destutter (· ≠ ·) :=
  List.mergeSort_of_pairwise (h.sorted.sublist (List.destutter_sublist _ _))

theorem ofMembers?_members {m : SourceMap} (h : m.Writable) :
    Reader.ofMembers? m.members = some m.reread := by
  have hsources : (m.sources.map Json.str).mapM Reader.textOrNull? = some (m.sources.map some) :=
    mapM_map (g := some) (fun _ => rfl) _
  have hcontents : (m.contents.map contentJson).mapM Reader.textOrNull? = some m.contents := by
    have := mapM_map (f := contentJson) (r := Reader.textOrNull?) (g := id)
      (fun s => by cases s <;> rfl) m.contents
    rwa [List.map_id] at this
  have hnames : (m.names.map Json.str).mapM some = some (m.names.map Json.str) :=
    mapM_map (g := Json.str) (fun _ => rfl) _
  have hunsource : (fun s : Option String => s.getD "") ∘ some = id := rfl
  have hunname : Reader.nameText ∘ Json.str = id := rfl
  rw [members, reread]
  cases hfile : m.file <;> cases hany : m.contents.any Option.isSome <;>
    simp [Reader.ofMembers?, Reader.field?, Json.valuesOf, Reader.list?, Reader.word?, Reader.text?,
      hsources, hcontents, hnames, hunsource, hunname, h.mappings, h.sortTokens]

/-- **A map is read back**: a token that repeats the one before it is written once, and the texts of
the sources only if one is known. -/
theorem parse?_write {m : SourceMap} (h : m.Writable) : parse? m.write = some m.reread := by
  have hjunk : Reader.dropJunk m.write.toList = some m.write.toList := by
    rw [write, toJson_eq, Json.compress, Json.Writer.value]
    simp [Reader.dropJunk, Reader.isJunk]
  have hread := Json.parseChars?_compress (isExact_toJson m)
  unfold parse?
  rw [hjunk]
  simp only [Option.bind_eq_bind, Option.bind_some]
  rw [write, hread, toJson_eq]
  simp only [readable_toJson, if_true]
  exact ofMembers?_members h

end SourceMap

end Stylesheet
