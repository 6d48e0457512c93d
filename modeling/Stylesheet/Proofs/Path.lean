import Stylesheet.Path
import Mathlib.Data.List.TakeDrop
import Mathlib.Data.List.TakeWhile

/-!
# Paths by their components

What the operations on the text of a path do to its components: `parent?` takes the last one away,
`join` appends them, and `ofComponents` writes them so that they are read again. `normal` is the
normal form of a path, in which `..` has taken away the name before it; `way_spec` says that the way
from a directory leads from there to the path, if the directory is made of names.
-/

set_option autoImplicit false

namespace Stylesheet

namespace Path

open Stylesheet.Text

/-! ## Normal form -/

/-- Puts a component on those before it, the last one first. `..` takes a name away, and nothing
stands above the root directory. -/
def settle (stack : List Component) : Component → List Component
  | .here => stack
  | .up => match stack with
    | .name _ :: rest => rest
    | .root :: _ => stack
    | _ => .up :: stack
  | c => c :: stack

/-- The components with all names taken away that a `..` follows, and without dots. -/
def normal (cs : List Component) : List Component := (cs.foldl settle []).reverse

/-- Seen from the directory of `file`, `path` leads to `target`: joined to the directory, it has the
normal form `target`. -/
def LeadsTo (file path target : String) : Prop :=
  normal (components (join ((parent? file).getD "") path)) = components target

instance (file path target : String) : Decidable (LeadsTo file path target) :=
  inferInstanceAs (Decidable (_ = _))

namespace Component

/-- Whether the component is a name. -/
def isName : Component → Bool
  | name _ => true
  | _ => false

/-- Whether the component leads on from a directory, to one in it or to the one above it. -/
def isStep : Component → Bool
  | name _ | up => true
  | _ => false

theorem exists_of_isName : {c : Component} → c.isName → ∃ t, c = name t
  | name t, _ => ⟨t, rfl⟩

theorem isStep_of_isName {c : Component} (h : c.isName) : c.isStep := by
  obtain ⟨t, rfl⟩ := exists_of_isName h
  rfl

end Component

theorem foldl_settle_of_isName {cs : List Component} (h : ∀ c ∈ cs, c.isName)
    (stack : List Component) : cs.foldl settle stack = cs.reverse ++ stack := by
  induction cs generalizing stack with
  | nil => rfl
  | cons c cs ih =>
    obtain ⟨hc, hcs⟩ := List.forall_mem_cons.1 h
    obtain ⟨t, rfl⟩ := Component.exists_of_isName hc
    rw [List.foldl_cons, ih hcs, List.reverse_cons, List.append_assoc]
    rfl

/-- A path of names is in normal form. -/
theorem normal_of_isName {cs : List Component} (h : ∀ c ∈ cs, c.isName) : normal cs = cs := by
  rw [normal, foldl_settle_of_isName h, List.append_nil, List.reverse_reverse]

/-- As many steps up as there are names on top take these away. -/
theorem foldl_settle_up {names : List Component} (h : ∀ c ∈ names, c.isName)
    (stack : List Component) :
    (List.replicate names.length .up).foldl settle (names ++ stack) = stack := by
  induction names with
  | nil => rfl
  | cons c names ih =>
    obtain ⟨hc, hnames⟩ := List.forall_mem_cons.1 h
    obtain ⟨t, rfl⟩ := Component.exists_of_isName hc
    exact ih hnames

/-- The way up from a directory of names, and then on, ends where the rest of it leads. -/
theorem foldl_settle_around {base : List Component} (h : ∀ c ∈ base, c.isName)
    (path stack : List Component) :
    (base ++ (List.replicate base.length Component.up ++ path)).foldl settle stack =
      path.foldl settle stack := by
  have hup := foldl_settle_up (fun c hc => h c (List.mem_reverse.1 hc)) stack
  rw [List.length_reverse] at hup
  rw [List.foldl_append, List.foldl_append, foldl_settle_of_isName h, hup]

/-! ## The way from a directory -/

theorem way_nil {base : List Component} (diverged : Bool) :
    way diverged [] base = some (List.replicate base.length .up) := by
  induction base generalizing diverged with
  | nil => rfl
  | cons b base ih => rw [way, ih, Option.map_some, List.length_cons, List.replicate_succ]

/-- **The way from a directory to a path** is known if the directory is made of names, and behind
them it leads to where the path does. It is made of steps up and components of the path. -/
theorem way_spec {base : List Component} (hbase : ∀ c ∈ base, c.isName) (diverged : Bool)
    (path : List Component) : ∃ w, way diverged path base = some w ∧
      (∀ c ∈ w, c = .up ∨ c ∈ path) ∧
      ∀ stack, (base ++ w).foldl settle stack = path.foldl settle stack := by
  induction base generalizing diverged path with
  | nil => exact ⟨path, by rw [way], fun c hc => .inr hc, fun _ => rfl⟩
  | cons b base ih =>
    obtain ⟨hb, hnames⟩ := List.forall_mem_cons.1 hbase
    have hne : b ≠ .here ∧ b ≠ .up := by constructor <;> rintro rfl <;> cases hb
    cases path with
    | nil =>
      refine ⟨_, way_nil diverged, fun c hc => .inl (List.eq_of_mem_replicate hc), fun stack => ?_⟩
      have h := foldl_settle_around hbase [] stack
      rwa [List.append_nil] at h
    | cons p path =>
      by_cases heq : (!diverged && p = b) = true
      · obtain ⟨w, hw, hmem, hsettle⟩ := ih hnames false path
        refine ⟨w, by rw [way, if_pos heq, hw], fun c hc => (hmem c hc).imp_right (.tail _), ?_⟩
        intro stack
        have hpb : p = b := by simpa using (Bool.and_eq_true_iff.1 heq).2
        rw [List.cons_append, List.foldl_cons, List.foldl_cons, hsettle, hpb]
      · refine ⟨List.replicate (base.length + 1) .up ++ p :: path, ?_, ?_, fun stack =>
          foldl_settle_around hbase (p :: path) stack⟩
        · rw [way, if_neg heq, if_neg hne.1, if_neg hne.2]
        · intro c hc
          exact (List.mem_append.1 hc).imp_left List.eq_of_mem_replicate

/-! ## Components of a text -/

/-- The component in front of the slashes of a path. -/
def front (cs : List Char) : List Component :=
  if cs.head? = some '/' then [.root] else if startsHere cs then [.here] else []

/-- The components between the slashes of a path. -/
def inner (cs : List Char) : List Component := (segments cs).filterMap ofSegment?

section
variable {cs ds : List Char}

theorem components_eq (path : String) :
    components path = front path.toList ++ inner path.toList := by
  simp only [components, front, inner, isAbsolute, decide_eq_true_eq]

theorem inner_slash (cs ds : List Char) : inner (cs ++ '/' :: ds) = inner cs ++ inner ds := by
  rw [inner, segments, parts_append, List.filterMap_append]
  rfl

theorem inner_of_not_mem (h : '/' ∉ cs) : inner cs = (ofSegment? cs).toList := by
  have hparts : parts '/' cs = [cs] := parts_of_forall_ne fun c hc hs => h (hs ▸ hc)
  rw [inner, segments, hparts, List.filterMap_cons, List.filterMap_nil]
  cases ofSegment? cs <;> rfl

theorem startsHere_slash (cs ds : List Char) :
    startsHere (cs ++ '/' :: ds) = startsHere cs := by
  match cs with
  | [] => rfl
  | [c] => by_cases hc : c = '.' <;> simp [startsHere, hc]
  | c :: d :: cs => by_cases hc : c = '.' <;> by_cases hd : d = '/' <;> simp [startsHere, hc, hd]

theorem front_slash (h : cs ≠ []) (ds : List Char) : front (cs ++ '/' :: ds) = front cs := by
  obtain ⟨c, cs, rfl⟩ := List.exists_cons_of_ne_nil h
  rw [front, front, startsHere_slash]
  rfl

theorem front_slash_congr (cs ds es : List Char) :
    front (cs ++ '/' :: ds) = front (cs ++ '/' :: es) := by
  cases cs with
  | nil => rfl
  | cons c cs => rw [front_slash (List.cons_ne_nil c cs), front_slash (List.cons_ne_nil c cs)]

/-- A path with nothing in front starts with a name or a step up. -/
theorem front_eq_nil_iff : front cs = [] ↔ cs.head? ≠ some '/' ∧ startsHere cs = false := by
  unfold front
  split <;> simp [*]

theorem front_of_start (hcs : front cs = []) (h : ds <+: cs) (hdot : ds ≠ ['.']) :
    front ds = [] := by
  obtain ⟨hslash, hhere⟩ := front_eq_nil_iff.1 hcs
  obtain ⟨es, rfl⟩ := h
  refine front_eq_nil_iff.2 ?_
  match ds with
  | [] => exact ⟨nofun, rfl⟩
  | [c] =>
    refine ⟨hslash, ?_⟩
    rw [startsHere]
    · exact fun hc => hdot (by rw [hc])
    · simp
  | c :: d :: ds =>
    refine ⟨hslash, ?_⟩
    by_cases hc : c = '.' <;> by_cases hd : d = '/' <;> simp_all [startsHere]

/-- A segment has nothing in front, unless it is a dot. -/
theorem front_of_not_mem (hslash : '/' ∉ cs) (hdot : cs ≠ ['.']) : front cs = [] := by
  refine front_eq_nil_iff.2 ⟨fun h => hslash (List.mem_of_head? h), ?_⟩
  unfold startsHere
  split
  · exact absurd rfl hdot
  · simp at hslash
  · rfl

end

/-- A path of steps has nothing in front. -/
theorem front_of_isStep {path : String} (h : ∀ c ∈ components path, c.isStep) :
    front path.toList = [] := by
  rw [components_eq] at h
  rw [front] at h ⊢
  split
  · exact absurd (h .root (by simp [*])) nofun
  split
  · exact absurd (h .here (by simp [*])) nofun
  · rfl

theorem components_of_front {path : String} (h : front path.toList = []) :
    components path = inner path.toList := by
  rw [components_eq, h, List.nil_append]

theorem isAbsolute_of_front {path : String} (h : front path.toList = []) :
    isAbsolute path = false :=
  decide_eq_false (front_eq_nil_iff.1 h).1

/-- A segment that is a component is the text of it. -/
theorem ofSegment?_spec {s : List Char} {c : Component} (h : ofSegment? s = some c) :
    c.text.toList = s ∧ c.isStep ∧ s ≠ ['.'] := by
  unfold ofSegment? at h
  split at h
  · cases h
  next hs =>
  have hdot : s ≠ ['.'] := fun heq => hs (by simp [heq])
  split at h
  · next hup =>
    cases h
    exact ⟨hup.symm, rfl, hdot⟩
  · cases h
    exact ⟨String.toList_ofList, rfl, hdot⟩

theorem ofSegment?_eq_none {s : List Char} (h : ofSegment? s = none) : s = [] ∨ s = ['.'] := by
  unfold ofSegment? at h
  split at h
  · next hs => simpa using hs
  · split at h <;> cases h

/-- A step is read again from its own text. -/
theorem components_text {path : String} {c : Component} (hc : c ∈ components path)
    (hstep : c.isStep) : components c.text = [c] ∧ '/' ∉ c.text.toList ∧
      ∀ d ∈ c.text.toList, d ∈ path.toList := by
  have hinner : c ∈ inner path.toList := by
    rw [components_eq, List.mem_append] at hc
    refine hc.resolve_left fun hfront => ?_
    unfold front at hfront
    split at hfront
    · rw [List.mem_singleton.1 hfront] at hstep
      cases hstep
    split at hfront
    · rw [List.mem_singleton.1 hfront] at hstep
      cases hstep
    · cases hfront
  obtain ⟨s, hs, hof⟩ := List.mem_filterMap.1 hinner
  obtain ⟨htext, -, hdot⟩ := ofSegment?_spec hof
  have hslash : '/' ∉ s := fun h => (mem_of_mem_parts hs h).2 rfl
  have hfront : front c.text.toList = [] := htext.symm ▸ front_of_not_mem hslash hdot
  rw [components_of_front hfront, htext, inner_of_not_mem hslash, hof]
  exact ⟨rfl, hslash, fun d hd => (mem_of_mem_parts hs hd).1⟩

/-! ## Joining -/

theorem toList_join {path : String} (h : front path.toList = []) (base : String) :
    (base = "" ∧ join base path = path) ∨ ∃ cs, (join base path).toList = cs ++ '/' :: path.toList ∧
      (base.toList = cs ∧ cs ≠ [] ∧ cs.getLast? ≠ some '/' ∨ base.toList = cs ++ ['/']) := by
  rw [join, isAbsolute_of_front h]
  by_cases hempty : base = ""
  · exact .inl ⟨hempty, by simp [hempty]⟩
  · have hne : base.toList ≠ [] := fun h => hempty (String.toList_eq_nil_iff.1 h)
    refine .inr ?_
    by_cases hslash : base.toList.getLast? = some '/'
    · obtain ⟨cs, hcs⟩ := List.getLast?_eq_some_iff.1 hslash
      exact ⟨cs, by simp [hcs], .inr hcs⟩
    · exact ⟨base.toList, by simp [hslash, hempty], .inl ⟨rfl, hne, hslash⟩⟩

/-- **A joined path** has the components of both. -/
theorem components_join {path : String} (h : front path.toList = []) (base : String) :
    components (join base path) = components base ++ components path := by
  rw [components_of_front h]
  rcases toList_join h base with ⟨rfl, hjoin⟩ | ⟨cs, hjoin, ⟨hbase, hne, -⟩ | hbase⟩
  · rw [hjoin, components_of_front h]
    rfl
  · rw [components_eq, components_eq, hjoin, hbase, front_slash hne, inner_slash, List.append_assoc]
  · rw [components_eq, components_eq, hjoin, hbase, inner_slash, inner_slash,
      front_slash_congr cs path.toList [], show inner [] = [] from rfl, List.append_nil,
      List.append_assoc]

theorem mem_join {base path : String} {c : Char} (hc : c ∈ (join base path).toList) :
    c ∈ base.toList ∨ c = '/' ∨ c ∈ path.toList := by
  unfold join at hc
  split at hc
  · exact .inr (.inr hc)
  split at hc <;> simp at hc <;> tauto

/-- The components are read again from the path that is written with them. -/
theorem components_ofComponents {cs : List Component}
    (h : ∀ c ∈ cs, components c.text = [c] ∧ c.isStep) : components (ofComponents cs) = cs := by
  have hfold : ∀ path, components (cs.foldl (fun p c => join p c.text) path) =
      components path ++ cs := by
    induction cs with
    | nil => exact fun path => (List.append_nil _).symm
    | cons c cs ih =>
      obtain ⟨⟨hc, hstep⟩, hcs⟩ := List.forall_mem_cons.1 h
      have hfront : front c.text.toList = [] :=
        front_of_isStep (by rw [hc]; exact List.forall_mem_singleton.2 hstep)
      intro path
      rw [List.foldl_cons, ih hcs, components_join hfront, hc, List.append_assoc]
      rfl
  exact hfold ""

theorem mem_ofComponents {cs : List Component} {c : Char} (hc : c ∈ (ofComponents cs).toList) :
    c = '/' ∨ ∃ d ∈ cs, c ∈ d.text.toList := by
  have hfold : ∀ path, c ∈ (cs.foldl (fun p d => join p d.text) path).toList →
      c ∈ path.toList ∨ c = '/' ∨ ∃ d ∈ cs, c ∈ d.text.toList := by
    clear hc
    induction cs with
    | nil => exact fun path hc => .inl hc
    | cons d cs ih =>
      intro path hc
      rcases ih _ hc with hc | hc | ⟨e, he, hc⟩
      · rcases mem_join hc with hc | hc | hc
        · exact .inl hc
        · exact .inr (.inl hc)
        · exact .inr (.inr ⟨d, .head _, hc⟩)
      · exact .inr (.inl hc)
      · exact .inr (.inr ⟨e, .tail _ he, hc⟩)
  exact (hfold "" hc).resolve_left nofun

/-! ## The last component -/

section
variable {body : List Char}

/-- The last segment, and what stands before it, of a reversed text. -/
theorem lastSegment_cases (body : List Char) :
    ('/' ∉ body ∧ lastSegment body = (body.reverse, [])) ∨
      ∃ s t, body = s ++ '/' :: t ∧ '/' ∉ s ∧ lastSegment body = (s.reverse, t) := by
  have hspan : lastSegment body =
      ((body.takeWhile (· ≠ '/')).reverse, (body.dropWhile (· ≠ '/')).drop 1) := by
    simp only [lastSegment, List.span_eq_takeWhile_dropWhile]
  have hne : ∀ {s : List Char}, '/' ∉ s → ∀ c ∈ s, decide (c ≠ '/') = true :=
    fun hs c hc => decide_eq_true fun h => hs (h ▸ hc)
  by_cases hmem : '/' ∈ body
  · obtain ⟨s, t, rfl, hs⟩ := List.eq_append_cons_of_mem hmem
    refine .inr ⟨s, t, rfl, hs, ?_⟩
    rw [hspan, List.takeWhile_append_of_pos (hne hs), List.dropWhile_append_of_pos (hne hs)]
    simp
  · refine .inl ⟨hmem, ?_⟩
    rw [hspan, List.takeWhile_eq_self_iff.2 (hne hmem), List.dropWhile_eq_nil_iff.2 (hne hmem),
      List.drop_nil]

theorem inner_lastSegment (body : List Char) : inner body.reverse =
    inner (lastSegment body).2.reverse ++ (ofSegment? (lastSegment body).1).toList := by
  rcases lastSegment_cases body with ⟨hmem, hlast⟩ | ⟨s, t, rfl, hs, hlast⟩
  · rw [hlast, inner_of_not_mem fun h => hmem (List.mem_reverse.1 h)]
    rfl
  · rw [hlast, List.reverse_append, List.reverse_cons, List.append_assoc, List.singleton_append,
      inner_slash, inner_of_not_mem fun h => hs (List.mem_reverse.1 h)]

theorem lastSegment_suffix (body : List Char) : (lastSegment body).2 <:+ body := by
  rcases lastSegment_cases body with ⟨-, hlast⟩ | ⟨s, t, rfl, -, hlast⟩
  · rw [hlast]
    exact List.nil_suffix
  · rw [hlast]
    exact (List.suffix_cons '/' t).trans (List.suffix_append s _)

theorem length_lastSegment (h : body ≠ []) : (lastSegment body).2.length < body.length := by
  rcases lastSegment_cases body with ⟨-, hlast⟩ | ⟨s, t, rfl, -, hlast⟩
  · rw [hlast]
    exact List.length_pos_iff.2 h
  · simp only [hlast, List.length_append, List.length_cons]
    omega

/-- Trimming takes nothing away that is a component, and all of the rest at the end. -/
theorem trimBody_spec (fuel : Nat) (body : List Char) (hfuel : body.length ≤ fuel) :
    inner (trimBody fuel body).reverse = inner body.reverse ∧ trimBody fuel body <:+ body ∧
      (trimBody fuel body = [] ∨
        (ofSegment? (lastSegment (trimBody fuel body)).1).isSome = true) := by
  induction fuel generalizing body with
  | zero =>
    obtain rfl := List.length_eq_zero_iff.1 (Nat.le_zero.1 hfuel)
    exact ⟨rfl, List.suffix_rfl, .inl rfl⟩
  | succ fuel ih =>
    by_cases hempty : body = []
    · subst hempty
      exact ⟨rfl, List.suffix_rfl, .inl rfl⟩
    · rw [trimBody, if_neg (by simpa using hempty)]
      cases hof : ofSegment? (lastSegment body).1 with
      | some c =>
        simp only [hof, Option.isNone_some, Bool.false_eq_true, if_false]
        exact ⟨trivial, List.suffix_rfl, .inr rfl⟩
      | none =>
        obtain ⟨hinner, hsuffix, hend⟩ := ih (lastSegment body).2
          (by have := length_lastSegment hempty; omega)
        simp only [hof, Option.isNone_none, if_true]
        refine ⟨?_, hsuffix.trans (lastSegment_suffix body), hend⟩
        rw [hinner, inner_lastSegment body, hof]
        exact (List.append_nil _).symm

end

section
variable {path : String}

theorem frontAndBody_spec (h : ∀ c ∈ components path, c.isStep) : ∃ body,
    frontAndBody path = ([], body) ∧ inner body.reverse = components path ∧
      body.reverse <+: path.toList ∧
      (body = [] ∨ (ofSegment? (lastSegment body).1).isSome = true) := by
  have hfront := front_of_isStep h
  have hlength : frontLength path.toList = 0 := by
    obtain ⟨hslash, hhere⟩ := front_eq_nil_iff.1 hfront
    simp [frontLength, hslash, hhere]
  obtain ⟨hinner, hsuffix, hend⟩ :=
    trimBody_spec path.toList.length path.toList.reverse (Nat.le_of_eq List.length_reverse)
  rw [List.reverse_reverse] at hinner
  refine ⟨_, by simp [frontAndBody, hlength], ?_, ?_, hend⟩
  · rw [components_of_front hfront, hinner]
  · rwa [← List.reverse_suffix, List.reverse_reverse]

/-- **The parent of a path of steps** is the path without its last component, and a piece of its
text. -/
theorem components_parent? (h : ∀ c ∈ components path, c.isStep) :
    components ((parent? path).getD "") = (components path).dropLast ∧
      ((parent? path).getD "").toList <+: path.toList := by
  obtain ⟨body, hbody, hinner, hfits, hend⟩ := frontAndBody_spec h
  unfold parent?
  rw [hbody, ← hinner]
  cases hempty : body.isEmpty with
  | true =>
    obtain rfl := List.isEmpty_iff.1 hempty
    exact ⟨rfl, List.nil_prefix⟩
  | false =>
    have hne : body ≠ [] := fun h => by rw [h] at hempty; cases hempty
    obtain ⟨c, hc⟩ := Option.isSome_iff_exists.1 (hend.resolve_left hne)
    obtain ⟨hinner', hsuffix', hend'⟩ :=
      trimBody_spec (lastSegment body).2.length (lastSegment body).2 Nat.le.refl
    simp only [hempty, Bool.not_false, if_true, List.nil_append, Option.getD_some]
    generalize trimBody (lastSegment body).2.length (lastSegment body).2 = rest
      at hinner' hsuffix' hend'
    have hrest : rest.reverse <+: path.toList :=
      (List.reverse_prefix.2 (hsuffix'.trans (lastSegment_suffix body))).trans hfits
    have hdot : rest.reverse ≠ ['.'] := by
      intro hrev
      obtain rfl : rest = ['.'] := by rw [← List.reverse_reverse rest, hrev]; rfl
      rcases hend' with hend' | hend' <;> cases hend'
    have hfront : front (String.ofList rest.reverse).toList = [] := by
      rw [String.toList_ofList]
      exact front_of_start (front_of_isStep h) hrest hdot
    refine ⟨?_, by rwa [String.toList_ofList]⟩
    rw [components_of_front hfront, String.toList_ofList, hinner', inner_lastSegment body, hc]
    exact List.dropLast_concat.symm

/-- A relative path without components is empty. -/
theorem eq_nil_of_inner {cs : List Char} (hfront : front cs = []) (h : inner cs = []) :
    cs = [] := by
  obtain ⟨hslash, hhere⟩ := front_eq_nil_iff.1 hfront
  have hsegment := ofSegment?_eq_none (List.filterMap_eq_nil_iff.1 h _ (.head _))
  cases cs with
  | nil => rfl
  | cons c cs =>
    have hc : c ≠ '/' := fun hc => hslash (by rw [hc]; rfl)
    rw [cut_cons, if_neg hc] at hsegment
    obtain ⟨rfl, hrest⟩ : c = '.' ∧ (cut '/' cs).1 = [] := by simpa using hsegment
    cases cs with
    | nil => cases hhere
    | cons d cs =>
      by_cases hd : d = '/'
      · rw [hd] at hhere
        cases hhere
      · rw [cut_cons, if_neg hd] at hrest
        cases hrest

/-- The last name of a path of names is a segment of it. -/
theorem fileName?_of_isName (h : ∀ c ∈ components path, c.isName) :
    '/' ∉ ((fileName? path).getD path).toList ∧
      ∀ d ∈ ((fileName? path).getD path).toList, d ∈ path.toList := by
  have hstep : ∀ c ∈ components path, c.isStep := fun c hc => Component.isStep_of_isName (h c hc)
  obtain ⟨body, hbody, hinner, -, hend⟩ := frontAndBody_spec hstep
  cases hempty : body.isEmpty with
  | true =>
    obtain rfl := List.isEmpty_iff.1 hempty
    have hfront := front_of_isStep hstep
    have hnil : path.toList = [] :=
      eq_nil_of_inner hfront ((components_of_front hfront).symm.trans hinner.symm)
    have hnone : fileName? path = none := by rw [fileName?, hbody]; rfl
    rw [hnone, Option.getD_none, hnil]
    exact ⟨List.not_mem_nil, fun _ hd => hd⟩
  | false =>
    have hne : body ≠ [] := fun h => by rw [h] at hempty; cases hempty
    obtain ⟨c, hc⟩ := Option.isSome_iff_exists.1 (hend.resolve_left hne)
    have hmem : c ∈ components path := by
      rw [← hinner, inner_lastSegment, hc]
      exact List.mem_append_right _ (.head _)
    cases c with
    | name t =>
      have hname : fileName? path = some t := by
        rw [fileName?, hbody]
        simp only [hempty, Bool.false_eq_true, if_false, hc]
      rw [hname]
      exact (components_text hmem rfl).2
    | _ => cases h _ hmem

end

end Path

end Stylesheet
