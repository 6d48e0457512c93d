import Stylesheet.Proofs.Path
import Stylesheet.Proofs.SourceMap.Embedded

/-!
# Names of sources

A map names its sources relative to the directory it is written to. `SourceMap.sources_lead_back`:
from there the name of an input leads to the input again, and so does the name in the map of a next
run, which reads the output with this map and writes to a directory of its own. What is named are
relative paths of plain names, which no escape is needed for (`Naming.Plain`).
-/

set_option autoImplicit false

namespace Stylesheet

open Stylesheet.Text

/-- A text with no character that is escaped stays as it is. -/
theorem Text.Percent.encode_eq_self {reserved : Char → Bool} {s : String}
    (h : ∀ c ∈ s.toList, c.toNat < 128 ∧ reserved c = false) : encode reserved s = s := by
  have hself : ∀ cs : List Char, (∀ c ∈ cs, c.toNat < 128 ∧ reserved c = false) →
      (cs.flatMap fun c => if c.toNat < 128 && !reserved c then [c]
        else (String.utf8EncodeChar c).flatMap escape) = cs := by
    intro cs hcs
    induction cs with
    | nil => rfl
    | cons c cs ih =>
      obtain ⟨⟨hc, hr⟩, hcs⟩ := List.forall_mem_cons.1 hcs
      rw [List.flatMap_cons, ih hcs, if_pos (by simp [hc, hr])]
      rfl
  rw [encode, hself s.toList h, String.ofList_toList]

namespace Naming

open Stylesheet.Path

/-! ## URLs -/

section
variable {s t : String}

theorem isUrl_iff : isUrl s = true ↔ ∃ word rest, word ≠ [] ∧
    (∀ c ∈ word, isWordChar c = true) ∧ s.toList = word ++ ':' :: '/' :: '/' :: rest := by
  have hsplit := List.takeWhile_append_dropWhile (p := isWordChar) (l := s.toList)
  have hafter : ∀ cs, (after? "://".toList cs).isSome = true ↔
      ∃ rest, cs = ':' :: '/' :: '/' :: rest := by
    intro cs
    rw [Option.isSome_iff_exists]
    exact exists_congr fun rest => after?_eq_some_iff
  simp only [isUrl, Bool.and_eq_true, decide_eq_true_eq, hafter]
  constructor
  · rintro ⟨hlt, rest, hrest⟩
    refine ⟨s.toList.takeWhile isWordChar, rest, ?_, fun c hc => List.mem_takeWhile_imp hc, ?_⟩
    · intro hnil
      rw [hnil, List.nil_append] at hsplit
      exact absurd hlt (by rw [hsplit]; exact Nat.lt_irrefl _)
    · rw [← hrest, hsplit]
  · rintro ⟨word, rest, hne, hword, hs⟩
    have hcolon : ¬ isWordChar ':' = true := by decide +kernel
    have hdrop : s.toList.dropWhile isWordChar = ':' :: '/' :: '/' :: rest := by
      rw [hs, List.dropWhile_append_of_pos hword, List.dropWhile_cons_of_neg hcolon]
    refine ⟨?_, rest, hdrop⟩
    have := List.length_pos_iff.2 hne
    rw [hdrop, hs, List.length_append]
    omega

/-- What starts with a URL is one. -/
theorem isUrl_of_append (h : s.toList <+: t.toList) (hs : isUrl s = true) : isUrl t = true := by
  obtain ⟨word, rest, hne, hword, heq⟩ := isUrl_iff.1 hs
  obtain ⟨more, hmore⟩ := h
  exact isUrl_iff.2 ⟨word, rest ++ more, hne, hword, by rw [← hmore, heq, List.append_assoc]; rfl⟩

theorem slash_of_isUrl (hs : isUrl s = true) : '/' ∈ s.toList := by
  obtain ⟨word, rest, -, -, heq⟩ := isUrl_iff.1 hs
  rw [heq]
  simp

/-- What stands behind a slash and starts with none does not complete a URL. -/
theorem colon_fits {word rest ds path : List Char} (hword : '/' ∉ word)
    (hpath : path.head? ≠ some '/') (h : word ++ ':' :: '/' :: '/' :: rest = ds ++ '/' :: path) :
    word ++ [':', '/', '/'] <+: ds ++ ['/'] := by
  induction word generalizing ds with
  | nil =>
    match ds with
    | [] => cases h
    | [c] =>
      cases h
      exact absurd rfl hpath
    | [c, d] =>
      cases h
      exact List.prefix_rfl
    | c :: d :: e :: ds =>
      cases h
      exact List.prefix_append [':', '/', '/'] _
  | cons c word ih =>
    cases ds with
    | nil =>
      obtain ⟨rfl, -⟩ := List.cons.inj h
      exact absurd (.head _) hword
    | cons d ds =>
      obtain ⟨rfl, htail⟩ := List.cons.inj h
      exact List.cons_prefix_cons.2 ⟨rfl, ih (fun hc => hword (.tail _ hc)) htail⟩

/-- A path that is joined to another one is a URL only if that was one. -/
theorem isUrl_join {path : String} (hpath : front path.toList = []) (base : String)
    (h : isUrl (join base path) = true) : isUrl base = true ∨ base = "" ∧ isUrl path = true := by
  rcases toList_join hpath base with ⟨hbase, hjoin⟩ | ⟨cs, hjoin, hbase⟩
  · exact .inr ⟨hbase, hjoin ▸ h⟩
  · obtain ⟨word, rest, hne, hword, heq⟩ := isUrl_iff.1 h
    have hslash : ¬ isWordChar '/' = true := by decide +kernel
    rw [hjoin] at heq
    have hhead := (front_eq_nil_iff.1 hpath).1
    have hfits := colon_fits (fun hc => hslash (hword _ hc)) hhead heq.symm
    have hurl : word ++ [':', '/', '/'] <+: base.toList := by
      rcases hbase with ⟨rfl, -, hend⟩ | hbase
      · refine (List.prefix_concat_iff.1 hfits).resolve_left fun hwhole => hend ?_
        have hcs : word ++ [':', '/'] = base.toList :=
          (List.append_left_inj ['/']).1 (by rw [← hwhole]; simp)
        rw [← hcs]
        simp
      · rwa [hbase]
    obtain ⟨more, hmore⟩ := hurl
    exact .inl (isUrl_iff.2 ⟨word, more, hne, hword, by rw [← hmore]; simp⟩)

theorem isUrl_ofComponents {cs : List Component}
    (h : ∀ c ∈ cs, front c.text.toList = [] ∧ '/' ∉ c.text.toList) :
    isUrl (ofComponents cs) = false := by
  have hfold : ∀ path, isUrl path = false →
      isUrl (cs.foldl (fun p c => Path.join p c.text) path) = false := by
    induction cs with
    | nil => exact fun path hpath => hpath
    | cons c cs ih =>
      obtain ⟨⟨hfront, hslash⟩, hcs⟩ := List.forall_mem_cons.1 h
      refine fun path hpath => ih hcs _ (Bool.eq_false_iff.2 fun hurl => ?_)
      rcases isUrl_join hfront path hurl with hurl | ⟨-, hurl⟩
      · exact Bool.false_ne_true (hpath.symm.trans hurl)
      · exact hslash (slash_of_isUrl hurl)
  exact hfold "" (by decide)

end

/-! ## Paths that stay as they are -/

/-- A relative path of names and steps up that is named as it is: no character of it is escaped in
the URLs of a map, so that it does not start with an angle bracket either. -/
structure Steady (path : String) : Prop where
  steps : ∀ c ∈ components path, c.isStep
  unescaped : ∀ c ∈ path.toList, c.toNat < 128 ∧ Percent.inUrl c = false
  isUrl : isUrl path = false

/-- Whether no character of a text is escaped can be computed. -/
theorem unescaped_of_all {s : String}
    (h : (s.toList.all fun c => decide (c.toNat < 128) && !Percent.inUrl c) = true) :
    ∀ c ∈ s.toList, c.toNat < 128 ∧ Percent.inUrl c = false := fun c hc => by
  simpa using List.all_eq_true.1 h c hc

/-- A relative path of names alone that is named as it is. -/
structure Plain (path : String) : Prop where
  names : ∀ c ∈ components path, c.isName
  unescaped : ∀ c ∈ path.toList, c.toNat < 128 ∧ Percent.inUrl c = false
  isUrl : isUrl path = false

theorem Plain.steady {path : String} (h : Plain path) : Steady path :=
  ⟨fun c hc => Component.isStep_of_isName (h.names c hc), h.unescaped, h.isUrl⟩

namespace Steady

variable {path base : String}

theorem front_eq (h : Steady path) : front path.toList = [] := front_of_isStep h.steps

theorem isAnonymous_eq (h : Steady path) : isAnonymous path = false := by
  refine Bool.eq_false_iff.2 fun hstart => ?_
  obtain ⟨rest, hrest⟩ := Option.isSome_iff_exists.1 hstart
  have hmem : '<' ∈ path.toList := by
    rw [after?_eq_some_iff.1 hrest]
    exact .head _
  exact Bool.false_ne_true ((h.unescaped '<' hmem).2.symm.trans (by decide))

theorem withSlashes_eq (h : Steady path) : withSlashes path = path := by
  have hself : path.toList.map (fun c => if c = '\\' then '/' else c) = path.toList := by
    refine (List.map_congr_left fun c hc => if_neg ?_).trans (List.map_id _)
    rintro rfl
    exact Bool.false_ne_true ((h.unescaped _ hc).2.symm.trans (by decide))
  rw [withSlashes, hself, String.ofList_toList]

theorem toUrl_eq (h : Steady path) : toUrl path = path := by
  rw [toUrl, h.withSlashes_eq, Percent.encode_eq_self h.unescaped]

protected theorem join (hb : Steady base) (hp : Steady path) : Steady (Path.join base path) where
  steps := by
    rw [components_join hp.front_eq]
    exact List.forall_mem_append.2 ⟨hb.steps, hp.steps⟩
  unescaped c hc := by
    rcases mem_join hc with hc | rfl | hc
    · exact hb.unescaped c hc
    · decide
    · exact hp.unescaped c hc
  isUrl := Bool.eq_false_iff.2 fun hurl => by
    rcases isUrl_join hp.front_eq base hurl with hurl | ⟨-, hurl⟩
    · exact Bool.false_ne_true (hb.isUrl.symm.trans hurl)
    · exact Bool.false_ne_true (hp.isUrl.symm.trans hurl)

theorem parent (h : Steady path) : Steady ((parent? path).getD "") := by
  obtain ⟨hcomponents, hfits⟩ := components_parent? h.steps
  refine ⟨fun c hc => ?_, fun c hc => h.unescaped c (hfits.subset hc),
    Bool.eq_false_iff.2 fun hurl => ?_⟩
  · rw [hcomponents] at hc
    exact h.steps c (List.dropLast_subset _ hc)
  · exact Bool.false_ne_true (h.isUrl.symm.trans (isUrl_of_append hfits hurl))

/-- A path of one segment. -/
theorem of_not_slash {name : String} (hslash : '/' ∉ name.toList) (hfront : front name.toList = [])
    (h : ∀ c ∈ name.toList, c.toNat < 128 ∧ Percent.inUrl c = false) : Steady name where
  steps c hc := by
    rw [components_of_front hfront, inner_of_not_mem hslash, Option.mem_toList] at hc
    exact (ofSegment?_spec hc).2.1
  unescaped := h
  isUrl := Bool.eq_false_iff.2 fun hurl => hslash (slash_of_isUrl hurl)

/-- What is written with components of paths that stay as they are does so, too. -/
theorem ofComponents {cs : List Component} (h : Steady path)
    (hcs : ∀ c ∈ cs, c = .up ∨ c ∈ components path) :
    components (Path.ofComponents cs) = cs ∧ Steady (Path.ofComponents cs) := by
  have hread : ∀ c ∈ cs, components c.text = [c] ∧ c.isStep ∧ '/' ∉ c.text.toList ∧
      ∀ d ∈ c.text.toList, d.toNat < 128 ∧ Percent.inUrl d = false := by
    intro c hc
    rcases hcs c hc with rfl | hc
    · exact ⟨by decide, rfl, by decide, unescaped_of_all (by decide)⟩
    · obtain ⟨hread, hslash, hsub⟩ := components_text hc (h.steps c hc)
      exact ⟨hread, h.steps c hc, hslash, fun d hd => h.unescaped d (hsub d hd)⟩
  have hcomponents := components_ofComponents fun c hc => ⟨(hread c hc).1, (hread c hc).2.1⟩
  refine ⟨hcomponents, fun c hc => ?_, fun c hc => ?_, isUrl_ofComponents fun c hc => ?_⟩
  · rw [hcomponents] at hc
    exact (hread c hc).2.1
  · rcases mem_ofComponents hc with rfl | ⟨d, hd, hc⟩
    · decide
    · exact (hread d hd).2.2.2 c hc
  · obtain ⟨hself, hstep, hslash, -⟩ := hread c hc
    exact ⟨front_of_isStep (by rw [hself]; exact List.forall_mem_singleton.2 hstep), hslash⟩

end Steady

theorem Plain.parent {path : String} (h : Plain path) : Plain ((parent? path).getD "") := by
  have hsteady := h.steady.parent
  refine ⟨fun c hc => ?_, hsteady.unescaped, hsteady.isUrl⟩
  rw [(components_parent? h.steady.steps).1] at hc
  exact h.names c (List.dropLast_subset _ hc)

/-! ## Names -/

section
variable {target path : String} (source : Option String)

/-- **The name of a path leads to it** from the directory of the output. -/
theorem relative_spec (ht : Plain target) (hp : Steady path) :
    let name := relative ⟨source, some target, .auto, false⟩ path
    Steady name ∧ normal (components (Path.join ((parent? target).getD "") name)) =
      normal (components path) := by
  intro name
  have hdir := ht.parent
  have hname : name = if (parent? target).getD "" = "" then path
      else (relativeTo path ((parent? target).getD "")).getD path := by
    simp only [name, relative, hp.isAnonymous_eq, hp.isUrl, Bool.or_self, Bool.false_eq_true,
      if_false]
    rfl
  generalize (parent? target).getD "" = dir at hdir hname ⊢
  by_cases hempty : dir = ""
  · rw [if_pos hempty] at hname
    rw [hname, components_join hp.front_eq, hempty]
    exact ⟨hp, rfl⟩
  · obtain ⟨w, hw, hmem, hsettle⟩ := way_spec hdir.names false (components path)
    obtain ⟨hread, hsteady⟩ := hp.ofComponents hmem
    have hrelative : relativeTo path dir = some (Path.ofComponents w) := by
      rw [relativeTo, isAbsolute_of_front hp.front_eq, isAbsolute_of_front hdir.steady.front_eq, hw]
      rfl
    rw [if_neg hempty, hrelative, Option.getD_some] at hname
    rw [hname, components_join hsteady.front_eq, hread, normal, normal, hsettle]
    exact ⟨hsteady, rfl⟩

theorem sourceName_eq (ht : Plain target) (hp : Steady path) :
    sourceName ⟨source, some target, .auto, false⟩ path =
      relative ⟨source, some target, .auto, false⟩ path := by
  rw [sourceName, Bool.false_and, if_neg Bool.false_ne_true, Option.getD_none]
  exact (relative_spec source ht hp).1.toUrl_eq

theorem previousSourceName_eq (ht : Plain target) {root : Option String}
    (hroot : Steady (root.getD "")) (hp : Steady path) :
    previousSourceName ⟨source, some target, .auto, false⟩ root path =
      relative ⟨source, some target, .auto, false⟩ (Path.join (root.getD "") path) := by
  have hsteady := (relative_spec source ht (hroot.join hp)).1
  unfold previousSourceName
  rw [hp.isAnonymous_eq, hp.isUrl, Bool.or_self, if_neg Bool.false_ne_true]
  cases root with
  | some dir => exact hsteady.withSlashes_eq
  | none =>
    have hjoin : Path.join "" path = path := by simp [Path.join, isAbsolute_of_front hp.front_eq]
    rw [Option.getD_none, hjoin] at hsteady ⊢
    exact hsteady.withSlashes_eq

/-- The map of an output is written to its directory by default. -/
theorem mapPath_spec (ht : Plain target) :
    let file := PreviousMap.mapPath (some target)
      (outputFile ⟨source, some target, .auto, false⟩ ++ ".map")
    Steady file ∧ components ((parent? file).getD "") = components ((parent? target).getD "") := by
  obtain ⟨hslash, hsub⟩ := fileName?_of_isName ht.names
  have htext : (outputFile ⟨source, some target, .auto, false⟩ ++ ".map").toList =
      ((fileName? target).getD target).toList ++ ".map".toList := String.toList_append
  generalize outputFile ⟨source, some target, .auto, false⟩ ++ ".map" = link at htext
  have hno : '/' ∉ link.toList := by
    rw [htext, List.mem_append, not_or]
    exact ⟨hslash, by decide⟩
  have hlong : 3 < link.toList.length := by
    rw [htext, List.length_append]
    exact Nat.lt_add_left _ (by decide)
  have hfront : front link.toList = [] :=
    front_of_not_mem hno fun h => absurd hlong (by rw [h]; decide)
  have hlink : Steady link := by
    refine .of_not_slash hno hfront fun c hc => ?_
    rw [htext, List.mem_append] at hc
    rcases hc with hc | hc
    · exact ht.unescaped c (hsub c hc)
    · exact unescaped_of_all (by decide) c hc
  obtain ⟨c, hc⟩ : ∃ c, ofSegment? link.toList = some c := by
    refine Option.ne_none_iff_exists'.1 fun h => ?_
    rcases ofSegment?_eq_none h with h | h <;> exact absurd hlong (by rw [h]; decide)
  have hone : components link = [c] := by
    rw [components_of_front hfront, inner_of_not_mem hno, hc]
    rfl
  have hpath : PreviousMap.mapPath (some target) link =
      Path.join ((parent? target).getD "") link := by
    unfold PreviousMap.mapPath
    rw [Option.bind_some]
    cases parent? target with
    | some dir => rfl
    | none => simp [Path.join, isAbsolute_of_front hfront]
  have hfile := ht.parent.steady.join hlink
  simp only [hpath]
  refine ⟨hfile, ?_⟩
  rw [(components_parent? hfile.steps).1, components_join hfront, hone, List.dropLast_concat]

/-- The directory that the sources of a map are relative to, if it is found with the output it was
made for. -/
theorem directory_spec {file : Option String} (ht : Plain target)
    (h : file = some target ∨ file = some (PreviousMap.mapPath (some target)
      (outputFile ⟨source, some target, .auto, false⟩ ++ ".map"))) :
    Steady ((file.bind parent?).getD "") ∧
      components ((file.bind parent?).getD "") = components ((parent? target).getD "") := by
  rcases h with rfl | rfl
  · exact ⟨ht.parent.steady, rfl⟩
  · obtain ⟨hfile, hcomponents⟩ := mapPath_spec source ht
    exact ⟨hfile.parent, hcomponents⟩

end

end Naming

/-! ## Maps -/

/-- The sources of a map are relative to the directory of its file. -/
theorem PreviousMap.root_of_discover {files : Files} {text : String} {source : Option String}
    {setting : MapSetting} {previous : PreviousMap}
    (h : discover files text source setting = .ok (some previous)) :
    previous.root = previous.file.bind Path.parent? := by
  unfold discover at h
  split at h
  · cases h
  simp only [bind, Except.bind] at h
  split at h
  · cases h
  split at h
  · cases h
  next json mapFile _ =>
  split at h
  · cases h
  · cases h
    rfl

namespace SourceMap

/-- **The sources of a map lead back.** In a run that writes to `b`, the source that an input `a`
becomes leads from the directory of `b` to `a`. In a run that reads the output with this map, and
writes to `c`, the source that this one becomes leads from the directory of `c` to `a` again. The
map is found in the output or given for it, so that its file is that of the output, or it is found
in the file that it is written to by default. -/
theorem sources_lead_back {a b c : String} (ha : Naming.Plain a) (hb : Naming.Plain b)
    (hc : Naming.Plain c) (source source' : Option String) {files : Files} {text : String}
    {setting : MapSetting} {previous : PreviousMap}
    (hfound : PreviousMap.discover files text (some b) setting = .ok (some previous))
    (hfile : previous.file = some b ∨ previous.file = some (PreviousMap.mapPath (some b)
      (Naming.outputFile ⟨source, some b, .auto, false⟩ ++ ".map")))
    (inputs inputs' : InputId → Option Input) (withContents withContents' : Bool)
    (ms ms' : List Mapping) :
    let first : Naming := ⟨source, some b, .auto, false⟩
    let next : Naming := ⟨source', some c, .auto, false⟩
    let m := build inputs first withContents ms
    let m' := build inputs' next withContents' ms'
    let name := first.sourceName a
    let name' := next.previousSourceName previous.root name
    (∀ x ∈ ms, ∀ i, inputs x.input = some i → i.map = none → i.name = a →
      ∃ t ∈ m.tokens, t.Says x ∧ m.sourceOf t = some name) ∧
    Path.LeadsTo b name a ∧
    (∀ x ∈ ms', ∀ i u, inputs' x.input = some i → i.map = some previous →
      previous.tokenAt? x.srcLine x.srcCol = some u → previous.map.sourceOf u = some name →
      ∃ t ∈ m'.tokens, t.dstLine = x.dstLine ∧ t.dstCol = x.dstCol ∧ t.srcLine = u.srcLine ∧
        t.srcCol = u.srcCol ∧ m'.sourceOf t = some name') ∧
    Path.LeadsTo c name' a := by
  intro first next m m' name name'
  have hroot := PreviousMap.root_of_discover hfound
  obtain ⟨hdir, hsame⟩ := Naming.directory_spec source hb hfile
  rw [← hroot] at hdir hsame
  have hname : name = first.relative a := Naming.sourceName_eq source hb ha.steady
  obtain ⟨hsteady, hleads⟩ := Naming.relative_spec source hb ha.steady
  rw [← hname, Path.normal_of_isName ha.names] at hleads
  rw [← hname] at hsteady
  have hname' : name' = next.relative (Path.join (previous.root.getD "") name) :=
    Naming.previousSourceName_eq source' hc hdir hsteady
  obtain ⟨-, hleads'⟩ := Naming.relative_spec source' hc (hdir.join hsteady)
  rw [← hname'] at hleads'
  refine ⟨?_, hleads, ?_, ?_⟩
  · intro x hx i hi hmap hia
    have hon : LeadsOn inputs x := ⟨i, hi, fun p hp => by rw [hmap] at hp; cases hp⟩
    obtain ⟨t, ht, hr⟩ := exists_renders hx hon first withContents
    obtain ⟨htells, hindex, -⟩ := hr.own_spec hi hmap
    rw [hia] at hindex
    exact ⟨t, ht, htells, hindex.bind_eq⟩
  · intro x hx i u hi hmap hu hsource
    have hon : LeadsOn inputs' x := ⟨i, hi, fun p hp => by
      obtain rfl : previous = p := Option.some.inj (hmap.symm.trans hp)
      exact ⟨u, name, hu, hsource⟩⟩
    obtain ⟨t, ht, hr⟩ := exists_renders hx hon next withContents'
    obtain ⟨⟨hline, hcol, hsrcLine, hsrcCol⟩, hindex, -⟩ := hr.traced_spec hi hmap hu hsource
    exact ⟨t, ht, hline, hcol, hsrcLine, hsrcCol, hindex.bind_eq⟩
  · refine hleads'.trans (Eq.trans ?_ hleads)
    rw [Path.components_join hsteady.front_eq, Path.components_join hsteady.front_eq, hsame]

/-- The directories of the input and of the first output have a name in common, and the map is in
the text. -/
theorem sources_lead_back_shared :
    let first : Naming := ⟨some "src/x/a.css", some "src/y/b.css", .auto, false⟩
    let next : Naming := ⟨some "src/y/b.css", some "out/c.css", .auto, false⟩
    let i : Input := ⟨"a\x7b\x7d", some "src/x/a.css", "", false, none⟩
    let m := build (fun _ => some i) first false [⟨0, 0, 0, 0, 0⟩]
    let text := i.text ++ MapPlan.comment ⟨.enabled {}, {}, first, []⟩ i.text m
    ∃ previous,
      PreviousMap.discover .empty text (some "src/y/b.css") .auto = .ok (some previous) ∧
      let j : Input := ⟨text, some "src/y/b.css", "", false, some previous⟩
      let m' := build (fun _ => some j) next false [⟨0, 0, 0, 0, 0⟩]
      (∃ t ∈ m.tokens, m.sourceOf t = some "../x/a.css") ∧
      Path.LeadsTo "src/y/b.css" "../x/a.css" "src/x/a.css" ∧
      (∃ t ∈ m'.tokens, m'.sourceOf t = some "../src/y/../x/a.css") ∧
      Path.LeadsTo "out/c.css" "../src/y/../x/a.css" "src/x/a.css" := by
  intro first next i m text
  have ha : Naming.Plain "src/x/a.css" :=
    ⟨by decide +kernel, Naming.unescaped_of_all (by decide), by decide +kernel⟩
  have hb : Naming.Plain "src/y/b.css" :=
    ⟨by decide +kernel, Naming.unescaped_of_all (by decide), by decide +kernel⟩
  have hc : Naming.Plain "out/c.css" :=
    ⟨by decide +kernel, Naming.unescaped_of_all (by decide), by decide +kernel⟩
  have hname : first.sourceName "src/x/a.css" = "../x/a.css" := by decide +kernel
  have htokens : m.tokens = [⟨0, 0, some 0, 0, 0, none, false⟩] := List.mergeSort_singleton _
  have hsources : m.sources = ["../x/a.css"] := congrArg (fun s => [s]) hname
  have hwritable : m.Writable := by
    refine writable_build ⟨?_, ?_, by decide⟩
    · show ∀ t ∈ m.tokens, _
      rw [htokens]
      decide
    · show m.sources.length ≤ _
      rw [hsources]
      decide
  obtain ⟨previous, hfound, hfile, hroot, hmap⟩ : ∃ previous,
      PreviousMap.discover .empty text (some "src/y/b.css") .auto = .ok (some previous) ∧
      previous.file = some "src/y/b.css" ∧ previous.root = some "src/y" ∧
      previous.map = m.reread :=
    ⟨_, PreviousMap.discover_inline (p := ⟨.enabled {}, {}, first, []⟩) rfl hwritable i.text .empty
      (some "src/y/b.css"), rfl, by decide +kernel, rfl⟩
  have hu : previous.tokenAt? 0 0 = some ⟨0, 0, some 0, 0, 0, none, false⟩ := by
    rw [PreviousMap.tokenAt?, hmap, lookup_reread, lookup, htokens]
    decide
  have hof : previous.map.sourceOf ⟨0, 0, some 0, 0, 0, none, false⟩ =
      some (first.sourceName "src/x/a.css") := by
    rw [hmap, hname]
    show m.sources[0]? = _
    rw [hsources]
    rfl
  have hname' : next.previousSourceName previous.root (first.sourceName "src/x/a.css") =
      "../src/y/../x/a.css" := by
    rw [hroot, hname]
    decide +kernel
  obtain ⟨hown, hleads, htraced, hleads'⟩ := sources_lead_back ha hb hc (some "src/x/a.css")
    (some "src/y/b.css") hfound (.inl hfile) (fun _ => some i)
    (fun _ => some ⟨text, some "src/y/b.css", "", false, some previous⟩) false false
    [⟨0, 0, 0, 0, 0⟩] [⟨0, 0, 0, 0, 0⟩]
  obtain ⟨t, ht, -, hs⟩ := hown _ (.head _) i rfl rfl rfl
  obtain ⟨t', ht', -, -, -, -, hs'⟩ := htraced _ (.head _) _ _ rfl rfl hu hof
  rw [hname'] at hs' hleads'
  rw [hname] at hs hleads
  exact ⟨previous, hfound, ⟨t, ht, hs⟩, hleads, ⟨t', ht', hs'⟩, hleads'⟩

end SourceMap

end Stylesheet
