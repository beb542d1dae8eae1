import CallImpact.Proofs.Graph.Pruning
import CallImpact.Proofs.Graph.Renumbering

/-!
# What functions with a known descriptor leave behind

Of the functions with one descriptor only the first one becomes a vertex.  The others are
candidates for that vertex nevertheless: their scopes own occurrences, they win against equal
scopes that come before them, and the occurrences of their names refer to the vertex.  So
without them a build has the same vertices, and it has the same edges for all occurrences
exactly if they change no owner and bring no name (`build_firsts`).
-/

namespace CallImpact
namespace FunctionGraph

/-- The functions whose descriptor no earlier function has. -/
def firsts (functions : List LocatedFunction) : List LocatedFunction :=
  functions.eraseDupsBy fun f f' => decide (f.descriptor = f'.descriptor)

/-- The functions that come after another one with their descriptor change no owner, unless
there is only one vertex, and bring no name under which a vertex is found by an owner of
occurrences. -/
structure RepeatsAddNothing (functions : List LocatedFunction) : Prop where
  same_owner : 1 < (distinctDescriptors functions).length → ∀ path s u,
    Owns (firsts functions) path s u ↔ Owns functions path s u
  same_name : ∀ u v f path s, u ≠ v → Owns functions path s u → StandsFor functions v f →
    ∃ f', StandsFor (firsts functions) v f' ∧ f'.decl.name = f.decl.name

/-- Functions with the same descriptor have the same name and the same scope. -/
def RepeatsAreCopies (functions : List LocatedFunction) : Prop :=
  ∀ f ∈ functions, ∀ f' ∈ functions, f.descriptor = f'.descriptor →
    f.decl.name = f'.decl.name ∧ f.decl.scope = f'.decl.scope

variable {limits : Limits} {functions functions' : List LocatedFunction}
  {functionFiles functionFiles' : List (SourceFile FunctionDecl)}
  {occurrenceFiles : List (SourceFile Occurrence)} {g : FunctionGraph}
  {path name : String} {s : Span} {f : LocatedFunction} {d : Descriptor} {u v : Nat}

/-! ## The first function of each descriptor -/

theorem map_descriptor_firsts (functions : List LocatedFunction) :
    (firsts functions).map LocatedFunction.descriptor = distinctDescriptors functions :=
  map_eraseDupsBy_key functions

theorem find?_of_mem_firsts (h : f ∈ firsts functions) :
    functions.find? (fun f' => decide (f'.descriptor = f.descriptor)) = some f :=
  find?_of_mem_eraseDupsBy_key h

theorem mem_of_mem_firsts (h : f ∈ firsts functions) : f ∈ functions :=
  List.mem_of_find?_eq_some (find?_of_mem_firsts h)

theorem exists_mem_firsts (h : f ∈ functions) :
    ∃ f' ∈ firsts functions, f'.descriptor = f.descriptor := by
  have hd : f.descriptor ∈ (firsts functions).map LocatedFunction.descriptor := by
    rw [map_descriptor_firsts, distinctDescriptors, List.mem_eraseDups]
    exact List.mem_map_of_mem h
  exact List.mem_map.mp hd

theorem distinctDescriptors_firsts (functions : List LocatedFunction) :
    distinctDescriptors (firsts functions) = distinctDescriptors functions := by
  rw [distinctDescriptors, map_descriptor_firsts, distinctDescriptors]
  exact eraseDups_of_nodup (nodup_eraseDups _)

theorem firsts_firsts (functions : List LocatedFunction) :
    firsts (firsts functions) = firsts functions := by
  have hkeys : (firsts (firsts functions)).map LocatedFunction.descriptor =
      (firsts functions).map LocatedFunction.descriptor := by
    rw [map_descriptor_firsts, map_descriptor_firsts, distinctDescriptors_firsts]
  refine eq_of_map_key_eq functions hkeys ?_ ?_
  · intro f hf
    exact find?_of_mem_firsts (mem_of_mem_firsts hf)
  · intro f hf
    exact find?_of_mem_firsts hf

theorem standsFor_firsts_iff :
    StandsFor (firsts functions) v f ↔ f ∈ firsts functions ∧ StandsFor functions v f := by
  rw [StandsFor, StandsFor, distinctDescriptors_firsts]
  exact and_congr_right fun hf => (and_iff_right (mem_of_mem_firsts hf)).symm

/-- Every vertex stands for the first function of its descriptor. -/
theorem exists_standsFor_firsts (hv : v < (distinctDescriptors functions).length) :
    ∃ f, StandsFor (firsts functions) v f := by
  rw [← map_descriptor_firsts, List.length_map] at hv
  refine ⟨(firsts functions)[v], List.getElem_mem hv, ?_⟩
  rw [distinctDescriptors_firsts, ← map_descriptor_firsts, List.getElem?_map,
    List.getElem?_eq_getElem hv, Option.map_some]

/-- The vertices are the first functions of each descriptor. -/
theorem Represents.vertices_eq (h : g.Represents functions) : g.vertices = firsts functions := by
  have hkeys := h.descriptors_eq.trans (map_descriptor_firsts functions).symm
  refine eq_of_map_key_eq functions hkeys ?_ ?_
  · exact h.first
  · intro f hf
    exact find?_of_mem_firsts hf

/-! ## Occurrences that tell whether a repeated function matters -/

/-- One occurrence of a text. -/
def soleOccurrence (path text : String) (s : Span) : List (SourceFile Occurrence) :=
  [⟨path, .unknown, [{ text, span := s }]⟩]

theorem refers_soleOccurrence_iff :
    Refers {} functions (soleOccurrence path name s) u v ↔
      u ≠ v ∧ (∃ f, StandsFor functions v f ∧ f.decl.name = name) ∧ Owns functions path s u := by
  rw [refers_iff_admits]
  refine and_congr_right fun _ => ?_
  simp only [soleOccurrence, List.mem_singleton, exists_eq_left]
  constructor
  · rintro ⟨f, hstands, -, rfl, howns⟩
    exact ⟨⟨f, hstands, rfl⟩, howns⟩
  · rintro ⟨⟨f, hstands, rfl⟩, howns⟩
    exact ⟨f, hstands, admits_default _ _ _, rfl, howns⟩

theorem StandsFor.lt_length (h : StandsFor functions v f) :
    v < (distinctDescriptors functions).length :=
  (List.getElem?_eq_some_iff.mp h.2).1

theorem Owns.lt_length (h : Owns functions path s u) :
    u < (distinctDescriptors functions).length := by
  obtain ⟨-, f, -, hstands, -⟩ := h
  exact hstands.lt_length

/-! ## Without the repeated functions -/

/-- An owner and another vertex are two vertices. -/
theorem one_lt_length (hne : u ≠ v) (howns : Owns functions path s u)
    (hstands : StandsFor functions v f) : 1 < (distinctDescriptors functions).length := by
  have hu := howns.lt_length
  have hv := hstands.lt_length
  omega

/-- If the repeated functions change no owner, the limits admit the same names without them. -/
theorem RepeatsAddNothing.admits_iff (h : RepeatsAddNothing (functionsOf functionFiles))
    (hfirsts : functionsOf functionFiles' = firsts (functionsOf functionFiles))
    (hmany : 1 < (distinctDescriptors (functionsOf functionFiles)).length) :
    Admits limits (functionsOf functionFiles') occurrenceFiles name ↔
      Admits limits (functionsOf functionFiles) occurrenceFiles name := by
  have hcount : ownedCount (functionsOf functionFiles') occurrenceFiles name =
      ownedCount (functionsOf functionFiles) occurrenceFiles name := by
    apply ownedCount_congr
    intro path s
    rw [Bool.eq_iff_iff, any_encloses_iff, any_encloses_iff, hfirsts]
    exact exists_congr fun u => h.same_owner hmany path s u
  constructor
  · rintro ⟨hlong, hfew⟩
    exact ⟨hlong, hcount ▸ hfew⟩
  · rintro ⟨hlong, hfew⟩
    exact ⟨hlong, hcount.symm ▸ hfew⟩

/-- If the repeated functions add nothing, the same references are found without them. -/
theorem RepeatsAddNothing.refers_iff (h : RepeatsAddNothing (functionsOf functionFiles))
    (hfirsts : functionsOf functionFiles' = firsts (functionsOf functionFiles)) :
    Refers limits (functionsOf functionFiles') occurrenceFiles u v ↔
      Refers limits (functionsOf functionFiles) occurrenceFiles u v := by
  rw [refers_iff_admits, refers_iff_admits]
  constructor
  · rintro ⟨hne, f, hstands, hname, file, hfile, o, ho, htext, howns⟩
    have hmany := one_lt_length hne howns hstands
    rw [hfirsts] at hstands howns hmany
    rw [distinctDescriptors_firsts] at hmany
    exact ⟨hne, f, (standsFor_firsts_iff.mp hstands).2, (h.admits_iff hfirsts hmany).mp hname,
      file, hfile, o, ho, htext, (h.same_owner hmany _ _ _).mp howns⟩
  · rintro ⟨hne, f, hstands, hname, file, hfile, o, ho, htext, howns⟩
    have hmany := one_lt_length hne howns hstands
    obtain ⟨f', hstands', hsame⟩ := h.same_name u v f file.path o.span hne howns hstands
    rw [← hsame] at hname htext
    rw [← h.same_owner hmany, ← hfirsts] at howns
    rw [← hfirsts] at hstands'
    exact ⟨hne, f', hstands', (h.admits_iff hfirsts hmany).mpr hname, file, hfile, o, ho, htext,
      howns⟩

/-- Repeated functions that make no difference for the references of single occurrences
add nothing. -/
theorem repeatsAddNothing_of_refers_iff
    (h : ∀ path name s u v, Refers {} (firsts functions) (soleOccurrence path name s) u v ↔
      Refers {} functions (soleOccurrence path name s) u v) :
    RepeatsAddNothing functions where
  same_owner := by
    intro hmany path s u
    -- The occurrence is one of the name of another vertex, so that its owner has an edge.
    obtain ⟨v, hv, hne⟩ : ∃ v, v < (distinctDescriptors functions).length ∧ u ≠ v := by
      by_cases hu : u = 0
      · exact ⟨1, hmany, by omega⟩
      · exact ⟨0, by omega, hu⟩
    obtain ⟨f, hstands⟩ := exists_standsFor_firsts hv
    have hrefers := h path f.decl.name s u v
    rw [refers_soleOccurrence_iff, refers_soleOccurrence_iff, and_iff_right hne,
      and_iff_right hne, and_iff_right ⟨f, hstands, rfl⟩,
      and_iff_right ⟨f, (standsFor_firsts_iff.mp hstands).2, rfl⟩] at hrefers
    exact hrefers
  same_name := by
    intro u v f path s hne howns hstands
    have hrefers := (h path f.decl.name s u v).mpr
      (refers_soleOccurrence_iff.mpr ⟨hne, ⟨f, hstands, rfl⟩, howns⟩)
    exact (refers_soleOccurrence_iff.mp hrefers).2.1

/-! ## Repeated functions that are copies -/

theorem mem_functionsAt_of_firsts (h : f ∈ functionsAt (firsts functions) path) :
    f ∈ functionsAt functions path := by
  obtain ⟨hf, hpath⟩ := List.mem_filter.mp h
  exact List.mem_filter.mpr ⟨mem_of_mem_firsts hf, hpath⟩

theorem RepeatsAreCopies.exists_mem_functionsAt (hcopies : RepeatsAreCopies functions)
    (h : f ∈ functionsAt functions path) :
    ∃ f' ∈ functionsAt (firsts functions) path,
      f'.descriptor = f.descriptor ∧ f'.decl.scope = f.decl.scope := by
  obtain ⟨hf, hpath⟩ := List.mem_filter.mp h
  obtain ⟨f', hf', hd⟩ := exists_mem_firsts hf
  obtain ⟨-, hscope⟩ := hcopies f' (mem_of_mem_firsts hf') f hf hd
  have hsame : f'.path = f.path := congrArg Descriptor.path hd
  rw [← hsame] at hpath
  exact ⟨f', List.mem_filter.mpr ⟨hf', hpath⟩, hd, hscope⟩

theorem RepeatsAreCopies.ownsAs_iff (hcopies : RepeatsAreCopies functions) :
    OwnsAs (firsts functions) path s d ↔ OwnsAs functions path s d := by
  constructor
  · rintro ⟨f, hf, rfl, hencloses, hinner⟩
    refine ⟨f, mem_functionsAt_of_firsts hf, rfl, hencloses, fun other hother henc => ?_⟩
    obtain ⟨first, hfirst, -, hscope⟩ := hcopies.exists_mem_functionsAt hother
    rw [← hscope] at henc ⊢
    exact hinner first hfirst henc
  · rintro ⟨f, hf, rfl, hencloses, hinner⟩
    obtain ⟨first, hfirst, hd, hscope⟩ := hcopies.exists_mem_functionsAt hf
    rw [← hscope] at hencloses hinner
    exact ⟨first, hfirst, hd, hencloses,
      fun other hother => hinner other (mem_functionsAt_of_firsts hother)⟩

theorem functionsOf_map_toFile (functions : List LocatedFunction) :
    functionsOf (functions.map LocatedFunction.toFile) = functions := by
  induction functions with
  | nil => rfl
  | cons f rest ih => exact congrArg (f :: ·) ih

/-- Copies of functions add nothing if equal scopes belong to functions of one descriptor. -/
theorem RepeatsAreCopies.addNothing (hcopies : RepeatsAreCopies (functionsOf functionFiles))
    (hscopes : ScopesTellApart (functionsOf functionFiles)) :
    RepeatsAddNothing (functionsOf functionFiles) where
  same_owner := by
    intro _ path s u
    have hfirsts := functionsOf_map_toFile (firsts (functionsOf functionFiles))
    have hscopes' : ScopesTellApart (firsts (functionsOf functionFiles)) := by
      intro f hf f' hf'
      exact hscopes f (mem_of_mem_firsts hf) f' (mem_of_mem_firsts hf')
    rw [← hfirsts] at hscopes' ⊢
    rw [owns_iff_ownsAs hscopes, owns_iff_ownsAs hscopes', hfirsts, distinctDescriptors_firsts]
    exact exists_congr fun d => and_congr_right fun _ => hcopies.ownsAs_iff
  same_name := by
    intro u v f path s _ _ hstands
    obtain ⟨first, hfirst, hd⟩ := exists_mem_firsts hstands.1
    obtain ⟨hname, -⟩ := hcopies first (mem_of_mem_firsts hfirst) f hstands.1 hd
    refine ⟨first, standsFor_firsts_iff.mpr ⟨hfirst, mem_of_mem_firsts hfirst, ?_⟩, hname⟩
    rw [hd]
    exact hstands.2

/-! ## Builds -/

/-- Without the functions whose descriptor an earlier function has, a build has the same
vertices.  It has the same edges for all occurrences and limits exactly if these functions add
nothing, and copies add nothing if no scope belongs to two descriptors. -/
theorem build_firsts
    (hfirsts : functionsOf functionFiles' = firsts (functionsOf functionFiles)) :
    (∀ limits occurrenceFiles,
      (build limits functionFiles' occurrenceFiles).vertices =
        (build limits functionFiles occurrenceFiles).vertices) ∧
      ((∀ limits occurrenceFiles r e,
          e ∈ (build limits functionFiles' occurrenceFiles).edges r ↔
            e ∈ (build limits functionFiles occurrenceFiles).edges r) ↔
        RepeatsAddNothing (functionsOf functionFiles)) ∧
      (RepeatsAreCopies (functionsOf functionFiles) →
        ScopesTellApart (functionsOf functionFiles) →
        RepeatsAddNothing (functionsOf functionFiles)) := by
  refine ⟨?_, ⟨?_, ?_⟩, RepeatsAreCopies.addNothing⟩
  · intro limits occurrenceFiles
    rw [(represents_build limits functionFiles' occurrenceFiles).vertices_eq,
      (represents_build limits functionFiles occurrenceFiles).vertices_eq, hfirsts, firsts_firsts]
  · intro hedges
    apply repeatsAddNothing_of_refers_iff
    intro path name s u v
    rw [← hfirsts, ← mem_edges_build_iff, ← mem_edges_build_iff]
    exact hedges {} (soleOccurrence path name s) .calls (u, v)
  · rintro hnothing limits occurrenceFiles r ⟨u, v⟩
    cases r with
    | calls =>
      exact mem_edges_build_iff.trans ((hnothing.refers_iff hfirsts).trans
        mem_edges_build_iff.symm)
    | callers =>
      rw [mem_edges_callers_build_iff, mem_edges_callers_build_iff]
      exact hnothing.refers_iff hfirsts

/-! ## What repeated functions leave -/

/-- A file without the functions whose descriptor an earlier one has. -/
def withoutRepeats (file : SourceFile FunctionDecl) : SourceFile FunctionDecl :=
  { file with units := (firsts file.located).map LocatedFunction.decl }

/-- The first function is there a second time with another body. -/
def twoBodies : SourceFile FunctionDecl where
  path := "m.go"
  units :=
    [.ofSpans "main" (.ofRows 0 9) (.ofRows 0 4), .ofSpans "main" (.ofRows 0 9) (.ofRows 5 9),
      .ofSpans "helper" (.ofRows 12 14) (.ofRows 12 14)]

/-- Receiver and name of two functions are one text that is split at different places. -/
def twoNames : SourceFile FunctionDecl where
  path := "m.go"
  units :=
    [.ofSpans "main" (.ofRows 0 5) (.ofRows 0 5),
      (FunctionDecl.ofSpans "Close" (.ofRows 7 9) (.ofRows 7 9)).withReceiver "io::File",
      (FunctionDecl.ofSpans "File::Close" (.ofRows 7 9) (.ofRows 7 9)).withReceiver "io"]

/-- The first function comes again after another one with the same scope. -/
def sameScopes : SourceFile FunctionDecl where
  path := "m.go"
  units :=
    [.ofSpans "first" (.ofRows 0 5) (.ofRows 0 5), .ofSpans "second" (.ofRows 0 5) (.ofRows 0 5),
      .ofSpans "first" (.ofRows 0 5) (.ofRows 0 5),
      .ofSpans "helper" (.ofRows 7 9) (.ofRows 7 9)]

/-- The body of the second copy owns an occurrence, so without it an edge is missing. -/
theorem build_firsts_twoBodies :
    let occurrences := soleOccurrence "m.go" "helper" (.ofRows 7 7)
    functionsOf [withoutRepeats twoBodies] = firsts (functionsOf [twoBodies]) ∧
      (build {} [withoutRepeats twoBodies] occurrences).vertices =
        (build {} [twoBodies] occurrences).vertices ∧
      ¬ RepeatsAddNothing (functionsOf [twoBodies]) := by
  intro occurrences
  have hfirsts : functionsOf [withoutRepeats twoBodies] = firsts (functionsOf [twoBodies]) := by
    decide +kernel
  obtain ⟨hvertices, hedges, -⟩ := build_firsts hfirsts
  refine ⟨hfirsts, hvertices {} occurrences, fun hnothing => ?_⟩
  have hsame := hedges.mpr hnothing {} occurrences .calls (0, 1)
  exact absurd (hsame.mpr (by decide +kernel)) (by decide +kernel)

/-- A repeated function leaves its scope, its name or its place among equal scopes: without it
there is no edge, no edge, and one from another vertex. -/
theorem build_firsts_leftovers :
    let calls (file : SourceFile FunctionDecl) (text : String) (row : UInt32) :=
      (build {} [file] (soleOccurrence "m.go" text (.ofRows row row))).callGraph.edges
    calls twoBodies "helper" 7 = [(0, 1)] ∧ calls (withoutRepeats twoBodies) "helper" 7 = [] ∧
      calls twoNames "File::Close" 2 = [(0, 1)] ∧
      calls (withoutRepeats twoNames) "File::Close" 2 = [] ∧
      calls sameScopes "helper" 2 = [(0, 2)] ∧
      calls (withoutRepeats sameScopes) "helper" 2 = [(1, 2)] := by
  decide +kernel

end FunctionGraph
end CallImpact
