import CallImpact.Proofs.Graph.Correlation
import CallImpact.Proofs.Graph.Neighbours

/-!
# The order of the functions only numbers the vertices

Vertices are numbered in the order of the functions, and of several innermost scopes the last
one wins.  If in every path functions of the same scope have the same descriptor, then this
rule never chooses between descriptors: the owner of an occurrence is determined by the
positions of the scopes alone (`OwnsAs`), and so are the references, once they are written
with descriptors in place of numbers (`RefersAs`).
-/

namespace CallImpact
namespace FunctionGraph

/-- The references of the graph, as pairs of the descriptors of caller and callee. -/
def namedEdges (g : FunctionGraph) : List (Descriptor × Descriptor) :=
  g.callGraph.edges.filterMap fun e =>
    g.vertices[e.1]?.bind fun caller => g.vertices[e.2]?.map fun callee =>
      (caller.descriptor, callee.descriptor)

/-- Functions of one path that have the same scope have the same descriptor. -/
def ScopesTellApart (functions : List LocatedFunction) : Prop :=
  ∀ f ∈ functions, ∀ f' ∈ functions, f.path = f'.path → f.decl.scope = f'.decl.scope →
    f.descriptor = f'.descriptor

/-- Some function with the descriptor has an innermost scope around the span among the
functions of the path: no scope around the span starts later, and none that starts at the same
point stops earlier. -/
def OwnsAs (functions : List LocatedFunction) (path : String) (s : Span) (d : Descriptor) :
    Prop :=
  ∃ f ∈ functionsAt functions path, f.descriptor = d ∧ f.decl.scope.encloses s = true ∧
    ∀ f' ∈ functionsAt functions path, f'.decl.scope.encloses s = true →
      f'.decl.scope.start < f.decl.scope.start ∨
        f'.decl.scope.start = f.decl.scope.start ∧ f.decl.scope.stop ≤ f'.decl.scope.stop

/-- One descriptor refers to another one, as far as the limits allow it. -/
def RefersAs (limits : Limits) (functions : List LocatedFunction)
    (occurrenceFiles : List (SourceFile Occurrence)) (d e : Descriptor) : Prop :=
  d ≠ e ∧ ∃ f ∈ functions, f.descriptor = e ∧
    limits.minNameLength.toNat ≤ f.decl.name.length ∧
    (∃ file ∈ occurrenceFiles, ∃ o ∈ file.units,
      o.text = f.decl.name ∧ OwnsAs functions file.path o.span d) ∧
    ∀ limit, limits.maxReferences = some limit →
      ownedCount functions occurrenceFiles f.decl.name ≤ limit.toNat

variable {limits : Limits} {functions functions' : List LocatedFunction}
  {functionFiles : List (SourceFile FunctionDecl)}
  {occurrenceFiles : List (SourceFile Occurrence)} {path : String} {s : Span}
  {d e : Descriptor} {u : Nat}

/-! ## Owners -/

theorem exists_getElem?_distinctDescriptors {f : LocatedFunction} (hf : f ∈ functions) :
    ∃ u : Nat, (distinctDescriptors functions)[u]? = some f.descriptor := by
  rw [← List.mem_iff_getElem?, distinctDescriptors, List.mem_eraseDups]
  exact List.mem_map_of_mem hf

theorem OwnsAs.exists_getElem? (h : OwnsAs functions path s d) :
    ∃ u : Nat, (distinctDescriptors functions)[u]? = some d := by
  obtain ⟨f, hf, rfl, -⟩ := h
  exact exists_getElem?_distinctDescriptors (List.mem_filter.mp hf).1

theorem Owns.exists_getElem? (h : Owns functions path s u) :
    ∃ d, (distinctDescriptors functions)[u]? = some d := by
  obtain ⟨-, f, -, ⟨-, hplace⟩, -⟩ := h
  exact ⟨f.descriptor, hplace⟩

/-- A span inside some scope has an owner. -/
theorem OwnsAs.exists_owns (h : OwnsAs (functionsOf functionFiles) path s d) :
    ∃ u, Owns (functionsOf functionFiles) path s u := by
  obtain ⟨f, hf, -, hencloses, -⟩ := h
  exact any_encloses_iff.mp (List.any_eq_true.mpr ⟨f, hf, hencloses⟩)

theorem OwnsAs.of_owns (howns : Owns functions path s u)
    (hu : (distinctDescriptors functions)[u]? = some d) : OwnsAs functions path s d := by
  obtain ⟨i, f, hf, ⟨-, hplace⟩, hat⟩ := howns
  obtain ⟨-, hinner, -⟩ := innermostAt_iff.mp hat
  have hsame : f.descriptor = d := Option.some_inj.mp (hplace.symm.trans hu)
  refine ⟨f, List.mem_of_getElem? hf, hsame, hinner.encloses, ?_⟩
  intro f' hf'
  exact hinner.innermost f'.decl.scope (List.mem_map_of_mem hf')

/-- Two innermost scopes around a span are the same, whatever their places are. -/
theorem OwnsAs.unique (hscopes : ScopesTellApart functions) (hd : OwnsAs functions path s d)
    (he : OwnsAs functions path s e) : d = e := by
  obtain ⟨f, hf, rfl, hencloses, hinner⟩ := hd
  obtain ⟨f', hf', rfl, hencloses', hinner'⟩ := he
  obtain ⟨hmem, hpath⟩ := List.mem_filter.mp hf
  obtain ⟨hmem', hpath'⟩ := List.mem_filter.mp hf'
  have hle := hinner f' hf' hencloses'
  have hge := hinner' f hf hencloses
  have hstart : f.decl.scope.start = f'.decl.scope.start := by
    simp only [Point.lt_iff_rank, Point.le_iff_rank, Point.eq_iff_rank] at hle hge ⊢
    omega
  have hstop : f.decl.scope.stop = f'.decl.scope.stop := by
    simp only [Point.lt_iff_rank, Point.le_iff_rank, Point.eq_iff_rank] at hle hge ⊢
    omega
  apply hscopes f hmem f' hmem'
  · exact (of_decide_eq_true hpath).trans (of_decide_eq_true hpath').symm
  · exact congrArg₂ Span.mk hstart hstop

theorem OwnsAs.owns (hscopes : ScopesTellApart (functionsOf functionFiles))
    (h : OwnsAs (functionsOf functionFiles) path s d)
    (hu : (distinctDescriptors (functionsOf functionFiles))[u]? = some d) :
    Owns (functionsOf functionFiles) path s u := by
  obtain ⟨v, howns⟩ := h.exists_owns
  obtain ⟨d', hplace⟩ := howns.exists_getElem?
  obtain rfl := OwnsAs.unique hscopes (OwnsAs.of_owns howns hplace) h
  obtain rfl := getElem?_unique (distinctDescriptors_nodup functionFiles) hu hplace
  exact howns

theorem owns_iff_ownsAs (hscopes : ScopesTellApart (functionsOf functionFiles)) :
    Owns (functionsOf functionFiles) path s u ↔
      ∃ d, (distinctDescriptors (functionsOf functionFiles))[u]? = some d ∧
        OwnsAs (functionsOf functionFiles) path s d := by
  constructor
  · intro howns
    obtain ⟨d, hu⟩ := howns.exists_getElem?
    exact ⟨d, hu, OwnsAs.of_owns howns hu⟩
  · rintro ⟨d, hu, howns⟩
    exact howns.owns hscopes hu

theorem OwnsAs.of_perm (h : functions.Perm functions') (howns : OwnsAs functions path s d) :
    OwnsAs functions' path s d := by
  have hat : (functionsAt functions path).Perm (functionsAt functions' path) := h.filter _
  obtain ⟨f, hf, hd, hencloses, hinner⟩ := howns
  refine ⟨f, hat.mem_iff.mp hf, hd, hencloses, ?_⟩
  intro f' hf'
  exact hinner f' (hat.mem_iff.mpr hf')

/-! ## References -/

theorem ownedCount_eq_of_perm (h : functions.Perm functions')
    (occurrenceFiles : List (SourceFile Occurrence)) (name : String) :
    ownedCount functions occurrenceFiles name = ownedCount functions' occurrenceFiles name :=
  ownedCount_congr (fun _ _ => (h.filter _).any_eq) occurrenceFiles name

theorem RefersAs.of_perm (h : functions.Perm functions')
    (hrefers : RefersAs limits functions occurrenceFiles d e) :
    RefersAs limits functions' occurrenceFiles d e := by
  obtain ⟨hne, f, hf, he, hlong, ⟨file, hfile, o, ho, htext, howns⟩, hfew⟩ := hrefers
  refine ⟨hne, f, h.mem_iff.mp hf, he, hlong, ⟨file, hfile, o, ho, htext, howns.of_perm h⟩, ?_⟩
  intro limit hlimit
  rw [← ownedCount_eq_of_perm h]
  exact hfew limit hlimit

theorem mem_namedEdges_iff {g : FunctionGraph} :
    (d, e) ∈ g.namedEdges ↔ ∃ u v, (u, v) ∈ g.callGraph.edges ∧
      (g.vertices.map LocatedFunction.descriptor)[u]? = some d ∧
      (g.vertices.map LocatedFunction.descriptor)[v]? = some e := by
  simp only [namedEdges, List.mem_filterMap, Option.bind_eq_some_iff, Option.map_eq_some_iff,
    Prod.mk.injEq, getElem?_descriptors_iff]
  constructor
  · rintro ⟨⟨u, v⟩, hedge, caller, hcaller, callee, hcallee, rfl, rfl⟩
    exact ⟨u, v, hedge, ⟨caller, hcaller, rfl⟩, ⟨callee, hcallee, rfl⟩⟩
  · rintro ⟨u, v, hedge, ⟨caller, hcaller, rfl⟩, ⟨callee, hcallee, rfl⟩⟩
    exact ⟨(u, v), hedge, caller, hcaller, callee, hcallee, rfl, rfl⟩

/-- Different edges have different names. -/
theorem nodup_namedEdges {g : FunctionGraph} (hg : g.WellFormed) : g.namedEdges.Nodup := by
  refine List.Nodup.filterMap ?_ hg.edges_nodup
  rintro ⟨u, v⟩ ⟨u', v'⟩ ⟨d, e⟩ h h'
  simp only [Option.mem_def, Option.bind_eq_some_iff, Option.map_eq_some_iff,
    Prod.mk.injEq] at h h'
  obtain ⟨caller, hcaller, callee, hcallee, hd, he⟩ := h
  obtain ⟨caller', hcaller', callee', hcallee', hd', he'⟩ := h'
  have hu := hg.vertex_unique hcaller hcaller' (hd.trans hd'.symm)
  have hv := hg.vertex_unique hcallee hcallee' (he.trans he'.symm)
  rw [hu, hv]

/-- References between vertices are references between their descriptors. -/
theorem Refers.refersAs {v : Nat}
    (h : Refers limits (functionsOf functionFiles) occurrenceFiles u v)
    (hu : (distinctDescriptors (functionsOf functionFiles))[u]? = some d)
    (hv : (distinctDescriptors (functionsOf functionFiles))[v]? = some e) :
    RefersAs limits (functionsOf functionFiles) occurrenceFiles d e := by
  obtain ⟨hne, f, ⟨hf, hplace⟩, hlong, ⟨file, hfile, o, ho, htext, howns⟩, hfew⟩ := h
  refine ⟨?_, f, hf, Option.some_inj.mp (hplace.symm.trans hv), hlong,
    ⟨file, hfile, o, ho, htext, OwnsAs.of_owns howns hu⟩, hfew⟩
  rintro rfl
  exact hne (getElem?_unique (distinctDescriptors_nodup functionFiles) hu hv)

/-- The named references of a build are described without the order of its functions. -/
theorem mem_namedEdges_build_iff (hscopes : ScopesTellApart (functionsOf functionFiles)) :
    (d, e) ∈ (build limits functionFiles occurrenceFiles).namedEdges ↔
      RefersAs limits (functionsOf functionFiles) occurrenceFiles d e := by
  simp only [mem_namedEdges_iff, mem_edges_build_iff,
    (represents_build limits functionFiles occurrenceFiles).descriptors_eq]
  constructor
  · rintro ⟨u, v, hrefers, hd, he⟩
    exact hrefers.refersAs hd he
  · rintro ⟨hne, f, hf, rfl, hlong, ⟨file, hfile, o, ho, htext, howns⟩, hfew⟩
    obtain ⟨u, hu⟩ := howns.exists_getElem?
    obtain ⟨v, hv⟩ := exists_getElem?_distinctDescriptors hf
    refine ⟨u, v, ⟨?_, f, ⟨hf, hv⟩, hlong, ⟨file, hfile, o, ho, htext,
      howns.owns hscopes hu⟩, hfew⟩, hu, hv⟩
    rintro rfl
    exact hne (Option.some_inj.mp (hu.symm.trans hv))

/-- Functions in a different order, of which those of one path with the same scope have the
same descriptor, give graphs with the same descriptors and the same references between them. -/
theorem build_renumbered (limits : Limits)
    {functionFiles functionFiles' : List (SourceFile FunctionDecl)}
    (occurrenceFiles : List (SourceFile Occurrence))
    (hfunctions : (functionsOf functionFiles).Perm (functionsOf functionFiles'))
    (hscopes : ScopesTellApart (functionsOf functionFiles)) :
    let g := build limits functionFiles occurrenceFiles
    let g' := build limits functionFiles' occurrenceFiles
    (g.vertices.map LocatedFunction.descriptor).Perm
        (g'.vertices.map LocatedFunction.descriptor) ∧
      g.namedEdges.Perm g'.namedEdges := by
  intro g g'
  have hg : g.WellFormed := wellFormed_build limits functionFiles occurrenceFiles
  have hg' : g'.WellFormed := wellFormed_build limits functionFiles' occurrenceFiles
  have hscopes' : ScopesTellApart (functionsOf functionFiles') := by
    intro f hf f' hf'
    exact hscopes f (hfunctions.mem_iff.mpr hf) f' (hfunctions.mem_iff.mpr hf')
  constructor
  · rw [List.perm_ext_iff_of_nodup hg.descriptors_nodup hg'.descriptors_nodup]
    intro d
    rw [(represents_build limits functionFiles occurrenceFiles).descriptors_eq,
      (represents_build limits functionFiles' occurrenceFiles).descriptors_eq,
      distinctDescriptors, distinctDescriptors, List.mem_eraseDups, List.mem_eraseDups]
    exact (hfunctions.map _).mem_iff
  · rw [List.perm_ext_iff_of_nodup (nodup_namedEdges hg) (nodup_namedEdges hg')]
    rintro ⟨d, e⟩
    rw [mem_namedEdges_build_iff hscopes, mem_namedEdges_build_iff hscopes']
    exact ⟨RefersAs.of_perm hfunctions, RefersAs.of_perm hfunctions.symm⟩

/-- If the functions of a file come from the last to the first, their numbers and so the
edges change, but the references between the descriptors are the same. -/
theorem build_renumbered_three :
    let upwards : SourceFile FunctionDecl :=
      ⟨"m.go", .unknown, (threeFunctions "m.go").units.reverse⟩
    let g := build {} [threeFunctions "m.go"] [threeOccurrences "m.go"]
    let g' := build {} [upwards] [threeOccurrences "m.go"]
    g.callGraph.edges = [(0, 1), (0, 2), (1, 2)] ∧
      g'.callGraph.edges = [(2, 0), (1, 0), (2, 1)] ∧ g.namedEdges.Perm g'.namedEdges := by
  intro upwards g g'
  have hfunctions : (functionsOf [threeFunctions "m.go"]).Perm (functionsOf [upwards]) := by
    decide +kernel
  have hscopes : ScopesTellApart (functionsOf [threeFunctions "m.go"]) := by
    unfold ScopesTellApart
    decide +kernel
  obtain ⟨-, hnamed⟩ := build_renumbered {} [threeOccurrences "m.go"] hfunctions hscopes
  exact ⟨by decide +kernel, by decide +kernel, hnamed⟩

end FunctionGraph
end CallImpact
