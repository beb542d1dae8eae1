import CallImpact.Proofs.Graph.Registration
import Mathlib.Algebra.GroupWithZero.Nat

/-!
# Which references a build finds

A function refers to another one if it owns an occurrence of its name and the limits
allow the name.  Here this is said about the input alone, without the candidates, the
list of owned occurrences or the order in which references are added, and a build is
shown to find exactly these references.
-/

namespace CallImpact
namespace FunctionGraph

/-- The functions of a path, in the order of the input. -/
def functionsAt (functions : List LocatedFunction) (path : String) : List LocatedFunction :=
  functions.filter fun f => decide (f.path = path)

/-- The function is one of those that a vertex stands for. -/
def StandsFor (functions : List LocatedFunction) (v : Nat) (f : LocatedFunction) : Prop :=
  f ∈ functions ∧ (distinctDescriptors functions)[v]? = some f.descriptor

/-- The vertex stands for the function whose scope is the innermost one around a span
among the functions of a path. -/
def Owns (functions : List LocatedFunction) (path : String) (s : Span) (u : Nat) : Prop :=
  ∃ i f, (functionsAt functions path)[i]? = some f ∧ StandsFor functions u f ∧
    InnermostAt ((functionsAt functions path).map fun f => f.decl.scope) s i f.decl.scope

/-- How many occurrences of a name lie in the scope of some function of their path. -/
def ownedCount (functions : List LocatedFunction)
    (occurrenceFiles : List (SourceFile Occurrence)) (name : String) : Nat :=
  (occurrenceFiles.map fun file =>
    file.units.countP fun o =>
      decide (o.text = name) &&
        (functionsAt functions file.path).any fun f => f.decl.scope.encloses o.span).sum

/-- One vertex refers to another one, as far as the limits allow it. -/
def Refers (limits : Limits) (functions : List LocatedFunction)
    (occurrenceFiles : List (SourceFile Occurrence)) (u v : Nat) : Prop :=
  u ≠ v ∧ ∃ f, StandsFor functions v f ∧
    limits.minNameLength.toNat ≤ f.decl.name.length ∧
    (∃ file ∈ occurrenceFiles, ∃ o ∈ file.units,
      o.text = f.decl.name ∧ Owns functions file.path o.span u) ∧
    ∀ limit, limits.maxReferences = some limit →
      ownedCount functions occurrenceFiles f.decl.name ≤ limit.toNat

variable {functionFiles : List (SourceFile FunctionDecl)}

/-! ## Owners -/

/-- The candidates of a path are the functions of that path. -/
theorem map_function_candidatesAt (functionFiles : List (SourceFile FunctionDecl))
    (path : String) :
    ((buildCandidates functionFiles).filter fun c => decide (c.function.path = path)).map
        Candidate.function =
      functionsAt (functionsOf functionFiles) path := by
  rw [functionsAt, ← map_function_register {} (functionsOf functionFiles), List.filter_map]
  rfl

theorem standsFor_iff {u : Nat} {c : Candidate} (hc : c ∈ buildCandidates functionFiles) :
    StandsFor (functionsOf functionFiles) u c.function ↔ c.vertex = u := by
  have hplace := getElem?_distinctDescriptors hc
  constructor
  · rintro ⟨-, hu⟩
    exact getElem?_unique (distinctDescriptors_nodup functionFiles) hplace hu
  · rintro rfl
    refine ⟨?_, hplace⟩
    rw [← map_function_register {} (functionsOf functionFiles)]
    exact List.mem_map_of_mem hc

/-- The enclosing candidate of a span is the one whose vertex owns it. -/
theorem owns_iff {path : String} {s : Span} {u : Nat} :
    Owns (functionsOf functionFiles) path s u ↔
      ∃ owner,
        enclosing? ((buildCandidates functionFiles).filter
          fun c => decide (c.function.path = path)) s = some owner ∧ owner.vertex = u := by
  have hfunctions := map_function_candidatesAt functionFiles path
  have hscopes : ((functionsAt (functionsOf functionFiles) path).map fun f => f.decl.scope) =
      ((buildCandidates functionFiles).filter
        fun c => decide (c.function.path = path)).map Candidate.scope := by
    rw [← hfunctions, List.map_map]
    rfl
  constructor
  · rintro ⟨i, f, hf, hstands, hinner⟩
    rw [← hfunctions, List.getElem?_map, Option.map_eq_some_iff] at hf
    obtain ⟨c, hc, rfl⟩ := hf
    rw [hscopes] at hinner
    have hmem := (List.mem_filter.mp (List.mem_of_getElem? hc)).1
    exact ⟨c, enclosing?_eq_some_iff.mpr ⟨i, hc, hinner⟩, (standsFor_iff hmem).mp hstands⟩
  · rintro ⟨c, hc, hu⟩
    obtain ⟨i, hi, hinner⟩ := enclosing?_eq_some_iff.mp hc
    have hmem := (List.mem_filter.mp (List.mem_of_getElem? hi)).1
    rw [← hscopes] at hinner
    refine ⟨i, c.function, ?_, (standsFor_iff hmem).mpr hu, hinner⟩
    rw [← hfunctions, List.getElem?_map, hi, Option.map_some]

/-! ## Owned occurrences -/

theorem mem_owned_iff {occurrenceFiles : List (SourceFile Occurrence)} {name : IndexName}
    {u : Nat} :
    (name, u) ∈ occurrenceFiles.flatMap (ownedIn (buildCandidates functionFiles)) ↔
      ∃ file ∈ occurrenceFiles, ∃ o ∈ file.units,
        o.text = name.text ∧ Owns (functionsOf functionFiles) file.path o.span u := by
  rw [List.mem_flatMap]
  refine exists_congr fun file => and_congr_right fun _ => ?_
  rw [ownedIn, List.mem_filterMap]
  refine exists_congr fun o => and_congr_right fun _ => ?_
  rw [owns_iff, Option.map_eq_some_iff]
  constructor
  · rintro ⟨owner, howner, heq⟩
    rw [Prod.mk.injEq] at heq
    obtain ⟨rfl, hu⟩ := heq
    exact ⟨rfl, owner, howner, hu⟩
  · rintro ⟨hname, owner, howner, rfl⟩
    refine ⟨owner, howner, ?_⟩
    rw [Occurrence.indexName, hname]

theorem any_encloses_eq_isSome (path : String) (s : Span) :
    ((functionsAt (functionsOf functionFiles) path).any fun f => f.decl.scope.encloses s) =
      (enclosing? ((buildCandidates functionFiles).filter
        fun c => decide (c.function.path = path)) s).isSome := by
  rw [← map_function_candidatesAt, List.any_map, Bool.eq_iff_iff, List.any_eq_true]
  cases hfound : enclosing? ((buildCandidates functionFiles).filter
      fun c => decide (c.function.path = path)) s with
  | none =>
    have hnone := enclosing?_eq_none_iff.mp hfound
    constructor
    · rintro ⟨c, hc, hencloses⟩
      exact absurd hencloses (hnone c hc)
    · intro h
      cases h
  | some owner =>
    obtain ⟨i, hi, hinner⟩ := innermostAt_of_enclosing? hfound
    constructor
    · intro _
      rfl
    · intro _
      exact ⟨owner, List.mem_of_getElem? hi, hinner.encloses⟩

/-- A span in some scope of a path has an owner. -/
theorem any_encloses_iff {path : String} {s : Span} :
    ((functionsAt (functionsOf functionFiles) path).any
        fun f => f.decl.scope.encloses s) = true ↔
      ∃ u, Owns (functionsOf functionFiles) path s u := by
  simp only [any_encloses_eq_isSome, Option.isSome_iff_exists, owns_iff]
  constructor
  · rintro ⟨owner, howner⟩
    exact ⟨owner.vertex, owner, howner, rfl⟩
  · rintro ⟨-, owner, howner, -⟩
    exact ⟨owner, howner⟩

theorem ownedCount_congr {functions functions' : List LocatedFunction}
    (h : ∀ path s, ((functionsAt functions path).any fun f => f.decl.scope.encloses s) =
      (functionsAt functions' path).any fun f => f.decl.scope.encloses s)
    (occurrenceFiles : List (SourceFile Occurrence)) (name : String) :
    ownedCount functions occurrenceFiles name = ownedCount functions' occurrenceFiles name := by
  simp only [ownedCount, h]

/-- The owned occurrences of a name are counted with repetitions. -/
theorem length_owned_eq (occurrenceFiles : List (SourceFile Occurrence)) (name : IndexName) :
    ((occurrenceFiles.flatMap (ownedIn (buildCandidates functionFiles))).filter
        fun entry => decide (entry.1 = name)).length =
      ownedCount (functionsOf functionFiles) occurrenceFiles name.text := by
  rw [← List.countP_eq_length_filter, List.countP_flatMap, ownedCount]
  congr 1
  refine List.map_congr_left fun file _ => ?_
  rw [Function.comp_apply, ownedIn, List.countP_filterMap]
  refine List.countP_congr fun o _ => ?_
  have hname : o.indexName = name ↔ o.text = name.text := by
    rw [Occurrence.indexName, ← IndexName.mk.injEq]
  rw [any_encloses_eq_isSome]
  cases enclosing? ((buildCandidates functionFiles).filter
      fun c => decide (c.function.path = file.path)) o.span with
  | none => simp
  | some owner => simp [hname]

/-! ## Edges -/

theorem edges_connect {g : FunctionGraph} {references : List (Nat × Nat)} {e : Nat × Nat} :
    e ∈ (g.connect references).callGraph.edges ↔ e ∈ g.callGraph.edges ∨ e ∈ references := by
  induction references generalizing g with
  | nil => simp [connect]
  | cons first rest ih =>
    have hrest := ih (g := g.addReference first.1 first.2)
    rw [connect] at hrest ⊢
    rw [List.foldl_cons, hrest, mem_edges_addReference, List.mem_cons, or_assoc]

theorem vertices_connect (g : FunctionGraph) (references : List (Nat × Nat)) :
    (g.connect references).vertices = g.vertices := by
  induction references generalizing g with
  | nil => rfl
  | cons first rest ih =>
    have hrest := ih (g.addReference first.1 first.2)
    rw [vertices_addReference] at hrest
    rw [connect, List.foldl_cons]
    exact hrest

theorem vertices_build (limits : Limits) (functionFiles : List (SourceFile FunctionDecl))
    (occurrenceFiles : List (SourceFile Occurrence)) :
    (build limits functionFiles occurrenceFiles).vertices =
      (register {} (functionsOf functionFiles)).2.vertices :=
  vertices_connect _ _

theorem mem_referrers_iff (limits : Limits) (owned : List (IndexName × Nat))
    (name : IndexName) (u : Nat) :
    u ∈ referrers limits owned name ↔
      limits.minNameLength.toNat ≤ name.length ∧ (name, u) ∈ owned ∧
        ∀ limit, limits.maxReferences = some limit →
          (owned.filter fun entry => decide (entry.1 = name)).length ≤ limit.toNat := by
  have howners : u ∈ (owned.filter fun entry => decide (entry.1 = name)).map Prod.snd ↔
      (name, u) ∈ owned := by
    constructor
    · intro h
      obtain ⟨⟨n, w⟩, hentry, rfl⟩ := List.mem_map.mp h
      obtain ⟨hentry, hname⟩ := List.mem_filter.mp hentry
      rwa [← of_decide_eq_true hname]
    · intro h
      exact List.mem_map.mpr ⟨(name, u), List.mem_filter.mpr ⟨h, decide_eq_true rfl⟩, rfl⟩
  have hshort : limits.tooShort name.length = false ↔
      limits.minNameLength.toNat ≤ name.length := by
    rw [Limits.tooShort, decide_eq_false_iff_not, Nat.not_lt]
  have hmany : ∀ n, limits.tooMany n = false ↔
      ∀ limit, limits.maxReferences = some limit → n ≤ limit.toNat := by
    intro n
    rw [Limits.tooMany]
    cases limits.maxReferences with
    | none => simp
    | some limit => simp
  rw [← hshort, ← hmany, ← howners, referrers, List.length_map]
  cases limits.tooShort name.length with
  | true => simp
  | false =>
    cases limits.tooMany (owned.filter fun entry => decide (entry.1 = name)).length with
    | true => simp
    | false => simp

theorem mem_references_iff {limits : Limits} {occurrenceFiles : List (SourceFile Occurrence)}
    {u v : Nat} :
    (u, v) ∈ references limits functionFiles occurrenceFiles ↔
      Refers limits (functionsOf functionFiles) occurrenceFiles u v := by
  have hreferences : references limits functionFiles occurrenceFiles =
      (buildCandidates functionFiles).flatMap (referencesTo limits
        (occurrenceFiles.flatMap (ownedIn (buildCandidates functionFiles)))) := rfl
  have hcandidate : ∀ c ∈ buildCandidates functionFiles,
      ((u, v) ∈ referencesTo limits
          (occurrenceFiles.flatMap (ownedIn (buildCandidates functionFiles))) c ↔
        u ≠ v ∧ c.vertex = v ∧
          limits.minNameLength.toNat ≤ c.function.decl.name.length ∧
          (∃ file ∈ occurrenceFiles, ∃ o ∈ file.units, o.text = c.function.decl.name ∧
            Owns (functionsOf functionFiles) file.path o.span u) ∧
          ∀ limit, limits.maxReferences = some limit →
            ownedCount (functionsOf functionFiles) occurrenceFiles c.function.decl.name ≤
              limit.toNat) := by
    intro c _
    have hreferrers := mem_referrers_iff limits
      (occurrenceFiles.flatMap (ownedIn (buildCandidates functionFiles)))
      c.function.decl.indexName u
    rw [mem_owned_iff, length_owned_eq] at hreferrers
    rw [referencesTo, List.mem_map]
    constructor
    · rintro ⟨caller, hcaller, heq⟩
      rw [Prod.mk.injEq] at heq
      obtain ⟨rfl, rfl⟩ := heq
      obtain ⟨hcaller, hne⟩ := List.mem_filter.mp hcaller
      exact ⟨of_decide_eq_true hne, rfl, hreferrers.mp hcaller⟩
    · rintro ⟨hne, rfl, hrest⟩
      exact ⟨u, List.mem_filter.mpr ⟨hreferrers.mpr hrest, decide_eq_true hne⟩, rfl⟩
  rw [hreferences, List.mem_flatMap]
  constructor
  · rintro ⟨c, hc, he⟩
    obtain ⟨hne, hv, hrest⟩ := (hcandidate c hc).mp he
    exact ⟨hne, c.function, (standsFor_iff hc).mpr hv, hrest⟩
  · rintro ⟨hne, f, hstands, hrest⟩
    have hf := hstands.1
    rw [← map_function_register {} (functionsOf functionFiles), List.mem_map] at hf
    obtain ⟨c, hc, rfl⟩ := hf
    exact ⟨c, hc, (hcandidate c hc).mpr ⟨hne, (standsFor_iff hc).mp hstands, hrest⟩⟩

theorem mem_edges_build_iff {limits : Limits}
    {occurrenceFiles : List (SourceFile Occurrence)} {u v : Nat} :
    (u, v) ∈ (build limits functionFiles occurrenceFiles).callGraph.edges ↔
      Refers limits (functionsOf functionFiles) occurrenceFiles u v := by
  rw [build, edges_connect, edges_register, mem_references_iff]
  constructor
  · rintro (h | h)
    · cases h
    · exact h
  · exact Or.inr

theorem represents_build (limits : Limits) (functionFiles : List (SourceFile FunctionDecl))
    (occurrenceFiles : List (SourceFile Occurrence)) :
    (build limits functionFiles occurrenceFiles).Represents (functionsOf functionFiles) := by
  obtain ⟨hdescriptors, hfirst⟩ := represents_register functionFiles
  have hvertices := vertices_connect (register {} (functionsOf functionFiles)).2
    (references limits functionFiles occurrenceFiles)
  rw [← hvertices] at hdescriptors hfirst
  exact ⟨hdescriptors, hfirst⟩

/-- The vertices of a build are the functions of the input, the first one of each
descriptor in the order of appearance, and its edges are the references between them. -/
theorem build_correlates (limits : Limits) (functionFiles : List (SourceFile FunctionDecl))
    (occurrenceFiles : List (SourceFile Occurrence)) :
    (build limits functionFiles occurrenceFiles).vertices.map LocatedFunction.descriptor =
        distinctDescriptors (functionsOf functionFiles) ∧
      (∀ f ∈ (build limits functionFiles occurrenceFiles).vertices,
        (functionsOf functionFiles).find?
          (fun f' => decide (f'.descriptor = f.descriptor)) = some f) ∧
      ∀ u v, (u, v) ∈ (build limits functionFiles occurrenceFiles).callGraph.edges ↔
        Refers limits (functionsOf functionFiles) occurrenceFiles u v := by
  obtain ⟨hdescriptors, hfirst⟩ := represents_build limits functionFiles occurrenceFiles
  exact ⟨hdescriptors, hfirst, fun u v => mem_edges_build_iff⟩

end FunctionGraph
end CallImpact
