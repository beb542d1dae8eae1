import CallImpact.Proofs.Graph.Correlation
import CallImpact.Proofs.Graph.Neighbours

/-!
# Limits remove all references to a name or none

The limits speak about a name alone: how long it is, and how many of its occurrences have an
owner.  So they keep all references to the functions of a name or remove all of them, and
limits that are at least as strict keep no more.
-/

namespace CallImpact

/-- The limits are at least as strict as the loose ones. -/
structure Limits.Tightens (limits loose : Limits) : Prop where
  minNameLength_le : loose.minNameLength ≤ limits.minNameLength
  maxReferences_le : ∀ bound, loose.maxReferences = some bound →
    ∃ bound', limits.maxReferences = some bound' ∧ bound' ≤ bound

namespace FunctionGraph

variable {limits loose : Limits} {functions : List LocatedFunction}
  {occurrenceFiles : List (SourceFile Occurrence)} {name : String} {u v : Nat}

/-- The limits let the occurrences of a name refer to something. -/
structure Admits (limits : Limits) (functions : List LocatedFunction)
    (occurrenceFiles : List (SourceFile Occurrence)) (name : String) : Prop where
  long_enough : limits.minNameLength.toNat ≤ name.length
  few_enough : ∀ limit, limits.maxReferences = some limit →
    ownedCount functions occurrenceFiles name ≤ limit.toNat

/-- The default limits admit every name. -/
theorem admits_default (functions : List LocatedFunction)
    (occurrenceFiles : List (SourceFile Occurrence)) (name : String) :
    Admits {} functions occurrenceFiles name where
  long_enough := Nat.zero_le _
  few_enough := by
    intro limit hlimit
    cases hlimit

/-- Limits that are at least as strict admit no more names. -/
theorem Admits.of_tightens (hlimits : limits.Tightens loose)
    (h : Admits limits functions occurrenceFiles name) :
    Admits loose functions occurrenceFiles name where
  long_enough := by
    have hle := UInt64.le_iff_toNat_le.mp hlimits.minNameLength_le
    exact hle.trans h.long_enough
  few_enough := by
    intro bound hbound
    obtain ⟨bound', hbound', hle⟩ := hlimits.maxReferences_le bound hbound
    exact (h.few_enough bound' hbound').trans (UInt64.le_iff_toNat_le.mp hle)

/-- A vertex refers to another one as an owner of occurrences of an admitted name. -/
theorem refers_iff_admits :
    Refers limits functions occurrenceFiles u v ↔
      u ≠ v ∧ ∃ f, StandsFor functions v f ∧
        Admits limits functions occurrenceFiles f.decl.name ∧
        ∃ file ∈ occurrenceFiles, ∃ o ∈ file.units,
          o.text = f.decl.name ∧ Owns functions file.path o.span u := by
  refine and_congr_right fun _ => exists_congr fun f => and_congr_right fun _ => ?_
  constructor
  · rintro ⟨hlong, howned, hfew⟩
    exact ⟨⟨hlong, hfew⟩, howned⟩
  · rintro ⟨⟨hlong, hfew⟩, howned⟩
    exact ⟨hlong, howned, hfew⟩

theorem Refers.of_tightens (hlimits : limits.Tightens loose)
    (h : Refers limits functions occurrenceFiles u v) :
    Refers loose functions occurrenceFiles u v := by
  rw [refers_iff_admits] at h ⊢
  obtain ⟨hne, f, hstands, hadmits, howned⟩ := h
  exact ⟨hne, f, hstands, hadmits.of_tightens hlimits, howned⟩

/-- If all functions that a vertex stands for have one name, it is referred to as without limits
if the name is admitted, and not at all otherwise. -/
theorem refers_iff_of_forall_name (hname : ∀ f, StandsFor functions v f → f.decl.name = name) :
    Refers limits functions occurrenceFiles u v ↔
      Admits limits functions occurrenceFiles name ∧ Refers {} functions occurrenceFiles u v := by
  rw [refers_iff_admits, refers_iff_admits]
  constructor
  · rintro ⟨hne, f, hstands, hadmits, howned⟩
    exact ⟨hname f hstands ▸ hadmits, hne, f, hstands, admits_default _ _ _, howned⟩
  · rintro ⟨hadmits, hne, f, hstands, -, howned⟩
    exact ⟨hne, f, hstands, (hname f hstands).symm ▸ hadmits, howned⟩

theorem mem_edges_callers_build_iff {functionFiles : List (SourceFile FunctionDecl)} :
    (v, u) ∈ (build limits functionFiles occurrenceFiles).edges .callers ↔
      Refers limits (functionsOf functionFiles) occurrenceFiles u v := by
  rw [mem_edges_callers_iff (wellFormed_build limits functionFiles occurrenceFiles)]
  exact mem_edges_build_iff

/-- The vertices of a build do not depend on the limits.  Limits that are at least as strict keep
no more edges, and a vertex whose functions have one name keeps all callers that it has without
limits or none. -/
theorem build_pruned (limits loose : Limits) (functionFiles : List (SourceFile FunctionDecl))
    (occurrenceFiles : List (SourceFile Occurrence)) :
    let g := build limits functionFiles occurrenceFiles
    let looser := build loose functionFiles occurrenceFiles
    let unlimited := build {} functionFiles occurrenceFiles
    g.vertices = looser.vertices ∧
      (limits.Tightens loose → ∀ r, g.edges r ⊆ looser.edges r) ∧
      ∀ v name, (∀ f, StandsFor (functionsOf functionFiles) v f → f.decl.name = name) →
        (∀ u, (v, u) ∉ g.edges .callers) ∨
          ∀ u, (v, u) ∈ g.edges .callers ↔ (v, u) ∈ unlimited.edges .callers := by
  intro g looser unlimited
  refine ⟨?_, ?_, ?_⟩
  · exact (vertices_build limits _ _).trans (vertices_build loose _ _).symm
  · rintro hlimits r ⟨u, v⟩ he
    cases r with
    | calls => exact mem_edges_build_iff.mpr ((mem_edges_build_iff.mp he).of_tightens hlimits)
    | callers =>
      rw [mem_edges_callers_build_iff] at he ⊢
      exact he.of_tightens hlimits
  · intro v name hname
    by_cases hadmits : Admits limits (functionsOf functionFiles) occurrenceFiles name
    · right
      intro u
      rw [mem_edges_callers_build_iff, mem_edges_callers_build_iff,
        refers_iff_of_forall_name hname, and_iff_right hadmits]
    · left
      intro u
      rw [mem_edges_callers_build_iff, refers_iff_of_forall_name hname]
      exact fun h => hadmits h.1

/-- The last one of three functions has a shorter name than the second one, and it occurs twice.
Strict limits remove both references to it and keep the one to the second function. -/
theorem build_pruned_three :
    let strict : Limits := ⟨5, some 1⟩
    let large : Limits := ⟨0, some 2⟩
    let g := build strict [threeFunctions "m.go"] [threeOccurrences "m.go"]
    let looser := build large [threeFunctions "m.go"] [threeOccurrences "m.go"]
    strict.Tightens large ∧ g.edges .calls ⊆ looser.edges .calls ∧
      looser.edges .calls = [(0, 1), (0, 2), (1, 2)] ∧ g.edges .calls = [(0, 1)] ∧
      ∀ u, (1, u) ∈ g.edges .callers ↔
        (1, u) ∈ (build {} [threeFunctions "m.go"] [threeOccurrences "m.go"]).edges .callers := by
  intro strict large g looser
  have htightens : strict.Tightens large := by
    refine ⟨by decide, ?_⟩
    rintro bound hbound
    obtain rfl := Option.some_inj.mp hbound
    exact ⟨1, rfl, by decide⟩
  have hname : ∀ f, StandsFor (functionsOf [threeFunctions "m.go"]) 1 f →
      f.decl.name = "alpha" := by
    rintro f ⟨hf, hplace⟩
    revert hplace
    revert f
    decide +kernel
  obtain ⟨-, hedges, hcallers⟩ :=
    build_pruned strict large [threeFunctions "m.go"] [threeOccurrences "m.go"]
  refine ⟨htightens, hedges htightens .calls, by decide +kernel, by decide +kernel, ?_⟩
  rcases hcallers 1 "alpha" hname with hnone | hsame
  · exact absurd (by decide +kernel) (hnone 0)
  · exact hsame

end FunctionGraph
end CallImpact
