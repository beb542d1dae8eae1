import CallImpact.Proofs.Graph.Neighbours
import CallImpact.Proofs.Walk.SimplePaths

/-!
# Chains in a graph of functions

The neighbours in a built graph never fail to be found and have different descriptors, so
a walk over the graph reports the full simple paths along its relation.  Callers are the
converse of callees, so the paths between a function without callers and one without callees
are reported from either end.
-/

namespace CallImpact

namespace FunctionGraph

variable {g : FunctionGraph}

theorem exists_listsExactly_walk (hg : g.WellFormed) (r : Relation) (maxDepth : Option Nat)
    (start : Descriptor) :
    ∃ found,
      ListsExactly
        (Walk.FullPath (fun d => (g.neighbours d r).map LocatedFunction.descriptor) maxDepth
          start) found ∧
      (g.walk { maxDepth } r start).result = .ok found := by
  have hfinite := (g.lookup r).finite_reachable start
  obtain ⟨found, hfound, hreports⟩ := Walk.exists_listsExactly_and_ends
    (fun d => nodup_descriptors_neighbours hg d r) (Or.inr hfinite)
  exact ⟨found, hfound, Walk.Lookup.result_walk_of_reports (fun _ => rfl) hreports⟩

end FunctionGraph

open Walk FunctionGraph in
/-- Over a lookup that never fails and repeats no successor, a walk reports each full
simple path from its start once and nothing else; over a built graph it does so along both
relations. -/
theorem walk_lists_fullPaths :
    (∀ (N : Type) [DecidableEq N] (successors : N → List N) (maxDepth : Option Nat)
        (start : N),
      (∀ n, (successors n).Nodup) →
      (maxDepth.isSome = true ∨ (reachable (fun n => .ok (successors n)) start).Finite) →
      ∃ found lookups,
        (∀ outcome, Search.Ends { maxDepth } (fun _ n => .ok (successors n)) start outcome ↔
          outcome = ⟨.ok found, lookups⟩) ∧
        found.Nodup ∧ ∀ c, c ∈ found ↔ FullPath successors maxDepth start c) ∧
    ∀ limits functionFiles occurrenceFiles r maxDepth start,
      ∃ found,
        ((build limits functionFiles occurrenceFiles).walk { maxDepth } r start).result =
          .ok found ∧
        found.Nodup ∧
        ∀ c, c ∈ found ↔
          FullPath
            (fun d => ((build limits functionFiles occurrenceFiles).neighbours d r).map
              LocatedFunction.descriptor) maxDepth start c := by
  constructor
  · intro N _ successors maxDepth start hnodup h
    obtain ⟨found, ⟨hfound, hmem⟩, lookups, hends⟩ := exists_listsExactly_and_ends hnodup h
    exact ⟨found, lookups, hends, hfound, hmem⟩
  · intro limits functionFiles occurrenceFiles r maxDepth start
    have hg := wellFormed_build limits functionFiles occurrenceFiles
    obtain ⟨found, ⟨hfound, hmem⟩, hwalk⟩ := exists_listsExactly_walk hg r maxDepth start
    exact ⟨found, hwalk, hfound, hmem⟩

open Walk in
/-- In a loop of two nodes that both lead to a third one, a path is full as soon as it
comes to the third node. -/
theorem walk_lists_fullPaths_loop :
    FullPath (fun n : Fin 3 => if n = 0 then [1, 2] else if n = 1 then [0, 2] else []) none 0
        [0, 1, 2] ∧
      ¬ FullPath (fun n : Fin 3 => if n = 0 then [1, 2] else if n = 1 then [0, 2] else [])
        none 0 [0, 1] := by
  obtain ⟨found, lookups, hends, -, hmem⟩ := walk_lists_fullPaths.1 (Fin 3)
    (fun n => if n = 0 then [1, 2] else if n = 1 then [0, 2] else []) none 0 (by decide)
    (Or.inr (Set.toFinite _))
  have houtcome := (hends ⟨.ok [[0, 1, 2], [0, 2]], [0, 1, 2]⟩).mp ⟨20, rfl⟩
  obtain ⟨hfound, -⟩ := Outcome.mk.inj houtcome
  obtain rfl := Except.ok.inj hfound
  constructor
  · exact (hmem _).mp (by decide)
  · intro hshort
    exact absurd ((hmem _).mpr hshort) (by decide)

namespace FunctionGraph

/-- Between a function that nothing calls and one that calls nothing, the chains of the walk
along callees are those of the walk along callers, read backwards. -/
theorem build_walks_mirror (limits : Limits) (functionFiles : List (SourceFile FunctionDecl))
    (occurrenceFiles : List (SourceFile Occurrence)) (maxDepth : Option Nat)
    (s t : Descriptor) :
    let g := build limits functionFiles occurrenceFiles
    g.neighbours s .callers = [] → g.neighbours t .calls = [] →
    ∃ forward backward,
      (g.walk { maxDepth } .calls s).result = .ok forward ∧
        (g.walk { maxDepth } .callers t).result = .ok backward ∧
        ∀ c, (c ∈ forward ∧ c.getLast? = some t) ↔
          (c.reverse ∈ backward ∧ c.reverse.getLast? = some s) := by
  intro g hs ht
  have hg : g.WellFormed := wellFormed_build limits functionFiles occurrenceFiles
  obtain ⟨forward, ⟨-, hforward⟩, hwalk⟩ := exists_listsExactly_walk hg .calls maxDepth s
  obtain ⟨backward, ⟨-, hbackward⟩, hwalk'⟩ := exists_listsExactly_walk hg .callers maxDepth t
  refine ⟨forward, backward, hwalk, hwalk', fun c => ?_⟩
  rw [hforward, hbackward]
  apply Walk.fullPath_reverse_iff
  · exact fun d e => mem_descriptors_callees_iff hg
  · rw [hs, List.map_nil]
  · rw [ht, List.map_nil]

/-- A file of four functions, one below the other. -/
def fourFunctions : SourceFile FunctionDecl where
  path := "m.go"
  units :=
    [.ofSpans "main" (.ofRows 0 9) (.ofRows 0 9), .ofSpans "left" (.ofRows 10 19) (.ofRows 10 19),
      .ofSpans "right" (.ofRows 20 29) (.ofRows 20 29),
      .ofSpans "last" (.ofRows 30 39) (.ofRows 30 39)]

/-- Occurrences by which the second and the third function refer to each other and lie
between the first and the fourth one. -/
def fourOccurrences : SourceFile Occurrence where
  path := "m.go"
  units :=
    [{ text := "left", span := .ofRows 2 2 }, { text := "right", span := .ofRows 3 3 },
      { text := "right", span := .ofRows 12 12 }, { text := "last", span := .ofRows 13 13 },
      { text := "left", span := .ofRows 22 22 }, { text := "last", span := .ofRows 23 23 }]

/-- The chain through both functions of a loop is found from its end. -/
theorem build_walks_mirror_four :
    let g := build {} [fourFunctions] [fourOccurrences]
    let first : Descriptor := ⟨"m.go", .ofRows 0 9, ⟨"::main||"⟩⟩
    let left : Descriptor := ⟨"m.go", .ofRows 10 19, ⟨"::left||"⟩⟩
    let right : Descriptor := ⟨"m.go", .ofRows 20 29, ⟨"::right||"⟩⟩
    let last : Descriptor := ⟨"m.go", .ofRows 30 39, ⟨"::last||"⟩⟩
    ∃ backward, (g.walk {} .callers last).result = .ok backward ∧
      [last, left, right, first] ∈ backward := by
  intro g first left right last
  obtain ⟨forward, backward, hforward, hbackward, hmirror⟩ :=
    build_walks_mirror {} [fourFunctions] [fourOccurrences] none first last
      (by decide +kernel) (by decide +kernel)
  have hfound : (g.walk {} .calls first).result.toOption.any
      (fun found => decide ([first, right, left, last] ∈ found)) = true := by
    decide +kernel
  rw [hforward] at hfound
  have hchain : [first, right, left, last] ∈ forward := of_decide_eq_true hfound
  exact ⟨backward, hbackward, ((hmirror _).mp ⟨hchain, rfl⟩).1⟩

end FunctionGraph
end CallImpact
