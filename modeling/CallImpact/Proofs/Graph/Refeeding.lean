import CallImpact.Proofs.Graph.Correlation

/-!
# Functions that come a second time

If all functions of the input come once more in the same order, then each of them finds its
vertex, every scope is there twice, and every reference is added twice.  The last one of equal
scopes belongs to the same function in both copies, and an edge that is there is not added
again, so the graph stays the same, with its edges in the same order.
-/

namespace CallImpact
namespace FunctionGraph

/-! ## Vertices -/

theorem register_append (g : FunctionGraph) (functions more : List LocatedFunction) :
    register g (functions ++ more) =
      ((register g functions).1 ++ (register (register g functions).2 more).1,
        (register (register g functions).2 more).2) := by
  induction functions generalizing g with
  | nil => rfl
  | cons f rest ih =>
    rw [List.cons_append, register, register, ih]
    rfl

/-- Functions that have a vertex become the candidates for it, and no vertex is added. -/
theorem register_of_known {g : FunctionGraph} {candidates : List Candidate}
    (h : ∀ c ∈ candidates, g.indexOf c.function.descriptor = some c.vertex) :
    register g (candidates.map Candidate.function) = (candidates, g) := by
  induction candidates with
  | nil => rfl
  | cons c rest ih =>
    obtain ⟨hc, hrest⟩ := List.forall_mem_cons.mp h
    rw [List.map_cons, register, addVertex_of_known hc, ih hrest]

theorem register_append_self (functions : List LocatedFunction) :
    register {} (functions ++ functions) =
      ((register {} functions).1 ++ (register {} functions).1, (register {} functions).2) := by
  obtain ⟨-, hcandidates, -⟩ := register_spec wellFormed_empty functions
  have hagain := register_of_known hcandidates
  rw [map_function_register] at hagain
  rw [register_append, hagain]

/-! ## Owners -/

/-- A second copy of the candidates does not change which one encloses a span. -/
theorem enclosing?_append_self (candidates : List Candidate) (s : Span) :
    enclosing? (candidates ++ candidates) s = enclosing? candidates s := by
  have hscopes : ∀ scope, scope ∈ (candidates ++ candidates).map Candidate.scope ↔
      scope ∈ candidates.map Candidate.scope := by
    intro scope
    rw [List.map_append, List.mem_append, or_self]
  apply Option.ext
  intro c
  rw [enclosing?_eq_some_iff_getLast?, enclosing?_eq_some_iff_getLast?, isInnermost_congr hscopes,
    List.filter_append, List.getLast?_append, Option.or_self]

theorem ownedIn_append_self (candidates : List Candidate) :
    ownedIn (candidates ++ candidates) = ownedIn candidates := by
  funext file
  simp only [ownedIn, List.filter_append, enclosing?_append_self]

/-! ## References -/

theorem connect_append (g : FunctionGraph) (references more : List (Nat × Nat)) :
    g.connect (references ++ more) = (g.connect references).connect more :=
  List.foldl_append

/-- References that are there are not added again. -/
theorem connect_of_forall_mem {g : FunctionGraph} {references : List (Nat × Nat)}
    (h : ∀ e ∈ references, e ∈ g.callGraph.edges) : g.connect references = g := by
  induction references with
  | nil => rfl
  | cons e rest ih =>
    obtain ⟨he, hrest⟩ := List.forall_mem_cons.mp h
    rw [connect, List.foldl_cons, addReference_of_mem he]
    exact ih hrest

theorem references_append_self (limits : Limits)
    (functionFiles : List (SourceFile FunctionDecl))
    (occurrenceFiles : List (SourceFile Occurrence)) :
    references limits (functionFiles ++ functionFiles) occurrenceFiles =
      references limits functionFiles occurrenceFiles ++
        references limits functionFiles occurrenceFiles := by
  simp only [references, functionsOf, List.flatMap_append, register_append_self,
    ownedIn_append_self]

/-- If all files of functions come a second time, then the graph is the same one, with its
vertices and its edges in the same order. -/
theorem build_append_self (limits : Limits) (functionFiles : List (SourceFile FunctionDecl))
    (occurrenceFiles : List (SourceFile Occurrence)) :
    build limits (functionFiles ++ functionFiles) occurrenceFiles =
      build limits functionFiles occurrenceFiles := by
  have hfunctions : functionsOf (functionFiles ++ functionFiles) =
      functionsOf functionFiles ++ functionsOf functionFiles := List.flatMap_append
  have hthere : ∀ e ∈ references limits functionFiles occurrenceFiles,
      e ∈ (build limits functionFiles occurrenceFiles).callGraph.edges := by
    intro e he
    rw [build, edges_connect]
    exact Or.inr he
  rw [build, hfunctions, register_append_self, references_append_self, connect_append]
  exact connect_of_forall_mem hthere

end FunctionGraph
end CallImpact
