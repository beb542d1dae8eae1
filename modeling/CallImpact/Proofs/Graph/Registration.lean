import CallImpact.Proofs.Graph.Invariant

/-!
# The vertices of a build

The vertices of a build are the functions with a new descriptor, in the order of the
input.  Every function of the input becomes a candidate, and the number of a
candidate is the place of its descriptor among the distinct ones.
-/

namespace CallImpact
namespace FunctionGraph

/-- The descriptors of functions, each once, in the order of their first
appearance. -/
def distinctDescriptors (functions : List LocatedFunction) : List Descriptor :=
  (functions.map LocatedFunction.descriptor).eraseDups

/-- The vertices of a graph are the first ones of each descriptor among functions. -/
structure Represents (g : FunctionGraph) (functions : List LocatedFunction) : Prop where
  descriptors_eq : g.vertices.map LocatedFunction.descriptor = distinctDescriptors functions
  first : ∀ f ∈ g.vertices,
    functions.find? (fun f' => decide (f'.descriptor = f.descriptor)) = some f

theorem represents_empty : Represents {} [] where
  descriptors_eq := rfl
  first := by
    intro f hf
    cases hf

/-- One more function is represented by the vertex that is there or by a new one. -/
theorem Represents.addVertex {g : FunctionGraph} {functions : List LocatedFunction}
    (h : g.Represents functions) (hg : g.WellFormed) (f : LocatedFunction) :
    (g.addVertex f).2.Represents (functions ++ [f]) := by
  have hkeep : ∀ f' ∈ g.vertices,
      (functions ++ [f]).find? (fun f'' => decide (f''.descriptor = f'.descriptor)) =
        some f' := by
    intro f' hf'
    rw [List.find?_append, h.first f' hf', Option.some_or]
  have hdescriptors : distinctDescriptors (functions ++ [f]) =
      if f.descriptor ∈ functions.map LocatedFunction.descriptor
      then distinctDescriptors functions
      else distinctDescriptors functions ++ [f.descriptor] := by
    rw [distinctDescriptors, List.map_append, List.map_cons, List.map_nil, eraseDups_concat]
    rfl
  have hmem : f.descriptor ∈ functions.map LocatedFunction.descriptor ↔
      f.descriptor ∈ g.vertices.map LocatedFunction.descriptor := by
    rw [h.descriptors_eq, distinctDescriptors, List.mem_eraseDups]
  cases hf : g.indexOf f.descriptor with
  | some v =>
    have hold := List.mem_of_getElem? ((hg.indexOf_iff f.descriptor v).mp hf)
    rw [addVertex_of_known hf]
    refine ⟨?_, hkeep⟩
    rw [hdescriptors, if_pos (hmem.mpr hold), h.descriptors_eq]
  | none =>
    have hnew := hg.indexOf_eq_none hf
    rw [addVertex_of_new hf]
    constructor
    · rw [hdescriptors, if_neg (fun hold => hnew (hmem.mp hold)), ← h.descriptors_eq]
      simp only [vertices, Multigraph.addVertex, List.map_append, List.map_cons, List.map_nil]
    · intro f' hf'
      rcases List.mem_append.mp hf' with hf' | hf'
      · exact hkeep f' hf'
      · rw [List.mem_singleton.mp hf', List.find?_append]
        have hnone : functions.find? (fun f'' => decide (f''.descriptor = f.descriptor)) =
            none := by
          rw [List.find?_eq_none]
          intro f'' hf'' heq
          apply hnew
          rw [← hmem, ← of_decide_eq_true heq]
          exact List.mem_map_of_mem hf''
        rw [hnone, Option.none_or]
        exact List.find?_cons_of_pos (decide_eq_true rfl)

/-- Adding functions leaves the vertices that represent them all. -/
theorem Represents.register {g : FunctionGraph} {functions : List LocatedFunction}
    (h : g.Represents functions) (hg : g.WellFormed) (more : List LocatedFunction) :
    (register g more).2.Represents (functions ++ more) := by
  induction more generalizing g functions with
  | nil =>
    rw [List.append_nil]
    exact h
  | cons f rest ih =>
    have hrest := ih (h.addVertex hg f) (wellFormed_addVertex hg f)
    rwa [List.append_assoc, List.cons_append, List.nil_append] at hrest

theorem map_function_register (g : FunctionGraph) (functions : List LocatedFunction) :
    (register g functions).1.map Candidate.function = functions := by
  induction functions generalizing g with
  | nil => rfl
  | cons f rest ih =>
    rw [register, List.map_cons, ih]

theorem edges_register (g : FunctionGraph) (functions : List LocatedFunction) :
    (register g functions).2.callGraph.edges = g.callGraph.edges := by
  induction functions generalizing g with
  | nil => rfl
  | cons f rest ih =>
    rw [register, ih]
    cases hf : g.indexOf f.descriptor with
    | some v => rw [addVertex_of_known hf]
    | none =>
      rw [addVertex_of_new hf]
      rfl

/-! ## The candidates of a build -/

/-- The candidates that the functions of all files become. -/
def buildCandidates (functionFiles : List (SourceFile FunctionDecl)) : List Candidate :=
  (register {} (functionsOf functionFiles)).1

theorem represents_register (functionFiles : List (SourceFile FunctionDecl)) :
    (register {} (functionsOf functionFiles)).2.Represents (functionsOf functionFiles) :=
  represents_empty.register wellFormed_empty _

/-- A candidate has the place of its descriptor among the distinct ones as its
number. -/
theorem getElem?_distinctDescriptors {functionFiles : List (SourceFile FunctionDecl)}
    {c : Candidate} (hc : c ∈ buildCandidates functionFiles) :
    (distinctDescriptors (functionsOf functionFiles))[c.vertex]? =
      some c.function.descriptor := by
  obtain ⟨hwf, hcandidates, -⟩ :=
    register_spec wellFormed_empty (functionsOf functionFiles)
  rw [← (represents_register functionFiles).descriptors_eq]
  exact (hwf.indexOf_iff _ _).mp (hcandidates c hc)

theorem distinctDescriptors_nodup (functionFiles : List (SourceFile FunctionDecl)) :
    (distinctDescriptors (functionsOf functionFiles)).Nodup := by
  obtain ⟨hwf, -, -⟩ := register_spec wellFormed_empty (functionsOf functionFiles)
  rw [← (represents_register functionFiles).descriptors_eq]
  exact hwf.descriptors_nodup

end FunctionGraph
end CallImpact
