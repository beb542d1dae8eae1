import CallImpact.Naming
import CallImpact.Relation

/-!
# The graph of references

Vertices are located functions, numbered in the order in which they were added;
a second function with the descriptor of a vertex is not added again.  The
references are kept in two graphs over the same vertices: one with the edges from
callers to callees, and one with the edges from callees to callers.
-/

namespace CallImpact

/-- A directed graph, in which an edge may occur several times.  Vertices are numbered
by the order of insertion, and edges are pairs of numbers, from source to target, in
the order of insertion. -/
structure Multigraph (α : Type) where
  vertices : List α := []
  edges : List (Nat × Nat) := []
deriving DecidableEq, Inhabited

namespace Multigraph

variable {α : Type}

/-- The number of vertices, which the next vertex gets as its number. -/
def order (g : Multigraph α) : Nat :=
  g.vertices.length

def vertex? (g : Multigraph α) (v : Nat) : Option α :=
  g.vertices[v]?

def addVertex (g : Multigraph α) (a : α) : Multigraph α :=
  { g with vertices := g.vertices ++ [a] }

/-- Adds an edge, also if there is one already. -/
def addEdge (g : Multigraph α) (source target : Nat) : Multigraph α :=
  { g with edges := g.edges ++ [(source, target)] }

def hasEdge (g : Multigraph α) (source target : Nat) : Bool :=
  decide ((source, target) ∈ g.edges)

end Multigraph

/-- The functions of one revision and the references between them. -/
structure FunctionGraph where
  callGraph : Multigraph LocatedFunction := {}
  callerGraph : Multigraph LocatedFunction := {}
  /-- Descriptors and the numbers of their vertices, the last one first. -/
  numbers : List (Descriptor × Nat) := []
deriving DecidableEq, Inhabited

/-- The size of a graph, and whether its neighbours were computed. -/
structure GraphSummary where
  vertices : UInt64
  edges : UInt64
  tableReady : Bool
deriving DecidableEq

namespace FunctionGraph

/-- The functions that are vertices, in the order of their numbers. -/
def vertices (g : FunctionGraph) : List LocatedFunction :=
  g.callGraph.vertices

def indexOf (g : FunctionGraph) (d : Descriptor) : Option Nat :=
  g.numbers.lookup d

def descriptors (g : FunctionGraph) : List Descriptor :=
  g.numbers.map Prod.fst

theorem mem_descriptors_of_indexOf {g : FunctionGraph} {d : Descriptor} {v : Nat}
    (h : g.indexOf d = some v) :
    d ∈ g.descriptors := by
  obtain ⟨before, after, heq, -⟩ := List.lookup_eq_some_iff.mp h
  simp [descriptors, heq]

/-- The number of the vertex with the descriptor of a function, which is added to
both graphs unless there is such a vertex. -/
def addVertex (g : FunctionGraph) (f : LocatedFunction) : Nat × FunctionGraph :=
  match g.indexOf f.descriptor with
  | some v => (v, g)
  | none =>
    (g.callGraph.order,
      { callGraph := g.callGraph.addVertex f
        callerGraph := g.callerGraph.addVertex f
        numbers := (f.descriptor, g.callGraph.order) :: g.numbers })

/-- Adds the reference of a caller to a callee in both directions, unless it is
there. -/
def addReference (g : FunctionGraph) (caller callee : Nat) : FunctionGraph :=
  if g.callGraph.hasEdge caller callee then g
  else
    { g with
      callGraph := g.callGraph.addEdge caller callee
      callerGraph := g.callerGraph.addEdge callee caller }

theorem addVertex_of_known {g : FunctionGraph} {f : LocatedFunction} {v : Nat}
    (h : g.indexOf f.descriptor = some v) :
    g.addVertex f = (v, g) := by
  rw [addVertex, h]

theorem addVertex_of_new {g : FunctionGraph} {f : LocatedFunction}
    (h : g.indexOf f.descriptor = none) :
    g.addVertex f =
      (g.callGraph.order,
        { callGraph := g.callGraph.addVertex f
          callerGraph := g.callerGraph.addVertex f
          numbers := (f.descriptor, g.callGraph.order) :: g.numbers }) := by
  rw [addVertex, h]

theorem addReference_of_mem {g : FunctionGraph} {caller callee : Nat}
    (h : (caller, callee) ∈ g.callGraph.edges) :
    g.addReference caller callee = g :=
  if_pos (decide_eq_true h)

theorem addReference_of_not_mem {g : FunctionGraph} {caller callee : Nat}
    (h : (caller, callee) ∉ g.callGraph.edges) :
    g.addReference caller callee =
      { g with
        callGraph := g.callGraph.addEdge caller callee
        callerGraph := g.callerGraph.addEdge callee caller } :=
  if_neg fun hdec => h (of_decide_eq_true hdec)

/-- The edges along a relation, in the order of insertion. -/
def edges (g : FunctionGraph) : Relation → List (Nat × Nat)
  | .calls => g.callGraph.edges
  | .callers => g.callerGraph.edges

def function? (g : FunctionGraph) (d : Descriptor) : Option LocatedFunction :=
  (g.indexOf d).bind g.callGraph.vertex?

def contains (g : FunctionGraph) (f : LocatedFunction) : Bool :=
  (g.indexOf f.descriptor).isSome

def withSignature (g : FunctionGraph) (s : Signature) : List LocatedFunction :=
  g.vertices.filter fun f => decide (f.signature = s)

/-- The vertices that occurrences of this name refer to. -/
def withIndexName (g : FunctionGraph) (n : IndexName) : List LocatedFunction :=
  g.vertices.filter fun f => decide (f.decl.indexName = n)

/-- The vertices of a file whose declaration touches one of the lines. -/
def touching (g : FunctionGraph) (path : String) (lines : List UInt32) :
    List LocatedFunction :=
  g.vertices.filter fun f => decide (f.path = path) && f.decl.span.containsAnyLine lines

end FunctionGraph
end CallImpact
