import CallImpact.Batches
import CallImpact.DigestStore
import CallImpact.Graph.Neighbours

/-!
# Queries on a graph

The neighbourhood of a function, its related functions along one relation, chain
walks, and the digests of all vertices.  None of them depends on what was asked
before.
-/

namespace CallImpact

inductive QueryAnswer where
  | oneHop (functions : List LocatedFunction)
  | chains (chains : List (List LocatedFunction))
deriving DecidableEq

namespace QueryAnswer

def isEmpty : QueryAnswer → Bool
  | .oneHop functions => functions.isEmpty
  | .chains list => list.isEmpty

end QueryAnswer

namespace FunctionGraph

/-- A function with its direct neighbours; an unknown one is isolated. -/
def neighbourhood (g : FunctionGraph) (f : LocatedFunction) : Neighbourhood :=
  ⟨f, g.neighbours f.descriptor .calls, g.neighbours f.descriptor .callers⟩

def walk (g : FunctionGraph) (bounds : Walk.Bounds) (r : Relation) (d : Descriptor) :
    Walk.Outcome Descriptor :=
  (g.lookup r).walk bounds d

/-- The vertices of the descriptors of a chain. -/
def resolve (g : FunctionGraph) : List Descriptor → Except ImpactError (List LocatedFunction)
  | [] => .ok []
  | d :: rest =>
    match g.function? d with
    | none => .error (.nodeNotFound d.text)
    | some f => (g.resolve rest).map (f :: ·)

def resolveAll (g : FunctionGraph) :
    List (List Descriptor) → Except ImpactError (List (List LocatedFunction))
  | [] => .ok []
  | chain :: rest => do
    let functions ← g.resolve chain
    let others ← g.resolveAll rest
    pure (functions :: others)

/-- The answer to a query whose walk ended like this. -/
def relatedByChains (g : FunctionGraph) (outcome : Walk.Outcome Descriptor) :
    Except ImpactError QueryAnswer :=
  match outcome.result with
  | .error failure => .error (failure.toImpactError Descriptor.text)
  | .ok chains => (g.resolveAll chains).map .chains

/-- The related functions of a function along a relation.  Chains start with the
function itself; a function that is unknown to the graph has none. -/
def query (g : FunctionGraph) (f : LocatedFunction) (r : Relation) :
    Reach → Except ImpactError QueryAnswer
  | .oneHop => .ok (.oneHop (g.neighbours f.descriptor r))
  | .chains hops =>
    if g.contains f then
      g.relatedByChains (g.walk { maxDepth := some hops.toNat } r f.descriptor)
    else .ok (.chains [])

def digests (g : FunctionGraph) : List Digest :=
  g.vertices.map fun f => (g.neighbourhood f).digest

/-- The digests in batches, where a digest takes up `digestBytes` bytes.  Without room for a
batch there is no answer. -/
def digestBatches? (g : FunctionGraph) (digestBytes : Nat) (size : UInt64) :
    Option (List (List Digest)) :=
  batches? digestBytes size.toNat g.digests

def digestStore (g : FunctionGraph) : DigestStore :=
  .ofList g.digests

end FunctionGraph
end CallImpact
