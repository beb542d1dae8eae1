import CallImpact.Graph.Query
import CallImpact.Walk.Stateful

/-!
# Sessions

A session answers requests about one graph.  It computes the table of neighbours
when a request first needs the neighbours of a known descriptor and keeps it from
then on.  The requests that need none leave the session as it is.

A walk asks the session, one question after another, so it is its first question about
a known descriptor that computes the table.
-/

namespace CallImpact

/-- A graph and its table of neighbours, as soon as it was computed. -/
structure Session where
  graph : FunctionGraph
  table : Option NeighbourTable := none

inductive Request where
  | stats
  | functions
  | edges (relation : Relation)
  | neighbours (descriptor : Descriptor) (relation : Relation)
  | function (descriptor : Descriptor)
  | contains (function : LocatedFunction)
  | bySignature (signature : Signature)
  | byIndexName (name : IndexName)
  | byLines (path : String) (lines : List UInt32)
  | neighbourhood (function : LocatedFunction)
  | query (function : LocatedFunction) (relation : Relation) (depth : Reach)
  | walk (bounds : Walk.Bounds) (relation : Relation) (start : Descriptor)
  | neighbourhoodsBySignature (signature : Signature)
  | neighbourhoodsByLines (path : String) (lines : List UInt32)
  /-- The neighbourhoods of all functions.  They are computed one by one, each when it is
  asked for; the request stands for asking for all of them, up to the last one. -/
  | allNeighbourhoods
  /-- The digests in batches.  A digest takes up `digestBytes` bytes, which depends on the
  machine. -/
  | digestBatches (digestBytes : Nat) (size : UInt64)
  | digestStore
  /-- Takes the graph out of the session and opens a new one with it. -/
  | reopen

inductive Answer where
  | stats (stats : GraphSummary)
  | functions (functions : List LocatedFunction)
  | edges (edges : List (Nat × Nat))
  | function (function : Option LocatedFunction)
  | contains (known : Bool)
  | neighbourhoods (neighbourhoods : List Neighbourhood)
  | related (related : Except ImpactError QueryAnswer)
  | outcome (outcome : Walk.Outcome Descriptor)
  /-- The batches, or `none` if there was no room to begin them and the request was broken
  off. -/
  | batches (batches : Option (List (List Digest)))
  | store (store : DigestStore)

namespace Session

/-- The session of a graph about which nothing was asked. -/
def ofGraph (g : FunctionGraph) : Session :=
  { graph := g }

/-- The table of neighbours, computed now if need be. -/
def currentTable (s : Session) : NeighbourTable :=
  s.table.getD s.graph.neighbourTable

/-- The session after its table was needed. -/
def withTable (s : Session) : Session :=
  { s with table := some s.currentTable }

/-- The graph of a session, with its table, in a new session. -/
def reopen (s : Session) : Session :=
  ⟨s.graph, s.table⟩

def stats (s : Session) : GraphSummary :=
  ⟨UInt64.ofNat s.graph.callGraph.order, UInt64.ofNat s.graph.callGraph.edges.length,
    s.table.isSome⟩

def neighbours (d : Descriptor) (r : Relation) : StateM Session (List LocatedFunction) :=
  fun s =>
    match s.graph.indexOf d with
    | none => ([], s)
    | some _ => (s.graph.neighboursIn s.currentTable d r, s.withTable)

theorem run_neighbours (d : Descriptor) (r : Relation) (s : Session) :
    (neighbours d r).run s =
      (s.graph.neighboursIn s.currentTable d r,
        if (s.graph.indexOf d).isSome then s.withTable else s) := by
  rw [StateT.run, neighbours, FunctionGraph.neighboursIn]
  cases s.graph.indexOf d with
  | none => rfl
  | some v => rfl

def neighbourhood (f : LocatedFunction) : StateM Session Neighbourhood := do
  let callees ← neighbours f.descriptor .calls
  let callers ← neighbours f.descriptor .callers
  return ⟨f, callees, callers⟩

def neighbourhoods : List LocatedFunction → StateM Session (List Neighbourhood)
  | [] => return []
  | f :: rest => do
    let first ← neighbourhood f
    let others ← neighbourhoods rest
    return first :: others

/-- The session answers the questions of a walk with the neighbours that it looks up. -/
def lookup (r : Relation) : Walk.StatefulLookup Session Descriptor where
  ask d := do
    let functions ← neighbours d r
    return .ok (functions.map LocatedFunction.descriptor)
  answers s := s.graph.lookupIn s.currentTable r
  answer_eq d s := by
    rw [StateT.run_bind, run_neighbours]
    rfl
  answers_eq d s := by
    rw [StateT.run_bind, run_neighbours]
    split
    · rfl
    · rfl

def walk (bounds : Walk.Bounds) (r : Relation) (d : Descriptor) :
    StateM Session (Walk.Outcome Descriptor) :=
  (lookup r).walk bounds d

def query (f : LocatedFunction) (r : Relation) :
    Reach → StateM Session (Except ImpactError QueryAnswer)
  | .oneHop => do
    let functions ← neighbours f.descriptor r
    return .ok (.oneHop functions)
  | .chains hops => do
    let graph := (← get).graph
    if graph.contains f then
      let outcome ← walk { maxDepth := some hops.toNat } r f.descriptor
      return graph.relatedByChains outcome
    else return .ok (.chains [])

/-- Looks up the neighbours of all vertices and keeps their digests. -/
def digests : StateM Session (List Digest) := do
  let all ← neighbourhoods (← get).graph.vertices
  return all.map Neighbourhood.digest

def answer : Request → StateM Session Answer
  | .stats => return .stats (← get).stats
  | .functions => return .functions (← get).graph.vertices
  | .edges r => return .edges ((← get).graph.edges r)
  | .neighbours d r => return .functions (← neighbours d r)
  | .function d => return .function ((← get).graph.function? d)
  | .contains f => return .contains ((← get).graph.contains f)
  | .bySignature s => return .functions ((← get).graph.withSignature s)
  | .byIndexName n => return .functions ((← get).graph.withIndexName n)
  | .byLines path lines => return .functions ((← get).graph.touching path lines)
  | .neighbourhood f => return .neighbourhoods [← neighbourhood f]
  | .query f r depth => return .related (← query f r depth)
  | .walk bounds r d => return .outcome (← walk bounds r d)
  | .neighbourhoodsBySignature s => do
    return .neighbourhoods (← neighbourhoods ((← get).graph.withSignature s))
  | .neighbourhoodsByLines path lines => do
    return .neighbourhoods (← neighbourhoods ((← get).graph.touching path lines))
  | .allNeighbourhoods => do
    return .neighbourhoods (← neighbourhoods (← get).graph.vertices)
  | .digestBatches digestBytes size => do
    -- the room is asked for before the first digest
    if hasRoom digestBytes size.toNat then
      return .batches (some (batches size.toNat (← digests)))
    else return .batches none
  | .digestStore => return .store (.ofList (← digests))
  | .reopen => do
    modify reopen
    return .stats (← get).stats

end Session
end CallImpact
