import CallImpact.Graph.Basic
import CallImpact.Limits

/-!
# Building the graph

Every occurrence of a name is attributed to the innermost function of its file
whose scope encloses it.  A function is then referred to by the owners of the
occurrences of its name.  Names alone are matched, so functions of one name
share their references whatever their receivers are.
-/

namespace CallImpact
namespace FunctionGraph

/-- A declaration that is a candidate for owning occurrences: where it stands
and the number of its vertex. -/
structure Candidate where
  function : LocatedFunction
  vertex : Nat
deriving DecidableEq

def Candidate.scope (c : Candidate) : Span :=
  c.function.decl.scope

/-- A later candidate wins against an earlier one if its scope starts later, or
if it starts at the same point and stops no later. -/
def Candidate.winsAgainst (later earlier : Candidate) : Bool :=
  decide (earlier.scope.start < later.scope.start ∨
    earlier.scope.start = later.scope.start ∧ later.scope.stop ≤ earlier.scope.stop)

/-- The candidate that no other one wins against. -/
def innermost? : List Candidate → Option Candidate
  | [] => none
  | c :: rest => some (rest.foldl (fun best c => if c.winsAgainst best then c else best) c)

def enclosing? (candidates : List Candidate) (s : Span) : Option Candidate :=
  innermost? (candidates.filter fun c => c.scope.encloses s)

/-- Adds the functions as vertices, in order.  Every function becomes a candidate
for the vertex that stands for it. -/
def register (g : FunctionGraph) : List LocatedFunction → List Candidate × FunctionGraph
  | [] => ([], g)
  | f :: rest =>
    let added := g.addVertex f
    let others := register added.2 rest
    (⟨f, added.1⟩ :: others.1, others.2)

/-- The owned occurrences of a file: the name of each and the vertex of its owner. -/
def ownedIn (candidates : List Candidate) (file : SourceFile Occurrence) :
    List (IndexName × Nat) :=
  let inFile := candidates.filter fun c => decide (c.function.path = file.path)
  file.units.filterMap fun o =>
    (enclosing? inFile o.span).map fun owner => (o.indexName, owner.vertex)

/-- The owners of the occurrences of a name, as far as the limits let them refer
to anything. -/
def referrers (limits : Limits) (owned : List (IndexName × Nat)) (name : IndexName) :
    List Nat :=
  let owners := (owned.filter fun entry => decide (entry.1 = name)).map Prod.snd
  if limits.tooShort name.length || limits.tooMany owners.length then [] else owners

/-- The references to a candidate, from a caller to a callee, in the order in which
the occurrences of its name are owned; a function does not refer to itself. -/
def referencesTo (limits : Limits) (owned : List (IndexName × Nat)) (c : Candidate) :
    List (Nat × Nat) :=
  let callers := referrers limits owned c.function.decl.indexName
  (callers.filter fun caller => decide (caller ≠ c.vertex)).map fun caller =>
    (caller, c.vertex)

def connect (g : FunctionGraph) (references : List (Nat × Nat)) : FunctionGraph :=
  references.foldl (fun g e => g.addReference e.1 e.2) g

def functionsOf (functionFiles : List (SourceFile FunctionDecl)) : List LocatedFunction :=
  functionFiles.flatMap SourceFile.located

/-- The references that a build adds, in order and with repetitions. -/
def references (limits : Limits) (functionFiles : List (SourceFile FunctionDecl))
    (occurrenceFiles : List (SourceFile Occurrence)) : List (Nat × Nat) :=
  let candidates := (register {} (functionsOf functionFiles)).1
  let owned := occurrenceFiles.flatMap (ownedIn candidates)
  candidates.flatMap (referencesTo limits owned)

/-- The graph of the extracted functions and occurrences. -/
def build (limits : Limits) (functionFiles : List (SourceFile FunctionDecl))
    (occurrenceFiles : List (SourceFile Occurrence)) : FunctionGraph :=
  (register {} (functionsOf functionFiles)).2.connect
    (references limits functionFiles occurrenceFiles)

end FunctionGraph
end CallImpact
