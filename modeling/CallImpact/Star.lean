import CallImpact.Neighbourhood
import CallImpact.Text.Decimal

/-!
# Stars

The drawing of a neighbourhood: a small graph with the function in the centre
and one node for each callee and each caller.  Every edge points from a caller to
a callee, so a function that is both has two nodes.
-/

namespace CallImpact

/-- What a node of a star stands for. -/
inductive Role where
  | target
  | direct
deriving DecidableEq

namespace Role

def name : Role → String
  | target => "target"
  | direct => "direct"

def ofName? : String → Option Role
  | "target" => some target
  | "direct" => some direct
  | _ => none

theorem ofName?_name (r : Role) : ofName? r.name = some r := by
  cases r <;> rfl

end Role

structure StarNode where
  signature : Signature
  path : String
  role : Role
deriving DecidableEq

namespace StarNode

def ofFunction (role : Role) (f : LocatedFunction) : StarNode :=
  ⟨f.signature, f.path, role⟩

/-- A node reads `signature (path)`. -/
def text (n : StarNode) : String :=
  n.signature.text ++ " (" ++ n.path ++ ")"

end StarNode

/-- An edge of a star, between nodes given by their numbers. -/
structure StarEdge where
  source : Nat
  target : Nat
  relation : Relation
deriving DecidableEq

structure Star where
  nodes : List StarNode
  edges : List StarEdge
deriving DecidableEq

/-- The star of a neighbourhood: the centre is node zero, the callees come next
and the callers last. -/
def Neighbourhood.star (n : Neighbourhood) : Star where
  nodes := .ofFunction .target n.function ::
    (n.callees.map (.ofFunction .direct) ++ n.callers.map (.ofFunction .direct))
  edges :=
    (List.range n.callees.length).map (fun i => ⟨0, i + 1, .calls⟩) ++
    (List.range n.callers.length).map (fun i => ⟨n.callees.length + i + 1, 0, .calls⟩)

namespace Star

/-- A character as it stands in a quoted label. -/
def labelChar (c : Char) : List Char :=
  if c = '"' then ['\\', '"']
  else if c = '\\' then ['\\', '\\']
  else if c = '\n' then ['\\', 'l']
  else [c]

/-- A text as it stands in a quoted label. -/
def label (text : String) : String :=
  String.ofList (text.toList.flatMap labelChar)

def nodeLine (number : Nat) (n : StarNode) : String :=
  "    " ++ Text.decimal number ++ " [ label = \"" ++ label n.text ++ "\" ]\n"

def edgeLine (e : StarEdge) : String :=
  "    " ++ Text.decimal e.source ++ " -> " ++ Text.decimal e.target ++ " [ ]\n"

/-- The lines of the nodes, numbered from `number` on. -/
def nodeLines (number : Nat) : List StarNode → String
  | [] => ""
  | n :: rest => nodeLine number n ++ nodeLines (number + 1) rest

def edgeLines : List StarEdge → String
  | [] => ""
  | e :: rest => edgeLine e ++ edgeLines rest

/-- The star as a directed graph in the language of a graph drawing program. -/
def dot (s : Star) : String :=
  "digraph \x7b\n" ++ nodeLines 0 s.nodes ++ edgeLines s.edges ++ "\x7d\n"

end Star
end CallImpact
