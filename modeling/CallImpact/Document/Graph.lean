import CallImpact.Document.Entity
import CallImpact.Graph.Query
import CallImpact.Limits
import CallImpact.Star

/-!
# Documents of graphs and queries

The JSON forms of limits, relations, queries and their answers, neighbourhoods,
trees of chains, impact reports and stores.
-/

namespace CallImpact

open Document Record

instance : Document Relation where
  toJson r := .string r.name
  ofJson? := named? false Relation.ofName?

instance : Document Role where
  toJson r := .string r.name
  ofJson? := named? false Role.ofName?

instance : Document GraphSummary where
  toJson s := .object [("vertices", toJson s.vertices), ("edges", toJson s.edges),
    ("adjacency_ready", toJson s.tableReady)]
  ofJson? j := (slots? ["vertices", "edges", "adjacency_ready"] j).bind <|
    withSlot (required ofJson?) fun vertices =>
    withSlot (required ofJson?) fun edges =>
    withSlot (required ofJson?) fun ready =>
    noMore ⟨vertices, edges, ready⟩

namespace Document

/-- The form of a value that may be absent: null if it is. -/
def orNull {α : Type} [Document α] : Option α → Json
  | some value => toJson value
  | none => .null

end Document

instance : Document Limits where
  toJson l := .object [("min_index_name_len", toJson l.minNameLength),
    ("max_references_per_function", orNull l.maxReferences)]
  ofJson? j := (slots? ["min_index_name_len", "max_references_per_function"] j).bind <|
    withSlot (defaulted 0 ofJson?) fun minimum =>
    withSlot (optional ofJson?) fun maximum =>
    noMore ⟨minimum, maximum⟩

namespace Reach

/-- The depth that a mode and the remaining fields describe.  Going one hop
ignores the fields of an object, and admits none in an array. -/
def ofMode? (mode : String) (fields : Json) : Option Reach :=
  match mode with
  | "one_hop" =>
    match fields with
    | .array (_ :: _) => none
    | _ => some .oneHop
  | "bounded_chain" => do
    let [hops] ← slots? ["depth"] fields | none
    pure (.chains (← required ofJson? hops))
  | _ => none

end Reach

/-- The mode stands among the fields that it decides about, so all of them are
looked at before any is ignored. -/
instance : Document Reach where
  toJson
    | .oneHop => .object [("mode", .string "one_hop")]
    | .chains hops =>
      .object [("mode", .string "bounded_chain"), ("depth", toJson hops)]
  ofJson? j :=
    if j.isReadable then
      match j with
      | .object members => do
        let [mode] ← slotsOfMembers? ["mode"] members | none
        Reach.ofMode? (← required ofJson? mode)
          (.object (members.filter fun m => m.1 != "mode"))
      | .array (.string mode :: fields) => Reach.ofMode? mode (.array fields)
      | _ => none
    else none

namespace QueryAnswer

/-- The tags of the two kinds of answers. -/
inductive Mode where
  | oneHop
  | chains

def Mode.ofName? : String → Option Mode
  | "one_hop" => some .oneHop
  | "chains" => some .chains
  | _ => none

/-- The tag in a document of the given form: an object may write it as any name of
a kind is written, an array as a plain string only. -/
def Mode.ofTag? (document : Json) (tag : Json) : Option Mode :=
  match document, tag with
  | .array _, .string name => ofName? name
  | .array _, _ => none
  | _, tag => named? false ofName? tag

end QueryAnswer

instance : Document QueryAnswer where
  toJson
    | .oneHop functions =>
      .object [("mode", .string "one_hop"), ("functions", toJson functions)]
    | .chains chains => .object [("mode", .string "chains"), ("functions", toJson chains)]
  ofJson? j := do
    let [mode, functions] ← slots? ["mode", "functions"] j | none
    match ← required (QueryAnswer.Mode.ofTag? j) mode with
    | .oneHop => return .oneHop (← required ofJson? functions)
    | .chains => return .chains (← required ofJson? functions)

namespace Neighbourhood

def members (n : Neighbourhood) : List (String × Json) :=
  n.function.members ++ [("calls", toJson n.callees), ("reverseCalls", toJson n.callers)]

end Neighbourhood

instance : Document Neighbourhood where
  toJson n := .object n.members
  ofJson? j := do
    let members ← readableMembers? j
    let [callees, callers] ← slotsOfMembers? ["calls", "reverseCalls"] members | none
    let function ← LocatedFunction.ofMembers? members
    pure ⟨function, ← required ofJson? callees, ← required ofJson? callers⟩

namespace Digest

def members (d : Digest) : List (String × Json) :=
  d.function.members ++ [("calls", toJson d.callees), ("reverseCalls", toJson d.callers)]

def ofMembers? (members : List (String × Json)) : Option Digest := do
  let [callees, callers] ← slotsOfMembers? ["calls", "reverseCalls"] members | none
  let function ← LocatedFunction.ofMembers? members
  pure ⟨function, ← required ofJson? callees, ← required ofJson? callers⟩

end Digest

instance : Document Digest where
  toJson d := .object d.members
  ofJson? j := (readableMembers? j).bind Digest.ofMembers?

namespace ChainTree

variable {α : Type} [Document α]

mutual

def toJson : ChainTree α → Json
  | node content children =>
    .object [("content", Document.toJson content), ("children", .array (forestToJson children))]

def forestToJson : List (ChainTree α) → List Json
  | [] => []
  | t :: ts => toJson t :: forestToJson ts

end

/-- The tree with the given content and children, where `read` reads a child. -/
def ofSlots? (read : Json → Option (ChainTree α)) : List (Option Json) → Option (ChainTree α) :=
  withSlot (required ofJson?) fun content =>
  withSlot (required (ofArray? read)) fun children =>
  noMore (node content children)

/-- The tree that a document describes, if it nests no more than `depth` trees. -/
def ofJsonWithin? : Nat → Json → Option (ChainTree α)
  | 0, _ => none
  | depth + 1, j => (slots? ["content", "children"] j).bind (ofSlots? (ofJsonWithin? depth))

end ChainTree

/-- A tree nests no more trees than its document nests containers. -/
instance {α : Type} [Document α] : Document (ChainTree α) where
  toJson := ChainTree.toJson
  ofJson? j := ChainTree.ofJsonWithin? j.depth j

/-- The chains are read on their own; all other members have to have a value. -/
instance : Document ImpactReport where
  toJson r := .object (r.digest.members ++ [("reverseCallChains", toJson r.callerChains)])
  ofJson? j := do
    let members ← members? j
    let [chains] ← slotsOfMembers? ["reverseCallChains"] members | none
    let others ← readableMembers?
      (.object (members.filter fun m => m.1 != "reverseCallChains"))
    let digest ← Digest.ofMembers? others
    pure ⟨digest, ← required ofJson? chains⟩

namespace DigestStore

/-- Stores the digests that the members of an object describe under their keys. -/
def putMembers? : List (String × Json) → DigestStore → Option DigestStore
  | [], store => some store
  | (key, j) :: rest, store => do
    let digest ← ofJson? j
    putMembers? rest (store.put ⟨key⟩ digest)

end DigestStore

instance : Document DigestStore where
  toJson s := .object
    [("contexts", .object (s.entries.map fun entry => (entry.1.text, toJson entry.2)))]
  ofJson? j := (slots? ["contexts"] j).bind <|
    withSlot (required fun j => (members? j).bind (DigestStore.putMembers? · .empty)) noMore

end CallImpact
