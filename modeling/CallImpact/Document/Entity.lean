import CallImpact.Document.Record
import CallImpact.Naming

/-!
# Documents of entities

The JSON forms of spans, languages, declarations, occurrences, files and
identities.

A located function is written flat: its path stands beside the fields of its
declaration.  Such a record has no array form, and all of its members are looked
at before any of them is ignored, so each has to have a value.
-/

namespace CallImpact

open Document Record

instance : Document Point where
  toJson p := .object [("row", toJson p.row), ("column", toJson p.column)]
  ofJson? j := (slots? ["row", "column"] j).bind <|
    withSlot (required ofJson?) fun row =>
    withSlot (required ofJson?) fun column =>
    noMore ⟨row, column⟩

instance : Document Span where
  toJson s := .object [("start", toJson s.start), ("end", toJson s.stop)]
  ofJson? j := (slots? ["start", "end"] j).bind <|
    withSlot (required ofJson?) fun start =>
    withSlot (required ofJson?) fun stop =>
    noMore ⟨start, stop⟩

namespace Document

/-- One of finitely many named values: its name, or an object whose only member
has that name and carries nothing.  Nothing is written `null`, and inside a flat
record also as an empty object. -/
def named? {α : Type} (inFlatRecord : Bool) (ofName? : String → Option α) :
    Json → Option α
  | .string name => ofName? name
  | .object [(name, .null)] => ofName? name
  | .object [(name, .object [])] => if inFlatRecord then ofName? name else none
  | _ => none

end Document

instance : Document Language where
  toJson l := .string l.name
  ofJson? := named? false Language.ofName?

instance : Document NodeId where
  toJson n := toJson n.value
  ofJson? j := (ofJson? j).map NodeId.mk

instance : Document TypedName where
  toJson t := .object [("type", toJson t.typeName), ("name", toJson t.name)]
  ofJson? j := (slots? ["type", "name"] j).bind <|
    withSlot (required ofJson?) fun typeName =>
    withSlot (required ofJson?) fun name =>
    noMore ⟨typeName, name⟩

namespace FunctionDecl

def fields : List String :=
  ["name", "receiver", "parameters", "returns", "defLine", "span", "bodySpan", "lang",
    "extras", "node"]

/-- The members of a written declaration.  An empty payload and a missing node
are left out. -/
def members (f : FunctionDecl) : List (String × Json) :=
  [("name", toJson f.name), ("receiver", toJson f.receiver),
    ("parameters", toJson f.parameters), ("returns", toJson f.returns),
    ("defLine", toJson f.defLine), ("span", toJson f.span),
    ("bodySpan", toJson f.bodySpan), ("lang", toJson f.language)] ++
  (if f.extras.isEmpty then [] else [("extras", f.extras.tree)]) ++
  (match f.node with
    | some node => [("node", toJson node)]
    | none => [])

def ofSlots? (inFlatRecord : Bool) : List (Option Json) → Option FunctionDecl :=
  withSlot (required ofJson?) fun name =>
  withSlot (defaulted "" ofJson?) fun receiver =>
  withSlot (defaulted [] ofJson?) fun parameters =>
  withSlot (defaulted [] ofJson?) fun returns =>
  withSlot (defaulted 0 ofJson?) fun defLine =>
  withSlot (required ofJson?) fun span =>
  withSlot (defaulted default ofJson?) fun bodySpan =>
  withSlot (defaulted .unknown (named? inFlatRecord Language.ofName?)) fun language =>
  withSlot (defaulted .empty Payload.ofJson?) fun extras =>
  withSlot (optional ofJson?) fun node =>
  noMore { name, receiver, parameters, returns, defLine, span, bodySpan, language, extras, node }

end FunctionDecl

instance : Document FunctionDecl where
  toJson f := .object f.members
  ofJson? j := (slots? FunctionDecl.fields j).bind (FunctionDecl.ofSlots? false)

instance : Document Occurrence where
  toJson o := .object
    ([("symbol", toJson o.text), ("kind", toJson o.kind), ("span", toJson o.span),
      ("fieldName", toJson o.fieldName)] ++
      (match o.node with
        | some node => [("node", toJson node)]
        | none => []))
  ofJson? j := (slots? ["symbol", "kind", "span", "fieldName", "node"] j).bind <|
    withSlot (required ofJson?) fun text =>
    withSlot (defaulted "" ofJson?) fun kind =>
    withSlot (required ofJson?) fun span =>
    withSlot (defaulted "" ofJson?) fun fieldName =>
    withSlot (optional ofJson?) fun node =>
    noMore { text, kind, span, fieldName, node }

namespace LocatedFunction

def members (f : LocatedFunction) : List (String × Json) :=
  f.decl.members ++ [("path", toJson f.path)]

def ofMembers? (members : List (String × Json)) : Option LocatedFunction := do
  let [path] ← slotsOfMembers? ["path"] members | none
  let slots ← slotsOfMembers? FunctionDecl.fields members
  pure ⟨← FunctionDecl.ofSlots? true slots, ← required ofJson? path⟩

end LocatedFunction

namespace Record

/-- The members of a flat record, all of which have a value. -/
def readableMembers? (j : Json) : Option (List (String × Json)) :=
  if j.isReadable then members? j else none

end Record

instance : Document LocatedFunction where
  toJson f := .object f.members
  ofJson? j := (readableMembers? j).bind LocatedFunction.ofMembers?

instance {α : Type} [Document α] : Document (SourceFile α) where
  toJson file := .object [("path", toJson file.path), ("language", toJson file.language),
    ("units", toJson file.units)]
  ofJson? j := (slots? ["path", "language", "units"] j).bind <|
    withSlot (required ofJson?) fun path =>
    withSlot (defaulted .unknown ofJson?) fun language =>
    withSlot (required ofJson?) fun units =>
    noMore { path, language, units }

instance : Document IndexName where
  toJson n := toJson n.text
  ofJson? j := (ofJson? j).map IndexName.mk

instance : Document Signature where
  toJson s := toJson s.text
  ofJson? j := (ofJson? j).map Signature.mk

instance : Document Descriptor where
  toJson d := .object [("path", toJson d.path), ("span", toJson d.span),
    ("signature", toJson d.signature)]
  ofJson? j := (slots? ["path", "span", "signature"] j).bind <|
    withSlot (required ofJson?) fun path =>
    withSlot (required ofJson?) fun span =>
    withSlot (required ofJson?) fun signature =>
    noMore ⟨path, span, signature⟩

end CallImpact
