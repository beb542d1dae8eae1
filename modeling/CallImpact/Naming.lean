import CallImpact.Function

/-!
# Three ways to name a function

From the coarsest to the finest:

* the index name is the bare identifier, matched against occurrences;
* the signature adds the receiver and the types, is stable across revisions and
  is the key of stored data;
* the descriptor adds the file and the span of the declaration, and is the
  identity of a vertex within one revision.
-/

namespace CallImpact

/-- A bare identifier. -/
structure IndexName where
  text : String
deriving DecidableEq

namespace IndexName

def length (n : IndexName) : Nat :=
  n.text.length

def isEmpty (n : IndexName) : Bool :=
  decide (n.text = "")

end IndexName

/-- Receiver, name and types of a function, as one text. -/
structure Signature where
  text : String
deriving DecidableEq

namespace Signature

instance : Inhabited Signature := ⟨⟨""⟩⟩

/-- The types of typed names, joined by commas. -/
def joinTypes (names : List TypedName) : String :=
  ",".intercalate (names.map TypedName.typeName)

/-- The text `receiver::name|parameter types|returned types`.  Stores and other
processes rely on every character of it. -/
def ofDecl (f : FunctionDecl) : Signature :=
  ⟨f.receiver ++ "::" ++ f.name ++ "|" ++ joinTypes f.parameters ++ "|" ++
    joinTypes f.returns⟩

end Signature

/-- The identity of a function within one revision. -/
structure Descriptor where
  path : String
  span : Span
  signature : Signature
deriving DecidableEq

/-- A descriptor reads `path#span#signature`. -/
def Descriptor.text (d : Descriptor) : String :=
  d.path ++ "#" ++ d.span.text ++ "#" ++ d.signature.text

def FunctionDecl.indexName (f : FunctionDecl) : IndexName :=
  ⟨f.name⟩

def FunctionDecl.signature (f : FunctionDecl) : Signature :=
  Signature.ofDecl f

def Occurrence.indexName (o : Occurrence) : IndexName :=
  ⟨o.text⟩

namespace LocatedFunction

/-- The signature, which does not depend on the path. -/
def signature (f : LocatedFunction) : Signature :=
  f.decl.signature

def descriptor (f : LocatedFunction) : Descriptor :=
  ⟨f.path, f.decl.span, f.signature⟩

end LocatedFunction
end CallImpact
