import CallImpact.Language
import CallImpact.Payload
import CallImpact.Span

/-!
# Declared functions and occurrences of names

What an extractor finds in source files: declarations of functions, and
occurrences of names.  Both come in files, which carry the path; a declaration
joined with its path is a located function.
-/

namespace CallImpact

/-- The number of a parse-tree node, which only its extractor can resolve. -/
structure NodeId where
  value : UInt64
deriving DecidableEq

/-- A parameter or a returned value: its type and its name, either of which may
be empty. -/
structure TypedName where
  typeName : String
  name : String
deriving DecidableEq

structure FunctionDecl where
  name : String
  /-- The owning type of a method, empty for a free function. -/
  receiver : String := ""
  parameters : List TypedName := []
  returns : List TypedName := []
  /-- The line of the definition itself, annotations aside. -/
  defLine : UInt32 := 0
  span : Span
  /-- The body alone; empty if the extractor saw none. -/
  bodySpan : Span := default
  language : Language := .unknown
  extras : Payload := .empty
  node : Option NodeId := none
deriving DecidableEq

namespace FunctionDecl

/-- A free function without parameters, defined on the first line of its span. -/
def ofSpans (name : String) (span bodySpan : Span) : FunctionDecl :=
  { name, span, bodySpan, defLine := span.start.row }

def withReceiver (f : FunctionDecl) (receiver : String) : FunctionDecl :=
  { f with receiver }

def addParameter (f : FunctionDecl) (typeName name : String) : FunctionDecl :=
  { f with parameters := f.parameters ++ [⟨typeName, name⟩] }

def addReturn (f : FunctionDecl) (typeName name : String) : FunctionDecl :=
  { f with returns := f.returns ++ [⟨typeName, name⟩] }

/-- The region whose occurrences belong to the function: its body, or the whole
declaration if the body's span is empty. -/
def scope (f : FunctionDecl) : Span :=
  if f.bodySpan.isEmpty then f.span else f.bodySpan

end FunctionDecl

/-- A declaration and the path of its file. -/
structure LocatedFunction where
  decl : FunctionDecl
  path : String
deriving DecidableEq

/-- An occurrence of a name; declarations and references look the same. -/
structure Occurrence where
  text : String
  kind : String := ""
  span : Span
  fieldName : String := ""
  node : Option NodeId := none
deriving DecidableEq

namespace Occurrence

def line (o : Occurrence) : UInt32 :=
  o.span.start.row

/-- The occurrence reduced to its text, kind and span. -/
def bare (o : Occurrence) : Occurrence :=
  { text := o.text, kind := o.kind, span := o.span }

end Occurrence

/-- What was extracted from one file. -/
structure SourceFile (α : Type) where
  path : String
  language : Language := .unknown
  units : List α
deriving DecidableEq

namespace SourceFile

def isEmpty {α : Type} (file : SourceFile α) : Bool :=
  file.units.isEmpty

/-- The declarations of a file, each with its path, in file order. -/
def located (file : SourceFile FunctionDecl) : List LocatedFunction :=
  file.units.map (⟨·, file.path⟩)

end SourceFile

namespace LocatedFunction

def toFile (f : LocatedFunction) : SourceFile FunctionDecl :=
  ⟨f.path, f.decl.language, [f.decl]⟩

end LocatedFunction
end CallImpact
