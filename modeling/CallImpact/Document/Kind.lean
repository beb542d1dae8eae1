import CallImpact.Document.Graph

/-!
# Kinds of documents

All document types under one roof: each kind has the type of its values, and that
type is a document.  What holds of every document is stated over kinds.
-/

namespace CallImpact

/-- The kinds of documents that are stored and exchanged. -/
inductive DocumentKind where
  | point
  | span
  | language
  | nodeId
  | typedName
  | functionDecl
  | occurrence
  | locatedFunction
  | functionFile
  | occurrenceFile
  | indexName
  | signature
  | descriptor
  | relation
  | reach
  | graphSummary
  | limits
  | role
  | neighbourhood
  | digest
  | impactReport
  | queryAnswer
  | chainTree
  | digestStore
deriving DecidableEq

namespace DocumentKind

def Carrier : DocumentKind → Type
  | point => Point
  | span => Span
  | language => Language
  | nodeId => NodeId
  | typedName => TypedName
  | functionDecl => FunctionDecl
  | occurrence => Occurrence
  | locatedFunction => LocatedFunction
  | functionFile => SourceFile FunctionDecl
  | occurrenceFile => SourceFile Occurrence
  | indexName => IndexName
  | signature => Signature
  | descriptor => Descriptor
  | relation => Relation
  | reach => Reach
  | graphSummary => GraphSummary
  | limits => Limits
  | role => Role
  | neighbourhood => Neighbourhood
  | digest => Digest
  | impactReport => ImpactReport
  | queryAnswer => QueryAnswer
  | chainTree => ChainTree String
  | digestStore => DigestStore

instance instDocumentCarrier : (kind : DocumentKind) → Document kind.Carrier
  | point => inferInstanceAs (Document Point)
  | span => inferInstanceAs (Document Span)
  | language => inferInstanceAs (Document Language)
  | nodeId => inferInstanceAs (Document NodeId)
  | typedName => inferInstanceAs (Document TypedName)
  | functionDecl => inferInstanceAs (Document FunctionDecl)
  | occurrence => inferInstanceAs (Document Occurrence)
  | locatedFunction => inferInstanceAs (Document LocatedFunction)
  | functionFile => inferInstanceAs (Document (SourceFile FunctionDecl))
  | occurrenceFile => inferInstanceAs (Document (SourceFile Occurrence))
  | indexName => inferInstanceAs (Document IndexName)
  | signature => inferInstanceAs (Document Signature)
  | descriptor => inferInstanceAs (Document Descriptor)
  | relation => inferInstanceAs (Document Relation)
  | reach => inferInstanceAs (Document Reach)
  | graphSummary => inferInstanceAs (Document GraphSummary)
  | limits => inferInstanceAs (Document Limits)
  | role => inferInstanceAs (Document Role)
  | neighbourhood => inferInstanceAs (Document Neighbourhood)
  | digest => inferInstanceAs (Document Digest)
  | impactReport => inferInstanceAs (Document ImpactReport)
  | queryAnswer => inferInstanceAs (Document QueryAnswer)
  | chainTree => inferInstanceAs (Document (ChainTree String))
  | digestStore => inferInstanceAs (Document DigestStore)

/-- Decodes the document that a text holds and encodes it again. -/
def recode? (kind : DocumentKind) (text : String) : Option Json :=
  (Document.read? text : Option kind.Carrier).map Document.toJson

end DocumentKind
end CallImpact
