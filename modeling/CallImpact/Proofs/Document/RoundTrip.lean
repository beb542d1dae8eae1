import CallImpact.Document.Kind
import CallImpact.Proofs.Document.Graph
import CallImpact.Proofs.Json.RoundTrip

/-!
# Documents are read back from their texts

Every kind of document is lawful, and what is exact and nests no deeper than allowed is read
back from its text.  So a value of any kind is read back from its text if its payloads hold no
doubles and its document nests no deeper than `Json.maxDepth`.
-/

namespace CallImpact

open Document

namespace DocumentKind

instance instCarriesPayloadsCarrier : (kind : DocumentKind) → CarriesPayloads kind.Carrier
  | point => inferInstanceAs (CarriesPayloads Point)
  | span => inferInstanceAs (CarriesPayloads Span)
  | language => inferInstanceAs (CarriesPayloads Language)
  | nodeId => inferInstanceAs (CarriesPayloads NodeId)
  | typedName => inferInstanceAs (CarriesPayloads TypedName)
  | functionDecl => inferInstanceAs (CarriesPayloads FunctionDecl)
  | occurrence => inferInstanceAs (CarriesPayloads Occurrence)
  | locatedFunction => inferInstanceAs (CarriesPayloads LocatedFunction)
  | functionFile => inferInstanceAs (CarriesPayloads (SourceFile FunctionDecl))
  | occurrenceFile => inferInstanceAs (CarriesPayloads (SourceFile Occurrence))
  | indexName => inferInstanceAs (CarriesPayloads IndexName)
  | signature => inferInstanceAs (CarriesPayloads Signature)
  | descriptor => inferInstanceAs (CarriesPayloads Descriptor)
  | relation => inferInstanceAs (CarriesPayloads Relation)
  | reach => inferInstanceAs (CarriesPayloads Reach)
  | graphSummary => inferInstanceAs (CarriesPayloads GraphSummary)
  | limits => inferInstanceAs (CarriesPayloads Limits)
  | role => inferInstanceAs (CarriesPayloads Role)
  | neighbourhood => inferInstanceAs (CarriesPayloads Neighbourhood)
  | digest => inferInstanceAs (CarriesPayloads Digest)
  | impactReport => inferInstanceAs (CarriesPayloads ImpactReport)
  | queryAnswer => inferInstanceAs (CarriesPayloads QueryAnswer)
  | chainTree => inferInstanceAs (CarriesPayloads (ChainTree String))
  | digestStore => inferInstanceAs (CarriesPayloads DigestStore)

instance instLawfulDocumentCarrier : (kind : DocumentKind) → LawfulDocument kind.Carrier
  | point => inferInstanceAs (LawfulDocument Point)
  | span => inferInstanceAs (LawfulDocument Span)
  | language => inferInstanceAs (LawfulDocument Language)
  | nodeId => inferInstanceAs (LawfulDocument NodeId)
  | typedName => inferInstanceAs (LawfulDocument TypedName)
  | functionDecl => inferInstanceAs (LawfulDocument FunctionDecl)
  | occurrence => inferInstanceAs (LawfulDocument Occurrence)
  | locatedFunction => inferInstanceAs (LawfulDocument LocatedFunction)
  | functionFile => inferInstanceAs (LawfulDocument (SourceFile FunctionDecl))
  | occurrenceFile => inferInstanceAs (LawfulDocument (SourceFile Occurrence))
  | indexName => inferInstanceAs (LawfulDocument IndexName)
  | signature => inferInstanceAs (LawfulDocument Signature)
  | descriptor => inferInstanceAs (LawfulDocument Descriptor)
  | relation => inferInstanceAs (LawfulDocument Relation)
  | reach => inferInstanceAs (LawfulDocument Reach)
  | graphSummary => inferInstanceAs (LawfulDocument GraphSummary)
  | limits => inferInstanceAs (LawfulDocument Limits)
  | role => inferInstanceAs (LawfulDocument Role)
  | neighbourhood => inferInstanceAs (LawfulDocument Neighbourhood)
  | digest => inferInstanceAs (LawfulDocument Digest)
  | impactReport => inferInstanceAs (LawfulDocument ImpactReport)
  | queryAnswer => inferInstanceAs (LawfulDocument QueryAnswer)
  | chainTree => inferInstanceAs (LawfulDocument (ChainTree String))
  | digestStore => inferInstanceAs (LawfulDocument DigestStore)

end DocumentKind

namespace Document

variable {α : Type} [Document α] [CarriesPayloads α] [LawfulDocument α] {value : α}

/-- The text of a document holds the tree of the document. -/
theorem ofString?_write (hintegral : ∀ p ∈ payloads value, p.tree.isIntegral = true)
    (hdepth : (toJson value).depth ≤ Json.maxDepth) :
    Json.ofString? (write value) = some (toJson value) :=
  Json.ofString?_render_of_depth_le (isExact_toJson value hintegral) hdepth

theorem read?_write_of_lawful (hintegral : ∀ p ∈ payloads value, p.tree.isIntegral = true)
    (hdepth : (toJson value).depth ≤ Json.maxDepth) : read? (write value) = some value := by
  rw [read?, ofString?_write hintegral hdepth, Option.bind_some, ofJson?_toJson]

end Document

/-- Values whose documents are read back: payloads hold no doubles, and containers nest no
deeper than allowed. -/
structure Storable {α : Type} [Document α] [CarriesPayloads α] (value : α) : Prop where
  integral : ∀ p ∈ payloads value, p.tree.isIntegral = true
  depth_le : (toJson value).depth ≤ Json.maxDepth

/-- A storable value of any kind is read back from its text.  Read as a payload, the text of a
neighbourhood gives the canonical form of its document. -/
theorem read?_write :
    (∀ (kind : DocumentKind) (value : kind.Carrier), Storable value →
      read? (write value) = some value) ∧
    ∀ n : Neighbourhood, Storable n →
      ((Json.ofString? (write n)).bind Payload.ofJson?).map Payload.tree =
        some (toJson n).canonical := by
  constructor
  · intro kind value h
    exact read?_write_of_lawful h.integral h.depth_le
  · intro n h
    obtain ⟨p, hp, htree⟩ := Payload.exists_ofJson?_eq_some (isExact_toJson n h.integral)
    rw [ofString?_write h.integral h.depth_le, Option.bind_some, hp, Option.map_some, htree]

/-- A function whose texts need escapes and whose payload has the extreme integers. -/
def quotedFunction : LocatedFunction where
  decl :=
    { name := "say \"hi\"\n\t\u0001", receiver := "Gruß\\🦀", parameters := [⟨"", "x"⟩]
      span := .ofRows 3 9
      extras := ⟨.object [("", .array [.int (-9223372036854775808), .null]),
        ("name", .int 18446744073709551615)], by decide⟩
      node := some ⟨18446744073709551615⟩ }
  path := "a/b.go"

/-- A neighbourhood in which that function calls itself. -/
def quotedNeighbourhood : Neighbourhood :=
  ⟨quotedFunction, [quotedFunction], [quotedFunction]⟩

/-- A report on that function, with chains of callers that split. -/
def quotedReport : ImpactReport :=
  ⟨quotedNeighbourhood.digest,
    [.node quotedFunction.signature [.node ⟨"\"f\""⟩ [], .node ⟨""⟩ [.node ⟨"\u007f/"⟩ []]]]⟩

theorem read?_write_quoted :
    Storable quotedReport ∧ read? (write quotedReport) = some quotedReport ∧
      Storable quotedNeighbourhood ∧
      ((Json.ofString? (write quotedNeighbourhood)).bind Payload.ofJson?).map Payload.tree =
        some (toJson quotedNeighbourhood).canonical := by
  have hreport : Storable quotedReport := ⟨by decide +kernel, by decide +kernel⟩
  have hneighbourhood : Storable quotedNeighbourhood := ⟨by decide +kernel, by decide +kernel⟩
  exact ⟨hreport, read?_write.1 .impactReport quotedReport hreport, hneighbourhood,
    read?_write.2 quotedNeighbourhood hneighbourhood⟩

end CallImpact
