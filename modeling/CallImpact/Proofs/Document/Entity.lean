import CallImpact.Document.Entity
import CallImpact.Proofs.Json.Canonical
import Mathlib.Data.List.Nodup

/-!
# Entities are read back from their documents

What an object gives for the fields of a record does not depend on members with other names.
So a flat record is read back from its parts: the members of each part are read as if they
stood alone, as long as no two parts share a name.

A `LawfulDocument` is a type whose values are read back from their documents, and whose
documents hold doubles in payloads only.
-/

namespace CallImpact

open Document Record

/-! ## The slots of a record -/

namespace Record

variable {names : List String} {members more : List (String × Json)}

theorem filter_eq_nil {name : String} (h : name ∉ members.map Prod.fst) :
    members.filter (fun m => m.1 == name) = [] := by
  rw [List.filter_eq_nil_iff]
  intro m hm heq
  exact h (List.mem_map.mpr ⟨m, hm, beq_iff_eq.mp heq⟩)

/-- The same members under each of the names, in the same order. -/
def SameAt (names : List String) (members more : List (String × Json)) : Prop :=
  ∀ name ∈ names, members.filter (fun m => m.1 == name) = more.filter (fun m => m.1 == name)

theorem SameAt.mono {names' : List String} (h : SameAt names members more)
    (hnames : names' ⊆ names) : SameAt names' members more :=
  fun name hname => h name (hnames hname)

/-- Members with other names do not matter. -/
theorem slotsOfMembers?_congr (h : SameAt names members more) :
    slotsOfMembers? names members = slotsOfMembers? names more := by
  induction names with
  | nil => rfl
  | cons name names ih =>
    obtain ⟨hname, hnames⟩ := List.forall_mem_cons.mp h
    have hrest := ih hnames
    simp only [slotsOfMembers?] at hrest ⊢
    rw [List.mapM_cons, List.mapM_cons, hrest, hname]

/-- Members with other names after those of a record do not matter. -/
theorem slotsOfMembers?_append_left (h : ∀ name ∈ names, name ∉ more.map Prod.fst) :
    slotsOfMembers? names (members ++ more) = slotsOfMembers? names members := by
  refine slotsOfMembers?_congr fun name hname => ?_
  rw [List.filter_append, filter_eq_nil (h name hname), List.append_nil]

/-- Members with other names before those of a record do not matter. -/
theorem slotsOfMembers?_append_right (h : ∀ name ∈ names, name ∉ members.map Prod.fst) :
    slotsOfMembers? names (members ++ more) = slotsOfMembers? names more := by
  refine slotsOfMembers?_congr fun name hname => ?_
  rw [List.filter_append, filter_eq_nil (h name hname), List.nil_append]

variable {α : Type} {read : Json → Option α} {j : Json} {value default : α}

theorem required_eq_some (h : read j = some value) : required read (some j) = some value :=
  h

theorem defaulted_eq_some (h : read j = some value) :
    defaulted default read (some j) = some value :=
  h

theorem optional_eq_some (hnull : j ≠ .null) (h : read j = some value) :
    optional read (some j) = some (some value) := by
  rw [optional, h, Option.map_some]
  exact hnull

end Record

/-! ## Lawful documents -/

/-- Types whose values hold payloads. -/
class CarriesPayloads (α : Type) where
  payloads : α → List Payload := fun _ => []

export CarriesPayloads (payloads)

/-- Documents that are read back from their JSON form, and in which all leaves outside of
payloads are exact. -/
class LawfulDocument (α : Type) [Document α] [CarriesPayloads α] : Prop where
  ofJson?_toJson (value : α) : ofJson? (toJson value) = some value
  everyLeaf_toJson {property : Json → Bool}
    (hproperty : ∀ leaf, leaf.isExactLeaf = true → property leaf = true) (value : α)
    (h : ∀ p ∈ payloads value, p.tree.everyLeaf property = true) :
    (toJson value).everyLeaf property = true

export LawfulDocument (ofJson?_toJson everyLeaf_toJson)

attribute [simp] ofJson?_toJson

section Leaves

variable {α : Type} [Document α] [CarriesPayloads α] [LawfulDocument α]

/-- A document whose payloads hold no doubles is exact. -/
theorem isExact_toJson (value : α) (h : ∀ p ∈ payloads value, p.tree.isIntegral = true) :
    (toJson value).isExact = true :=
  everyLeaf_toJson (fun _ hleaf => hleaf) value fun p hp =>
    Json.isExact_of_isCanonical p.canonical (h p hp)

/-- Every document has a value at each place. -/
theorem isReadable_toJson (value : α) : (toJson value).isReadable = true :=
  Json.isReadable_iff_everyLeaf.mpr <|
    everyLeaf_toJson Json.isReadable_of_isExactLeaf value fun p _ => p.everyLeaf_isReadable

end Leaves

instance : CarriesPayloads String := {}
instance : CarriesPayloads Bool := {}
instance : CarriesPayloads UInt32 := {}
instance : CarriesPayloads UInt64 := {}

instance : LawfulDocument String where
  ofJson?_toJson _ := rfl
  everyLeaf_toJson hproperty _ _ := hproperty _ rfl

instance : LawfulDocument Bool where
  ofJson?_toJson _ := rfl
  everyLeaf_toJson hproperty _ _ := hproperty _ rfl

theorem natBelow?_natCast {n bound : Nat} (h : n < bound) : natBelow? bound (.int n) = some n := by
  rw [natBelow?, if_pos (by omega), Int.toNat_natCast]

theorem isExactLeaf_natCast {n : Nat} (h : n < 2 ^ 64) : (Json.int n).isExactLeaf = true := by
  rw [Json.isExactLeaf_int]
  omega

instance : LawfulDocument UInt32 where
  ofJson?_toJson n := by
    have hread : natBelow? UInt32.size (toJson n) = some n.toNat := natBelow?_natCast n.toNat_lt
    exact (congrArg (Option.map UInt32.ofNat) hread).trans (congrArg some UInt32.ofNat_toNat)
  everyLeaf_toJson hproperty n _ :=
    hproperty _ (isExactLeaf_natCast (n.toNat_lt.trans (by decide)))

instance : LawfulDocument UInt64 where
  ofJson?_toJson n := by
    have hread : natBelow? UInt64.size (toJson n) = some n.toNat := natBelow?_natCast n.toNat_lt
    exact (congrArg (Option.map UInt64.ofNat) hread).trans (congrArg some UInt64.ofNat_toNat)
  everyLeaf_toJson hproperty n _ := hproperty _ (isExactLeaf_natCast n.toNat_lt)

section Lists

variable {α : Type} [Document α] [CarriesPayloads α]

instance : CarriesPayloads (List α) where
  payloads values := values.flatMap payloads

variable [LawfulDocument α]

theorem ofItems?_map_toJson (values : List α) :
    ofItems? ofJson? (values.map toJson) = some values := by
  induction values with
  | nil => rfl
  | cons value values ih =>
    rw [List.map_cons, ofItems?, ofJson?_toJson, ih]
    rfl

instance : LawfulDocument (List α) where
  ofJson?_toJson := ofItems?_map_toJson
  everyLeaf_toJson hproperty values h := by
    refine Json.everyLeafOfItems_iff.mpr (List.forall_mem_map.mpr fun value hvalue => ?_)
    exact everyLeaf_toJson hproperty value fun p hp =>
      h p (List.mem_flatMap.mpr ⟨value, hvalue, hp⟩)

end Lists

/-! ## Entities -/

instance : CarriesPayloads Point := {}
instance : CarriesPayloads Span := {}
instance : CarriesPayloads Language := {}
instance : CarriesPayloads NodeId := {}
instance : CarriesPayloads TypedName := {}
instance : CarriesPayloads FunctionDecl := ⟨fun f => [f.extras]⟩
instance : CarriesPayloads Occurrence := {}
instance : CarriesPayloads LocatedFunction := ⟨fun f => payloads f.decl⟩
instance {α : Type} [CarriesPayloads α] : CarriesPayloads (SourceFile α) :=
  ⟨fun file => payloads file.units⟩
instance : CarriesPayloads IndexName := {}
instance : CarriesPayloads Signature := {}
instance : CarriesPayloads Descriptor := {}

theorem Point.ofJson?_object {p : Point} {row column : Json} (hrow : ofJson? row = some p.row)
    (hcolumn : ofJson? column = some p.column) :
    ofJson? (.object [("row", row), ("column", column)]) = some p := by
  unfold instDocumentPoint
  simp [slots?, slotsOfMembers?, required, hrow, hcolumn]

instance : LawfulDocument Point where
  ofJson?_toJson _ := Point.ofJson?_object (ofJson?_toJson _) (ofJson?_toJson _)
  everyLeaf_toJson hproperty _ _ := by
    refine Json.everyLeafOfMembers_iff.mpr ?_
    simp [everyLeaf_toJson hproperty, payloads]

theorem Span.ofJson?_object {s : Span} {start stop : Json} (hstart : ofJson? start = some s.start)
    (hstop : ofJson? stop = some s.stop) :
    ofJson? (.object [("start", start), ("end", stop)]) = some s := by
  unfold instDocumentSpan
  simp [slots?, slotsOfMembers?, required, hstart, hstop]

instance : LawfulDocument Span where
  ofJson?_toJson _ := Span.ofJson?_object (ofJson?_toJson _) (ofJson?_toJson _)
  everyLeaf_toJson hproperty _ _ := by
    refine Json.everyLeafOfMembers_iff.mpr ?_
    simp [everyLeaf_toJson hproperty, payloads]

/-- A name is read back inside and outside of flat records. -/
theorem Language.named?_toJson (inFlatRecord : Bool) (l : Language) :
    named? inFlatRecord ofName? (toJson l) = some l :=
  ofName?_name l

instance : LawfulDocument Language where
  ofJson?_toJson := Language.named?_toJson false
  everyLeaf_toJson hproperty _ _ := hproperty _ rfl

instance : LawfulDocument NodeId where
  ofJson?_toJson n := by
    have hread : (ofJson? (toJson n.value)).map NodeId.mk = some n := by
      rw [ofJson?_toJson, Option.map_some]
    exact hread
  everyLeaf_toJson hproperty n _ := hproperty _ (isExactLeaf_natCast n.value.toNat_lt)

theorem TypedName.ofJson?_object {t : TypedName} {typeName name : Json}
    (htype : ofJson? typeName = some t.typeName) (hname : ofJson? name = some t.name) :
    ofJson? (.object [("type", typeName), ("name", name)]) = some t := by
  unfold instDocumentTypedName
  simp [slots?, slotsOfMembers?, required, htype, hname]

instance : LawfulDocument TypedName where
  ofJson?_toJson _ := TypedName.ofJson?_object (ofJson?_toJson _) (ofJson?_toJson _)
  everyLeaf_toJson hproperty _ _ := by
    refine Json.everyLeafOfMembers_iff.mpr ?_
    simp [everyLeaf_toJson hproperty, payloads]

/-- A missing node is left out. -/
theorem optional_node (node : Option NodeId) :
    optional ofJson? (node.map toJson) = some node := by
  rcases node with _ | node
  · rfl
  · exact optional_eq_some nofun (ofJson?_toJson node)

namespace FunctionDecl

/-- What a written declaration gives for each of its fields. -/
def slots (f : FunctionDecl) : List (Option Json) :=
  [some (toJson f.name), some (toJson f.receiver), some (toJson f.parameters),
    some (toJson f.returns), some (toJson f.defLine), some (toJson f.span),
    some (toJson f.bodySpan), some (toJson f.language),
    if f.extras.isEmpty then none else some f.extras.tree, f.node.map toJson]

theorem slotsOfMembers?_members (f : FunctionDecl) :
    slotsOfMembers? fields f.members = some f.slots := by
  rw [members, slots]
  split
  · cases f.node <;> simp [slotsOfMembers?, fields]
  · cases f.node <;> simp [slotsOfMembers?, fields]

theorem keys_members_subset (f : FunctionDecl) : f.members.map Prod.fst ⊆ fields := by
  rw [members]
  split
  · cases f.node <;> simp [fields]
  · cases f.node <;> simp [fields]

variable {inFlatRecord : Bool} {f : FunctionDecl}

theorem ofSlots?_eq_some
    {name receiver parameters returns defLine span bodySpan lang extras node : Option Json}
    (hname : required ofJson? name = some f.name)
    (hreceiver : defaulted "" ofJson? receiver = some f.receiver)
    (hparameters : defaulted [] ofJson? parameters = some f.parameters)
    (hreturns : defaulted [] ofJson? returns = some f.returns)
    (hdefLine : defaulted 0 ofJson? defLine = some f.defLine)
    (hspan : required ofJson? span = some f.span)
    (hbodySpan : defaulted default ofJson? bodySpan = some f.bodySpan)
    (hlang : defaulted .unknown (named? inFlatRecord Language.ofName?) lang = some f.language)
    (hextras : defaulted .empty Payload.ofJson? extras = some f.extras)
    (hnode : optional ofJson? node = some f.node) :
    ofSlots? inFlatRecord
      [name, receiver, parameters, returns, defLine, span, bodySpan, lang, extras, node] =
        some f := by
  simp [ofSlots?, hname, hreceiver, hparameters, hreturns, hdefLine, hspan, hbodySpan, hlang,
    hextras, hnode]

/-- An empty payload is left out, and is the default. -/
theorem defaulted_extras (p : Payload) :
    defaulted .empty Payload.ofJson? (if p.isEmpty then none else some p.tree) = some p := by
  split
  case isTrue hempty =>
    have htree : Payload.empty.tree = p.tree := (of_decide_eq_true hempty).symm
    exact congrArg some (Payload.ext htree)
  case isFalse => exact defaulted_eq_some p.ofJson?_tree

/-- A declaration is read back from its slots, in a flat record or on its own. -/
theorem ofSlots?_slots (inFlatRecord : Bool) (f : FunctionDecl) :
    ofSlots? inFlatRecord f.slots = some f := by
  apply ofSlots?_eq_some
  case hname => exact required_eq_some (ofJson?_toJson f.name)
  case hreceiver => exact defaulted_eq_some (ofJson?_toJson f.receiver)
  case hparameters => exact defaulted_eq_some (ofJson?_toJson f.parameters)
  case hreturns => exact defaulted_eq_some (ofJson?_toJson f.returns)
  case hdefLine => exact defaulted_eq_some (ofJson?_toJson f.defLine)
  case hspan => exact required_eq_some (ofJson?_toJson f.span)
  case hbodySpan => exact defaulted_eq_some (ofJson?_toJson f.bodySpan)
  case hlang => exact defaulted_eq_some (Language.named?_toJson inFlatRecord f.language)
  case hextras => exact defaulted_extras f.extras
  case hnode => exact optional_node f.node

theorem everyLeaf_members {property : Json → Bool}
    (hproperty : ∀ leaf, leaf.isExactLeaf = true → property leaf = true)
    (h : f.extras.tree.everyLeaf property = true) :
    ∀ m ∈ f.members, m.2.everyLeaf property = true := by
  rw [members]
  split
  · cases f.node <;> simp [everyLeaf_toJson hproperty, payloads]
  · cases f.node <;> simp [everyLeaf_toJson hproperty, payloads, h]

end FunctionDecl

instance : LawfulDocument FunctionDecl where
  ofJson?_toJson f := by
    have hslots : slots? FunctionDecl.fields (toJson f) = some f.slots :=
      f.slotsOfMembers?_members
    calc ofJson? (toJson f)
      _ = (slots? FunctionDecl.fields (toJson f)).bind (FunctionDecl.ofSlots? false) := rfl
      _ = some f := by rw [hslots, Option.bind_some, f.ofSlots?_slots]
  everyLeaf_toJson hproperty _ h :=
    Json.everyLeafOfMembers_iff.mpr <|
      FunctionDecl.everyLeaf_members hproperty (h _ (List.mem_singleton_self _))

theorem Occurrence.ofJson?_of_slots {o : Occurrence} {j text kind span fieldName : Json}
    {node : Option Json}
    (hslots : slots? ["symbol", "kind", "span", "fieldName", "node"] j =
      some [some text, some kind, some span, some fieldName, node])
    (htext : ofJson? text = some o.text) (hkind : ofJson? kind = some o.kind)
    (hspan : ofJson? span = some o.span) (hfieldName : ofJson? fieldName = some o.fieldName)
    (hnode : Record.optional ofJson? node = some o.node) : ofJson? j = some o := by
  unfold instDocumentOccurrence
  simp [hslots, required, defaulted, htext, hkind, hspan, hfieldName, hnode]

theorem Occurrence.slots?_toJson (o : Occurrence) :
    slots? ["symbol", "kind", "span", "fieldName", "node"] (toJson o) =
      some [some (toJson o.text), some (toJson o.kind), some (toJson o.span),
        some (toJson o.fieldName), o.node.map toJson] := by
  unfold instDocumentOccurrence
  rcases o with ⟨text, kind, span, fieldName, _ | node⟩
  · simp [slots?, slotsOfMembers?]
  · simp [slots?, slotsOfMembers?]

instance : LawfulDocument Occurrence where
  ofJson?_toJson o :=
    Occurrence.ofJson?_of_slots o.slots?_toJson (ofJson?_toJson _) (ofJson?_toJson _)
      (ofJson?_toJson _) (ofJson?_toJson _) (optional_node o.node)
  everyLeaf_toJson hproperty o _ := by
    refine Json.everyLeafOfMembers_iff.mpr ?_
    cases o.node <;> simp [everyLeaf_toJson hproperty, payloads]

namespace LocatedFunction

variable {f : LocatedFunction} {members more : List (String × Json)}

theorem ofMembers?_eq_some {path : Json}
    (hpath : slotsOfMembers? ["path"] members = some [some path])
    (hslots : slotsOfMembers? FunctionDecl.fields members = some f.decl.slots)
    (hread : ofJson? path = some f.path) : ofMembers? members = some f := by
  simp [ofMembers?, hpath, hslots, required, hread, FunctionDecl.ofSlots?_slots]

theorem path_not_mem_keys (f : FunctionDecl) : "path" ∉ f.members.map Prod.fst := by
  intro hpath
  have hmem : "path" ∈ FunctionDecl.fields := f.keys_members_subset hpath
  simp [FunctionDecl.fields] at hmem

/-- Members with other names after those of a located function do not matter. -/
theorem ofMembers?_members_append (f : LocatedFunction)
    (h : ∀ name ∈ "path" :: FunctionDecl.fields, name ∉ more.map Prod.fst) :
    ofMembers? (f.members ++ more) = some f := by
  obtain ⟨hpath, hfields⟩ := List.forall_mem_cons.mp h
  have hown : ∀ name ∈ ["path"], name ∉ f.decl.members.map Prod.fst := by
    intro name hname
    rw [List.mem_singleton.mp hname]
    exact path_not_mem_keys f.decl
  have hother : ∀ name ∈ FunctionDecl.fields,
      name ∉ [("path", toJson f.path)].map Prod.fst := by
    simp [FunctionDecl.fields]
  apply ofMembers?_eq_some
  case hpath =>
    calc slotsOfMembers? ["path"] (f.members ++ more)
      _ = slotsOfMembers? ["path"] (f.decl.members ++ [("path", toJson f.path)]) :=
        slotsOfMembers?_append_left (List.forall_mem_singleton.mpr hpath)
      _ = slotsOfMembers? ["path"] [("path", toJson f.path)] :=
        slotsOfMembers?_append_right hown
      _ = some [some (toJson f.path)] := by simp [slotsOfMembers?]
  case hslots =>
    calc slotsOfMembers? FunctionDecl.fields (f.members ++ more)
      _ = slotsOfMembers? FunctionDecl.fields (f.decl.members ++ [("path", toJson f.path)]) :=
        slotsOfMembers?_append_left hfields
      _ = slotsOfMembers? FunctionDecl.fields f.decl.members :=
        slotsOfMembers?_append_left hother
      _ = some f.decl.slots := f.decl.slotsOfMembers?_members
  case hread => exact ofJson?_toJson f.path

theorem everyLeaf_members {property : Json → Bool}
    (hproperty : ∀ leaf, leaf.isExactLeaf = true → property leaf = true)
    (h : f.decl.extras.tree.everyLeaf property = true) :
    ∀ m ∈ f.members, m.2.everyLeaf property = true := by
  rw [LocatedFunction.members, List.forall_mem_append]
  refine ⟨FunctionDecl.everyLeaf_members hproperty h, ?_⟩
  simp [everyLeaf_toJson hproperty, payloads]

theorem isReadable_members (f : LocatedFunction) : ∀ m ∈ f.members, m.2.isReadable = true := by
  intro m hm
  exact Json.isReadable_iff_everyLeaf.mpr <|
    everyLeaf_members Json.isReadable_of_isExactLeaf f.decl.extras.everyLeaf_isReadable m hm

end LocatedFunction

theorem Record.readableMembers?_object_eq (members : List (String × Json)) :
    readableMembers? (.object members) =
      if ∀ m ∈ members, m.2.isReadable = true then some members else none := by
  rw [readableMembers?, Json.isReadable, members?]
  exact if_congr Json.areReadableMembers_iff rfl rfl

theorem Record.readableMembers?_object {members : List (String × Json)}
    (h : ∀ m ∈ members, m.2.isReadable = true) :
    readableMembers? (.object members) = some members := by
  rw [readableMembers?_object_eq, if_pos h]

instance : LawfulDocument LocatedFunction where
  ofJson?_toJson f := by
    have hmembers : LocatedFunction.ofMembers? f.members = some f := by
      simpa using @LocatedFunction.ofMembers?_members_append [] f (by simp)
    calc ofJson? (toJson f)
      _ = (readableMembers? (.object f.members)).bind LocatedFunction.ofMembers? := rfl
      _ = some f := by
        rw [readableMembers?_object f.isReadable_members, Option.bind_some, hmembers]
  everyLeaf_toJson hproperty _ h :=
    Json.everyLeafOfMembers_iff.mpr <|
      LocatedFunction.everyLeaf_members hproperty (h _ (List.mem_singleton_self _))

section Files

variable {α : Type} [Document α]

theorem SourceFile.ofJson?_object {file : SourceFile α} {path language units : Json}
    (hpath : ofJson? path = some file.path) (hlanguage : ofJson? language = some file.language)
    (hunits : ofJson? units = some file.units) :
    ofJson? (.object [("path", path), ("language", language), ("units", units)]) =
      some file := by
  unfold instDocumentSourceFile
  simp [slots?, slotsOfMembers?, required, defaulted, hpath, hlanguage, hunits]

instance [CarriesPayloads α] [LawfulDocument α] : LawfulDocument (SourceFile α) where
  ofJson?_toJson _ :=
    SourceFile.ofJson?_object (ofJson?_toJson _) (ofJson?_toJson _) (ofJson?_toJson _)
  everyLeaf_toJson hproperty file h := by
    refine Json.everyLeafOfMembers_iff.mpr ?_
    have hunits := everyLeaf_toJson hproperty file.units h
    simp [everyLeaf_toJson hproperty, payloads, hunits]

end Files

instance : LawfulDocument IndexName where
  ofJson?_toJson _ := rfl
  everyLeaf_toJson hproperty _ _ := hproperty _ rfl

instance : LawfulDocument Signature where
  ofJson?_toJson _ := rfl
  everyLeaf_toJson hproperty _ _ := hproperty _ rfl

theorem Descriptor.ofJson?_object {d : Descriptor} {path span signature : Json}
    (hpath : ofJson? path = some d.path) (hspan : ofJson? span = some d.span)
    (hsignature : ofJson? signature = some d.signature) :
    ofJson? (.object [("path", path), ("span", span), ("signature", signature)]) = some d := by
  unfold instDocumentDescriptor
  simp [slots?, slotsOfMembers?, required, hpath, hspan, hsignature]

instance : LawfulDocument Descriptor where
  ofJson?_toJson _ :=
    Descriptor.ofJson?_object (ofJson?_toJson _) (ofJson?_toJson _) (ofJson?_toJson _)
  everyLeaf_toJson hproperty _ _ := by
    refine Json.everyLeafOfMembers_iff.mpr ?_
    simp [everyLeaf_toJson hproperty, payloads]

end CallImpact
