import CallImpact.Proofs.Document.Records
import Mathlib.Data.List.Perm.Basic

/-!
# Documents that are spelled differently

The members of an object may stand in any order, and a record ignores members with other names
than those of its fields.  An array gives the fields of a record by their position instead.

A flat record looks at all of its members before it ignores some, so a member with an unknown
name does no harm exactly if it has a value.
-/

namespace CallImpact

open Document Record

namespace Record

variable {names : List String} {members others more : List (String × Json)}

/-- The members of an object with distinct keys in some order, with members of unknown names
among them. -/
structure Respells (names : List String) (members others more : List (String × Json)) : Prop where
  nodup_keys : (members.map Prod.fst).Nodup
  unknown : ∀ m ∈ others, m.1 ∉ names
  perm : more.Perm (members ++ others)

theorem length_filter_le_one (h : (members.map Prod.fst).Nodup) (name : String) :
    (members.filter fun m => m.1 == name).length ≤ 1 := by
  calc (members.filter fun m => m.1 == name).length
    _ = ((members.map Prod.fst).filter (· == name)).length := by
      rw [List.filter_map, List.length_map]
      rfl
    _ = (members.map Prod.fst).count name := List.count_eq_length_filter.symm
    _ ≤ 1 := List.nodup_iff_count_le_one.mp h name

/-- Lists without a second entry are equal if they are permutations of each other. -/
theorem eq_of_perm_of_length_le_one {α : Type} {xs ys : List α} (h : xs.Perm ys)
    (hlength : ys.length ≤ 1) : xs = ys := by
  rcases ys with _ | ⟨y, _ | _⟩
  · exact h.eq_nil
  · exact List.perm_singleton.mp h
  · simp at hlength

theorem Respells.sameAt (h : Respells names members others more) : SameAt names more members := by
  intro name hname
  have hothers : others.filter (fun m => m.1 == name) = [] := by
    refine filter_eq_nil fun hmem => ?_
    obtain ⟨m, hm, rfl⟩ := List.mem_map.mp hmem
    exact h.unknown m hm hname
  have hperm := h.perm.filter fun m => m.1 == name
  rw [List.filter_append, hothers, List.append_nil] at hperm
  exact eq_of_perm_of_length_le_one hperm (length_filter_le_one h.nodup_keys name)

theorem Respells.slots?_eq (h : Respells names members others more) :
    slots? names (.object more) = slots? names (.object members) :=
  slotsOfMembers?_congr h.sameAt

/-- Without the members of its last name, an object is spelled in the same ways. -/
theorem Respells.without {name : String} (h : Respells (names ++ [name]) members others more) :
    Respells names (members.filter fun m => m.1 != name) others
      (more.filter fun m => m.1 != name) := by
  have hothers : others.filter (fun m => m.1 != name) = others := by
    rw [List.filter_eq_self]
    intro m hm
    refine bne_iff_ne.mpr fun hname => h.unknown m hm ?_
    rw [hname]
    exact List.mem_append_right _ (List.mem_singleton_self _)
  have hperm := h.perm.filter fun m => m.1 != name
  rw [List.filter_append, hothers] at hperm
  exact {
    nodup_keys := h.nodup_keys.sublist (List.filter_sublist.map _)
    unknown := fun m hm hname => h.unknown m hm (List.mem_append_left _ hname)
    perm := hperm }

theorem slotsOfMembers?_nil (names : List String) :
    slotsOfMembers? names [] = some (List.replicate names.length none) := by
  induction names with
  | nil => rfl
  | cons name names ih =>
    rw [slotsOfMembers?] at ih ⊢
    rw [List.mapM_cons, ih]
    rfl

theorem slotsOfMembers?_cons {name : String} {j : Json} (hname : name ∉ names)
    (hmore : name ∉ more.map Prod.fst) :
    slotsOfMembers? (name :: names) ((name, j) :: more) =
      (slotsOfMembers? names more).map (some j :: ·) := by
  have hrest : slotsOfMembers? names ([(name, j)] ++ more) = slotsOfMembers? names more :=
    slotsOfMembers?_append_right fun other hother hmem => by
      rw [List.mem_singleton.mp hmem] at hother
      exact hname hother
  rw [List.singleton_append] at hrest
  rw [slotsOfMembers?] at hrest ⊢
  rw [List.mapM_cons, List.filter_cons_of_pos (by simp), filter_eq_nil hmore, hrest]
  cases slotsOfMembers? names more <;> rfl

theorem slotsOfItems?_of_length_le {items : List Json} (h : items.length ≤ names.length) :
    slotsOfItems? names items =
      some (items.map some ++ List.replicate (names.length - items.length) none) :=
  if_pos h

/-- Items stand for the members that give them to the first fields. -/
theorem slotsOfMembers?_zip {items : List Json} (hnames : names.Nodup)
    (hlength : items.length ≤ names.length) :
    slotsOfMembers? names (names.zip items) = slotsOfItems? names items := by
  rw [slotsOfItems?_of_length_le hlength]
  induction names generalizing items with
  | nil =>
    rw [List.length_eq_zero_iff.mp (Nat.le_zero.mp hlength)]
    rfl
  | cons name names ih =>
    obtain ⟨hname, hnames⟩ := List.nodup_cons.mp hnames
    cases items with
    | nil =>
      rw [List.zip_nil_right, slotsOfMembers?_nil]
      rfl
    | cons item items =>
      have hmore : name ∉ (names.zip items).map Prod.fst := by
        intro hmem
        obtain ⟨m, hm, rfl⟩ := List.mem_map.mp hmem
        exact hname (List.of_mem_zip hm).1
      rw [List.zip_cons_cons, slotsOfMembers?_cons hname hmore,
        ih hnames (Nat.le_of_succ_le_succ hlength)]
      simp

/-- The slots that an array fills are those of its items. -/
theorem forall₂_admits_iff {fields : List Field} {items : List Json}
    (hlength : items.length ≤ fields.length) :
    List.Forall₂ Field.Admits fields
        (items.map some ++ List.replicate (fields.length - items.length) none) ↔
      ∀ (i : Nat) (field : Field), fields[i]? = some field → field.Admits items[i]? := by
  induction fields generalizing items with
  | nil =>
    rw [List.length_eq_zero_iff.mp (Nat.le_zero.mp hlength)]
    simp
  | cons field fields ih =>
    rw [← Nat.and_forall_add_one]
    cases items with
    | nil =>
      have hrest := @ih [] (Nat.zero_le _)
      simp only [List.map_nil, List.nil_append, List.length_nil, Nat.sub_zero] at hrest
      simp [List.replicate_succ, hrest]
    | cons item items =>
      have hrest := ih (Nat.le_of_succ_le_succ hlength)
      simp [hrest]

end Record

namespace RecordDocument

variable {α : Type} [Document α] [RecordDocument α] {members others more : List (String × Json)}
  {items : List Json}

theorem ofJson?_of_respells (h : Respells (names α) members others more) :
    (ofJson? (.object more) : Option α) = ofJson? (.object members) :=
  ofJson?_congr h.slots?_eq

theorem ofJson?_array (h : items.length ≤ (fields α).length) :
    (ofJson? (.array items) : Option α) = ofJson? (.object ((names α).zip items)) := by
  have hlength : items.length ≤ (names α).length := by rwa [names, List.length_map]
  exact ofJson?_congr (slotsOfMembers?_zip nodup_names hlength).symm

/-- An array is a record exactly if it has no more items than the record has fields, the fields
accept the items, and all other fields may be missing. -/
theorem isSome_ofJson?_array_iff :
    (ofJson? (.array items) : Option α).isSome ↔
      items.length ≤ (fields α).length ∧
        ∀ (i : Nat) (field : Field), (fields α)[i]? = some field → field.Admits items[i]? := by
  rw [isSome_ofJson?_iff, slots?, slotsOfItems?, names, List.length_map]
  constructor
  · rintro ⟨slots, hslots, hadmits⟩
    split at hslots
    case isTrue hlength =>
      cases hslots
      exact ⟨hlength, (forall₂_admits_iff hlength).mp hadmits⟩
    case isFalse => cases hslots
  · rintro ⟨hlength, hadmits⟩
    exact ⟨_, if_pos hlength, (forall₂_admits_iff hlength).mpr hadmits⟩

end RecordDocument

/-! ## Flat records -/

namespace Record

/-- An object with members of these names and of any others, all of which have to have a
value. -/
def IsFlat (α : Type) [Document α] (names : List String) : Prop :=
  ∀ members others more, Respells names members others more →
    (ofJson? (.object more) : Option α) =
      if ∀ m ∈ others, m.2.isReadable = true then ofJson? (.object members) else none

theorem bind_readableMembers?_of_respells {α : Type} {names : List String}
    {members others more : List (String × Json)} {f : List (String × Json) → Option α}
    (hf : ∀ {ms ns}, SameAt names ms ns → f ms = f ns) (h : Respells names members others more) :
    (readableMembers? (.object more)).bind f =
      if ∀ m ∈ others, m.2.isReadable = true then
        (readableMembers? (.object members)).bind f else none := by
  have hmore : (∀ m ∈ more, m.2.isReadable = true) ↔
      (∀ m ∈ members, m.2.isReadable = true) ∧ ∀ m ∈ others, m.2.isReadable = true := by
    simp only [h.perm.mem_iff]
    exact List.forall_mem_append
  rw [readableMembers?_object_eq, readableMembers?_object_eq]
  by_cases hothers : ∀ m ∈ others, m.2.isReadable = true
  · rw [if_pos hothers]
    by_cases hmembers : ∀ m ∈ members, m.2.isReadable = true
    · rw [if_pos hmembers, if_pos (hmore.mpr ⟨hmembers, hothers⟩)]
      exact hf h.sameAt
    · rw [if_neg hmembers, if_neg fun hall => hmembers (hmore.mp hall).1]
  · rw [if_neg hothers, if_neg fun hall => hothers (hmore.mp hall).2]
    rfl

end Record

namespace LocatedFunction

def fieldNames : List String :=
  FunctionDecl.fields ++ ["path"]

theorem ofMembers?_congr {members more : List (String × Json)}
    (h : SameAt fieldNames members more) :
    ofMembers? members = ofMembers? more := by
  rw [ofMembers?, ofMembers?, slotsOfMembers?_congr (h.mono (List.subset_append_right _ _)),
    slotsOfMembers?_congr (h.mono (List.subset_append_left _ _))]

theorem isFlat : IsFlat LocatedFunction fieldNames :=
  fun _ _ _ h => bind_readableMembers?_of_respells ofMembers?_congr h

end LocatedFunction

namespace Digest

/-- The names of the fields of a digest, and of a neighbourhood. -/
def fieldNames : List String :=
  LocatedFunction.fieldNames ++ ["calls", "reverseCalls"]

theorem ofMembers?_congr {members more : List (String × Json)}
    (h : SameAt fieldNames members more) :
    ofMembers? members = ofMembers? more := by
  rw [ofMembers?, ofMembers?, slotsOfMembers?_congr (h.mono (List.subset_append_right _ _)),
    LocatedFunction.ofMembers?_congr (h.mono (List.subset_append_left _ _))]

theorem isFlat : IsFlat Digest fieldNames :=
  fun _ _ _ h => bind_readableMembers?_of_respells ofMembers?_congr h

end Digest

theorem Neighbourhood.isFlat : IsFlat Neighbourhood Digest.fieldNames := by
  intro members others more h
  refine bind_readableMembers?_of_respells (fun {ms ns} hsame => ?_) h
  rw [slotsOfMembers?_congr (hsame.mono (List.subset_append_right _ _)),
    LocatedFunction.ofMembers?_congr (hsame.mono (List.subset_append_left _ _))]

namespace ImpactReport

def fieldNames : List String :=
  Digest.fieldNames ++ ["reverseCallChains"]

theorem isFlat : IsFlat ImpactReport fieldNames := by
  intro members others more h
  have hchains : slotsOfMembers? ["reverseCallChains"] more =
      slotsOfMembers? ["reverseCallChains"] members :=
    slotsOfMembers?_congr (h.sameAt.mono (List.subset_append_right _ _))
  unfold instDocumentImpactReport
  simp only [members?, Option.bind_eq_bind, Option.bind_some, hchains]
  cases slotsOfMembers? ["reverseCallChains"] members with
  | none => simp
  | some slots =>
    simp only [Option.bind_some]
    split
    case h_1 chains =>
      exact bind_readableMembers?_of_respells
        (fun hsame => by rw [Digest.ofMembers?_congr hsame]) h.without
    case h_2 => simp

end ImpactReport

/-! ## Tagged documents -/

section Tagged

variable {members more : List (String × Json)}

theorem Record.Respells.of_perm (names : List String) (hkeys : (members.map Prod.fst).Nodup)
    (hperm : more.Perm members) : Respells names members [] more :=
  ⟨hkeys, List.forall_mem_nil _, by rwa [List.append_nil]⟩

theorem Json.isReadable_object_perm (hperm : more.Perm members) :
    (Json.object more).isReadable = (Json.object members).isReadable := by
  rw [Bool.eq_iff_iff, Json.isReadable, Json.isReadable, Json.areReadableMembers_iff,
    Json.areReadableMembers_iff]
  simp only [hperm.mem_iff]

theorem Reach.ofMode?_congr {mode : String}
    (h : slots? ["depth"] (.object more) = slots? ["depth"] (.object members)) :
    ofMode? mode (.object more) = ofMode? mode (.object members) := by
  unfold ofMode?
  split
  case h_1 => rfl
  case h_2 => rw [h]
  case h_3 => rfl

theorem Reach.ofJson?_perm (hkeys : (members.map Prod.fst).Nodup) (hperm : more.Perm members) :
    (ofJson? (.object more) : Option Reach) = ofJson? (.object members) := by
  have hmode : slotsOfMembers? ["mode"] more = slotsOfMembers? ["mode"] members :=
    slotsOfMembers?_congr (Respells.of_perm ["mode"] hkeys hperm).sameAt
  have hfields (mode : String) : ofMode? mode (.object (more.filter fun m => m.1 != "mode")) =
      ofMode? mode (.object (members.filter fun m => m.1 != "mode")) :=
    ofMode?_congr (Respells.of_perm ["depth"] (hkeys.sublist (List.filter_sublist.map _))
      (hperm.filter _)).slots?_eq
  unfold instDocumentReach
  simp only [Json.isReadable_object_perm hperm, hmode, hfields]

theorem QueryAnswer.ofJson?_perm (hkeys : (members.map Prod.fst).Nodup)
    (hperm : more.Perm members) :
    (ofJson? (.object more) : Option QueryAnswer) = ofJson? (.object members) := by
  have hslots := (Respells.of_perm ["mode", "functions"] hkeys hperm).slots?_eq
  have htag : Mode.ofTag? (.object more) = Mode.ofTag? (.object members) := rfl
  unfold instDocumentQueryAnswer
  simp only [hslots, htag]

end Tagged

/-! ## All kinds of documents -/

/-- What the objects and arrays of a kind of documents are made of. -/
inductive DocumentForm where
  /-- An object with these fields, or an array of them in this order. -/
  | record (fields : List Field)
  /-- An object with fields of these names, which are not looked at on their own. -/
  | flat (names : List String)
  /-- An object of which one member says what the others are. -/
  | tagged
  /-- No fields at all. -/
  | plain

namespace DocumentKind

def form : DocumentKind → DocumentForm
  | point => .record (RecordDocument.fields Point)
  | span => .record (RecordDocument.fields Span)
  | language => .plain
  | nodeId => .plain
  | typedName => .record (RecordDocument.fields TypedName)
  | functionDecl => .record (RecordDocument.fields FunctionDecl)
  | occurrence => .record (RecordDocument.fields Occurrence)
  | locatedFunction => .flat LocatedFunction.fieldNames
  | functionFile => .record (RecordDocument.fields (SourceFile FunctionDecl))
  | occurrenceFile => .record (RecordDocument.fields (SourceFile Occurrence))
  | indexName => .plain
  | signature => .plain
  | descriptor => .record (RecordDocument.fields Descriptor)
  | relation => .plain
  | reach => .tagged
  | graphSummary => .record (RecordDocument.fields GraphSummary)
  | limits => .record (RecordDocument.fields Limits)
  | role => .plain
  | neighbourhood => .flat Digest.fieldNames
  | digest => .flat Digest.fieldNames
  | impactReport => .flat ImpactReport.fieldNames
  | queryAnswer => .tagged
  | chainTree => .record (RecordDocument.fields (ChainTree String))
  | digestStore => .record (RecordDocument.fields DigestStore)

theorem exists_record {kind : DocumentKind} {fields : List Field} (h : kind.form = .record fields) :
    ∃ record : RecordDocument kind.Carrier, record.fields = fields := by
  cases kind with
  | point => exact ⟨inferInstanceAs (RecordDocument Point), DocumentForm.record.inj h⟩
  | span => exact ⟨inferInstanceAs (RecordDocument Span), DocumentForm.record.inj h⟩
  | typedName => exact ⟨inferInstanceAs (RecordDocument TypedName), DocumentForm.record.inj h⟩
  | functionDecl =>
    exact ⟨inferInstanceAs (RecordDocument FunctionDecl), DocumentForm.record.inj h⟩
  | occurrence => exact ⟨inferInstanceAs (RecordDocument Occurrence), DocumentForm.record.inj h⟩
  | functionFile =>
    exact ⟨inferInstanceAs (RecordDocument (SourceFile FunctionDecl)), DocumentForm.record.inj h⟩
  | occurrenceFile =>
    exact ⟨inferInstanceAs (RecordDocument (SourceFile Occurrence)), DocumentForm.record.inj h⟩
  | descriptor => exact ⟨inferInstanceAs (RecordDocument Descriptor), DocumentForm.record.inj h⟩
  | graphSummary =>
    exact ⟨inferInstanceAs (RecordDocument GraphSummary), DocumentForm.record.inj h⟩
  | limits => exact ⟨inferInstanceAs (RecordDocument Limits), DocumentForm.record.inj h⟩
  | chainTree =>
    exact ⟨inferInstanceAs (RecordDocument (ChainTree String)), DocumentForm.record.inj h⟩
  | digestStore => exact ⟨inferInstanceAs (RecordDocument DigestStore), DocumentForm.record.inj h⟩
  | _ => cases h

theorem isFlat_of_form {kind : DocumentKind} {names : List String} (h : kind.form = .flat names) :
    IsFlat kind.Carrier names := by
  cases kind with
  | locatedFunction => exact DocumentForm.flat.inj h ▸ LocatedFunction.isFlat
  | neighbourhood => exact DocumentForm.flat.inj h ▸ Neighbourhood.isFlat
  | digest => exact DocumentForm.flat.inj h ▸ Digest.isFlat
  | impactReport => exact DocumentForm.flat.inj h ▸ ImpactReport.isFlat
  | _ => cases h

theorem ofJson?_perm_of_form {kind : DocumentKind} (h : kind.form = .tagged)
    {members more : List (String × Json)} (hkeys : (members.map Prod.fst).Nodup)
    (hperm : more.Perm members) :
    (ofJson? (.object more) : Option kind.Carrier) = ofJson? (.object members) := by
  cases kind with
  | reach => exact Reach.ofJson?_perm hkeys hperm
  | queryAnswer => exact QueryAnswer.ofJson?_perm hkeys hperm
  | _ => cases h

theorem ofJson?_unreadable (kind : DocumentKind) :
    (ofJson? .unreadable : Option kind.Carrier) = none := by
  cases kind <;> rfl

end DocumentKind

/-- The order of members does not matter, and members with unknown names do not unless a flat
record looks at one that has no value.  An array is a record if it gives its first fields values
that they accept and leaves out only fields that may be missing.  What has no value itself, such
as an object with a key that is no text, is no document. -/
theorem spellings_decode_alike (kind : DocumentKind) :
    (∀ fields, kind.form = .record fields →
      (∀ members others more, Respells (fields.map Field.name) members others more →
        (ofJson? (.object more) : Option kind.Carrier) = ofJson? (.object members)) ∧
      (∀ items, items.length ≤ fields.length →
        (ofJson? (.array items) : Option kind.Carrier) =
          ofJson? (.object ((fields.map Field.name).zip items))) ∧
      ∀ items, (ofJson? (.array items) : Option kind.Carrier).isSome ↔
        items.length ≤ fields.length ∧
          ∀ (i : Nat) (field : Field), fields[i]? = some field → field.Admits items[i]?) ∧
    (∀ names, kind.form = .flat names →
      ∀ members others more, Respells names members others more →
        (ofJson? (.object more) : Option kind.Carrier) =
          if ∀ m ∈ others, m.2.isReadable = true then ofJson? (.object members) else none) ∧
    (kind.form = .tagged → ∀ members more, (members.map Prod.fst).Nodup → more.Perm members →
      (ofJson? (.object more) : Option kind.Carrier) = ofJson? (.object members)) ∧
    (ofJson? .unreadable : Option kind.Carrier) = none := by
  refine ⟨fun fields hform => ?_, fun names hform => ?_, fun hform members more hkeys hperm => ?_,
    kind.ofJson?_unreadable⟩
  · obtain ⟨record, rfl⟩ := DocumentKind.exists_record hform
    exact ⟨fun _ _ _ h => RecordDocument.ofJson?_of_respells h,
      fun _ h => RecordDocument.ofJson?_array h,
      fun _ => RecordDocument.isSome_ofJson?_array_iff⟩
  · exact DocumentKind.isFlat_of_form hform
  · exact DocumentKind.ofJson?_perm_of_form hform hkeys hperm

/-- The members of a function in a file. -/
def plainMembers : List (String × Json) :=
  [("name", .string "f"), ("span", .array [.array [.int 0, .int 0], .array [.int 2, .int 1]]),
    ("path", .string "a.go")]

/-- A member that no record knows, and that has no value. -/
def strangeMembers : List (String × Json) :=
  [("note", .unreadable)]

theorem respells_plainMembers (names : List String) (hnames : "note" ∉ names) :
    Respells names plainMembers strangeMembers (plainMembers ++ strangeMembers).reverse :=
  ⟨by decide, List.forall_mem_singleton.mpr hnames, List.reverse_perm _⟩

/-- A declaration ignores the strange member and the path; a function in a file is not read. -/
theorem spellings_decode_alike_strange :
    Respells (RecordDocument.names FunctionDecl) plainMembers strangeMembers
        (plainMembers ++ strangeMembers).reverse ∧
      (ofJson? (.object (plainMembers ++ strangeMembers).reverse) : Option FunctionDecl) =
        ofJson? (.object plainMembers) ∧
      (ofJson? (.array [.string "f"]) : Option FunctionDecl) =
        ofJson? (.object [("name", .string "f")]) ∧
      Respells LocatedFunction.fieldNames plainMembers strangeMembers
        (plainMembers ++ strangeMembers).reverse ∧
      (ofJson? (.object (plainMembers ++ strangeMembers).reverse) : Option LocatedFunction) =
        none ∧
      (ofJson? (.object [("depth", .int 3), ("mode", .string "bounded_chain")]) : Option Reach) =
        ofJson? (.object [("mode", .string "bounded_chain"), ("depth", .int 3)]) := by
  have hdecl := respells_plainMembers (RecordDocument.names FunctionDecl) (by decide)
  have hlocated := respells_plainMembers LocatedFunction.fieldNames (by decide)
  have hrecord := (spellings_decode_alike .functionDecl).1 _ rfl
  refine ⟨hdecl, hrecord.1 _ _ _ hdecl, hrecord.2.1 [.string "f"] (by decide), hlocated, ?_, ?_⟩
  · have hflat := (spellings_decode_alike .locatedFunction).2.1 _ rfl _ _ _ hlocated
    exact hflat.trans (if_neg (by decide))
  · exact (spellings_decode_alike .reach).2.2.1 rfl _ _ (by decide) (List.Perm.swap _ _ _)

def plainText : String :=
  "\x7b\"name\":\"f\",\"span\":[[0,0],[2,1]],\"path\":\"a.go\"\x7d"

/-- The same document with half of a surrogate pair under a name that nobody knows. -/
def strangeText : String :=
  "\x7b\"name\":\"f\",\"span\":[[0,0],[2,1]],\"path\":\"a.go\",\"note\":\"\\ud800\"\x7d"

/-- The same document with that half as a name. -/
def namelessText : String :=
  "\x7b\"name\":\"f\",\"span\":[[0,0],[2,1]],\"path\":\"a.go\",\"\\ud800\":\"note\"\x7d"

/-- A flat record minds a member that its parts ignore when they stand alone; every record minds
a name that is no text. -/
theorem flat_record_minds_unreadable_member :
    Json.ofString? plainText = some (.object plainMembers) ∧
      Json.ofString? strangeText = some (.object (plainMembers ++ strangeMembers)) ∧
      Json.ofString? namelessText = some .unreadable ∧
      Respells LocatedFunction.fieldNames plainMembers strangeMembers
        (plainMembers ++ strangeMembers) ∧
      (read? plainText : Option LocatedFunction).isSome ∧
      (read? strangeText : Option LocatedFunction) = none ∧
      (read? plainText : Option FunctionDecl).isSome ∧
      (read? strangeText : Option FunctionDecl).isSome ∧
      (read? namelessText : Option FunctionDecl) = none := by
  have hstrange : Respells LocatedFunction.fieldNames plainMembers strangeMembers
      (plainMembers ++ strangeMembers) := ⟨by decide, by decide, List.Perm.refl _⟩
  refine ⟨?_, ?_, ?_, hstrange, ?_, ?_, ?_, ?_, ?_⟩
  all_goals decide +kernel

end CallImpact
