import CallImpact.Document.Kind
import CallImpact.Proofs.Document.Nesting
import Mathlib.Data.List.Forall2

/-!
# Records and their fields

A record is decoded from what its document gives for its fields, and from nothing else.  It is
decoded exactly if every field admits what is given for it: a value that the field takes, or
nothing if the field may be left out.

A `RecordDocument` is a document type of which this holds, together with its fields in the
order in which an array gives them.
-/

namespace CallImpact

open Document

namespace Record

/-- A field of a record: whether a document may leave it out, and which trees it takes. -/
structure Field where
  name : String
  mayBeMissing : Bool
  accepts : Json → Bool

namespace Field

variable {α : Type} {name : String} {read : Json → Option α} {default : α} {slot : Option Json}

def required (name : String) (read : Json → Option α) : Field :=
  ⟨name, false, fun j => (read j).isSome⟩

/-- A field that has a default. -/
def defaulted (name : String) (read : Json → Option α) : Field :=
  ⟨name, true, fun j => (read j).isSome⟩

/-- A field that may also be null. -/
def optional (name : String) (read : Json → Option α) : Field :=
  ⟨name, true, fun j => j = .null || (read j).isSome⟩

/-- The field is content with what a document gives for it. -/
def Admits (field : Field) : Option Json → Prop
  | some j => field.accepts j = true
  | none => field.mayBeMissing = true

theorem admits_required_iff :
    (required name read).Admits slot ↔ ∃ value, Record.required read slot = some value := by
  cases slot with
  | none => simp [Admits, required, Record.required]
  | some j => simp [Admits, required, Record.required, Option.isSome_iff_exists]

/-- Whatever the default is. -/
theorem admits_defaulted_iff (default : α) :
    (defaulted name read).Admits slot ↔
      ∃ value, Record.defaulted default read slot = some value := by
  cases slot with
  | none => simp [Admits, defaulted, Record.defaulted]
  | some j => simp [Admits, defaulted, Record.defaulted, Option.isSome_iff_exists]

theorem admits_optional_iff :
    (optional name read).Admits slot ↔ ∃ value, Record.optional read slot = some value := by
  cases slot with
  | none => simp [Admits, optional, Record.optional]
  | some j =>
    by_cases hnull : j = .null
    · simp [Admits, optional, Record.optional, hnull]
    · simp [Admits, optional, Record.optional, hnull, Option.isSome_iff_exists]

end Field

end Record

open Record

section Reading

variable {α β : Type} {name : String} {read : Json → Option β} {field : Field}
  {fields : List Field} {next : β → List (Option Json) → Option α}

/-- The reader of slots succeeds exactly if it is given a slot for each field, which the field
admits. -/
def Reads (fields : List Field) (reader : List (Option Json) → Option α) : Prop :=
  ∀ slots, (reader slots).isSome ↔ List.Forall₂ Field.Admits fields slots

theorem reads_noMore (value : α) : Reads [] (noMore value) := by
  intro slots
  cases slots with
  | nil => simp
  | cons slot slots => simp

theorem reads_withSlot {readSlot : Option Json → Option β}
    (hfield : ∀ slot, field.Admits slot ↔ ∃ value, readSlot slot = some value)
    (hnext : ∀ value, Reads fields (next value)) :
    Reads (field :: fields) (withSlot readSlot next) := by
  intro slots
  cases slots with
  | nil => simp
  | cons slot slots =>
    rw [withSlot_cons, List.forall₂_cons, hfield]
    cases hslot : readSlot slot with
    | none => simp
    | some value => simp [hnext value slots]

theorem reads_required (hnext : ∀ value, Reads fields (next value)) :
    Reads (.required name read :: fields) (withSlot (Record.required read) next) :=
  reads_withSlot (fun _ => Field.admits_required_iff) hnext

theorem reads_defaulted {default : β} (hnext : ∀ value, Reads fields (next value)) :
    Reads (.defaulted name read :: fields) (withSlot (Record.defaulted default read) next) :=
  reads_withSlot (fun _ => Field.admits_defaulted_iff default) hnext

theorem reads_optional {next : Option β → List (Option Json) → Option α}
    (hnext : ∀ value, Reads fields (next value)) :
    Reads (.optional name read :: fields) (withSlot (Record.optional read) next) :=
  reads_withSlot (fun _ => Field.admits_optional_iff) hnext

end Reading

/-- A record: what it makes of a tree is built from the slots of its fields, which succeeds
exactly if each field admits its slot. -/
class RecordDocument (α : Type) [Document α] where
  fields : List Field
  nodup_names : (fields.map Field.name).Nodup
  exists_build : ∃ build : List (Option Json) → Option α,
    (∀ j, ofJson? j = (slots? (fields.map Field.name) j).bind build) ∧ Reads fields build

namespace RecordDocument

variable {α : Type} [Document α] [RecordDocument α]

variable (α) in
def names : List String :=
  (fields α).map Field.name

/-- What a record makes of a tree depends on the slots of its fields only. -/
theorem ofJson?_congr {i j : Json} (h : slots? (names α) i = slots? (names α) j) :
    (ofJson? i : Option α) = ofJson? j := by
  obtain ⟨build, hbuild, -⟩ := exists_build (α := α)
  rw [hbuild, hbuild]
  exact congrArg (·.bind build) h

theorem isSome_ofJson?_iff {j : Json} :
    (ofJson? j : Option α).isSome ↔
      ∃ slots, slots? (names α) j = some slots ∧ List.Forall₂ Field.Admits (fields α) slots := by
  obtain ⟨build, hbuild, hadmits⟩ := exists_build (α := α)
  rw [hbuild, Option.isSome_iff_exists]
  simp only [Option.bind_eq_some_iff, ← hadmits _, Option.isSome_iff_exists]
  exact ⟨fun ⟨value, slots, hslots, h⟩ => ⟨slots, hslots, value, h⟩,
    fun ⟨slots, hslots, value, h⟩ => ⟨value, slots, hslots, h⟩⟩

end RecordDocument

/-! ## The records -/

instance : RecordDocument Point where
  fields := [.required "row" (ofJson? : Json → Option UInt32),
    .required "column" (ofJson? : Json → Option UInt32)]
  nodup_names := by decide
  exists_build := by
    refine ⟨_, fun _ => rfl, ?_⟩
    exact reads_required fun _ => reads_required fun _ => reads_noMore _

instance : RecordDocument Span where
  fields := [.required "start" (ofJson? : Json → Option Point),
    .required "end" (ofJson? : Json → Option Point)]
  nodup_names := by decide
  exists_build := by
    refine ⟨_, fun _ => rfl, ?_⟩
    exact reads_required fun _ => reads_required fun _ => reads_noMore _

instance : RecordDocument TypedName where
  fields := [.required "type" (ofJson? : Json → Option String),
    .required "name" (ofJson? : Json → Option String)]
  nodup_names := by decide
  exists_build := by
    refine ⟨_, fun _ => rfl, ?_⟩
    exact reads_required fun _ => reads_required fun _ => reads_noMore _

instance : RecordDocument FunctionDecl where
  fields := [.required "name" (ofJson? : Json → Option String),
    .defaulted "receiver" (ofJson? : Json → Option String),
    .defaulted "parameters" (ofJson? : Json → Option (List TypedName)),
    .defaulted "returns" (ofJson? : Json → Option (List TypedName)),
    .defaulted "defLine" (ofJson? : Json → Option UInt32),
    .required "span" (ofJson? : Json → Option Span),
    .defaulted "bodySpan" (ofJson? : Json → Option Span),
    .defaulted "lang" (named? false Language.ofName?),
    .defaulted "extras" Payload.ofJson?,
    .optional "node" (ofJson? : Json → Option NodeId)]
  nodup_names := by decide
  exists_build := by
    refine ⟨FunctionDecl.ofSlots? false, fun _ => rfl, ?_⟩
    exact reads_required fun _ => reads_defaulted fun _ => reads_defaulted fun _ =>
      reads_defaulted fun _ => reads_defaulted fun _ => reads_required fun _ =>
      reads_defaulted fun _ => reads_defaulted fun _ => reads_defaulted fun _ =>
      reads_optional fun _ => reads_noMore _

instance : RecordDocument Occurrence where
  fields := [.required "symbol" (ofJson? : Json → Option String),
    .defaulted "kind" (ofJson? : Json → Option String),
    .required "span" (ofJson? : Json → Option Span),
    .defaulted "fieldName" (ofJson? : Json → Option String),
    .optional "node" (ofJson? : Json → Option NodeId)]
  nodup_names := by decide
  exists_build := by
    refine ⟨_, fun _ => rfl, ?_⟩
    exact reads_required fun _ => reads_defaulted fun _ => reads_required fun _ =>
      reads_defaulted fun _ => reads_optional fun _ => reads_noMore _

instance {α : Type} [Document α] : RecordDocument (SourceFile α) where
  fields := [.required "path" (ofJson? : Json → Option String),
    .defaulted "language" (ofJson? : Json → Option Language),
    .required "units" (ofJson? : Json → Option (List α))]
  nodup_names := by simp [Field.required, Field.defaulted]
  exists_build := by
    refine ⟨_, fun _ => rfl, ?_⟩
    exact reads_required fun _ => reads_defaulted fun _ => reads_required fun _ =>
      reads_noMore _

instance : RecordDocument Descriptor where
  fields := [.required "path" (ofJson? : Json → Option String),
    .required "span" (ofJson? : Json → Option Span),
    .required "signature" (ofJson? : Json → Option Signature)]
  nodup_names := by decide
  exists_build := by
    refine ⟨_, fun _ => rfl, ?_⟩
    exact reads_required fun _ => reads_required fun _ => reads_required fun _ =>
      reads_noMore _

instance : RecordDocument GraphSummary where
  fields := [.required "vertices" (ofJson? : Json → Option UInt64),
    .required "edges" (ofJson? : Json → Option UInt64),
    .required "adjacency_ready" (ofJson? : Json → Option Bool)]
  nodup_names := by decide
  exists_build := by
    refine ⟨_, fun _ => rfl, ?_⟩
    exact reads_required fun _ => reads_required fun _ => reads_required fun _ =>
      reads_noMore _

instance : RecordDocument Limits where
  fields := [.defaulted "min_index_name_len" (ofJson? : Json → Option UInt64),
    .optional "max_references_per_function" (ofJson? : Json → Option UInt64)]
  nodup_names := by decide
  exists_build := by
    refine ⟨_, fun _ => rfl, ?_⟩
    exact reads_defaulted fun _ => reads_optional fun _ => reads_noMore _

instance : RecordDocument DigestStore where
  fields := [.required "contexts" fun j => (members? j).bind (DigestStore.putMembers? · .empty)]
  nodup_names := by decide
  exists_build := by
    refine ⟨_, fun _ => rfl, ?_⟩
    exact reads_required fun _ => reads_noMore _

/-! ## Trees of chains

A tree is read within a bound on its depth, and every bound that is large enough gives the same. -/

namespace Record

theorem exists_mem_of_slotsOfMembers? {names : List String} {members : List (String × Json)}
    {slots : List (Option Json)} {x : Json} (h : slotsOfMembers? names members = some slots)
    (hx : some x ∈ slots) : ∃ m ∈ members, m.2 = x := by
  induction names generalizing slots with
  | nil =>
    cases h
    cases hx
  | cons name names ih =>
    rw [slotsOfMembers?, List.mapM_cons] at h
    simp only [Option.bind_eq_bind, Option.bind_eq_some_iff] at h
    obtain ⟨slot, hslot, rest, hrest, heq⟩ := h
    cases heq
    rcases List.mem_cons.mp hx with rfl | hx
    · split at hslot
      case h_1 => cases hslot
      case h_2 m hm =>
        cases hslot
        exact ⟨m, List.mem_of_mem_filter (hm ▸ List.mem_singleton_self m), rfl⟩
      case h_3 => cases hslot
    · exact ih hrest hx

/-- What a tree gives for a field is not as deep as the tree. -/
theorem depth_lt_of_mem_slots? {names : List String} {j x : Json} {slots : List (Option Json)}
    (h : slots? names j = some slots) (hx : some x ∈ slots) : x.depth < j.depth := by
  cases j with
  | object members =>
    obtain ⟨m, hm, rfl⟩ := exists_mem_of_slotsOfMembers? h hx
    exact Nat.lt_succ_of_le (Json.depthOfMembers_le_iff.mp (Nat.le_refl _) m hm)
  | array items =>
    rw [slots?, slotsOfItems?] at h
    split at h
    case isTrue =>
      cases h
      have hmem : x ∈ items := by simpa using hx
      exact Nat.lt_succ_of_le (Json.depthOfItems_le_iff.mp (Nat.le_refl _) x hmem)
    case isFalse => cases h
  | _ => cases h

end Record

theorem Document.ofItems?_congr {α : Type} {read read' : Json → Option α} {xs : List Json}
    (h : ∀ x ∈ xs, read x = read' x) : ofItems? read xs = ofItems? read' xs := by
  induction xs with
  | nil => rfl
  | cons x xs ih =>
    obtain ⟨hx, hxs⟩ := List.forall_mem_cons.mp h
    rw [ofItems?, ofItems?, hx, ih hxs]

namespace ChainTree

variable {α : Type} [Document α]

theorem ofJsonWithin?_succ (bound : Nat) (j : Json) :
    (ofJsonWithin? (bound + 1) j : Option (ChainTree α)) =
      (slots? ["content", "children"] j).bind (ofSlots? (ofJsonWithin? bound)) :=
  rfl

/-- Readers that agree below a depth agree on the slots of a tree of that depth. -/
theorem bind_ofSlots?_congr {read read' : Json → Option (ChainTree α)} {j : Json}
    (h : ∀ x, x.depth < j.depth → read x = read' x) :
    (slots? ["content", "children"] j).bind (ofSlots? read) =
      (slots? ["content", "children"] j).bind (ofSlots? read') := by
  refine Option.bind_congr fun slots hslots => ?_
  rcases slots with _ | ⟨content, _ | ⟨children, rest⟩⟩
  · rfl
  · rfl
  have hchildren : Record.required (ofArray? read) children =
      Record.required (ofArray? read') children := by
    rcases children with _ | children
    · rfl
    · have hdepth : children.depth < j.depth := depth_lt_of_mem_slots? hslots (by simp)
      cases children with
      | array items =>
        refine ofItems?_congr fun x hx => h x ?_
        have hx := Json.depthOfItems_le_iff.mp (Nat.le_refl _) x hx
        rw [Json.depth] at hdepth
        omega
      | _ => rfl
  simp only [ofSlots?, withSlot_cons, hchildren]

/-- A tree that nests nothing has no slots, so a bound of zero is no exception. -/
theorem ofJsonWithin?_eq {bound : Nat} {j : Json} (h : j.depth ≤ bound) :
    (ofJsonWithin? bound j : Option (ChainTree α)) =
      (slots? ["content", "children"] j).bind (ofSlots? (ofJsonWithin? (bound - 1))) := by
  cases bound with
  | succ bound => exact ofJsonWithin?_succ bound j
  | zero =>
    cases j with
    | array items => exact absurd h (Nat.not_succ_le_zero _)
    | object members => exact absurd h (Nat.not_succ_le_zero _)
    | _ => rfl

theorem ofJsonWithin?_congr {bound bound' : Nat} {j : Json} (h : j.depth ≤ bound)
    (h' : j.depth ≤ bound') :
    (ofJsonWithin? bound j : Option (ChainTree α)) = ofJsonWithin? bound' j := by
  induction hn : j.depth using Nat.strong_induction_on generalizing j bound bound' with
  | _ n ih =>
    rw [ofJsonWithin?_eq h, ofJsonWithin?_eq h']
    refine bind_ofSlots?_congr fun x hx => ih x.depth (hn ▸ hx) ?_ ?_ rfl
    · omega
    · omega

theorem ofJson?_eq (j : Json) :
    (ofJson? j : Option (ChainTree α)) =
      (slots? ["content", "children"] j).bind (ofSlots? ofJson?) := by
  calc (ofJson? j : Option (ChainTree α))
    _ = (slots? ["content", "children"] j).bind (ofSlots? (ofJsonWithin? (j.depth - 1))) :=
      ofJsonWithin?_eq (Nat.le_refl _)
    _ = (slots? ["content", "children"] j).bind (ofSlots? ofJson?) :=
      bind_ofSlots?_congr fun _ hx => ofJsonWithin?_congr (Nat.le_sub_one_of_lt hx) (Nat.le_refl _)

end ChainTree

instance {α : Type} [Document α] : RecordDocument (ChainTree α) where
  fields := [.required "content" (ofJson? : Json → Option α),
    .required "children" (ofArray? (ofJson? : Json → Option (ChainTree α)))]
  nodup_names := by simp [Field.required]
  exists_build := by
    refine ⟨ChainTree.ofSlots? ofJson?, ChainTree.ofJson?_eq, ?_⟩
    exact reads_required fun _ => reads_required fun _ => reads_noMore _

end CallImpact
