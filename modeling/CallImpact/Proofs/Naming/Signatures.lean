import CallImpact.Naming
import Mathlib.Data.List.Basic

/-!
# Signatures are readable

The text of a signature is cut at its first colon and then at the first two bars behind it, and
each list of types at its commas.  This gives back the receiver, the name and the types as long
as no mark stands inside the part that it ends (`FunctionDecl.IsLegible`).  A type has to have a
text, since a list of one empty type reads like the empty list.

So the signatures of legible functions are equal exactly if their parts are, and whatever else
a function carries does not matter.
-/

namespace CallImpact

/-- What a signature tells about a function. -/
structure SignatureParts where
  receiver : String
  name : String
  parameterTypes : List String
  returnTypes : List String
deriving DecidableEq

def FunctionDecl.signatureParts (f : FunctionDecl) : SignatureParts where
  receiver := f.receiver
  name := f.name
  parameterTypes := f.parameters.map TypedName.typeName
  returnTypes := f.returns.map TypedName.typeName

/-- The text of a type is not empty and holds none of the marks that end it. -/
structure TypedName.IsLegible (t : TypedName) : Prop where
  ne_empty : t.typeName ≠ ""
  comma_not_mem : ',' ∉ t.typeName.toList
  bar_not_mem : '|' ∉ t.typeName.toList

instance (t : TypedName) : Decidable t.IsLegible :=
  decidable_of_iff (t.typeName ≠ "" ∧ ',' ∉ t.typeName.toList ∧ '|' ∉ t.typeName.toList)
    ⟨fun h => ⟨h.1, h.2.1, h.2.2⟩, fun h => ⟨h.ne_empty, h.comma_not_mem, h.bar_not_mem⟩⟩

/-- No mark of a signature stands inside the part that it ends. -/
structure FunctionDecl.IsLegible (f : FunctionDecl) : Prop where
  colon_not_mem_receiver : ':' ∉ f.receiver.toList
  bar_not_mem_name : '|' ∉ f.name.toList
  parameters : ∀ t ∈ f.parameters, t.IsLegible
  returns : ∀ t ∈ f.returns, t.IsLegible

instance (f : FunctionDecl) : Decidable f.IsLegible :=
  decidable_of_iff (':' ∉ f.receiver.toList ∧ '|' ∉ f.name.toList ∧
      (∀ t ∈ f.parameters, t.IsLegible) ∧ ∀ t ∈ f.returns, t.IsLegible)
    ⟨fun h => ⟨h.1, h.2.1, h.2.2.1, h.2.2.2⟩,
      fun h => ⟨h.colon_not_mem_receiver, h.bar_not_mem_name, h.parameters, h.returns⟩⟩

namespace Signature

/-! ## Reading a signature -/

/-- The text before the first occurrence of a mark, and the text behind it. -/
def cutAt (mark : Char) (text : List Char) : List Char × List Char :=
  (text.takeWhile (· != mark), (text.dropWhile (· != mark)).tail)

/-- The types that a text lists with commas between them. -/
def splitTypes (text : List Char) : List String :=
  if text = [] then [] else (text.splitOn ',').map String.ofList

/-- The parts of a signature, read from its text. -/
def parts (s : Signature) : SignatureParts :=
  let (receiver, afterReceiver) := cutAt ':' s.text.toList
  let (name, types) := cutAt '|' afterReceiver.tail
  let (parameters, returns) := cutAt '|' types
  ⟨String.ofList receiver, String.ofList name, splitTypes parameters, splitTypes returns⟩

variable {mark : Char} {before behind : List Char}

/-- A text is cut where a mark stands behind characters that are not that mark. -/
theorem cutAt_append_cons (h : mark ∉ before) :
    cutAt mark (before ++ mark :: behind) = (before, behind) := by
  have hbefore : ∀ c ∈ before, (c != mark) = true := by
    intro c hc
    rw [bne_iff_ne]
    rintro rfl
    exact h hc
  rw [cutAt, List.takeWhile_append_of_pos hbefore, List.dropWhile_append_of_pos hbefore]
  simp

/-! ## Lists of types -/

variable {names : List TypedName}

theorem toList_joinTypes (names : List TypedName) :
    (joinTypes names).toList = [','].intercalate (names.map (·.typeName.toList)) := by
  rw [joinTypes, String.toList_intercalate, List.map_map]
  rfl

/-- A joined list holds nothing but commas and the characters of its types. -/
theorem not_mem_joinTypes (hcomma : mark ≠ ',') (h : ∀ t ∈ names, mark ∉ t.typeName.toList) :
    mark ∉ (joinTypes names).toList := by
  rw [toList_joinTypes]
  induction names with
  | nil => exact List.not_mem_nil
  | cons t rest ih =>
    obtain ⟨ht, hrest⟩ := List.forall_mem_cons.mp h
    cases rest with
    | nil => simpa using ht
    | cons u rest =>
      have hjoined := ih hrest
      rw [List.map_cons] at hjoined
      rw [List.map_cons, List.map_cons, List.intercalate_cons_cons, List.mem_append,
        List.mem_append, List.mem_singleton]
      rintro ((hmem | heq) | hmem)
      · exact ht hmem
      · exact hcomma heq
      · exact hjoined hmem

/-- Joined types that have a text are split into the same types. -/
theorem splitTypes_joinTypes (h : ∀ t ∈ names, t.IsLegible) :
    splitTypes (joinTypes names).toList = names.map TypedName.typeName := by
  have hcomma : ∀ text ∈ names.map (·.typeName.toList), ',' ∉ text :=
    List.forall_mem_map.mpr fun t ht => (h t ht).comma_not_mem
  have htexts : (names.map (·.typeName.toList)).map String.ofList =
      names.map TypedName.typeName := by
    rw [List.map_map]
    exact List.map_congr_left fun t _ => String.ofList_toList
  rw [toList_joinTypes, splitTypes]
  cases names with
  | nil => rfl
  | cons t rest =>
    have hsplit := List.splitOn_intercalate ',' hcomma (List.cons_ne_nil _ _)
    split
    case isTrue hempty =>
      -- An empty text is split into one empty type, which `t` is not.
      rw [hempty, List.splitOn_nil] at hsplit
      have hhead : [] = t.typeName.toList := (List.cons.inj hsplit).1
      exact absurd (String.toList_eq_nil_iff.mp hhead.symm)
        (h t (List.mem_cons_self ..)).ne_empty
    case isFalse => rw [hsplit, htexts]

/-! ## Signatures of legible functions -/

theorem toList_ofDecl (f : FunctionDecl) :
    (ofDecl f).text.toList =
      f.receiver.toList ++ ':' :: ':' :: (f.name.toList ++ '|' ::
        ((joinTypes f.parameters).toList ++ '|' :: (joinTypes f.returns).toList)) := by
  simp only [ofDecl, String.toList_append, List.append_assoc]
  rfl

/-- The parts of a legible function are read from its signature. -/
theorem parts_signature {f : FunctionDecl} (h : f.IsLegible) :
    f.signature.parts = f.signatureParts := by
  have hparameters : '|' ∉ (joinTypes f.parameters).toList :=
    not_mem_joinTypes (by decide) fun t ht => (h.parameters t ht).bar_not_mem
  rw [FunctionDecl.signature, parts, toList_ofDecl]
  simp only [cutAt_append_cons h.colon_not_mem_receiver, List.tail_cons,
    cutAt_append_cons h.bar_not_mem_name, cutAt_append_cons hparameters,
    splitTypes_joinTypes h.parameters, splitTypes_joinTypes h.returns, String.ofList_toList]
  rfl

end Signature

/-- Functions with the same parts have the same signature, whatever else they carry, and legible
functions have the same signature only if their parts are the same. -/
theorem signature_eq_iff_signatureParts_eq :
    (∀ f g : FunctionDecl, f.signatureParts = g.signatureParts → f.signature = g.signature) ∧
    ∀ f g : FunctionDecl, f.IsLegible → g.IsLegible →
      (f.signature = g.signature ↔ f.receiver = g.receiver ∧ f.name = g.name ∧
        f.parameters.map TypedName.typeName = g.parameters.map TypedName.typeName ∧
        f.returns.map TypedName.typeName = g.returns.map TypedName.typeName) := by
  have hsame : ∀ f g : FunctionDecl, f.signatureParts = g.signatureParts →
      f.signature = g.signature := by
    intro f g h
    obtain ⟨hreceiver, hname, hparameters, hreturns⟩ := (SignatureParts.mk.injEq ..).mp h
    rw [FunctionDecl.signature, FunctionDecl.signature, Signature.ofDecl, Signature.ofDecl,
      Signature.joinTypes, Signature.joinTypes, Signature.joinTypes, Signature.joinTypes,
      hreceiver, hname, hparameters, hreturns]
  refine ⟨hsame, fun f g hf hg => ?_⟩
  rw [← SignatureParts.mk.injEq]
  constructor
  · intro h
    calc f.signatureParts
      _ = f.signature.parts := (Signature.parts_signature hf).symm
      _ = g.signature.parts := by rw [h]
      _ = g.signatureParts := Signature.parts_signature hg
  · exact hsame f g

/-- A method whose name and types hold every mark that they may hold. -/
def colonMethod : FunctionDecl where
  name := ":serve,all"
  receiver := "*Server"
  parameters := [⟨"context.Context", "ctx"⟩, ⟨"map[string]::int", "ports"⟩]
  span := .ofRows 0 9
  extras := ⟨.int 1, rfl⟩

/-- The same method in another place, with other names of its values. -/
def movedMethod : FunctionDecl where
  name := ":serve,all"
  receiver := "*Server"
  parameters := [⟨"context.Context", ""⟩, ⟨"map[string]::int", "a|b"⟩]
  span := .ofRows 20 21
  language := .golang
  node := some ⟨7⟩

theorem signature_eq_iff_signatureParts_eq_moved :
    colonMethod.signatureParts = movedMethod.signatureParts ∧ colonMethod.IsLegible ∧
      movedMethod.IsLegible ∧ colonMethod.signature = movedMethod.signature := by
  have hcolon : colonMethod.IsLegible := by decide
  have hmoved : movedMethod.IsLegible := by decide
  have hparts : colonMethod.signatureParts = movedMethod.signatureParts := by decide
  have hsignature := signature_eq_iff_signatureParts_eq.1 colonMethod movedMethod hparts
  have hiff := signature_eq_iff_signatureParts_eq.2 colonMethod movedMethod hcolon hmoved
  exact ⟨hparts, hcolon, hmoved, hiff.mpr (hiff.mp hsignature)⟩

end CallImpact
