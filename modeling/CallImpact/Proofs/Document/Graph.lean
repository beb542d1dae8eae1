import CallImpact.Document.Graph
import CallImpact.Proofs.Document.Entity

/-!
# Neighbourhoods, reports and stores are read back from their documents

The members of a neighbourhood or a digest are those of its function, followed by the lists of
its neighbours; an impact report adds the chains of the callers.  No two of these parts share
a name, so each is read as if it stood alone.

A tree of chains nests one object and one array for each of its nodes, hence it is never
cut short where the depth of its document bounds the reading.
-/

namespace CallImpact

open Document Record

namespace ChainTree

variable {α : Type} [CarriesPayloads α]

mutual

/-- The payloads of the contents of a tree. -/
def payloadsOf : ChainTree α → List Payload
  | node content children => payloads content ++ payloadsOfForest children

def payloadsOfForest : List (ChainTree α) → List Payload
  | [] => []
  | t :: ts => t.payloadsOf ++ payloadsOfForest ts

end

mutual

theorem payloadsOf_eq_nil (h : ∀ content : α, payloads content = []) :
    (t : ChainTree α) → t.payloadsOf = []
  | node content children => by
    rw [payloadsOf, h content, payloadsOfForest_eq_nil h children, List.append_nil]

theorem payloadsOfForest_eq_nil (h : ∀ content : α, payloads content = []) :
    (ts : List (ChainTree α)) → payloadsOfForest ts = []
  | [] => rfl
  | t :: ts => by
    rw [payloadsOfForest, payloadsOf_eq_nil h t, payloadsOfForest_eq_nil h ts, List.append_nil]

end

end ChainTree

instance : CarriesPayloads Relation := {}
instance : CarriesPayloads Role := {}
instance : CarriesPayloads GraphSummary := {}
instance : CarriesPayloads Limits := {}
instance : CarriesPayloads Reach := {}
instance : CarriesPayloads QueryAnswer where
  payloads
    | .oneHop functions => payloads functions
    | .chains chains => payloads chains
instance : CarriesPayloads Neighbourhood :=
  ⟨fun n => payloads n.function ++ payloads n.callees ++ payloads n.callers⟩
instance : CarriesPayloads Digest := ⟨fun d => payloads d.function⟩
instance {α : Type} [CarriesPayloads α] : CarriesPayloads (ChainTree α) :=
  ⟨ChainTree.payloadsOf⟩
instance : CarriesPayloads ImpactReport := ⟨fun r => payloads r.digest⟩
instance : CarriesPayloads DigestStore := ⟨fun s => payloads (s.entries.map Prod.snd)⟩

instance : LawfulDocument Relation where
  ofJson?_toJson := Relation.ofName?_name
  everyLeaf_toJson hproperty _ _ := hproperty _ rfl

instance : LawfulDocument Role where
  ofJson?_toJson := Role.ofName?_name
  everyLeaf_toJson hproperty _ _ := hproperty _ rfl

theorem GraphSummary.ofJson?_object {s : GraphSummary} {vertices edges ready : Json}
    (hvertices : ofJson? vertices = some s.vertices) (hedges : ofJson? edges = some s.edges)
    (hready : ofJson? ready = some s.tableReady) :
    ofJson? (.object [("vertices", vertices), ("edges", edges), ("adjacency_ready", ready)]) =
      some s := by
  unfold instDocumentGraphSummary
  simp [slots?, slotsOfMembers?, required, hvertices, hedges, hready]

instance : LawfulDocument GraphSummary where
  ofJson?_toJson _ :=
    GraphSummary.ofJson?_object (ofJson?_toJson _) (ofJson?_toJson _) (ofJson?_toJson _)
  everyLeaf_toJson hproperty _ _ := by
    refine Json.everyLeafOfMembers_iff.mpr ?_
    simp [everyLeaf_toJson hproperty, payloads]

/-- A value that may be absent is null exactly if it is absent. -/
theorem optional_orNull {α : Type} [Document α] [CarriesPayloads α] [LawfulDocument α]
    (hnull : ∀ value : α, toJson value ≠ .null) (value : Option α) :
    Record.optional ofJson? (some (orNull value)) = some value := by
  rcases value with _ | value
  · rfl
  · exact optional_eq_some (hnull value) (ofJson?_toJson value)

theorem Limits.ofJson?_object {l : Limits} {minimum maximum : Json}
    (hminimum : ofJson? minimum = some l.minNameLength)
    (hmaximum : Record.optional ofJson? (some maximum) = some l.maxReferences) :
    ofJson? (.object [("min_index_name_len", minimum),
      ("max_references_per_function", maximum)]) = some l := by
  unfold instDocumentLimits
  simp [slots?, slotsOfMembers?, defaulted, hminimum, hmaximum]

instance : LawfulDocument Limits where
  ofJson?_toJson l := by
    have hnull : ∀ n : UInt64, toJson n ≠ .null := fun _ => nofun
    exact Limits.ofJson?_object (ofJson?_toJson _) (optional_orNull hnull l.maxReferences)
  everyLeaf_toJson hproperty l _ := by
    refine Json.everyLeafOfMembers_iff.mpr ?_
    rcases l with ⟨minimum, _ | maximum⟩
    · simp [everyLeaf_toJson hproperty, payloads, orNull, Json.everyLeaf, hproperty .null rfl]
    · simp [everyLeaf_toJson hproperty, payloads, orNull]

theorem Reach.ofJson?_oneHop :
    ofJson? (.object [("mode", .string "one_hop")]) = some Reach.oneHop := by
  have hmode : ofJson? (Json.string "one_hop") = some "one_hop" := rfl
  unfold instDocumentReach
  simp [Json.isReadable, Json.areReadableMembers, slotsOfMembers?, required, hmode,
    Reach.ofMode?]

theorem Reach.ofJson?_chains {n : UInt64} {hops : Json} (hreadable : hops.isReadable = true)
    (hhops : ofJson? hops = some n) :
    ofJson? (.object [("mode", .string "bounded_chain"), ("depth", hops)]) =
      some (Reach.chains n) := by
  have hobject : (Json.object [("mode", .string "bounded_chain"), ("depth", hops)]).isReadable =
      true := by
    simp [Json.isReadable, Json.areReadableMembers, hreadable]
  have hmode : ofJson? (Json.string "bounded_chain") = some "bounded_chain" := rfl
  unfold instDocumentReach
  simp [hobject, slots?, slotsOfMembers?, required, hmode, Reach.ofMode?, hhops]

instance : LawfulDocument Reach where
  ofJson?_toJson depth := by
    cases depth with
    | oneHop => exact Reach.ofJson?_oneHop
    | chains hops => exact Reach.ofJson?_chains (isReadable_toJson hops) (ofJson?_toJson hops)
  everyLeaf_toJson hproperty depth _ := by
    cases depth with
    | oneHop =>
      refine Json.everyLeafOfMembers_iff.mpr ?_
      simp [Json.everyLeaf, hproperty (.string _) rfl]
    | chains hops =>
      refine Json.everyLeafOfMembers_iff.mpr ?_
      simp [Json.everyLeaf, hproperty (.string _) rfl, everyLeaf_toJson hproperty, payloads]

namespace QueryAnswer

theorem ofJson?_oneHop {functions : List LocatedFunction} {j : Json}
    (h : ofJson? j = some functions) :
    ofJson? (.object [("mode", .string "one_hop"), ("functions", j)]) =
      some (QueryAnswer.oneHop functions) := by
  unfold instDocumentQueryAnswer
  simp [slots?, slotsOfMembers?, required, Mode.ofTag?, named?, Mode.ofName?, h]

theorem ofJson?_chains {chains : List (List LocatedFunction)} {j : Json}
    (h : ofJson? j = some chains) :
    ofJson? (.object [("mode", .string "chains"), ("functions", j)]) =
      some (QueryAnswer.chains chains) := by
  unfold instDocumentQueryAnswer
  simp [slots?, slotsOfMembers?, required, Mode.ofTag?, named?, Mode.ofName?, h]

end QueryAnswer

instance : LawfulDocument QueryAnswer where
  ofJson?_toJson
    | .oneHop functions => QueryAnswer.ofJson?_oneHop (ofJson?_toJson functions)
    | .chains chains => QueryAnswer.ofJson?_chains (ofJson?_toJson chains)
  everyLeaf_toJson hproperty
    | .oneHop functions, h => Json.everyLeafOfMembers_iff.mpr <| by
      have hfunctions := everyLeaf_toJson hproperty functions h
      simp [Json.everyLeaf, hproperty (.string _) rfl, hfunctions]
    | .chains chains, h => Json.everyLeafOfMembers_iff.mpr <| by
      have hchains := everyLeaf_toJson hproperty chains h
      simp [Json.everyLeaf, hproperty (.string _) rfl, hchains]

/-! ## Neighbourhoods and digests -/

section Neighbours

variable {callees callers : Json}

theorem LocatedFunction.keys_members_subset (f : LocatedFunction) :
    f.members.map Prod.fst ⊆ "path" :: FunctionDecl.fields := by
  rw [LocatedFunction.members, List.map_append]
  refine List.append_subset.mpr ⟨?_, by simp⟩
  exact fun key hkey => List.mem_cons_of_mem _ (f.decl.keys_members_subset hkey)

/-- The function is read from its members, whatever its neighbours are. -/
theorem LocatedFunction.ofMembers?_neighbours (f : LocatedFunction) :
    LocatedFunction.ofMembers?
      (f.members ++ [("calls", callees), ("reverseCalls", callers)]) = some f :=
  f.ofMembers?_members_append (by simp [FunctionDecl.fields])

/-- The neighbours are read from their members, whatever their function is. -/
theorem slotsOfMembers?_neighbours (f : LocatedFunction) :
    slotsOfMembers? ["calls", "reverseCalls"]
      (f.members ++ [("calls", callees), ("reverseCalls", callers)]) =
        some [some callees, some callers] := by
  have hother : ∀ name ∈ ["calls", "reverseCalls"], name ∉ f.members.map Prod.fst := by
    intro name hname hmem
    have hfield := f.keys_members_subset hmem
    simp only [List.mem_cons, List.not_mem_nil, or_false] at hname
    rcases hname with rfl | rfl
    · simp [FunctionDecl.fields] at hfield
    · simp [FunctionDecl.fields] at hfield
  rw [slotsOfMembers?_append_right hother]
  simp [slotsOfMembers?]

theorem forall_mem_neighbours {property : Json → Bool} {f : LocatedFunction}
    (hfunction : ∀ m ∈ f.members, property m.2 = true) (hcallees : property callees = true)
    (hcallers : property callers = true) :
    ∀ m ∈ f.members ++ [("calls", callees), ("reverseCalls", callers)],
      property m.2 = true := by
  rw [List.forall_mem_append]
  exact ⟨hfunction, by simp [hcallees, hcallers]⟩

end Neighbours

theorem Neighbourhood.ofJson?_object {n : Neighbourhood} {members : List (String × Json)}
    {callees callers : Json} (hreadable : readableMembers? (.object members) = some members)
    (hfunction : LocatedFunction.ofMembers? members = some n.function)
    (hslots : slotsOfMembers? ["calls", "reverseCalls"] members =
      some [some callees, some callers])
    (hcallees : ofJson? callees = some n.callees) (hcallers : ofJson? callers = some n.callers) :
    ofJson? (.object members) = some n := by
  unfold instDocumentNeighbourhood
  simp [hreadable, hslots, hfunction, required, hcallees, hcallers]

instance : LawfulDocument Neighbourhood where
  ofJson?_toJson n := by
    have hreadable : ∀ m ∈ n.members, m.2.isReadable = true :=
      forall_mem_neighbours n.function.isReadable_members (isReadable_toJson _)
        (isReadable_toJson _)
    exact Neighbourhood.ofJson?_object (readableMembers?_object hreadable)
      n.function.ofMembers?_neighbours (slotsOfMembers?_neighbours n.function)
      (ofJson?_toJson _) (ofJson?_toJson _)
  everyLeaf_toJson hproperty n h := by
    obtain ⟨hboth, hcallers⟩ := List.forall_mem_append.mp h
    obtain ⟨hfunction, hcallees⟩ := List.forall_mem_append.mp hboth
    exact Json.everyLeafOfMembers_iff.mpr <| forall_mem_neighbours
      (LocatedFunction.everyLeaf_members hproperty (hfunction _ (List.mem_singleton_self _)))
      (everyLeaf_toJson hproperty _ hcallees) (everyLeaf_toJson hproperty _ hcallers)

namespace Digest

theorem ofMembers?_eq_some {d : Digest} {members : List (String × Json)}
    {callees callers : Json} (hfunction : LocatedFunction.ofMembers? members = some d.function)
    (hslots : slotsOfMembers? ["calls", "reverseCalls"] members =
      some [some callees, some callers])
    (hcallees : ofJson? callees = some d.callees) (hcallers : ofJson? callers = some d.callers) :
    ofMembers? members = some d := by
  simp [ofMembers?, hslots, hfunction, required, hcallees, hcallers]

theorem ofMembers?_members (d : Digest) : ofMembers? d.members = some d :=
  ofMembers?_eq_some d.function.ofMembers?_neighbours (slotsOfMembers?_neighbours d.function)
    (ofJson?_toJson _) (ofJson?_toJson _)

theorem everyLeaf_members {property : Json → Bool}
    (hproperty : ∀ leaf, leaf.isExactLeaf = true → property leaf = true) {d : Digest}
    (h : ∀ p ∈ payloads d, p.tree.everyLeaf property = true) :
    ∀ m ∈ d.members, m.2.everyLeaf property = true :=
  forall_mem_neighbours
    (LocatedFunction.everyLeaf_members hproperty (h _ (List.mem_singleton_self _)))
    (everyLeaf_toJson hproperty _ (by simp [payloads]))
    (everyLeaf_toJson hproperty _ (by simp [payloads]))

theorem readableMembers?_members (d : Digest) :
    readableMembers? (.object d.members) = some d.members :=
  readableMembers?_object <|
    forall_mem_neighbours d.function.isReadable_members (isReadable_toJson _)
      (isReadable_toJson _)

theorem chains_not_mem_keys (d : Digest) :
    "reverseCallChains" ∉ d.members.map Prod.fst := by
  rw [members, List.map_append, List.mem_append, not_or]
  refine ⟨fun hmem => ?_, by simp⟩
  have hfield := d.function.keys_members_subset hmem
  simp [FunctionDecl.fields] at hfield

end Digest

instance : LawfulDocument Digest where
  ofJson?_toJson d := by
    calc ofJson? (toJson d)
      _ = (readableMembers? (.object d.members)).bind Digest.ofMembers? := rfl
      _ = some d := by rw [d.readableMembers?_members, Option.bind_some, d.ofMembers?_members]
  everyLeaf_toJson hproperty _ h :=
    Json.everyLeafOfMembers_iff.mpr (Digest.everyLeaf_members hproperty h)

/-! ## Trees of chains -/

namespace ChainTree

mutual

/-- Every node of a tree nests an object and an array. -/
theorem two_mul_depth_le {α : Type} [Document α] : (t : ChainTree α) → 2 * t.depth ≤ t.toJson.depth
  | node content children => by
    have hchildren := two_mul_depthOfForest_le children
    rw [depth, toJson]
    simp only [Json.depth, Json.depthOfMembers]
    omega

theorem two_mul_depthOfForest_le {α : Type} [Document α] : (ts : List (ChainTree α)) →
    2 * depthOfForest ts ≤ Json.depthOfItems (forestToJson ts)
  | [] => Nat.le_refl 0
  | t :: ts => by
    have hfirst := two_mul_depth_le t
    have hrest := two_mul_depthOfForest_le ts
    rw [depthOfForest, forestToJson, Json.depthOfItems]
    omega

end

mutual

/-- A tree is read back within its own depth. -/
theorem ofJsonWithin?_toJson {α : Type} [Document α] [CarriesPayloads α] [LawfulDocument α] :
    (t : ChainTree α) → (bound : Nat) → t.depth ≤ bound →
      ofJsonWithin? bound t.toJson = some t
  | node content children, 0, h => absurd h (Nat.not_succ_le_zero _)
  | node content children, bound + 1, h => by
    rw [depth] at h
    have hchildren := ofItems?_forestToJson children bound (Nat.le_of_succ_le_succ h)
    rw [toJson]
    simp [ofJsonWithin?, slots?, slotsOfMembers?, ofSlots?, required, ofArray?, hchildren]

theorem ofItems?_forestToJson {α : Type} [Document α] [CarriesPayloads α] [LawfulDocument α] :
    (ts : List (ChainTree α)) → (bound : Nat) → depthOfForest ts ≤ bound →
      ofItems? (ofJsonWithin? bound) (forestToJson ts) = some ts
  | [], _, _ => rfl
  | t :: ts, bound, h => by
    obtain ⟨hfirst, hrest⟩ := Nat.max_le.mp h
    rw [forestToJson, ofItems?, ofJsonWithin?_toJson t bound hfirst,
      ofItems?_forestToJson ts bound hrest]
    rfl

end

mutual

/-- The leaves of a written tree are those of its contents. -/
theorem everyLeaf_treeToJson {α : Type} [Document α] [CarriesPayloads α] [LawfulDocument α]
    {property : Json → Bool} (hproperty : ∀ leaf, leaf.isExactLeaf = true → property leaf = true) :
    (t : ChainTree α) → (∀ p ∈ t.payloadsOf, p.tree.everyLeaf property = true) →
      t.toJson.everyLeaf property = true
  | node content children, h => by
    rw [payloadsOf, List.forall_mem_append] at h
    have hcontent := everyLeaf_toJson hproperty content h.1
    have hchildren := everyLeaf_forestToJson hproperty children h.2
    rw [toJson]
    simp [Json.everyLeaf, Json.everyLeafOfMembers, hcontent, hchildren]

theorem everyLeaf_forestToJson {α : Type} [Document α] [CarriesPayloads α] [LawfulDocument α]
    {property : Json → Bool} (hproperty : ∀ leaf, leaf.isExactLeaf = true → property leaf = true) :
    (ts : List (ChainTree α)) → (∀ p ∈ payloadsOfForest ts, p.tree.everyLeaf property = true) →
      Json.everyLeafOfItems property (forestToJson ts) = true
  | [], _ => rfl
  | t :: ts, h => by
    rw [payloadsOfForest, List.forall_mem_append] at h
    rw [forestToJson, Json.everyLeafOfItems, everyLeaf_treeToJson hproperty t h.1,
      everyLeaf_forestToJson hproperty ts h.2, Bool.and_self]

end

theorem ofJson?_tree {α : Type} [Document α] [CarriesPayloads α] [LawfulDocument α]
    (t : ChainTree α) : ofJson? (Document.toJson t) = some t := by
  have hdepth : t.depth ≤ t.toJson.depth := by
    have htwice := t.two_mul_depth_le
    omega
  exact ofJsonWithin?_toJson t t.toJson.depth hdepth

end ChainTree

instance {α : Type} [Document α] [CarriesPayloads α] [LawfulDocument α] :
    LawfulDocument (ChainTree α) where
  ofJson?_toJson := ChainTree.ofJson?_tree
  everyLeaf_toJson := ChainTree.everyLeaf_treeToJson

/-! ## Impact reports -/

namespace ImpactReport

def members (r : ImpactReport) : List (String × Json) :=
  r.digest.members ++ [("reverseCallChains", toJson r.callerChains)]

theorem filter_members (r : ImpactReport) :
    r.members.filter (fun m => m.1 != "reverseCallChains") = r.digest.members := by
  have hkept : r.digest.members.filter (fun m => m.1 != "reverseCallChains") =
      r.digest.members := by
    rw [List.filter_eq_self]
    intro m hm
    rw [bne_iff_ne]
    intro hkey
    exact r.digest.chains_not_mem_keys (List.mem_map.mpr ⟨m, hm, hkey⟩)
  rw [members, List.filter_append, hkept]
  simp

theorem slotsOfMembers?_members (r : ImpactReport) :
    slotsOfMembers? ["reverseCallChains"] r.members = some [some (toJson r.callerChains)] := by
  have hother : ∀ name ∈ ["reverseCallChains"], name ∉ r.digest.members.map Prod.fst := by
    intro name hname
    rw [List.mem_singleton.mp hname]
    exact r.digest.chains_not_mem_keys
  rw [members, slotsOfMembers?_append_right hother]
  simp [slotsOfMembers?]

theorem ofJson?_object {r : ImpactReport} {members others : List (String × Json)} {chains : Json}
    (hslots : slotsOfMembers? ["reverseCallChains"] members = some [some chains])
    (hothers : members.filter (fun m => m.1 != "reverseCallChains") = others)
    (hreadable : readableMembers? (.object others) = some others)
    (hdigest : Digest.ofMembers? others = some r.digest)
    (hchains : ofJson? chains = some r.callerChains) :
    ofJson? (.object members) = some r := by
  unfold instDocumentImpactReport
  simp [members?, hslots, hothers, hreadable, hdigest, required, hchains]

end ImpactReport

instance : LawfulDocument ImpactReport where
  ofJson?_toJson r :=
    ImpactReport.ofJson?_object r.slotsOfMembers?_members r.filter_members
      r.digest.readableMembers?_members r.digest.ofMembers?_members (ofJson?_toJson _)
  everyLeaf_toJson hproperty r h := by
    refine Json.everyLeafOfMembers_iff.mpr (List.forall_mem_append.mpr ⟨?_, ?_⟩)
    · exact Digest.everyLeaf_members hproperty h
    · rw [List.forall_mem_singleton]
      have hplain : payloads r.callerChains = [] :=
        List.flatMap_eq_nil_iff.mpr fun t _ => t.payloadsOf_eq_nil fun _ => rfl
      exact everyLeaf_toJson hproperty r.callerChains (by simp [hplain])

/-! ## Stores of digests -/

namespace DigestStore

theorem updateEntries_of_not_mem {key : Signature} {change : Digest → Digest} {fresh : Digest}
    {entries : List (Signature × Digest)} (h : key ∉ entries.map Prod.fst) :
    updateEntries key change fresh entries = entries ++ [(key, fresh)] := by
  induction entries with
  | nil => rfl
  | cons entry rest ih =>
    obtain ⟨hne, hrest⟩ := not_or.mp (List.mem_cons.not.mp h)
    rw [updateEntries, if_neg (Ne.symm hne), ih hrest, List.cons_append]

/-- Entries under keys of their own are stored behind those that are there. -/
theorem exists_putMembers?_map (entries : List (Signature × Digest)) (store : DigestStore)
    (h : (store.entries.map Prod.fst ++ entries.map Prod.fst).Nodup) :
    ∃ result, result.entries = store.entries ++ entries ∧
      putMembers? (entries.map fun entry => (entry.1.text, toJson entry.2)) store =
        some result := by
  induction entries generalizing store with
  | nil => exact ⟨store, (List.append_nil _).symm, rfl⟩
  | cons entry rest ih =>
    obtain ⟨key, d⟩ := entry
    have hnew : key ∉ store.entries.map Prod.fst := by
      intro hmem
      exact (List.nodup_append.mp h).2.2 key hmem key (List.mem_cons_self ..) rfl
    have hentries : (store.put key d).entries = store.entries ++ [(key, d)] :=
      updateEntries_of_not_mem hnew
    obtain ⟨result, hresult, hput⟩ := ih (store.put key d) <| by
      rw [hentries, List.map_append, List.append_assoc]
      exact h
    refine ⟨result, ?_, ?_⟩
    · rw [hresult, hentries, List.append_assoc, List.singleton_append]
    · rw [List.map_cons, putMembers?, ofJson?_toJson]
      exact hput

theorem ofJson?_object {store : DigestStore} {members : List (String × Json)}
    (h : putMembers? members .empty = some store) :
    ofJson? (.object [("contexts", .object members)]) = some store := by
  unfold instDocumentDigestStore
  simp [slots?, slotsOfMembers?, required, members?, h]

end DigestStore

instance : LawfulDocument DigestStore where
  ofJson?_toJson store := by
    obtain ⟨result, hresult, hput⟩ :=
      DigestStore.exists_putMembers?_map store.entries .empty store.keys_nodup
    have heq : result = store := by
      cases result
      cases store
      exact (DigestStore.mk.injEq ..).mpr hresult
    exact DigestStore.ofJson?_object (heq ▸ hput)
  everyLeaf_toJson hproperty store h := by
    refine Json.everyLeafOfMembers_iff.mpr (List.forall_mem_singleton.mpr ?_)
    refine Json.everyLeafOfMembers_iff.mpr (List.forall_mem_map.mpr fun entry hentry => ?_)
    exact everyLeaf_toJson hproperty entry.2 fun p hp =>
      h p (List.mem_flatMap.mpr ⟨entry.2, List.mem_map_of_mem hentry, hp⟩)

end CallImpact
