import CallImpact.Proofs.Document.Graph
import CallImpact.Proofs.Json.RoundTrip

/-!
# How deep impact reports nest

A tree of chains nests two containers for each node of its longest path, and an impact report
puts two more around its trees.  The reader looks into `Json.maxDepth` containers and no more,
so it reads back exactly the reports without a longer path than that leaves room for.
-/

namespace CallImpact

open Document Record

namespace Json

theorem depthOfItems_le_iff {xs : List Json} {bound : Nat} :
    depthOfItems xs ≤ bound ↔ ∀ x ∈ xs, x.depth ≤ bound := by
  induction xs with
  | nil => simp [depthOfItems]
  | cons x xs ih => rw [depthOfItems, Nat.max_le, ih, List.forall_mem_cons]

theorem depthOfMembers_le_iff {ms : List (String × Json)} {bound : Nat} :
    depthOfMembers ms ≤ bound ↔ ∀ m ∈ ms, m.2.depth ≤ bound := by
  induction ms with
  | nil => simp [depthOfMembers]
  | cons m ms ih => rw [depthOfMembers, Nat.max_le, ih, List.forall_mem_cons]

theorem withinMembers_eq_map (bound : Nat) (ms : List (String × Json)) :
    withinMembers bound ms = ms.map fun m => (m.1, m.2.within bound) := by
  induction ms with
  | nil => rfl
  | cons m ms ih => rw [withinMembers, ih, List.map_cons]

end Json

/-! ## Trees -/

namespace ChainTree

variable {α : Type} [Document α]

theorem forestToJson_eq_map (ts : List (ChainTree α)) : forestToJson ts = ts.map toJson := by
  induction ts with
  | nil => rfl
  | cons t ts ih => rw [forestToJson, ih, List.map_cons]

mutual

/-- Contents that nest nothing leave a tree two containers for each node of a path. -/
theorem depth_toJson_le {α : Type} [Document α]
    (hcontent : ∀ content : α, (Document.toJson content).depth = 0) :
    (t : ChainTree α) → t.toJson.depth ≤ 2 * t.depth
  | node content children => by
    have hchildren := depthOfItems_forestToJson_le hcontent children
    rw [depth, toJson]
    simp only [Json.depth, Json.depthOfMembers, hcontent]
    omega

theorem depthOfItems_forestToJson_le {α : Type} [Document α]
    (hcontent : ∀ content : α, (Document.toJson content).depth = 0) :
    (ts : List (ChainTree α)) → Json.depthOfItems (forestToJson ts) ≤ 2 * depthOfForest ts
  | [] => Nat.le_refl 0
  | t :: ts => by
    have hfirst := depth_toJson_le hcontent t
    have hrest := depthOfItems_forestToJson_le hcontent ts
    rw [depthOfForest, forestToJson, Json.depthOfItems]
    omega

end

/-- Trees are not read if one of them is not. -/
theorem ofItems?_within_eq_none {read : Json → Option (ChainTree α)} {bound : Nat}
    {ts : List (ChainTree α)} (h : bound < 2 * depthOfForest ts)
    (hread : ∀ t ∈ ts, bound < 2 * t.depth → read (t.toJson.within bound) = none) :
    ofItems? read (Json.withinItems bound (forestToJson ts)) = none := by
  induction ts with
  | nil => exact absurd h (Nat.not_lt_zero _)
  | cons t ts ih =>
    obtain ⟨hfirst, hrest⟩ := List.forall_mem_cons.mp hread
    rw [forestToJson, Json.withinItems, ofItems?]
    rw [depthOfForest] at h
    by_cases ht : bound < 2 * t.depth
    · rw [hfirst ht]
      rfl
    · rw [ih (by omega) hrest]
      cases read (t.toJson.within bound) <;> rfl

/-- Where a tree is cut off, it is not read. -/
theorem ofJsonWithin?_within_eq_none : (t : ChainTree α) → (bound fuel : Nat) →
    bound < 2 * t.depth →
      (ofJsonWithin? fuel (t.toJson.within bound) : Option (ChainTree α)) = none
  | _, _, 0, _ => rfl
  | node content children, 0, fuel + 1, _ => rfl
  | node content children, 1, fuel + 1, _ => by
    rw [toJson, Json.within]
    simp [Json.withinMembers, Json.within, ofJsonWithin?, slots?, slotsOfMembers?, ofSlots?,
      required, ofArray?]
  | node content children, bound + 2, fuel + 1, h => by
    rw [depth] at h
    have hchildren : (ofItems? (ofJsonWithin? fuel)
        (Json.withinItems bound (forestToJson children)) : Option (List (ChainTree α))) = none :=
      ofItems?_within_eq_none (by omega) fun t _ ht =>
        ofJsonWithin?_within_eq_none t bound fuel ht
    rw [toJson, Json.within]
    simp [Json.withinMembers, Json.within, ofJsonWithin?, slots?, slotsOfMembers?, ofSlots?,
      required, ofArray?, hchildren]

end ChainTree

/-! ## Reports -/

theorem depth_toJson_list_le {α : Type} [Document α] {bound : Nat}
    (h : ∀ value : α, (toJson value).depth ≤ bound) (values : List α) :
    (toJson values).depth ≤ bound + 1 :=
  Nat.succ_le_succ (Json.depthOfItems_le_iff.mpr (List.forall_mem_map.mpr fun value _ => h value))

/-- Without a payload, the members of a digest nest two containers at most. -/
theorem Digest.depth_le_of_mem_members {d : Digest}
    (hextras : d.function.decl.extras.isEmpty = true) : ∀ m ∈ d.members, m.2.depth ≤ 2 := by
  have htext : ∀ text : String, (toJson text).depth ≤ 2 := fun _ => Nat.zero_le 2
  have hline : ∀ line : UInt32, (toJson line).depth ≤ 2 := fun _ => Nat.zero_le 2
  have hlanguage : ∀ l : Language, (toJson l).depth ≤ 2 := fun _ => Nat.zero_le 2
  have hnode : ∀ node : NodeId, (toJson node).depth ≤ 2 := fun _ => Nat.zero_le 2
  have hspan : ∀ s : Span, (toJson s).depth ≤ 2 := fun _ => Nat.le_refl 2
  have htyped : ∀ names : List TypedName, (toJson names).depth ≤ 2 :=
    depth_toJson_list_le fun _ => Nat.le_refl 1
  have hsignatures : ∀ signatures : List Signature, (toJson signatures).depth ≤ 2 :=
    depth_toJson_list_le fun _ => Nat.zero_le 1
  rw [members, LocatedFunction.members, FunctionDecl.members, if_pos hextras]
  cases d.function.decl.node with
  | none => simp [htext, hline, hlanguage, hspan, htyped, hsignatures]
  | some node => simp [htext, hline, hlanguage, hnode, hspan, htyped, hsignatures]

namespace ImpactReport

/-- Without a payload, the trees decide how deep a report nests. -/
theorem depth_toJson_le {r : ImpactReport}
    (hextras : r.digest.function.decl.extras.isEmpty = true) :
    (toJson r).depth ≤ max 3 (2 * ChainTree.depthOfForest r.callerChains + 2) := by
  have hdigest := Digest.depth_le_of_mem_members hextras
  have htrees : (toJson r.callerChains).depth ≤
      2 * ChainTree.depthOfForest r.callerChains + 1 := by
    have hforest := ChainTree.depthOfItems_forestToJson_le
      (α := Signature) (fun _ => rfl) r.callerChains
    rw [ChainTree.forestToJson_eq_map] at hforest
    exact Nat.succ_le_succ hforest
  have hmembers : Json.depthOfMembers r.members ≤
      max 2 (2 * ChainTree.depthOfForest r.callerChains + 1) := by
    rw [Json.depthOfMembers_le_iff, members, List.forall_mem_append, List.forall_mem_singleton]
    exact ⟨fun m hm => le_max_of_le_left (hdigest m hm), le_max_of_le_right htrees⟩
  calc (toJson r).depth
    _ = Json.depthOfMembers r.members + 1 := rfl
    _ ≤ _ := by omega

theorem ofJson?_eq_none {members : List (String × Json)} {chains : Json}
    (hslots : slotsOfMembers? ["reverseCallChains"] members = some [some chains])
    (hchains : (ofJson? chains : Option (List (ChainTree Signature))) = none) :
    (ofJson? (.object members) : Option ImpactReport) = none := by
  unfold instDocumentImpactReport
  simp [members?, hslots, required, hchains]

/-- Where one of its trees is cut off, a report is not read. -/
theorem ofJson?_within_eq_none {r : ImpactReport} {bound : Nat}
    (h : bound < 2 * ChainTree.depthOfForest r.callerChains) :
    (ofJson? ((toJson r).within (bound + 2)) : Option ImpactReport) = none := by
  have hchains : (toJson r.callerChains).within (bound + 1) =
      .array (Json.withinItems bound (ChainTree.forestToJson r.callerChains)) := by
    rw [ChainTree.forestToJson_eq_map]
    rfl
  have hslots : slotsOfMembers? ["reverseCallChains"] (Json.withinMembers (bound + 1) r.members) =
      some [some ((toJson r.callerChains).within (bound + 1))] := by
    have hother : ∀ name ∈ ["reverseCallChains"],
        name ∉ (Json.withinMembers (bound + 1) r.digest.members).map Prod.fst := by
      intro name hname
      rw [List.mem_singleton.mp hname, Json.withinMembers_eq_map, List.map_map]
      exact r.digest.chains_not_mem_keys
    rw [members, Json.withinMembers_eq_map, List.map_append, ← Json.withinMembers_eq_map,
      slotsOfMembers?_append_right hother]
    simp [slotsOfMembers?]
  refine ofJson?_eq_none (hslots.trans (by rw [hchains])) ?_
  exact ChainTree.ofItems?_within_eq_none h fun t _ ht =>
    t.ofJsonWithin?_within_eq_none bound _ ht

/-- A report without a payload is read back exactly if no path of its trees is longer than
62 nodes. -/
theorem read?_write_eq {r : ImpactReport} (hextras : r.digest.function.decl.extras.isEmpty = true) :
    read? (write r) = if ChainTree.depthOfForest r.callerChains ≤ 62 then some r else none := by
  have htree : r.digest.function.decl.extras.tree = .null := of_decide_eq_true hextras
  have hexact : (toJson r).isExact = true := by
    refine isExact_toJson r fun p hp => ?_
    rw [List.mem_singleton.mp hp, htree]
    rfl
  rw [read?, write, Json.ofString?_render hexact, Option.bind_some]
  split
  case isTrue h =>
    have hdepth := depth_toJson_le hextras
    rw [Json.within_of_depth_le _ _ (by rw [Json.maxDepth]; omega), ofJson?_toJson]
  case isFalse h =>
    exact @ofJson?_within_eq_none r 125 (by omega)

end ImpactReport
end CallImpact
