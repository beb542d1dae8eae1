import CallImpact.Proofs.Walk.SimplePaths

/-!
# Walks without cycles miss no node

A walk gives up a path that only loops continue, and may thereby miss nodes that can be
reached.  If no node that can be reached leads back to itself, then no path is given up: the
nodes on the chains are those that the start leads to within the depth bound, the start
included.
-/

namespace CallImpact
namespace Walk

variable {N : Type}

/-- The first node leads to the second one in that many hops. -/
inductive Hops (linked : N → N → Prop) : Nat → N → N → Prop
  | refl (a : N) : Hops linked 0 a a
  | head {k : Nat} {a b c : N} : linked a b → Hops linked k b c → Hops linked (k + 1) a c

/-- The first node leads to the second one in the hops that the depth bound leaves after some. -/
def LeadsWithin (linked : N → N → Prop) (maxDepth : Option Nat) (hops : Nat) (a b : N) : Prop :=
  ∃ k, (∀ depth, maxDepth = some depth → hops + k ≤ depth) ∧ Hops linked k a b

variable {linked : N → N → Prop} {maxDepth : Option Nat} {hops : Nat} {a b : N}

theorem exists_hops_iff : (∃ k, Hops linked k a b) ↔ Relation.ReflTransGen linked a b := by
  constructor
  · rintro ⟨k, h⟩
    induction h with
    | refl a => exact Relation.ReflTransGen.refl
    | head hab _ ih => exact Relation.ReflTransGen.head hab ih
  · intro h
    induction h using Relation.ReflTransGen.head_induction_on with
    | refl => exact ⟨0, .refl b⟩
    | head hab _ ih =>
      obtain ⟨k, hk⟩ := ih
      exact ⟨k + 1, .head hab hk⟩

/-- A node leads to itself and to what its successors lead to in one hop less. -/
theorem leadsWithin_iff :
    LeadsWithin linked maxDepth hops a b ↔
      (b = a ∧ ∀ depth, maxDepth = some depth → hops ≤ depth) ∨
        ∃ next, linked a next ∧ LeadsWithin linked maxDepth (hops + 1) next b := by
  constructor
  · rintro ⟨k, hk, h⟩
    cases h with
    | refl => exact Or.inl ⟨rfl, hk⟩
    | @head k _ next _ hnext h =>
      refine Or.inr ⟨next, hnext, k, fun depth hdepth => ?_, h⟩
      rw [Nat.add_right_comm]
      exact hk depth hdepth
  · rintro (⟨rfl, hk⟩ | ⟨next, hnext, k, hk, h⟩)
    · exact ⟨0, hk, .refl b⟩
    · refine ⟨k + 1, fun depth hdepth => ?_, .head hnext h⟩
      have hle := hk depth hdepth
      omega

/-- A node from which no hop is left or none is possible leads to itself only. -/
theorem leadsWithin_iff_eq (hbound : ∀ depth, maxDepth = some depth → hops ≤ depth)
    (hnone : ∀ next, linked a next → maxDepth = some hops) :
    LeadsWithin linked maxDepth hops a b ↔ b = a := by
  rw [leadsWithin_iff, and_iff_left hbound, or_iff_left_iff_imp]
  rintro ⟨next, hnext, k, hk, -⟩
  have hle := hk hops (hnone next hnext)
  omega

/-! ## The nodes on the chains -/

variable {successors : N → List N} {start node : N} {path : List N}

/-- The nodes on the chains are those of the path and those that the node leads to. -/
def Covers (successors : N → List N) (maxDepth : Option Nat) (path : List N) (node : N)
    (found : List (List N)) : Prop :=
  ∀ n, n ∈ found.flatten ↔ n ∈ path ∨
    LeadsWithin (Linked fun n => .ok (successors n)) maxDepth path.length node n

/-- A path within the depth bound, all of whose nodes lead to the node. -/
structure Approaches (successors : N → List N) (maxDepth : Option Nat) (start : N)
    (path : List N) (node : N) : Prop where
  reached : node ∈ reachable (fun n => .ok (successors n)) start
  leads : ∀ n ∈ path, Relation.TransGen (Linked fun n => .ok (successors n)) n node
  length_le : ∀ depth, maxDepth = some depth → path.length ≤ depth

namespace Approaches

theorem next {next : N} (h : Approaches successors maxDepth start path node)
    (hdeep : maxDepth.any (· ≤ path.length) = false) (hnext : next ∈ successors node) :
    Approaches successors maxDepth start (path ++ [node]) next where
  reached := Relation.ReflTransGen.tail h.reached (linked_ok_iff.mpr hnext)
  leads := by
    have hlinked := linked_ok_iff.mpr hnext
    intro n hn
    rcases List.mem_append.mp hn with hn | hn
    · exact Relation.TransGen.tail (h.leads n hn) hlinked
    · rw [List.mem_singleton.mp hn]
      exact Relation.TransGen.single hlinked
  length_le := by
    intro depth hdepth
    rw [length_concat]
    exact shallow_iff.mp hdeep depth hdepth

/-- Without cycles the node is not on the path that leads to it. -/
theorem not_mem (h : Approaches successors maxDepth start path node)
    (hacyclic : ∀ n ∈ reachable (fun n => .ok (successors n)) start,
      ¬ Relation.TransGen (Linked fun n => .ok (successors n)) n n) : node ∉ path :=
  fun hmem => hacyclic node h.reached (h.leads node hmem)

end Approaches

/-- A path that ends with the node is covered if the node leads to no other one. -/
theorem covers_singleton (h : Approaches successors maxDepth start path node)
    (hnone : ∀ next, Linked (fun n => .ok (successors n)) node next →
      maxDepth = some path.length) :
    Covers successors maxDepth path node [path ++ [node]] := by
  intro n
  rw [leadsWithin_iff_eq h.length_le hnone, List.flatten_singleton, List.mem_append,
    List.mem_singleton]

/-- The chains that continue the path with the successors of the node cover it. -/
theorem covers_flatten {blocks : List (List (List N))}
    (h : Approaches successors maxDepth start path node) (hne : successors node ≠ [])
    (hblocks : List.Forall₂ (Covers successors maxDepth (path ++ [node])) (successors node)
      blocks) :
    Covers successors maxDepth path node blocks.flatten := by
  intro n
  rw [List.flatten_flatten,
    mem_flatten_iff_of_forall₂ (List.forall₂_map_right_iff.mpr hblocks), length_concat,
    leadsWithin_iff]
  constructor
  · rintro ⟨next, hnext, hmem | hleads⟩
    · rcases List.mem_append.mp hmem with hmem | hmem
      · exact Or.inl hmem
      · exact Or.inr (Or.inl ⟨List.mem_singleton.mp hmem, h.length_le⟩)
    · exact Or.inr (Or.inr ⟨next, linked_ok_iff.mpr hnext, hleads⟩)
  · -- the path and the node are on the chains through any of the successors
    obtain ⟨first, hfirst⟩ := List.exists_mem_of_ne_nil _ hne
    rintro (hmem | ⟨rfl, -⟩ | ⟨next, hnext, hleads⟩)
    · exact ⟨first, hfirst, Or.inl (List.mem_append_left _ hmem)⟩
    · exact ⟨first, hfirst, Or.inl List.mem_concat_self⟩
    · exact ⟨next, linked_ok_iff.mp hnext, Or.inr hleads⟩

open Recursion

variable [DecidableEq N]

theorem covers_of_call {asked asked' : List N} {result : Except (Failure N) (List (List N))}
    (hacyclic : ∀ n ∈ reachable (fun n => .ok (successors n)) start,
      ¬ Relation.TransGen (Linked fun n => .ok (successors n)) n n)
    (h : Call (fun n => .ok (successors n)) maxDepth
      (fun path node _ result _ => Approaches successors maxDepth start path node →
        ∃ found, result = .ok found ∧ Covers successors maxDepth path node found)
      path node asked result asked')
    (hpath : Approaches successors maxDepth start path node) :
    ∃ found, result = .ok found ∧ Covers successors maxDepth path node found := by
  cases h with
  | deep hdeep =>
    exact ⟨_, rfl, covers_singleton hpath fun _ _ => eq_some_of_deep hdeep hpath.length_le⟩
  | failed _ ha => cases ha
  | sink hdeep ha =>
    refine ⟨_, rfl, covers_singleton hpath fun next hnext => ?_⟩
    obtain ⟨_, hsuccessors, hmem⟩ := hnext
    cases ha.symm.trans hsuccessors
    cases hmem
  | branch hdeep ha hne hblocks =>
    obtain rfl : successors node = _ := Except.ok.inj ha
    have hall : (successors node).filter (· ∉ path ++ [node]) = successors node := by
      refine List.filter_eq_self.mpr fun next hnext => decide_eq_true ?_
      exact (hpath.next hdeep hnext).not_mem hacyclic
    rw [hall] at hblocks
    obtain ⟨blocks, rfl, hcovers⟩ := hblocks.exists_forall₂
      fun next hnext _ _ _ h => h (hpath.next hdeep hnext)
    exact ⟨_, rfl, covers_flatten hpath hne hcovers⟩

theorem exists_reports_covers (maxDepth : Option Nat)
    (hacyclic : ∀ n ∈ reachable (fun n => .ok (successors n)) start,
      ¬ Relation.TransGen (Linked fun n => .ok (successors n)) n n)
    (h : maxDepth.isSome = true ∨ (reachable (fun n => .ok (successors n)) start).Finite) :
    ∃ found, Reports successors maxDepth start found ∧ found ≠ [] ∧
      ∀ n, (∃ c ∈ found, n ∈ c) ↔
        LeadsWithin (Linked fun n => .ok (successors n)) maxDepth 0 start n := by
  obtain ⟨result, asked, hreturns, hcovers⟩ :=
    exists_returns (fun _ _ _ _ _ => covers_of_call hacyclic) h []
  obtain ⟨found, rfl, hfound⟩ := hcovers
    ⟨Relation.ReflTransGen.refl, fun _ hn => absurd hn List.not_mem_nil, fun _ _ => Nat.zero_le _⟩
  have hmem : ∀ n, (∃ c ∈ found, n ∈ c) ↔
      LeadsWithin (Linked fun n => .ok (successors n)) maxDepth 0 start n := by
    intro n
    rw [← List.mem_flatten, hfound]
    exact or_iff_right List.not_mem_nil
  have hstart : LeadsWithin (Linked fun n => .ok (successors n)) maxDepth 0 start start :=
    ⟨0, fun _ _ => Nat.zero_le _, .refl start⟩
  refine ⟨found, reports_of_returns h hreturns, ?_, hmem⟩
  rintro rfl
  obtain ⟨c, hc, -⟩ := (hmem start).mpr hstart
  cases hc

/-- Over a lookup that never fails, and without cycles among the finitely many nodes that can be
reached, the nodes on the chains of a walk are all the nodes that can be reached, and those on
the chains of a walk with a depth bound are all that can be reached in so many hops.  There is
always a chain. -/
theorem walk_covers_reachable {N : Type} [DecidableEq N] (successors : N → List N) (start : N)
    (hfinite : (reachable (fun n => .ok (successors n)) start).Finite)
    (hacyclic : ∀ n ∈ reachable (fun n => .ok (successors n)) start,
      ¬ Relation.TransGen (Linked fun n => .ok (successors n)) n n) :
    (∃ found, Reports successors none start found ∧ found ≠ [] ∧
      ∀ n, (∃ c ∈ found, n ∈ c) ↔ n ∈ reachable (fun n => .ok (successors n)) start) ∧
    ∀ d, ∃ found, Reports successors (some d) start found ∧ found ≠ [] ∧
      ∀ n, (∃ c ∈ found, n ∈ c) ↔
        ∃ k ≤ d, Hops (Linked fun n => .ok (successors n)) k start n := by
  constructor
  · obtain ⟨found, hreports, hne, hmem⟩ :=
      exists_reports_covers none hacyclic (Or.inr hfinite)
    refine ⟨found, hreports, hne, fun n => (hmem n).trans ?_⟩
    simp [LeadsWithin, exists_hops_iff, reachable]
  · intro d
    obtain ⟨found, hreports, hne, hmem⟩ :=
      exists_reports_covers (some d) hacyclic (Or.inl rfl)
    refine ⟨found, hreports, hne, fun n => (hmem n).trans ?_⟩
    simp [LeadsWithin]

/-- A diamond, one side of which is longer than the other one. -/
def diamond (n : Fin 5) : List (Fin 5) :=
  if n = 0 then [1, 2, 1] else if n = 1 then [4] else if n = 2 then [3] else
    if n = 3 then [4] else []

theorem walk_covers_reachable_diamond :
    (reachable (fun n => .ok (diamond n)) 0).Finite ∧
      (∀ n ∈ reachable (fun n => .ok (diamond n)) 0,
        ¬ Relation.TransGen (Linked fun n => .ok (diamond n)) n n) ∧
      3 ∈ reachable (fun n => .ok (diamond n)) 0 ∧
      ¬ ∃ k ≤ 1, Hops (Linked fun n => .ok (diamond n)) k 0 3 := by
  have hascends : ∀ a b, Relation.TransGen (Linked fun n => .ok (diamond n)) a b → a < b := by
    have hnext : ∀ a, ∀ b ∈ diamond a, a < b := by decide
    intro a b h
    induction h with
    | single hab => exact hnext _ _ (linked_ok_iff.mp hab)
    | tail _ hbc ih => exact ih.trans (hnext _ _ (linked_ok_iff.mp hbc))
  have hfinite : (reachable (fun n => .ok (diamond n)) 0).Finite := Set.toFinite _
  have hacyclic : ∀ n ∈ reachable (fun n => .ok (diamond n)) 0,
      ¬ Relation.TransGen (Linked fun n => .ok (diamond n)) n n :=
    fun n _ h => lt_irrefl n (hascends n n h)
  obtain ⟨⟨found, hfound, -, hmem⟩, hbounded⟩ := walk_covers_reachable diamond 0 hfinite hacyclic
  obtain ⟨shallow, hshallow, -, hmem'⟩ := hbounded 1
  obtain rfl : found = [[0, 1, 4], [0, 2, 3, 4], [0, 1, 4]] := hfound.eq_of_ends ⟨30, rfl⟩
  obtain rfl : shallow = [[0, 1], [0, 2], [0, 1]] := hshallow.eq_of_ends ⟨30, rfl⟩
  refine ⟨hfinite, hacyclic, (hmem 3).mp (by decide), ?_⟩
  rw [← hmem' 3]
  decide

end Walk
end CallImpact
