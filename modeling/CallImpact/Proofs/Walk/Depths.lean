import CallImpact.Proofs.Walk.SimplePaths
import Mathlib.Data.Set.Card

/-!
# Walks with different depth bounds

A walk with a greater depth bound follows the same paths further.  Chains that end before the
smaller bound are reported by both walks.  A path that is cut at the smaller bound may be
continued in several ways or by loops only, and is then dropped by the deeper walk: cut to the
smaller bound, the chains of the deeper walk are some of those of the other one, in the same
order.  The walks of no hop and of one hop are given outright.

No path visits more nodes than can be reached, so a bound of that many hops is as good as none.
-/

namespace CallImpact
namespace Walk

variable {N : Type} {successors : N → List N} {maxDepth : Option Nat} {start : N} {d : Nat}
  {path c : List N}

/-! ## Full paths under two bounds -/

namespace FullPath

/-- Cut to a smaller bound, a full path is full under that bound. -/
theorem take (h : FullPath successors maxDepth start c)
    (hle : ∀ depth, maxDepth = some depth → d ≤ depth) :
    FullPath successors (some d) start (c.take (d + 1)) where
  head_eq := by rw [List.head?_take, if_neg (Nat.succ_ne_zero d), h.head_eq]
  nodup := h.nodup.sublist (List.take_sublist _ _)
  linked := h.linked.take _
  hops_le := by
    rintro _ ⟨⟩
    exact List.length_take_le _ _
  ends := by
    intro last hlast
    rcases Nat.lt_or_ge (d + 1) c.length with hlong | hshort
    · -- the path is cut at the bound
      rw [List.length_take, Nat.min_eq_left hlong.le]
      exact Or.inr rfl
    · rw [List.take_of_length_le hshort] at hlast ⊢
      rcases h.ends last hlast with hsink | hmax
      · exact Or.inl hsink
      · have hle := hle _ hmax
        have hd : d = c.length - 1 := by omega
        exact Or.inr (congrArg some hd)

/-- A full path that ends before the bound is full under every greater bound. -/
theorem of_length_le (h : FullPath successors (some d) start c) (hshort : c.length ≤ d)
    (hle : ∀ depth, maxDepth = some depth → d ≤ depth) :
    FullPath successors maxDepth start c where
  toSimplePath := h.toSimplePath
  hops_le := by
    intro depth hdepth
    have hbound := hle depth hdepth
    omega
  ends := by
    intro last hlast
    have hpos := List.length_pos_of_mem (List.mem_of_getLast? hlast)
    rcases h.ends last hlast with hsink | hmax
    · exact Or.inl hsink
    · have hd := Option.some_inj.mp hmax
      omega

end FullPath

/-- A simple path is no longer than there are reachable nodes. -/
theorem SimplePath.length_le_encard (h : SimplePath successors start path) :
    (path.length : ℕ∞) ≤ (reachable (fun n => .ok (successors n)) start).encard := by
  classical
  have hreach : ∀ n ∈ path, n ∈ reachable (fun n => .ok (successors n)) start :=
    h.forall_mem Relation.ReflTransGen.refl
      fun a ha b hb => Relation.ReflTransGen.tail ha (linked_ok_iff.mpr hb)
  have hsubset : (path.toFinset : Set N) ⊆ reachable (fun n => .ok (successors n)) start := by
    intro n hn
    exact hreach n (List.mem_toFinset.mp hn)
  have hcard := Set.encard_le_encard hsubset
  rwa [Set.encard_coe_eq_coe_finsetCard, List.toFinset_card_of_nodup h.nodup] at hcard

variable [DecidableEq N] {node : N}

open Recursion

/-! ## No hop and one hop -/

theorem reports_zero (successors : N → List N) (start : N) :
    Reports successors (some 0) start [[start]] :=
  reports_of_returns (Or.inl rfl) (returns_of_call (.deep rfl))

/-- A walk of one hop reports the start with each of its successors, and the start alone if it
has none. -/
theorem reports_one (hself : start ∉ successors start) :
    Reports successors (some 1) start
      (if successors start = [] then [[start]]
        else (successors start).map fun n => [start, n]) := by
  by_cases hempty : successors start = []
  · rw [if_pos hempty]
    exact reports_of_returns (Or.inl rfl) (returns_of_call (.sink rfl (congrArg _ hempty)))
  · have hall : (successors start).filter (· ∉ [] ++ [start]) = successors start := by
      refine List.filter_eq_self.mpr fun n hn => decide_eq_true fun hmem => hself ?_
      exact List.mem_singleton.mp hmem ▸ hn
    have heach : Each (fun n => Returns (chains (fun n => .ok (successors n)) (some 1)
        ([] ++ [start]) n)) ((successors start).filter (· ∉ [] ++ [start])) [start]
        (.ok ((successors start).map fun n => [[start, n]])) [start] := by
      rw [hall]
      exact each_map fun n _ => returns_of_call (.deep rfl)
    rw [if_neg hempty, List.map_eq_flatMap]
    exact reports_of_returns (Or.inl rfl) (returns_branch rfl rfl hempty heach)

/-! ## The order of the chains -/

/-- Cut to the smaller bound, and with repetitions next to each other collapsed, the first
chains are some of the second ones, in the same order. -/
def CutsInto (d : Nat) (deep shallow : List (List N)) : Prop :=
  ((deep.map (List.take (d + 1))).destutter (· ≠ ·)).Sublist shallow

theorem cutsInto_flatten {deep shallow : List (List (List N))}
    (h : List.Forall₂ (CutsInto d) deep shallow) : CutsInto d deep.flatten shallow.flatten := by
  induction h with
  | nil => exact List.nil_sublist _
  | cons hfirst _ ih =>
    rw [CutsInto, List.flatten_cons, List.map_append, List.flatten_cons]
    exact (destutter_append_sublist _ _).trans (hfirst.append ih)

/-- Chains that are all cut to the same path collapse into it. -/
theorem cutsInto_singleton {deep : List (List N)} (h : ∀ c ∈ deep, c.take (d + 1) = path) :
    CutsInto d deep [path] := by
  rw [CutsInto, List.map_eq_replicate_iff.mpr h]
  exact destutter_replicate_sublist _ _

/-- All the chains continue the path with the node, and if the smaller bound allows the path,
then the recursion under that bound returns chains that they are cut into. -/
def Deepens (successors : N → List N) (d : Nat) (path : List N) (node : N)
    (deep : List (List N)) : Prop :=
  (∀ c ∈ deep, path ++ [node] <+: c) ∧
    (path.length ≤ d → ∀ asked, ∃ shallow asked',
      Returns (chains (fun n => .ok (successors n)) (some d) path node) asked (.ok shallow)
        asked' ∧ CutsInto d deep shallow)

/-- At the smaller bound all chains that continue the path are cut to it. -/
theorem deepens_of_shallow {deep : List (List N)} (hbegin : ∀ c ∈ deep, path ++ [node] <+: c)
    (h : path.length < d → ∀ asked, ∃ shallow asked',
      Returns (chains (fun n => .ok (successors n)) (some d) path node) asked (.ok shallow)
        asked' ∧ CutsInto d deep shallow) :
    Deepens successors d path node deep := by
  refine ⟨hbegin, fun hle asked => ?_⟩
  rcases Nat.lt_or_eq_of_le hle with hlt | heq
  · exact h hlt asked
  · have hdeep : (some d).any (· ≤ path.length) = true := decide_eq_true heq.ge
    refine ⟨_, _, returns_of_call (.deep hdeep), cutsInto_singleton fun c hc => ?_⟩
    rw [← heq, ← length_concat path node]
    exact (List.prefix_iff_eq_take.mp (hbegin c hc)).symm

theorem deepens_of_call {asked asked' : List N} {result : Except (Failure N) (List (List N))}
    (hle : ∀ depth, maxDepth = some depth → d ≤ depth)
    (h : Call (fun n => .ok (successors n)) maxDepth
      (fun path node _ result _ => ∃ deep, result = .ok deep ∧ Deepens successors d path node deep)
      path node asked result asked') :
    ∃ deep, result = .ok deep ∧ Deepens successors d path node deep := by
  have hlength := length_concat path node
  have hshallow : path.length < d → (some d).any (· ≤ path.length) = false := by
    intro hlt
    exact shallow_iff.mpr fun _ hd => Option.some_inj.mp hd ▸ hlt
  have hbegin : ∀ c ∈ [path ++ [node]], path ++ [node] <+: c := by
    intro c hc
    exact List.mem_singleton.mp hc ▸ List.prefix_rfl
  cases h with
  | deep hdeep =>
    refine ⟨_, rfl, deepens_of_shallow hbegin fun hlt => ?_⟩
    -- the greater bound is not reached before the smaller one
    have hbefore : maxDepth.any (· ≤ path.length) = false :=
      shallow_iff.mpr fun depth hdepth => hlt.trans_le (hle depth hdepth)
    rw [hdeep] at hbefore
    cases hbefore
  | failed _ ha => cases ha
  | sink hdeep ha =>
    refine ⟨_, rfl, deepens_of_shallow hbegin fun hlt asked => ?_⟩
    refine ⟨_, _, returns_of_call (.sink (hshallow hlt) ha), cutsInto_singleton fun c hc => ?_⟩
    rw [List.mem_singleton.mp hc]
    exact List.take_of_length_le (by omega)
  | branch hdeep ha hne hblocks =>
    obtain ⟨blocks, rfl, hall⟩ := hblocks.exists_forall₂ fun _ _ _ _ _ h => h
    refine ⟨_, rfl, deepens_of_shallow ?_ fun hlt asked => ?_⟩
    · intro c hc
      obtain ⟨block, hblock, hc⟩ := List.mem_flatten.mp hc
      obtain ⟨next, _, _, deep, heq, hnext, -⟩ := hblocks.exists_of_mem hblock
      cases heq
      exact (List.prefix_append _ _).trans (hnext c hc)
    · -- the recursion under the smaller bound calls itself for the same nodes
      have hnext := hall.imp fun _ _ h => h.2 (hlength ▸ hlt)
      obtain ⟨shallow, asked', heach, hcuts⟩ := exists_each_ok hnext (node :: asked)
      exact ⟨_, _, returns_branch (hshallow hlt) ha hne heach, cutsInto_flatten hcuts⟩

/-- The chains of a deeper walk are cut into those of the other one. -/
theorem exists_reports_cutsInto (hle : ∀ depth, maxDepth = some depth → d ≤ depth)
    (h : maxDepth.isSome = true ∨ (reachable (fun n => .ok (successors n)) start).Finite) :
    ∃ deep shallow, Reports successors maxDepth start deep ∧
      Reports successors (some d) start shallow ∧ CutsInto d deep shallow := by
  obtain ⟨result, asked, hreturns, deep, rfl, -, hdeep⟩ :=
    exists_returns (fun _ _ _ _ _ => deepens_of_call hle) h []
  obtain ⟨shallow, asked', hreturns', hcuts⟩ := hdeep (Nat.zero_le d) []
  exact ⟨deep, shallow, reports_of_returns h hreturns, reports_of_returns (Or.inl rfl) hreturns',
    hcuts⟩

/-! ## Bounds without effect -/

/-- Chains that are not cut and not repeated stay as they are. -/
theorem CutsInto.sublist {deep shallow : List (List N)} (h : CutsInto d deep shallow)
    (hlength : ∀ c ∈ deep, c.length ≤ d + 1) (hnodup : deep.Nodup) : deep.Sublist shallow := by
  have hcut : deep.map (List.take (d + 1)) = deep := by
    refine (List.map_congr_left fun c hc => ?_).trans (List.map_id deep)
    exact List.take_of_length_le (hlength c hc)
  rwa [CutsInto, hcut, List.destutter_of_isChain _ _ hnodup.isChain] at h

/-- A bound of as many hops as there are reachable nodes is of no effect. -/
theorem reports_none_of_encard_le {found : List (List N)} (hnodup : ∀ n, (successors n).Nodup)
    (hcard : (reachable (fun n => .ok (successors n)) start).encard ≤ d)
    (h : Reports successors (some d) start found) : Reports successors none start found := by
  have hfinite : (reachable (fun n => .ok (successors n)) start).Finite :=
    Set.finite_of_encard_le_coe hcard
  have hlength : ∀ c, SimplePath successors start c → c.length ≤ d := by
    intro c hc
    exact_mod_cast hc.length_le_encard.trans hcard
  obtain ⟨deep, shallow, hdeep, hshallow, hcuts⟩ : ∃ deep shallow,
      Reports successors none start deep ∧ Reports successors (some d) start shallow ∧
        CutsInto d deep shallow := exists_reports_cutsInto nofun (Or.inr hfinite)
  obtain rfl := hshallow.unique h
  obtain ⟨hdistinct, hmem⟩ := hdeep.listsExactly hnodup (Or.inr hfinite)
  obtain ⟨hdistinct', hmem'⟩ := hshallow.listsExactly hnodup (Or.inl rfl)
  have hsublist := hcuts.sublist
    (fun c hc => (hlength c ((hmem c).mp hc).toSimplePath).trans (Nat.le_succ d)) hdistinct
  have hsubset : ∀ c ∈ shallow, c ∈ deep := by
    intro c hc
    have hfull := (hmem' c).mp hc
    exact (hmem c).mpr (hfull.of_length_le (hlength c hfull.toSimplePath) nofun)
  have heq := hsublist.eq_of_length_le (hdistinct'.length_le_of_subset hsubset)
  exact heq ▸ hdeep

/-- Over a lookup that never fails and repeats no successor, the chains of a walk, cut to a
smaller bound, are chains of the walk with that bound, and in its order once adjacent
repetitions are collapsed.  Chains of fewer hops than the smaller bound are chains of both
walks, and a bound of as many hops as there are reachable nodes leaves the chains as they are
without a bound. -/
theorem walks_cohere {N : Type} [DecidableEq N] (successors : N → List N) (start : N)
    (hnodup : ∀ n, (successors n).Nodup) (d d' : Nat) (hle : d ≤ d') :
    ∃ shallow deep, Reports successors (some d) start shallow ∧
      Reports successors (some d') start deep ∧
      (∀ c ∈ deep, c.take (d + 1) ∈ shallow) ∧
      (∀ c ∈ shallow, c.length - 1 < d → c ∈ deep) ∧
      ((deep.map (List.take (d + 1))).destutter (· ≠ ·)).Sublist shallow ∧
      ((reachable (fun n => .ok (successors n)) start).encard ≤ d →
        Reports successors none start shallow) := by
  have hle' : ∀ depth, some d' = some depth → d ≤ depth := by
    rintro _ ⟨⟩
    exact hle
  obtain ⟨deep, shallow, hdeep, hshallow, hcuts⟩ : ∃ deep shallow,
      Reports successors (some d') start deep ∧ Reports successors (some d) start shallow ∧
        CutsInto d deep shallow := exists_reports_cutsInto hle' (Or.inl rfl)
  obtain ⟨-, hmem⟩ := hdeep.listsExactly hnodup (Or.inl rfl)
  obtain ⟨-, hmem'⟩ := hshallow.listsExactly hnodup (Or.inl rfl)
  refine ⟨shallow, deep, hshallow, hdeep, ?_, ?_, hcuts, fun hcard =>
    reports_none_of_encard_le hnodup hcard hshallow⟩
  · intro c hc
    exact (hmem' _).mpr (((hmem c).mp hc).take hle')
  · intro c hc hhops
    exact (hmem c).mpr (((hmem' c).mp hc).of_length_le (by omega) hle')

/-- The first of six nodes leads to one that only leads back, and to one that leads to the last
three. -/
def returning (n : Fin 6) : List (Fin 6) :=
  if n = 0 then [1, 2] else if n = 1 then [0] else if n = 2 then [3, 4, 5] else []

/-- Within one hop the way that leads back is a chain, and within two it is none.  The other way
is a chain that becomes three. -/
theorem walks_cohere_returning :
    (∀ n, (returning n).Nodup) ∧
      Reports returning (some 1) 0 [[0, 1], [0, 2]] ∧
      Reports returning (some 2) 0 [[0, 2, 3], [0, 2, 4], [0, 2, 5]] ∧
      [[0, 2]].Sublist [[0, 1], [(0 : Fin 6), 2]] ∧
      (reachable (fun n => .ok (returning n)) 0).encard ≤ (6 : Nat) ∧
      Reports returning none 0 [[0, 2, 3], [0, 2, 4], [0, 2, 5]] := by
  have hnodup : ∀ n, (returning n).Nodup := by decide
  have hcard : (reachable (fun n => .ok (returning n)) 0).encard ≤ (6 : Nat) := by
    simpa using Set.encard_le_card (s := reachable (fun n => .ok (returning n)) 0)
  obtain ⟨shallow, deep, hshallow, hdeep, -, -, hcut, -⟩ :=
    walks_cohere returning 0 hnodup 1 2 (by decide)
  obtain ⟨full, _, hfull, -, -, -, -, hnone⟩ :=
    walks_cohere returning 0 hnodup 6 6 (Nat.le_refl 6)
  obtain rfl : shallow = [[0, 1], [0, 2]] := hshallow.eq_of_ends ⟨20, rfl⟩
  obtain rfl : deep = [[0, 2, 3], [0, 2, 4], [0, 2, 5]] := hdeep.eq_of_ends ⟨20, rfl⟩
  obtain rfl : full = [[0, 2, 3], [0, 2, 4], [0, 2, 5]] := hfull.eq_of_ends ⟨20, rfl⟩
  exact ⟨hnodup, hshallow, hdeep, hcut, hcard, hnone hcard⟩

end Walk
end CallImpact
