import CallImpact.Proofs.Walk.SimplePaths

/-!
# What a walk asks about

The plain recursion expands every node that it enters before the depth bound, the same node
as often as it comes to it.  A walk asks about these nodes in the same order, but about each
one only the first time, and stops at the first node for which there is no answer.  So it
never asks about a node that lies at the depth bound on all paths from the start.

What the recursion expands is defined without regard to failures: a node without an answer
counts as a node without successors (`expansions`), and the sequence is cut off after the
first such node (`upToFailure`).
-/

namespace CallImpact
namespace Walk

variable {N : Type}

/-- The successors of a node, none if there is no answer for it. -/
def successorsOf (answer : N → Except String (List N)) (node : N) : List N :=
  match answer node with
  | .ok successors => successors
  | .error _ => []

/-- How asking about a node fails, if there is no answer for it. -/
def failure? (answer : N → Except String (List N)) (node : N) : Option (Failure N) :=
  match answer node with
  | .ok _ => none
  | .error cause => some (.lookupFailed node cause)

/-- The nodes up to the first one for which there is no answer, and that node. -/
def upToFailure (answer : N → Except String (List N)) : List N → List N
  | [] => []
  | n :: ns =>
    match answer n with
    | .ok _ => n :: upToFailure answer ns
    | .error _ => [n]

/-- The node ends a simple path from the start and lies before the depth bound there. -/
def Shallow (successors : N → List N) (maxDepth : Option Nat) (start n : N) : Prop :=
  ∃ path, SimplePath successors start (path ++ [n]) ∧ maxDepth.any (· ≤ path.length) = false

variable {successors : N → List N} {answer : N → Except String (List N)} {maxDepth : Option Nat}
  {path expanded asked asked' ns ms : List N} {start node next : N}

theorem mem_successorsOf_iff : next ∈ successorsOf answer node ↔ Linked answer node next := by
  rw [successorsOf, Linked]
  cases answer node <;> simp

/-! ## Questions up to the first failure -/

theorem failure?_eq_some_iff {failure : Failure N} :
    failure? answer node = some failure ↔
      ∃ cause, answer node = .error cause ∧ failure = .lookupFailed node cause := by
  rw [failure?]
  cases answer node <;> simp [eq_comm]

theorem upToFailure_append (answer : N → Except String (List N)) (ns ms : List N) :
    upToFailure answer (ns ++ ms) =
      if (ns.findSome? (failure? answer)).isSome then upToFailure answer ns
      else ns ++ upToFailure answer ms := by
  induction ns with
  | nil => rfl
  | cons n ns ih =>
    rw [List.cons_append, upToFailure, upToFailure, List.findSome?_cons, failure?, ih]
    cases answer n with
    | error cause => rfl
    | ok successors =>
      simp only
      split <;> rfl

theorem upToFailure_of_findSome?_eq_none (h : ns.findSome? (failure? answer) = none) :
    upToFailure answer ns = ns := by
  have happend := upToFailure_append answer ns []
  rw [List.append_nil, h] at happend
  exact happend.trans (List.append_nil ns)

theorem mem_of_mem_upToFailure {n : N} (h : n ∈ upToFailure answer ns) : n ∈ ns := by
  induction ns with
  | nil => exact h
  | cons m ns ih =>
    rw [upToFailure] at h
    cases ha : answer m with
    | error cause =>
      rw [ha] at h
      exact List.mem_singleton.mp h ▸ List.mem_cons_self ..
    | ok successors =>
      rw [ha, List.mem_cons] at h
      exact List.mem_cons.mpr (h.imp_right ih)

/-- The first failure is that of the first node without an answer. -/
theorem findSome?_failure?_eq_some_iff {x : N} {cause : String} :
    ns.findSome? (failure? answer) = some (.lookupFailed x cause) ↔
      ∃ before after, ns = before ++ x :: after ∧ (∀ n ∈ before, failure? answer n = none) ∧
        answer x = .error cause := by
  rw [List.findSome?_eq_some_iff]
  constructor
  · rintro ⟨before, n, after, rfl, hn, hbefore⟩
    obtain ⟨cause', ha, heq⟩ := failure?_eq_some_iff.mp hn
    obtain ⟨rfl, rfl⟩ := Failure.lookupFailed.inj heq
    exact ⟨before, after, rfl, hbefore, ha⟩
  · rintro ⟨before, after, rfl, hbefore, ha⟩
    exact ⟨before, x, after, rfl, failure?_eq_some_iff.mpr ⟨cause, ha, rfl⟩, hbefore⟩

/-- Asking about the nodes in order, after some questions, ends at the first failure or with a
result. -/
structure Asks {α : Type} (answer : N → Except String (List N)) (nodes asked : List N)
    (result : Except (Failure N) α) (asked' : List N) : Prop where
  asked_eq : asked' = (upToFailure answer nodes).reverse ++ asked
  failed_iff : ∀ failure, result = .error failure ↔
    nodes.findSome? (failure? answer) = some failure

namespace Asks

variable {α β γ : Type} {between : List N} {a : α} {c : γ}

theorem nil (answer : N → Except String (List N)) (asked : List N) (a : α) :
    Asks answer [] asked (.ok a) asked where
  asked_eq := rfl
  failed_iff _ := ⟨nofun, nofun⟩

theorem findSome?_eq_none (h : Asks answer ns asked (.ok a) asked') :
    ns.findSome? (failure? answer) = none := by
  rw [Option.eq_none_iff_forall_ne_some]
  intro failure hfailure
  cases (h.failed_iff failure).mpr hfailure

/-- After nodes with answers, the questions about the others follow. -/
theorem append {result : Except (Failure N) α} (f : α → β)
    (hfirst : Asks answer ns asked (.ok c) between) (hrest : Asks answer ms between result asked') :
    Asks answer (ns ++ ms) asked (result.map f) asked' where
  asked_eq := by
    have hnone := hfirst.findSome?_eq_none
    rw [hrest.asked_eq, hfirst.asked_eq, upToFailure_append, hnone,
      upToFailure_of_findSome?_eq_none hnone]
    simp
  failed_iff failure := by
    rw [List.findSome?_append, hfirst.findSome?_eq_none, Option.none_or, ← hrest.failed_iff]
    cases result <;> simp [Except.map]

/-- After a node without an answer there are no questions. -/
theorem append_of_failed {failure : Failure N} (ms : List N)
    (h : Asks answer ns asked (.error failure : Except (Failure N) α) asked') :
    Asks answer (ns ++ ms) asked (.error failure : Except (Failure N) β) asked' where
  asked_eq := by
    have hsome := (h.failed_iff failure).mp rfl
    rw [h.asked_eq, upToFailure_append, hsome]
    rfl
  failed_iff failure' := by
    have hsome := (h.failed_iff failure).mp rfl
    rw [List.findSome?_append, hsome, Option.some_or]
    simp

theorem singleton {successors : List N} (ha : answer node = .ok successors) (asked : List N)
    (a : α) : Asks answer [node] asked (.ok a) (node :: asked) where
  asked_eq := by
    rw [upToFailure, ha]
    rfl
  failed_iff failure := by
    rw [List.findSome?_singleton, failure?_eq_some_iff, ha]
    exact ⟨nofun, nofun⟩

theorem singleton_of_failed {cause : String} (ha : answer node = .error cause)
    (asked : List N) :
    Asks answer [node] asked
      (.error (.lookupFailed node cause) : Except (Failure N) α) (node :: asked) where
  asked_eq := by
    rw [upToFailure, ha]
    rfl
  failed_iff failure := by
    rw [List.findSome?_singleton, failure?_eq_some_iff, ha]
    simp [eq_comm]

end Asks

variable [DecidableEq N]

/-! ## The nodes expanded -/

/-- The nodes that the plain recursion expands while it continues a path with a node. -/
def expansions (successors : N → List N) (maxDepth : Option Nat) (path : List N) (n : N) :
    Option (List N) := do
  if maxDepth.any (· ≤ path.length) then return []
  let next := (successors n).filter (· ∉ path ++ [n])
  let blocks ← next.mapM fun m => (expansions successors maxDepth (n := m)) (path ++ [n])
  return n :: blocks.flatten
partial_fixpoint

theorem expansions_of_deep (hdeep : maxDepth.any (· ≤ path.length) = true) :
    expansions successors maxDepth path node = some [] := by
  rw [expansions, if_pos hdeep]
  rfl

theorem expansions_of_shallow (hdeep : maxDepth.any (· ≤ path.length) = false) :
    expansions successors maxDepth path node =
      (((successors node).filter (· ∉ path ++ [node])).mapM
        (expansions successors maxDepth (path ++ [node]))).map (node :: ·.flatten) := by
  rw [expansions, if_neg (Bool.not_eq_true _ ▸ hdeep)]
  exact (Option.map_eq_bind ..).symm

/-- The recursion expands finitely many nodes while it continues the path with the node, and
comes to each of them before the depth bound. -/
def ExpandsShallow (successors : N → List N) (maxDepth : Option Nat) (start : N) (path : List N)
    (node : N) : Prop :=
  ∃ expanded, expansions successors maxDepth path node = some expanded ∧
    ∀ n ∈ expanded, Shallow successors maxDepth start n

theorem expandsShallow_of_deep (hdeep : maxDepth.any (· ≤ path.length) = true) :
    ExpandsShallow successors maxDepth start path node :=
  ⟨[], expansions_of_deep hdeep, fun _ hn => absurd hn List.not_mem_nil⟩

theorem expandsShallow_of_next (hdeep : maxDepth.any (· ≤ path.length) = false)
    (hpath : SimplePath successors start (path ++ [node]))
    (hnext : ∀ next ∈ (successors node).filter (· ∉ path ++ [node]),
      ExpandsShallow successors maxDepth start (path ++ [node]) next) :
    ExpandsShallow successors maxDepth start path node := by
  obtain ⟨blocks, hblocks, hshallow⟩ := exists_mapM_eq_some hnext
  refine ⟨node :: blocks.flatten, ?_, List.forall_mem_cons.mpr ⟨⟨path, hpath, hdeep⟩, ?_⟩⟩
  · rw [expansions_of_shallow hdeep, hblocks]
    rfl
  · intro n hn
    obtain ⟨block, hblock, hmem⟩ := List.mem_flatten.mp hn
    obtain ⟨next, -, hall⟩ := hshallow block hblock
    exact hall n hmem

theorem expandsShallow_start (h : maxDepth.isSome = true ∨ (reachable answer start).Finite) :
    ExpandsShallow (successorsOf answer) maxDepth start [] start := by
  have hstart : SimplePath (successorsOf answer) start ([] ++ [start]) :=
    SimplePath.singleton _ start
  refine path_induction (Q := fun path node =>
    SimplePath (successorsOf answer) start (path ++ [node]) →
      ExpandsShallow (successorsOf answer) maxDepth start path node) ?_ h hstart
  intro path node _ hnext hpath
  cases hdeep : maxDepth.any (· ≤ path.length) with
  | true => exact expandsShallow_of_deep hdeep
  | false =>
    refine expandsShallow_of_next hdeep hpath fun next hmem => ?_
    rw [List.mem_filter, decide_eq_true_eq] at hmem
    exact hnext hdeep next (mem_successorsOf_iff.mp hmem.1) hmem.2
      (hpath.concat hmem.1 hmem.2)

/-! ## The recursion asks about the nodes it expands -/

open Recursion Search

/-- A call of the recursion asks about the nodes that it expands, up to the first failure. -/
def AsksExpansions (answer : N → Except String (List N)) (maxDepth : Option Nat) (path : List N)
    (node : N) (asked : List N) (result : Except (Failure N) (List (List N)))
    (asked' : List N) : Prop :=
  ∀ expanded, expansions (successorsOf answer) maxDepth path node = some expanded →
    Asks answer expanded asked result asked'

theorem asks_flatten {result : Except (Failure N) (List (List (List N)))}
    (h : Each (AsksExpansions answer maxDepth path) ns asked result asked')
    {blocks : List (List N)}
    (hblocks : ns.mapM (expansions (successorsOf answer) maxDepth path) = some blocks) :
    Asks answer blocks.flatten asked result asked' := by
  induction h generalizing blocks with
  | nil =>
    obtain rfl := Option.some_inj.mp hblocks
    exact Asks.nil answer _ []
  | failed hfailed =>
    rw [List.mapM_cons] at hblocks
    obtain ⟨block, hblock, hblocks⟩ := Option.bind_eq_some_iff.mp hblocks
    obtain ⟨rest, -, hrest⟩ := Option.bind_eq_some_iff.mp hblocks
    obtain rfl := Option.some_inj.mp hrest
    exact (hfailed block hblock).append_of_failed rest.flatten
  | @cons _ _ _ _ _ chains _ hfirst _ ih =>
    rw [List.mapM_cons] at hblocks
    obtain ⟨block, hblock, hblocks⟩ := Option.bind_eq_some_iff.mp hblocks
    obtain ⟨rest, hmap, hrest⟩ := Option.bind_eq_some_iff.mp hblocks
    obtain rfl := Option.some_inj.mp hrest
    exact Asks.append (chains :: ·) (hfirst block hblock) (ih hmap)

theorem asksExpansions_of_call {result : Except (Failure N) (List (List N))}
    (h : Call answer maxDepth (AsksExpansions answer maxDepth) path node asked result asked') :
    AsksExpansions answer maxDepth path node asked result asked' := by
  intro expanded hexpanded
  cases h with
  | deep hdeep =>
    rw [expansions_of_deep hdeep] at hexpanded
    obtain rfl := Option.some_inj.mp hexpanded
    exact Asks.nil answer asked _
  | failed hdeep ha =>
    rw [expansions_of_shallow hdeep] at hexpanded
    obtain ⟨blocks, -, rfl⟩ := Option.map_eq_some_iff.mp hexpanded
    exact (Asks.singleton_of_failed (α := Unit) ha asked).append_of_failed blocks.flatten
  | sink hdeep ha =>
    rw [expansions_of_shallow hdeep, successorsOf, ha] at hexpanded
    obtain rfl := Option.some_inj.mp hexpanded
    exact Asks.singleton ha asked _
  | branch hdeep ha hne hblocks =>
    rw [expansions_of_shallow hdeep, successorsOf, ha] at hexpanded
    obtain ⟨blocks, hmap, rfl⟩ := Option.map_eq_some_iff.mp hexpanded
    exact Asks.append List.flatten (Asks.singleton ha asked ()) (asks_flatten hblocks hmap)

/-- The last of the questions up to a failure is the one that failed, and no other one is
about its node. -/
theorem getLast?_eraseDups_upToFailure {x : N} {cause : String}
    (h : ns.findSome? (failure? answer) = some (.lookupFailed x cause)) :
    (upToFailure answer ns).eraseDups.getLast? = some x := by
  obtain ⟨before, after, rfl, hbefore, ha⟩ := findSome?_failure?_eq_some_iff.mp h
  have hnone : before.findSome? (failure? answer) = none := List.findSome?_eq_none_iff.mpr hbefore
  have hnot : x ∉ before := by
    intro hx
    cases (hbefore x hx).symm.trans (failure?_eq_some_iff.mpr ⟨cause, ha, rfl⟩)
  have hnodes : upToFailure answer (before ++ x :: after) = before ++ [x] := by
    rw [upToFailure_append, hnone, upToFailure, ha]
    rfl
  rw [hnodes, eraseDups_concat, if_neg hnot, List.getLast?_concat]

/-- A walk over answers that stay the same asks about the nodes that the recursion expands, about
each one at its first time only and up to the first one without an answer.  It comes to each of
them before the depth bound.  It fails exactly at the first node without an answer, and then
this is the last question. -/
theorem walk_asks_expansions {N : Type} [DecidableEq N] (answer : N → Except String (List N))
    (maxDepth : Option Nat) (start : N)
    (h : maxDepth.isSome = true ∨ (reachable answer start).Finite) :
    ∃ expanded outcome,
      expansions (successorsOf answer) maxDepth [] start = some expanded ∧
      (∀ other, Ends { maxDepth } (fun _ => answer) start other ↔ other = outcome) ∧
      outcome.lookups.Nodup ∧
      outcome.lookups = (upToFailure answer expanded).eraseDups ∧
      (∀ n ∈ outcome.lookups, Shallow (successorsOf answer) maxDepth start n) ∧
      ∀ x cause,
        (outcome.result = .error (.lookupFailed x cause) ↔
          ∃ before after, expanded = before ++ x :: after ∧
            (∀ n ∈ before, failure? answer n = none) ∧ answer x = .error cause) ∧
        (outcome.result = .error (.lookupFailed x cause) →
          outcome.lookups.getLast? = some x) := by
  obtain ⟨expanded, hexpanded, hshallow⟩ := expandsShallow_start h
  obtain ⟨result, asked, hreturns, hexpansions⟩ :=
    exists_returns (fun _ _ _ _ _ => asksExpansions_of_call) h []
  have hasks := hexpansions expanded hexpanded
  have hasked : asked.reverse = upToFailure answer expanded := by
    rw [hasks.asked_eq, List.append_nil, List.reverse_reverse]
  refine ⟨expanded, ⟨result, asked.reverse.eraseDups⟩, hexpanded,
    ends_iff_of_returns h hreturns, nodup_eraseDups _, by rw [hasked], ?_, fun x cause => ⟨?_, ?_⟩⟩
  · intro n hn
    rw [List.mem_eraseDups, hasked] at hn
    exact hshallow n (mem_of_mem_upToFailure hn)
  · rw [hasks.failed_iff, findSome?_failure?_eq_some_iff]
  · intro hfailed
    rw [hasked]
    exact getLast?_eraseDups_upToFailure ((hasks.failed_iff _).mp hfailed)

/-- Answers for three of four nodes; the first one leads to the last one directly and along the
others. -/
def detour (n : Fin 4) : Except String (List (Fin 4)) :=
  if n = 0 then .ok [1, 3, 1] else if n = 1 then .ok [2, 0] else if n = 2 then .ok [3, 1]
  else .error "gone"

/-- Within three hops the last node first lies at the bound, and is asked about when the walk
comes to it again. -/
theorem walk_asks_expansions_detour :
    ((some 3).isSome = true ∨ (reachable detour 0).Finite) ∧
      ∃ expanded, expansions (successorsOf detour) (some 3) [] 0 = some expanded ∧
        [0, 1, 2, 3] = (upToFailure detour expanded).eraseDups ∧
        (∀ n ∈ [0, 1, 2, 3], Shallow (successorsOf detour) (some 3) 0 n) ∧
        ∃ before after, expanded = before ++ 3 :: after ∧
          (∀ n ∈ before, failure? detour n = none) ∧ detour 3 = .error "gone" := by
  have hbound : (some 3).isSome = true ∨ (reachable detour 0).Finite := Or.inl rfl
  obtain ⟨expanded, outcome, hexpanded, hends, -, hlookups, hshallow, hfailed⟩ :=
    walk_asks_expansions detour (some 3) 0 hbound
  have houtcome := (hends ⟨.error (.lookupFailed 3 "gone"), [0, 1, 2, 3]⟩).mp ⟨20, rfl⟩
  subst houtcome
  exact ⟨hbound, expanded, hexpanded, hlookups, hshallow, (hfailed 3 "gone").1.mp rfl⟩

end Walk
end CallImpact
