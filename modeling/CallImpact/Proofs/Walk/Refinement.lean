import CallImpact.Proofs.Support.Lists
import CallImpact.Proofs.Walk.Recursion
import CallImpact.Proofs.Walk.Runs
import CallImpact.Walk.Termination

/-!
# Walks return what the recursion returns

A search keeps its path, its frames and the answers in a state of its own, and asks about
no node twice.  Nevertheless it finds the chains of the plain recursion, in the same order
and as often, or fails at the same node.

Entering a node leads the search through the chains that continue its path with the node,
whatever the frames below are (`Simulates`).  This is closed under the calls of the
recursion; inside a call, the successors that are not on the path are entered one after
the other (`settles_frame`).
-/

namespace CallImpact
namespace Walk
namespace Search

open Recursion

variable {N : Type} {answer : N → Except String (List N)} {maxDepth : Option Nat}
  {source : Source N} {start node : N} {memo : List (N × List N)}
  {asked asked' path successors : List N} {s : Search N}

/-! ## The path of a search -/

/-- The path of the search, and the set of its nodes. -/
structure Follows (s : Search N) (path : List N) : Prop where
  path_eq : s.path = path.reverse
  mem_onPath : ∀ n, n ∈ s.onPath ↔ n ∈ path

theorem Follows.length_path (hs : s.Follows path) : s.path.length = path.length := by
  rw [hs.path_eq, List.length_reverse]

theorem Follows.not_mem_onPath (hs : s.Follows path) (hnode : node ∉ path) :
    node ∉ s.onPath :=
  fun h => hnode ((hs.mem_onPath node).mp h)

theorem Follows.recordTo_eq (hs : s.Follows path) (node : N) :
    s.recordTo node = { s with found := (path ++ [node]) :: s.found } := by
  rw [recordTo, hs.path_eq, List.reverse_cons, List.reverse_reverse]

variable [DecidableEq N]

theorem Follows.advance (h : s.Follows path) (node : N) :
    (s.advance node).Follows (path ++ [node]) := by
  constructor
  · rw [Search.advance, h.path_eq, List.reverse_concat]
  · intro n
    rw [Search.advance, List.mem_insert_iff, h.mem_onPath, List.mem_append,
      List.mem_singleton, or_comm]

/-- Of the successors of a node that is entered, those beyond the path remain. -/
theorem Follows.remaining_advance (h : s.Follows path) (node : N) (successors : List N) :
    remaining (s.advance node).onPath ⟨successors, 0⟩ =
      successors.filter (· ∉ path ++ [node]) := by
  rw [remaining, List.drop_zero]
  refine List.filter_congr fun n _ => ?_
  exact decide_eq_decide.mpr (not_congr ((h.advance node).mem_onPath n))

/-! ## What a search remembers -/

/-- The memory holds the answers for the nodes of the questions, those of the first
questions last. -/
structure Remembers (answer : N → Except String (List N)) (memo : List (N × List N))
    (asked : List N) : Prop where
  answered : ∀ entry ∈ memo, answer entry.1 = .ok entry.2
  nodes : (memo.map Prod.fst).reverse = asked.reverse.eraseDups

theorem Remembers.mem_iff (h : Remembers answer memo asked) :
    node ∈ memo.map Prod.fst ↔ node ∈ asked := by
  rw [← List.mem_reverse, h.nodes, List.mem_eraseDups, List.mem_reverse]

theorem eraseDups_reverse_of_mem (h : node ∈ asked) :
    (node :: asked).reverse.eraseDups = asked.reverse.eraseDups := by
  rw [List.reverse_cons, eraseDups_concat, if_pos (List.mem_reverse.mpr h)]

theorem eraseDups_reverse_of_not_mem (h : node ∉ asked) :
    (node :: asked).reverse.eraseDups = asked.reverse.eraseDups ++ [node] := by
  rw [List.reverse_cons, eraseDups_concat, if_neg fun hmem => h (List.mem_reverse.mp hmem)]

theorem remembers_nil : Remembers answer [] [] :=
  ⟨fun _ h => absurd h List.not_mem_nil, rfl⟩

/-- Asking again leaves the memory right. -/
theorem Remembers.again (h : Remembers answer memo asked) (hnode : node ∈ asked) :
    Remembers answer memo (node :: asked) :=
  ⟨h.answered, h.nodes.trans (eraseDups_reverse_of_mem hnode).symm⟩

/-- A new answer is added to the memory. -/
theorem Remembers.learn (h : Remembers answer memo asked) (hnode : node ∉ asked)
    (ha : answer node = .ok successors) :
    Remembers answer ((node, successors) :: memo) (node :: asked) := by
  constructor
  · intro entry hentry
    rcases List.mem_cons.mp hentry with rfl | hentry
    · exact ha
    · exact h.answered entry hentry
  · rw [eraseDups_reverse_of_not_mem hnode, ← h.nodes, List.map_cons, List.reverse_cons]

theorem Remembers.lookup_eq_none_iff (h : Remembers answer memo asked) :
    memo.lookup node = none ↔ node ∉ asked := by
  rw [List.lookup_eq_none_iff, ← h.mem_iff, List.mem_map]
  constructor
  · rintro hall ⟨entry, hentry, rfl⟩
    have hne := hall entry hentry
    simp at hne
  · intro hnone entry hentry
    rw [bne_iff_ne]
    exact fun heq => hnone ⟨entry, hentry, heq.symm⟩

/-! ## Entering a node -/

theorem visit_of_deep (hs : s.Follows path) (hnode : node ∉ path)
    (hdeep : maxDepth.any (· ≤ path.length) = true) :
    s.visit { maxDepth } source node = .ok (s.recordTo node) := by
  rw [← hs.length_path] at hdeep
  rw [visit_eq_of_deep hdeep, retreat_record_advance (hs.not_mem_onPath hnode)]

theorem visit_of_answer (hs : s.Follows path) (hmemo : Remembers answer s.memo asked)
    (hdeep : maxDepth.any (· ≤ path.length) = false) (ha : answer node = .ok successors) :
    ∃ memo, Remembers answer memo (node :: asked) ∧
      s.visit { maxDepth } (fun _ => answer) node =
        .ok (({ s with memo } : Search N).advance node |>.expand successors) := by
  rw [← hs.length_path] at hdeep
  cases hlookup : s.memo.lookup node with
  | some remembered =>
    have hright := hmemo.answered _ (lookup_mem hlookup)
    have hsame : remembered = successors := Except.ok.inj (hright.symm.trans ha)
    have hmem : node ∈ asked := by
      by_contra hnot
      rw [hmemo.lookup_eq_none_iff.mpr hnot] at hlookup
      cases hlookup
    refine ⟨s.memo, hmemo.again hmem, ?_⟩
    rw [visit_eq, if_neg (Bool.not_eq_true _ ▸ hdeep), remembered?, hlookup, hsame]
  | none =>
    have hnot := hmemo.lookup_eq_none_iff.mp hlookup
    refine ⟨(node, successors) :: s.memo, hmemo.learn hnot ha, ?_⟩
    rw [visit_eq, if_neg (Bool.not_eq_true _ ▸ hdeep), remembered?, hlookup]
    simp only [ask_eq, Bool.false_eq_true, if_false, ha]
    rfl

theorem visit_of_failure {cause : String} (hs : s.Follows path)
    (hmemo : Remembers answer s.memo asked) (hdeep : maxDepth.any (· ≤ path.length) = false)
    (ha : answer node = .error cause) :
    s.visit { maxDepth } (fun _ => answer) node =
      .error ⟨.error (.lookupFailed node cause), (node :: asked).reverse.eraseDups⟩ := by
  rw [← hs.length_path] at hdeep
  have hlookup : s.memo.lookup node = none := by
    cases hlookup : s.memo.lookup node with
    | none => rfl
    | some remembered => cases (hmemo.answered _ (lookup_mem hlookup)).symm.trans ha
  have hnot := hmemo.lookup_eq_none_iff.mp hlookup
  rw [visit_eq, if_neg (Bool.not_eq_true _ ▸ hdeep), remembered?, hlookup,
    eraseDups_reverse_of_not_mem hnot, ← hmemo.nodes]
  simp only [ask_eq, receive, Bool.false_eq_true, if_false, ha, fail, List.reverse_cons]
  rfl

/-! ## Simulation -/

/-- The search leads through the chains of a result and back to where it was, with the
answers added to its memory, or to the failure of the result. -/
def Settles (answer : N → Except String (List N)) (maxDepth : Option Nat) (s : Search N)
    (asked' : List N) (c : Except (Outcome N) (Search N)) :
    Except (Failure N) (List (List N)) → Prop
  | .ok found => ∃ memo, Remembers answer memo asked' ∧
      Leads { maxDepth } (fun _ => answer) c
        (.ok { s with memo, found := found.reverse ++ s.found })
  | .error failure =>
      Leads { maxDepth } (fun _ => answer) c
        (.error ⟨.error failure, asked'.reverse.eraseDups⟩)

/-- Entering the node settles the search, whatever its frames are. -/
def Simulates (answer : N → Except String (List N)) (maxDepth : Option Nat) (path : List N)
    (node : N) (asked : List N) (result : Except (Failure N) (List (List N)))
    (asked' : List N) : Prop :=
  ∀ s : Search N, s.Follows path → node ∉ path → Remembers answer s.memo asked →
    Settles answer maxDepth s asked' (s.visit { maxDepth } (fun _ => answer) node) result

theorem Settles.trans {c d : Except (Outcome N) (Search N)}
    {result : Except (Failure N) (List (List N))}
    (hcd : Leads { maxDepth } (fun _ => answer) c d)
    (h : Settles answer maxDepth s asked' d result) :
    Settles answer maxDepth s asked' c result := by
  cases result with
  | error failure => exact Relation.ReflTransGen.trans hcd h
  | ok found =>
    obtain ⟨memo, hmemo, hleads⟩ := h
    exact ⟨memo, hmemo, Relation.ReflTransGen.trans hcd hleads⟩

/-- The chains found before are found first. -/
theorem Settles.prepend {c : Except (Outcome N) (Search N)}
    {result : Except (Failure N) (List (List N))} {found : List (List N)}
    (h : Settles answer maxDepth { s with memo, found := found.reverse ++ s.found } asked' c
      result) :
    Settles answer maxDepth s asked' c (result.map (found ++ ·)) := by
  cases result with
  | error failure => exact h
  | ok rest =>
    obtain ⟨memo', hmemo, hleads⟩ := h
    refine ⟨memo', hmemo, ?_⟩
    rw [List.reverse_append, List.append_assoc]
    exact hleads

/-- A frame settles the search in which its node was entered, if entering its successors
does. -/
theorem settles_frame {nodes : List N}
    {result : Except (Failure N) (List (List (List N)))}
    (h : Each (Simulates answer maxDepth (path ++ [node])) nodes asked result asked')
    (hs : s.Follows path) (hnode : node ∉ path) (hmemo : Remembers answer s.memo asked)
    {frame : Frame N} (hframe : remaining (s.advance node).onPath frame = nodes) :
    Settles answer maxDepth s asked' (.ok ((s.advance node).push frame))
      (result.map List.flatten) := by
  have hadvance := hs.advance node
  have hnew : ∀ next ∈ nodes, next ∉ path ++ [node] := by
    intro next hnext hmem
    rw [← hframe, remaining, List.mem_filter, decide_eq_true_eq] at hnext
    exact hnext.2 ((hadvance.mem_onPath next).mpr hmem)
  induction h generalizing s frame with
  | nil =>
    refine ⟨s.memo, hmemo, Leads.head_step ?_⟩
    rw [step_push_of_done (next?_eq_none hframe),
      retreat_advance (hs.not_mem_onPath hnode)]
    exact Relation.ReflTransGen.refl
  | @failed next nodes asked asked' failure hfailed =>
    obtain ⟨after, hnext, hafter⟩ := next?_eq_some hframe
    apply Leads.head_step
    rw [step_push_of_next hnext]
    exact hfailed ((s.advance node).push after) ⟨hadvance.path_eq, hadvance.mem_onPath⟩
      (hnew next (List.mem_cons_self ..)) hmemo
  | @cons next nodes asked between asked' found result hfirst hrest ih =>
    obtain ⟨after, hnext, hafter⟩ := next?_eq_some hframe
    obtain ⟨memo, hmemo', hleads⟩ :=
      hfirst ((s.advance node).push after) ⟨hadvance.path_eq, hadvance.mem_onPath⟩
        (hnew next (List.mem_cons_self ..)) hmemo
    have hsettles := ih (s := { s with memo, found := found.reverse ++ s.found })
      ⟨hs.path_eq, hs.mem_onPath⟩ hmemo' hafter ⟨hadvance.path_eq, hadvance.mem_onPath⟩
      fun n hn => hnew n (List.mem_cons_of_mem _ hn)
    have hflat : (result.map (found :: ·)).map List.flatten =
        (result.map List.flatten).map (found ++ ·) := by
      cases result <;> rfl
    rw [hflat]
    refine Settles.trans (Leads.head_step ?_) hsettles.prepend
    rw [step_push_of_next hnext]
    exact hleads

/-- Entering a node simulates the recursion as soon as entering its successors does. -/
theorem simulates_of_call {result : Except (Failure N) (List (List N))}
    (h : Call answer maxDepth (Simulates answer maxDepth) path node asked result asked') :
    Simulates answer maxDepth path node asked result asked' := by
  intro s hs hnode hmemo
  cases h with
  | deep hdeep =>
    rw [visit_of_deep hs hnode hdeep, hs.recordTo_eq]
    exact ⟨s.memo, hmemo, Relation.ReflTransGen.refl⟩
  | failed hdeep ha =>
    rw [visit_of_failure hs hmemo hdeep ha]
    exact Relation.ReflTransGen.refl
  | sink hdeep ha =>
    obtain ⟨memo, hmemo', hvisit⟩ := visit_of_answer hs hmemo hdeep ha
    have hs' : Search.Follows { s with memo } path := ⟨hs.path_eq, hs.mem_onPath⟩
    rw [hvisit, expand_advance_nil (hs'.not_mem_onPath hnode), hs'.recordTo_eq]
    exact ⟨memo, hmemo', Relation.ReflTransGen.refl⟩
  | @branch successors asked' result hdeep ha hne hblocks =>
    obtain ⟨memo, hmemo', hvisit⟩ := visit_of_answer hs hmemo hdeep ha
    have hs' : Search.Follows { s with memo } path := ⟨hs.path_eq, hs.mem_onPath⟩
    have hsettles := settles_frame hblocks hs' hnode hmemo' (hs.remaining_advance node successors)
    rw [hvisit, expand, if_neg (by rwa [List.isEmpty_iff])]
    cases result with
    | error failure => exact hsettles
    | ok blocks => exact hsettles

theorem ends_of_settles {result : Except (Failure N) (List (List N))}
    (h : Settles answer maxDepth {} asked'
      (({} : Search N).visit { maxDepth } (fun _ => answer) start) result) :
    Ends { maxDepth } (fun _ => answer) start ⟨result, asked'.reverse.eraseDups⟩ := by
  rw [ends_iff_leads]
  cases result with
  | error failure => exact h
  | ok found =>
    obtain ⟨memo, hmemo, hleads⟩ := h
    refine Relation.ReflTransGen.tail hleads ⟨_, rfl, ?_⟩
    simp only [step_of_nil, finished, List.append_nil, List.reverse_reverse, Search.asked,
      hmemo.nodes]

/-- If the recursion returns, the walk has one outcome: what the recursion returns, and the
nodes that it asked about, each at its first time. -/
theorem ends_iff_of_returns (h : maxDepth.isSome = true ∨ (reachable answer start).Finite)
    {result : Except (Failure N) (List (List N))}
    (hresult : Returns (chains answer maxDepth [] start) [] result asked)
    (outcome : Outcome N) :
    Ends { maxDepth } (fun _ => answer) start outcome ↔
      outcome = ⟨result, asked.reverse.eraseDups⟩ := by
  obtain ⟨result', asked', hreturns, hsimulates⟩ :=
    exists_returns (fun _ _ _ _ _ => simulates_of_call) h []
  obtain ⟨rfl, rfl⟩ := hresult.unique hreturns
  have hends := ends_of_settles
    (hsimulates {} ⟨rfl, fun _ => Iff.rfl⟩ List.not_mem_nil remembers_nil)
  constructor
  · intro houtcome
    exact houtcome.unique hends
  · rintro rfl
    exact hends

end Search

/-! ## Walks over lookups -/

namespace Lookup

variable {N : Type} (l : Lookup N)

theorem finite_reachable (start : N) : (reachable l.answer start).Finite := by
  apply (List.finite_toSet (start :: l.nodes)).subset
  intro n hn
  induction hn with
  | refl => exact List.mem_cons_self ..
  | tail _ hlinked _ =>
    obtain ⟨successors, ha, hmem⟩ := hlinked
    exact List.mem_cons_of_mem _ ((l.answer_bounded ha).1 hmem)

variable [DecidableEq N]

theorem ends_iff (bounds : Bounds) (start : N) (outcome : Outcome N) :
    Search.Ends bounds l.source start outcome ↔ outcome = l.walk bounds start := by
  constructor
  · rintro ⟨fuel, hfuel⟩
    exact (walk_eq hfuel).symm
  · rintro rfl
    exact ⟨_, l.walk_stepBound bounds start⟩

/-- A walk depends on the answers of its lookup only. -/
theorem walk_congr {l l' : Lookup N} (h : ∀ node, l.answer node = l'.answer node)
    (bounds : Bounds) (start : N) : l.walk bounds start = l'.walk bounds start := by
  have hsource : l.source = l'.source := funext fun _ => funext h
  rw [← ends_iff, ← hsource, ends_iff]

end Lookup

open Recursion Search in
/-- A walk without signals over answers that stay the same has exactly one outcome, and its
result is what the recursion returns. -/
theorem walk_refines_recursion {N : Type} [DecidableEq N]
    (answer : N → Except String (List N)) (maxDepth : Option Nat) (start : N)
    (h : maxDepth.isSome = true ∨ (reachable answer start).Finite) :
    ∃ result asked, Returns (chains answer maxDepth [] start) [] result asked ∧
      ∃ lookups, ∀ outcome,
        Ends { maxDepth } (fun _ => answer) start outcome ↔ outcome = ⟨result, lookups⟩ := by
  obtain ⟨result, asked, hreturns, -⟩ :=
    exists_returns (fun _ _ _ _ _ => simulates_of_call) h []
  exact ⟨result, asked, hreturns, _, ends_iff_of_returns h hreturns⟩

open Recursion Search in
/-- From the first node of a loop the third one is reached twice through the second. -/
theorem walk_refines_recursion_loop :
    ∃ asked lookups,
      Returns (chains (fun n : Fin 3 => .ok (if n = 0 then [1, 1, 2] else if n = 1 then [0, 2]
        else [])) none [] 0) [] (.ok [[0, 1, 2], [0, 1, 2], [0, 2]]) asked ∧
      ∀ outcome,
        Ends { maxDepth := none } (fun _ (n : Fin 3) => .ok (if n = 0 then [1, 1, 2]
          else if n = 1 then [0, 2] else [])) 0 outcome ↔
          outcome = ⟨.ok [[0, 1, 2], [0, 1, 2], [0, 2]], lookups⟩ := by
  obtain ⟨result, asked, hreturns, lookups, hends⟩ := walk_refines_recursion
    (fun n : Fin 3 => .ok (if n = 0 then [1, 1, 2] else if n = 1 then [0, 2] else []))
    none 0 (Or.inr (Set.toFinite _))
  have houtcome := (hends ⟨.ok [[0, 1, 2], [0, 1, 2], [0, 2]], [0, 1, 2]⟩).mp ⟨20, rfl⟩
  obtain ⟨rfl, rfl⟩ := Outcome.mk.inj houtcome
  exact ⟨asked, _, hreturns, hends⟩

end Walk
end CallImpact
