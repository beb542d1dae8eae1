import CallImpact.Proofs.Walk.Refinement
import Mathlib.Data.List.Chain

/-!
# The chains of a walk are the full simple paths

Over a lookup that never fails, a walk reports the simple paths from its start that end
at a node without successors or at the depth bound.  Other simple paths are not reported,
in particular those that only loops continue.  A path is reported as often as its steps are
listed (`ways`), so once if no successor is listed twice.

What is said about paths here does not mention the recursion or the search: the full
paths that continue a path with a node are the path itself if it ends there, and otherwise
those that continue it with a further node (`continues_branch_iff`).
-/

namespace CallImpact
namespace Walk

variable {N : Type}

/-- A path from a node to successor after successor that visits no node twice. -/
structure SimplePath (successors : N → List N) (start : N) (path : List N) : Prop where
  head_eq : path.head? = some start
  nodup : path.Nodup
  linked : path.IsChain fun a b => b ∈ successors a

/-- A simple path that ends at a node without successors or at the depth bound. -/
structure FullPath (successors : N → List N) (maxDepth : Option Nat) (start : N)
    (path : List N) : Prop extends SimplePath successors start path where
  hops_le : ∀ depth, maxDepth = some depth → path.length ≤ depth + 1
  ends : ∀ last, path.getLast? = some last →
    successors last = [] ∨ maxDepth = some (path.length - 1)

/-- A full path that begins with a path and a node. -/
def Continues (successors : N → List N) (maxDepth : Option Nat) (start : N)
    (path : List N) (node : N) (c : List N) : Prop :=
  path ++ [node] <+: c ∧ FullPath successors maxDepth start c

variable {successors : N → List N} {maxDepth : Option Nat} {start node next : N}
  {path c : List N}

theorem linked_ok_iff {a b : N} :
    Linked (fun n => .ok (successors n)) a b ↔ b ∈ successors a := by
  simp [Linked]

/-- Every full path continues the start. -/
theorem continues_start_iff :
    Continues successors maxDepth start [] start c ↔
      FullPath successors maxDepth start c := by
  constructor
  · rintro ⟨-, hc⟩
    exact hc
  · intro hc
    obtain ⟨rest, rfl⟩ := List.head?_eq_some_iff.mp hc.head_eq
    exact ⟨⟨rest, rfl⟩, hc⟩

namespace SimplePath

theorem singleton (successors : N → List N) (start : N) :
    SimplePath successors start [start] where
  head_eq := rfl
  nodup := List.nodup_singleton start
  linked := List.isChain_singleton start

/-- A simple path stays one with more successors. -/
theorem mono {successors' : N → List N} (h : SimplePath successors start path)
    (hsub : ∀ a b, b ∈ successors a → b ∈ successors' a) : SimplePath successors' start path :=
  ⟨h.head_eq, h.nodup, h.linked.imp hsub⟩

/-- What the start has and nodes pass on to their successors, all nodes of the path have. -/
theorem forall_mem {P : N → Prop} (h : SimplePath successors start path) (hstart : P start)
    (hnext : ∀ a, P a → ∀ b ∈ successors a, P b) : ∀ n ∈ path, P n := by
  refine h.linked.induction P path (fun a b hb ha => hnext a ha b hb) fun hne => ?_
  have hhead := h.head_eq
  rw [List.head?_eq_some_head hne, Option.some_inj] at hhead
  exact hhead ▸ hstart

theorem concat (h : SimplePath successors start (path ++ [node]))
    (hnext : next ∈ successors node) (hnew : next ∉ path ++ [node]) :
    SimplePath successors start (path ++ [node] ++ [next]) where
  head_eq := by rw [List.head?_append, h.head_eq, Option.some_or]
  nodup := by
    rw [← List.concat_eq_append, List.nodup_concat]
    exact ⟨hnew, h.nodup⟩
  linked := by
    rw [List.append_assoc]
    exact List.isChain_append_cons_cons.mpr ⟨h.linked, hnext, List.isChain_singleton next⟩

/-- A simple path that goes on after a node goes on with a successor of it that was not
visited. -/
theorem eq_or_exists_next (h : SimplePath successors start c)
    (hbegin : path ++ [node] <+: c) :
    c = path ++ [node] ∨ ∃ next ∈ successors node, next ∉ path ++ [node] ∧
      path ++ [node] ++ [next] <+: c := by
  obtain ⟨rest, rfl⟩ := hbegin
  cases rest with
  | nil => exact Or.inl (List.append_nil _)
  | cons next rest =>
    have hlinked := h.linked
    rw [List.append_assoc] at hlinked
    obtain ⟨-, -, hdisjoint⟩ := List.nodup_append.mp h.nodup
    refine Or.inr ⟨next, (List.isChain_append_cons_cons.mp hlinked).2.1, ?_, rest, ?_⟩
    · intro hmem
      exact hdisjoint next hmem next (List.mem_cons_self ..) rfl
    · exact List.append_assoc ..

end SimplePath

/-! ## The same path backwards -/

section Reversal

variable {predecessors : N → List N} {last : N}

/-- A simple path is a simple path along the converse relation, from its last node. -/
theorem SimplePath.reverse (h : SimplePath successors start path)
    (hconverse : ∀ a b, b ∈ successors a ↔ a ∈ predecessors b)
    (hlast : path.getLast? = some last) :
    SimplePath predecessors last path.reverse where
  head_eq := by rw [List.head?_reverse, hlast]
  nodup := List.nodup_reverse.mpr h.nodup
  linked := by
    rw [List.isChain_reverse]
    exact h.linked.imp fun a b hb => (hconverse a b).mp hb

/-- A full path from a node without predecessors is full backwards as well. -/
theorem FullPath.reverse (h : FullPath successors maxDepth start path)
    (hconverse : ∀ a b, b ∈ successors a ↔ a ∈ predecessors b)
    (hlast : path.getLast? = some last) (hstart : predecessors start = []) :
    FullPath predecessors maxDepth last path.reverse where
  toSimplePath := h.toSimplePath.reverse hconverse hlast
  hops_le := by
    intro depth hdepth
    rw [List.length_reverse]
    exact h.hops_le depth hdepth
  ends := by
    intro n hn
    rw [List.getLast?_reverse, h.head_eq] at hn
    cases hn
    exact Or.inl hstart

theorem fullPath_reverse_iff (hconverse : ∀ a b, b ∈ successors a ↔ a ∈ predecessors b)
    (hstart : predecessors start = []) (hlast : successors last = []) :
    FullPath successors maxDepth start path ∧ path.getLast? = some last ↔
      FullPath predecessors maxDepth last path.reverse ∧
        path.reverse.getLast? = some start := by
  constructor
  · rintro ⟨h, hend⟩
    refine ⟨h.reverse hconverse hend hstart, ?_⟩
    rw [List.getLast?_reverse, h.head_eq]
  · rintro ⟨h, hend⟩
    have hback := h.reverse (fun a b => (hconverse b a).symm) hend hlast
    rw [List.reverse_reverse] at hback
    refine ⟨hback, ?_⟩
    rw [← List.head?_reverse, h.head_eq]

end Reversal

theorem length_concat (path : List N) (node : N) :
    (path ++ [node]).length = path.length + 1 := by
  rw [List.length_append, List.length_singleton]

/-- A path continues another one with one node only. -/
theorem Continues.node_unique (h : Continues successors maxDepth start path node c)
    (h' : Continues successors maxDepth start path next c) : node = next :=
  eq_of_concat_begins h.1 h'.1

/-! ## How often a path is taken -/

variable [DecidableEq N]

/-- How often a path is taken by going to each successor as often as it is listed. -/
def ways (successors : N → List N) : List N → Nat
  | a :: b :: rest => (successors a).count b * ways successors (b :: rest)
  | _ => 1

/-- A path is taken once if each of its nodes lists the next one once. -/
theorem ways_eq_one_iff :
    ways successors path = 1 ↔ path.IsChain fun a b => (successors a).count b = 1 := by
  induction path with
  | nil => simp [ways]
  | cons a rest ih =>
    cases rest with
    | nil => simp [ways]
    | cons b rest =>
      rw [ways, List.isChain_cons_cons, ← ih]
      constructor
      · intro h
        exact ⟨Nat.eq_one_of_mul_eq_one_right h, Nat.eq_one_of_mul_eq_one_left h⟩
      · rintro ⟨hfirst, hrest⟩
        rw [hfirst, hrest]

theorem Continues.ways_drop
    (h : Continues successors maxDepth start (path ++ [node]) next c) :
    ways successors (c.drop path.length) =
      (successors node).count next * ways successors (c.drop (path ++ [node]).length) := by
  obtain ⟨⟨rest, rfl⟩, -⟩ := h
  rw [List.append_assoc, List.drop_left, List.append_assoc, List.drop_left]
  rfl

/-! ## The full paths that continue a path -/

/-- The list holds the full paths that continue a path with a node, each as often as it is
taken from there. -/
structure ListsPaths (successors : N → List N) (maxDepth : Option Nat) (start : N)
    (path : List N) (node : N) (found : List (List N)) : Prop where
  mem_iff : ∀ c, c ∈ found ↔ Continues successors maxDepth start path node c
  count_eq : ∀ c ∈ found, found.count c = ways successors (c.drop path.length)

/-- A full path that nothing continues is listed alone. -/
theorem listsPaths_singleton (hfull : FullPath successors maxDepth start (path ++ [node]))
    (honly : ∀ c, Continues successors maxDepth start path node c → c = path ++ [node]) :
    ListsPaths successors maxDepth start path node [path ++ [node]] where
  mem_iff := by
    intro c
    rw [List.mem_singleton]
    constructor
    · rintro rfl
      exact ⟨List.prefix_rfl, hfull⟩
    · exact honly c
  count_eq := by
    intro c hc
    rw [List.mem_singleton.mp hc, List.count_singleton_self, List.drop_left]
    rfl

/-- At the depth bound a path is full, and nothing continues it. -/
theorem listsPaths_deep (hpath : SimplePath successors start (path ++ [node]))
    (hmax : maxDepth = some path.length) :
    ListsPaths successors maxDepth start path node [path ++ [node]] := by
  have hlength := length_concat path node
  refine listsPaths_singleton ⟨hpath, ?_, ?_⟩ ?_
  · intro depth hdepth
    have hsame := Option.some_inj.mp (hmax.symm.trans hdepth)
    omega
  · intro last _
    rw [hlength]
    exact Or.inr hmax
  · rintro c ⟨hbegin, hc⟩
    have hle := hc.hops_le path.length hmax
    exact (hbegin.eq_of_length_le (by omega)).symm

/-- At a node without successors a path is full, and nothing continues it. -/
theorem listsPaths_sink (hpath : SimplePath successors start (path ++ [node]))
    (hshort : ∀ depth, maxDepth = some depth → path.length < depth)
    (hempty : successors node = []) :
    ListsPaths successors maxDepth start path node [path ++ [node]] := by
  have hlength := length_concat path node
  refine listsPaths_singleton ⟨hpath, ?_, ?_⟩ ?_
  · intro depth hdepth
    have hlt := hshort depth hdepth
    omega
  · intro last hlast
    rw [List.getLast?_concat] at hlast
    cases hlast
    exact Or.inl hempty
  · rintro c ⟨hbegin, hc⟩
    rcases hc.eq_or_exists_next hbegin with heq | ⟨next, hnext, -⟩
    · exact heq
    · rw [hempty] at hnext
      cases hnext

/-- Elsewhere a path is continued with the successors that were not visited. -/
theorem continues_branch_iff (hshort : ∀ depth, maxDepth = some depth → path.length < depth)
    (hne : successors node ≠ []) :
    Continues successors maxDepth start path node c ↔
      ∃ next ∈ (successors node).filter (· ∉ path ++ [node]),
        Continues successors maxDepth start (path ++ [node]) next c := by
  constructor
  · rintro ⟨hbegin, hc⟩
    rcases hc.eq_or_exists_next hbegin with rfl | ⟨next, hnext, hnew, hfurther⟩
    · -- the path itself does not end here and is not at the depth bound
      rcases hc.ends node List.getLast?_concat with hempty | hmax
      · exact absurd hempty hne
      · have hlt := hshort _ hmax
        rw [length_concat] at hlt
        omega
    · exact ⟨next, List.mem_filter.mpr ⟨hnext, decide_eq_true hnew⟩, hfurther, hc⟩
  · rintro ⟨next, -, hbegin, hc⟩
    exact ⟨(List.prefix_append _ _).trans hbegin, hc⟩

/-- The paths that go on with a successor are found as often as the successor is listed. -/
theorem listsPaths_branch {blocks : List (List (List N))}
    (hshort : ∀ depth, maxDepth = some depth → path.length < depth)
    (hne : successors node ≠ [])
    (hblocks : List.Forall₂ (ListsPaths successors maxDepth start (path ++ [node]))
      ((successors node).filter (· ∉ path ++ [node])) blocks) :
    ListsPaths successors maxDepth start path node blocks.flatten where
  mem_iff := by
    intro c
    rw [continues_branch_iff hshort hne]
    exact mem_flatten_iff_of_forall₂ (hblocks.imp fun _ _ hblock => hblock.mem_iff) c
  count_eq := by
    intro c hc
    rw [mem_flatten_iff_of_forall₂ (hblocks.imp fun _ _ hblock => hblock.mem_iff)] at hc
    obtain ⟨next, hnext, hcontinues⟩ := hc
    have hcount := count_flatten_of_forall₂ hblocks
      (fun block hblock => hblock.count_eq c ((hblock.mem_iff c).mpr hcontinues))
      (fun other block hblock hother hmem =>
        hother (((hblock.mem_iff c).mp hmem).node_unique hcontinues))
    rw [hcount, hcontinues.ways_drop,
      List.count_filter (p := (· ∉ path ++ [node])) (List.mem_filter.mp hnext).2]

/-! ## What the recursion lists -/

open Recursion

variable {answer : N → Except String (List N)} {S : Set N}

/-- From a node of a set the recursion lists the full paths that continue a simple path. -/
def Enumerates (successors : N → List N) (S : Set N) (maxDepth : Option Nat) (start : N)
    (path : List N) (node : N) (_asked : List N)
    (result : Except (Failure N) (List (List N))) (_asked' : List N) : Prop :=
  node ∈ S → SimplePath successors start (path ++ [node]) →
  (∀ depth, maxDepth = some depth → path.length ≤ depth) →
  ∃ found, result = .ok found ∧ ListsPaths successors maxDepth start path node found

theorem enumerates_of_call {asked asked' : List N}
    {result : Except (Failure N) (List (List N))}
    (hanswer : ∀ n ∈ S, answer n = .ok (successors n))
    (hclosed : ∀ n ∈ S, ∀ m ∈ successors n, m ∈ S)
    (h : Call answer maxDepth (Enumerates successors S maxDepth start) path node asked result
      asked') :
    Enumerates successors S maxDepth start path node asked result asked' := by
  intro hnode hpath hdepth
  have hown := hanswer node hnode
  cases h with
  | deep hdeep => exact ⟨_, rfl, listsPaths_deep hpath (eq_some_of_deep hdeep hdepth)⟩
  | failed _ ha => cases hown.symm.trans ha
  | sink hdeep ha =>
    have hempty : successors node = [] := Except.ok.inj (hown.symm.trans ha)
    exact ⟨_, rfl, listsPaths_sink hpath (shallow_iff.mp hdeep) hempty⟩
  | branch hdeep ha hne hblocks =>
    obtain rfl : successors node = _ := Except.ok.inj (hown.symm.trans ha)
    have heach : ∀ next ∈ (successors node).filter (· ∉ path ++ [node]),
        ∀ asked result asked',
          Enumerates successors S maxDepth start (path ++ [node]) next asked result asked' →
            ∃ found, result = .ok found ∧
              ListsPaths successors maxDepth start (path ++ [node]) next found := by
      intro next hnext asked result asked' henumerates
      rw [List.mem_filter, decide_eq_true_eq] at hnext
      apply henumerates (hclosed node hnode next hnext.1) (hpath.concat hnext.1 hnext.2)
      intro depth hmax
      rw [length_concat]
      exact shallow_iff.mp hdeep depth hmax
    obtain ⟨blocks, rfl, hall⟩ := hblocks.exists_forall₂ heach
    exact ⟨_, rfl, listsPaths_branch (shallow_iff.mp hdeep) hne hall⟩

/-- In a closed set of answered nodes the recursion lists the full paths from its start. -/
theorem exists_listsPaths_and_returns (hanswer : ∀ n ∈ S, answer n = .ok (successors n))
    (hclosed : ∀ n ∈ S, ∀ m ∈ successors n, m ∈ S) (hstart : start ∈ S)
    (h : maxDepth.isSome = true ∨ (reachable answer start).Finite) :
    ∃ found asked, ListsPaths successors maxDepth start [] start found ∧
      Returns (chains answer maxDepth [] start) [] (.ok found) asked := by
  obtain ⟨result, asked, hreturns, henumerates⟩ := exists_returns
    (P := Enumerates successors S maxDepth start)
    (fun _ _ _ _ _ => enumerates_of_call hanswer hclosed) h []
  obtain ⟨found, rfl, hfound⟩ := henumerates hstart (SimplePath.singleton successors start)
    fun depth _ => Nat.zero_le depth
  exact ⟨found, asked, hfound, hreturns⟩

/-- From the start no path is listed twice if and only if each of its steps is listed once. -/
theorem ListsPaths.nodup_iff {found : List (List N)}
    (h : ListsPaths successors maxDepth start [] start found) :
    found.Nodup ↔ ∀ c ∈ found, c.IsChain fun a b => (successors a).count b = 1 := by
  rw [List.nodup_iff_count_eq_one]
  refine forall₂_congr fun c hc => ?_
  rw [h.count_eq c hc, ways_eq_one_iff]
  rfl

theorem ListsPaths.listsExactly {found : List (List N)} (hnodup : ∀ n, (successors n).Nodup)
    (h : ListsPaths successors maxDepth start [] start found) :
    ListsExactly (FullPath successors maxDepth start) found := by
  have hmem : ∀ c, c ∈ found ↔ FullPath successors maxDepth start c := fun c =>
    (h.mem_iff c).trans continues_start_iff
  refine ⟨h.nodup_iff.mpr fun c hc => ?_, hmem⟩
  exact ((hmem c).mp hc).linked.imp fun a b hb => List.count_eq_one_of_mem (hnodup a) hb

/-! ## What walks report -/

/-- The walk along these successors has one outcome, which reports the chains. -/
def Reports (successors : N → List N) (maxDepth : Option Nat) (start : N)
    (found : List (List N)) : Prop :=
  ∃ lookups, ∀ outcome,
    Search.Ends { maxDepth } (fun _ n => .ok (successors n)) start outcome ↔
      outcome = ⟨.ok found, lookups⟩

theorem Reports.eq_of_ends {found found' : List (List N)} {lookups : List N}
    (h : Reports successors maxDepth start found)
    (hends : Search.Ends { maxDepth } (fun _ n => .ok (successors n)) start
      ⟨.ok found', lookups⟩) :
    found = found' := by
  obtain ⟨lookups', hiff⟩ := h
  obtain ⟨hresult, -⟩ := Outcome.mk.inj ((hiff _).mp hends)
  exact (Except.ok.inj hresult).symm

theorem Reports.unique {found found' : List (List N)}
    (h : Reports successors maxDepth start found)
    (h' : Reports successors maxDepth start found') : found = found' := by
  obtain ⟨lookups, hends⟩ := h'
  exact h.eq_of_ends ((hends _).mpr rfl)

/-- A walk reports what the recursion returns. -/
theorem reports_of_returns {found : List (List N)} {asked : List N}
    (h : maxDepth.isSome = true ∨ (reachable (fun n => .ok (successors n)) start).Finite)
    (hreturns : Returns (chains (fun n => .ok (successors n)) maxDepth [] start) [] (.ok found)
      asked) :
    Reports successors maxDepth start found :=
  ⟨_, Search.ends_iff_of_returns h hreturns⟩

/-- A walk over a lookup that never fails reports the full paths from its start. -/
theorem exists_listsExactly_and_ends (hnodup : ∀ n, (successors n).Nodup)
    (h : maxDepth.isSome = true ∨ (reachable (fun n => .ok (successors n)) start).Finite) :
    ∃ found, ListsExactly (FullPath successors maxDepth start) found ∧
      Reports successors maxDepth start found := by
  obtain ⟨found, asked, hfound, hreturns⟩ := exists_listsPaths_and_returns (S := Set.univ)
    (fun _ _ => rfl) (fun _ _ _ _ => Set.mem_univ _) (Set.mem_univ start) h
  exact ⟨found, hfound.listsExactly hnodup, reports_of_returns h hreturns⟩

/-- Chains that are reported are the full paths from the start. -/
theorem Reports.listsExactly {found : List (List N)} (hnodup : ∀ n, (successors n).Nodup)
    (h : maxDepth.isSome = true ∨ (reachable (fun n => .ok (successors n)) start).Finite)
    (hreports : Reports successors maxDepth start found) :
    ListsExactly (FullPath successors maxDepth start) found := by
  obtain ⟨found', hfound, hreports'⟩ := exists_listsExactly_and_ends hnodup h
  exact hreports'.unique hreports ▸ hfound

theorem Lookup.result_walk_of_reports {l : Lookup N} {found : List (List N)}
    (hl : ∀ n, l.answer n = .ok (successors n)) (h : Reports successors maxDepth start found) :
    (l.walk { maxDepth } start).result = .ok found := by
  obtain ⟨lookups, hends⟩ := h
  have hsource : l.source = fun _ n => .ok (successors n) := funext fun _ => funext hl
  have hwalk := (hends _).mp (hsource ▸ (l.ends_iff { maxDepth } start _).mpr rfl)
  exact congrArg Outcome.result hwalk

/-- A walk that stays among answered nodes reports the full paths from its start. -/
theorem Lookup.exists_listsPaths_walk {l : Lookup N}
    (hanswer : ∀ n ∈ S, l.answer n = .ok (successors n))
    (hclosed : ∀ n ∈ S, ∀ m ∈ successors n, m ∈ S) (hstart : start ∈ S)
    (maxDepth : Option Nat) :
    ∃ found, (l.walk { maxDepth } start).result = .ok found ∧
      ListsPaths successors maxDepth start [] start found := by
  have hfinite : maxDepth.isSome = true ∨ (reachable l.answer start).Finite :=
    Or.inr (l.finite_reachable start)
  obtain ⟨found, asked, hfound, hreturns⟩ :=
    exists_listsPaths_and_returns hanswer hclosed hstart hfinite
  have hwalk := (Search.ends_iff_of_returns hfinite hreturns _).mp
    ((l.ends_iff { maxDepth } start _).mpr rfl)
  exact ⟨found, congrArg Outcome.result hwalk, hfound⟩

end Walk
end CallImpact
