import CallImpact.Walk.Search
import Mathlib.Data.List.Forall2
import Mathlib.Data.List.Nodup
import Mathlib.Data.Set.Finite.Basic
import Mathlib.Logic.Relation

/-!
# The recursion behind a walk

The chains from a node could be listed by a plain recursion that asks about a node each
time it comes to it and keeps no memory of the answers.  This file defines that recursion.
It need not end, so it may return nothing; what it does return comes with the nodes it
asked about.

`Call` says what one call of it returns, given what the calls it makes return.  If a depth
bound is set or only finitely many nodes are reachable, then the recursion returns, and
whatever is closed under its calls holds of the result: this is `exists_returns`, the
induction along the recursion.
-/

namespace CallImpact
namespace Walk

/-- A recursion that may go on forever or fail.  Its state is the list of the nodes it
asked about, the last one first. -/
abbrev Recursion (N α : Type) : Type :=
  ExceptT (Failure N) (StateT (List N) Option) α

namespace Recursion

section Runs

variable {N α β ι : Type}

/-- Started after some questions, the recursion returns the result after some others. -/
def Returns (m : Recursion N α) (asked : List N) (result : Except (Failure N) α)
    (asked' : List N) : Prop :=
  m.run.run asked = some (result, asked')

theorem Returns.unique {m : Recursion N α} {asked asked₁ asked₂ : List N}
    {result₁ result₂ : Except (Failure N) α} (h₁ : Returns m asked result₁ asked₁)
    (h₂ : Returns m asked result₂ asked₂) : result₁ = result₂ ∧ asked₁ = asked₂ := by
  have h := Option.some_inj.mp (h₁.symm.trans h₂)
  exact Prod.mk.inj h

theorem returns_pure (a : α) (asked : List N) :
    Returns (pure a : Recursion N α) asked (.ok a) asked :=
  rfl

theorem Returns.bind {m : Recursion N α} {f : α → Recursion N β}
    {asked between asked' : List N} {a : α} {result : Except (Failure N) β}
    (h : Returns m asked (.ok a) between) (hf : Returns (f a) between result asked') :
    Returns (m >>= f) asked result asked' := by
  rw [Returns, ExceptT.run_bind, StateT.run_bind, h]
  exact hf

theorem Returns.bind_error {m : Recursion N α} {f : α → Recursion N β}
    {asked asked' : List N} {failure : Failure N}
    (h : Returns m asked (.error failure) asked') :
    Returns (m >>= f) asked (.error failure) asked' := by
  rw [Returns, ExceptT.run_bind, StateT.run_bind, h]
  rfl

/-- What is returned for the elements of a list, taken one after the other up to the
first failure, if `R` says what is returned for one of them. -/
inductive Each (R : ι → List N → Except (Failure N) α → List N → Prop) :
    List ι → List N → Except (Failure N) (List α) → List N → Prop
  | nil {asked : List N} : Each R [] asked (.ok []) asked
  | failed {i : ι} {is : List ι} {asked asked' : List N} {failure : Failure N} :
      R i asked (.error failure) asked' → Each R (i :: is) asked (.error failure) asked'
  | cons {i : ι} {is : List ι} {asked between asked' : List N} {a : α}
      {result : Except (Failure N) (List α)} :
      R i asked (.ok a) between → Each R is between result asked' →
        Each R (i :: is) asked (result.map (a :: ·)) asked'

theorem Each.mono {R S : ι → List N → Except (Failure N) α → List N → Prop}
    {is : List ι} {asked asked' : List N} {result : Except (Failure N) (List α)}
    (hRS : ∀ i asked result asked', R i asked result asked' → S i asked result asked')
    (h : Each R is asked result asked') : Each S is asked result asked' := by
  induction h with
  | nil => exact .nil
  | failed h => exact .failed (hRS _ _ _ _ h)
  | cons h _ ih => exact .cons (hRS _ _ _ _ h) ih

/-- Each of the values returned is returned for an element. -/
theorem Each.exists_of_mem {R : ι → List N → Except (Failure N) α → List N → Prop}
    {is : List ι} {asked asked' : List N} {as : List α} {a : α}
    (h : Each R is asked (.ok as) asked') (ha : a ∈ as) :
    ∃ i before after, R i before (.ok a) after := by
  generalize hresult : (.ok as : Except (Failure N) (List α)) = result at h
  induction h generalizing as with
  | nil =>
    obtain rfl := Except.ok.inj hresult
    exact absurd ha List.not_mem_nil
  | failed _ => cases hresult
  | @cons i is asked between asked' first result hfirst _ ih =>
    cases result with
    | error failure => cases hresult
    | ok rest =>
      obtain rfl := Except.ok.inj hresult
      rcases List.mem_cons.mp ha with rfl | ha
      · exact ⟨i, asked, between, hfirst⟩
      · exact ih ha rfl

/-- If every element returns, so does the list. -/
theorem exists_each {R : ι → List N → Except (Failure N) α → List N → Prop}
    {is : List ι} (h : ∀ i ∈ is, ∀ asked, ∃ result asked', R i asked result asked')
    (asked : List N) : ∃ result asked', Each R is asked result asked' := by
  induction is generalizing asked with
  | nil => exact ⟨_, _, .nil⟩
  | cons i is ih =>
    obtain ⟨first, between, hfirst⟩ := h i (List.mem_cons_self ..) asked
    cases first with
    | error failure => exact ⟨_, _, .failed hfirst⟩
    | ok a =>
      obtain ⟨result, asked', hrest⟩ :=
        ih (fun j hj => h j (List.mem_cons_of_mem _ hj)) between
      exact ⟨_, _, .cons hfirst hrest⟩

/-- If no element fails, the list returns what its elements return. -/
theorem Each.exists_forall₂ {R : ι → List N → Except (Failure N) α → List N → Prop}
    {S : ι → α → Prop} {is : List ι} {asked asked' : List N}
    {result : Except (Failure N) (List α)} (h : Each R is asked result asked')
    (hR : ∀ i ∈ is, ∀ asked result asked', R i asked result asked' →
      ∃ a, result = .ok a ∧ S i a) :
    ∃ as, result = .ok as ∧ List.Forall₂ S is as := by
  induction h with
  | nil => exact ⟨[], rfl, .nil⟩
  | failed hfailed =>
    obtain ⟨a, ha, -⟩ := hR _ (List.mem_cons_self ..) _ _ _ hfailed
    cases ha
  | cons hfirst _ ih =>
    obtain ⟨a, ha, hS⟩ := hR _ (List.mem_cons_self ..) _ _ _ hfirst
    cases ha
    obtain ⟨as, rfl, has⟩ := ih fun i hi => hR i (List.mem_cons_of_mem _ hi)
    exact ⟨_, rfl, .cons hS has⟩

/-- If no element asks about a node, the list returns its values without a question. -/
theorem each_map {R : ι → List N → Except (Failure N) α → List N → Prop} {f : ι → α}
    {is : List ι} {asked : List N} (h : ∀ i ∈ is, R i asked (.ok (f i)) asked) :
    Each R is asked (.ok (is.map f)) asked := by
  induction is with
  | nil => exact .nil
  | cons i is ih =>
    obtain ⟨hi, his⟩ := List.forall_mem_cons.mp h
    exact .cons hi (ih his)

/-- If every element returns a value that a given one is related to, so does the list. -/
theorem exists_each_ok {R : ι → List N → Except (Failure N) α → List N → Prop}
    {T : β → α → Prop} {is : List ι} {bs : List β}
    (h : List.Forall₂ (fun i b => ∀ asked, ∃ a asked', R i asked (.ok a) asked' ∧ T b a) is bs)
    (asked : List N) : ∃ as asked', Each R is asked (.ok as) asked' ∧ List.Forall₂ T bs as := by
  induction h generalizing asked with
  | nil => exact ⟨[], asked, .nil, .nil⟩
  | cons hfirst _ ih =>
    obtain ⟨a, between, ha, hT⟩ := hfirst asked
    obtain ⟨as, asked', has, hall⟩ := ih between
    exact ⟨a :: as, asked', .cons ha has, .cons hT hall⟩

theorem returns_mapM_of_each {f : ι → Recursion N α} {is : List ι} {asked asked' : List N}
    {result : Except (Failure N) (List α)}
    (h : Each (fun i => Returns (f i)) is asked result asked') :
    Returns (is.mapM f) asked result asked' := by
  induction h with
  | nil => exact returns_pure [] _
  | failed hi =>
    rw [List.mapM_cons]
    exact hi.bind_error
  | @cons i is asked between asked' a result hi _ ih =>
    rw [List.mapM_cons]
    refine hi.bind ?_
    cases result with
    | error failure => exact ih.bind_error
    | ok as => exact ih.bind (returns_pure (a :: as) asked')

end Runs

variable {N : Type}

/-- Asks about a node. -/
def expand (answer : N → Except String (List N)) (node : N) : Recursion N (List N) := do
  modify (node :: ·)
  match answer node with
  | .error cause => throw (.lookupFailed node cause)
  | .ok successors => return successors

/-- The chains that continue a path with a node. -/
def chains [DecidableEq N] (answer : N → Except String (List N)) (maxDepth : Option Nat)
    (path : List N) (n : N) : Recursion N (List (List N)) := do
  if maxDepth.any (· ≤ path.length) then return [path ++ [n]]
  let successors ← expand answer n
  if successors.isEmpty then return [path ++ [n]]
  let next := successors.filter (· ∉ path ++ [n])
  let blocks ← next.mapM fun m => (chains answer maxDepth (n := m)) (path ++ [n])
  return blocks.flatten
partial_fixpoint

variable {answer : N → Except String (List N)} {maxDepth : Option Nat} {path : List N}
  {node start : N} {asked asked' : List N}

theorem returns_expand (answer : N → Except String (List N)) (node : N) (asked : List N) :
    Returns (expand answer node) asked ((answer node).mapError (.lookupFailed node))
      (node :: asked) := by
  rw [Returns, expand]
  cases answer node <;> rfl

/-! ## What a call returns -/

/-- What a call of the recursion returns, if `R` says what the calls it makes return. -/
inductive Call [DecidableEq N] (answer : N → Except String (List N)) (maxDepth : Option Nat)
    (R : List N → N → List N → Except (Failure N) (List (List N)) → List N → Prop)
    (path : List N) (node : N) (asked : List N) :
    Except (Failure N) (List (List N)) → List N → Prop
  | deep : maxDepth.any (· ≤ path.length) = true →
      Call answer maxDepth R path node asked (.ok [path ++ [node]]) asked
  | failed {cause : String} : maxDepth.any (· ≤ path.length) = false →
      answer node = .error cause →
      Call answer maxDepth R path node asked (.error (.lookupFailed node cause))
        (node :: asked)
  | sink : maxDepth.any (· ≤ path.length) = false → answer node = .ok [] →
      Call answer maxDepth R path node asked (.ok [path ++ [node]]) (node :: asked)
  | branch {successors asked' : List N} {result : Except (Failure N) (List (List (List N)))} :
      maxDepth.any (· ≤ path.length) = false → answer node = .ok successors →
      successors ≠ [] →
      Each (R (path ++ [node])) (successors.filter (· ∉ path ++ [node])) (node :: asked)
        result asked' →
      Call answer maxDepth R path node asked (result.map List.flatten) asked'

variable [DecidableEq N]

theorem Call.mono
    {R S : List N → N → List N → Except (Failure N) (List (List N)) → List N → Prop}
    {result : Except (Failure N) (List (List N))}
    (hRS : ∀ path node asked result asked',
      R path node asked result asked' → S path node asked result asked')
    (h : Call answer maxDepth R path node asked result asked') :
    Call answer maxDepth S path node asked result asked' := by
  cases h with
  | deep hdeep => exact .deep hdeep
  | failed hdeep ha => exact .failed hdeep ha
  | sink hdeep ha => exact .sink hdeep ha
  | branch hdeep ha hne hblocks => exact .branch hdeep ha hne (hblocks.mono (hRS _))

/-- The recursion is closed under its calls. -/
theorem returns_of_call {result : Except (Failure N) (List (List N))}
    (h : Call answer maxDepth (fun path node => Returns (chains answer maxDepth path node))
      path node asked result asked') :
    Returns (chains answer maxDepth path node) asked result asked' := by
  have hexpand := returns_expand answer node asked
  rw [chains]
  cases h with
  | deep hdeep =>
    rw [if_pos hdeep]
    exact returns_pure _ asked
  | failed hdeep ha =>
    rw [ha] at hexpand
    rw [if_neg (Bool.not_eq_true _ ▸ hdeep)]
    exact hexpand.bind_error
  | sink hdeep ha =>
    rw [ha] at hexpand
    rw [if_neg (Bool.not_eq_true _ ▸ hdeep)]
    exact hexpand.bind (returns_pure _ (node :: asked))
  | @branch successors _ result hdeep ha hne hblocks =>
    rw [ha] at hexpand
    rw [if_neg (Bool.not_eq_true _ ▸ hdeep)]
    refine hexpand.bind ?_
    rw [if_neg (by rwa [List.isEmpty_iff])]
    have hmap := returns_mapM_of_each hblocks
    cases result with
    | error failure => exact hmap.bind_error
    | ok blocks => exact hmap.bind (returns_pure _ asked')

theorem returns_branch {successors : List N} {blocks : List (List (List N))}
    (hdeep : maxDepth.any (· ≤ path.length) = false) (ha : answer node = .ok successors)
    (hne : successors ≠ [])
    (hblocks : Each (fun next => Returns (chains answer maxDepth (path ++ [node]) next))
      (successors.filter (· ∉ path ++ [node])) (node :: asked) (.ok blocks) asked') :
    Returns (chains answer maxDepth path node) asked (.ok blocks.flatten) asked' := by
  have hcall := Call.branch (R := fun path node => Returns (chains answer maxDepth path node))
    hdeep ha hne hblocks
  exact returns_of_call hcall

end Recursion

/-! ## The depth bound -/

section DepthBound

variable {maxDepth : Option Nat} {hops : Nat}

/-- A path is before the depth bound if it has fewer hops. -/
theorem shallow_iff :
    maxDepth.any (· ≤ hops) = false ↔ ∀ depth, maxDepth = some depth → hops < depth := by
  cases maxDepth with
  | none => simp
  | some depth => simp

/-- A path that is not before the depth bound is at it, if it is not beyond it. -/
theorem eq_some_of_deep (hdeep : maxDepth.any (· ≤ hops) = true)
    (hle : ∀ depth, maxDepth = some depth → hops ≤ depth) : maxDepth = some hops := by
  obtain ⟨depth, hdepth, hmax⟩ := (Option.any_eq_true _ _).mp hdeep
  rw [hdepth, Nat.le_antisymm (hle depth hdepth) (of_decide_eq_true hmax)]

end DepthBound

/-! ## Induction along paths -/

/-- Under a depth bound or within a finite set, paths that may be continued are shorter than
some number. -/
theorem exists_length_lt {N : Type} {maxDepth : Option Nat} {S : Set N}
    (h : maxDepth.isSome = true ∨ S.Finite) :
    ∃ bound, ∀ path : List N, path.Nodup → (∀ n ∈ path, n ∈ S) →
      maxDepth.any (· ≤ path.length) = false → path.length < bound := by
  rcases h with hdepth | hfinite
  · obtain ⟨depth, rfl⟩ := Option.isSome_iff_exists.mp hdepth
    exact ⟨depth, fun path _ _ hshort => shallow_iff.mp hshort depth rfl⟩
  · classical
    refine ⟨hfinite.toFinset.card + 1, fun path hnodup hpath _ => ?_⟩
    have hsubset : path.toFinset ⊆ hfinite.toFinset := by
      intro n hn
      exact hfinite.mem_toFinset.mpr (hpath n (List.mem_toFinset.mp hn))
    have hcard := Finset.card_le_card hsubset
    rw [List.toFinset_card_of_nodup hnodup] at hcard
    exact Nat.lt_succ_of_le hcard

/-- What a path with a node has as soon as its continuations before the depth bound have it,
the start has, if a depth bound is set or only finitely many nodes are reachable. -/
theorem path_induction {N : Type} {linked : N → N → Prop} {maxDepth : Option Nat} {start : N}
    {Q : List N → N → Prop}
    (hstep : ∀ path node, (path ++ [node]).Nodup →
      (maxDepth.any (· ≤ path.length) = false → ∀ next, linked node next →
        next ∉ path ++ [node] → Q (path ++ [node]) next) → Q path node)
    (h : maxDepth.isSome = true ∨ {n | Relation.ReflTransGen linked start n}.Finite) :
    Q [] start := by
  obtain ⟨bound, hbound⟩ := exists_length_lt h
  -- the induction is on the room that a path leaves below the bound
  have hroom : ∀ room path node, bound ≤ path.length + room → (path ++ [node]).Nodup →
      (∀ n ∈ path ++ [node], Relation.ReflTransGen linked start n) → Q path node := by
    intro room
    induction room with
    | zero =>
      intro path node hroom hnodup hpath
      refine hstep path node hnodup fun hdeep => ?_
      have hlt := hbound path hnodup.of_append_left
        (fun n hn => hpath n (List.mem_append_left _ hn)) hdeep
      omega
    | succ room ih =>
      intro path node hroom hnodup hpath
      refine hstep path node hnodup fun _ next hlinked hnew => ih (path ++ [node]) next ?_ ?_ ?_
      · rw [List.length_append, List.length_singleton]
        omega
      · rw [← List.concat_eq_append, List.nodup_concat]
        exact ⟨hnew, hnodup⟩
      · have hnext := Relation.ReflTransGen.tail (hpath node List.mem_concat_self) hlinked
        exact List.forall_mem_append.mpr ⟨hpath, List.forall_mem_singleton.mpr hnext⟩
  exact hroom bound [] start (Nat.le_add_left ..) (List.nodup_singleton start)
    (List.forall_mem_singleton.mpr Relation.ReflTransGen.refl)

/-! ## When the recursion returns -/

variable {N : Type}

/-- The second node is among the successors of the first one. -/
def Linked (answer : N → Except String (List N)) (a b : N) : Prop :=
  ∃ successors, answer a = .ok successors ∧ b ∈ successors

/-- The nodes that some path from a node leads to. -/
def reachable (answer : N → Except String (List N)) (start : N) : Set N :=
  {n | Relation.ReflTransGen (Linked answer) start n}

variable {answer : N → Except String (List N)} {maxDepth : Option Nat} {start : N}

namespace Recursion

variable [DecidableEq N]

/-- If every continuation of a path has a result that is closed under calls, so has the path. -/
theorem exists_of_call
    {R : List N → N → List N → Except (Failure N) (List (List N)) → List N → Prop}
    (hR : ∀ path node asked result asked',
      Call answer maxDepth R path node asked result asked' → R path node asked result asked')
    {path : List N} {node : N}
    (hnext : maxDepth.any (· ≤ path.length) = false → ∀ next, Linked answer node next →
      next ∉ path ++ [node] → ∀ asked, ∃ result asked', R (path ++ [node]) next asked result asked')
    (asked : List N) : ∃ result asked', R path node asked result asked' := by
  cases hdeep : maxDepth.any (· ≤ path.length) with
  | true => exact ⟨_, _, hR _ _ _ _ _ (.deep hdeep)⟩
  | false =>
    cases ha : answer node with
    | error cause => exact ⟨_, _, hR _ _ _ _ _ (.failed hdeep ha)⟩
    | ok successors =>
      by_cases hempty : successors = []
      · exact ⟨_, _, hR _ _ _ _ _ (.sink hdeep (hempty ▸ ha))⟩
      have heach : ∀ next ∈ successors.filter (· ∉ path ++ [node]), ∀ asked,
          ∃ result asked', R (path ++ [node]) next asked result asked' := by
        intro next hmem
        rw [List.mem_filter, decide_eq_true_eq] at hmem
        exact hnext hdeep next ⟨successors, ha, hmem.1⟩ hmem.2
      obtain ⟨result, asked', hblocks⟩ := exists_each heach (node :: asked)
      exact ⟨_, _, hR _ _ _ _ _ (.branch hdeep ha hempty hblocks)⟩

/-- If a depth bound is set or only finitely many nodes are reachable, the recursion
returns, and what is closed under its calls holds of what it returns. -/
theorem exists_returns
    {P : List N → N → List N → Except (Failure N) (List (List N)) → List N → Prop}
    (hP : ∀ path node asked result asked',
      Call answer maxDepth P path node asked result asked' → P path node asked result asked')
    (h : maxDepth.isSome = true ∨ (reachable answer start).Finite) (asked : List N) :
    ∃ result asked', Returns (chains answer maxDepth [] start) asked result asked' ∧
      P [] start asked result asked' := by
  let R := fun path node asked result asked' =>
    Returns (chains answer maxDepth path node) asked result asked' ∧
      P path node asked result asked'
  have hR : ∀ path node asked result asked',
      Call answer maxDepth R path node asked result asked' →
        R path node asked result asked' := fun _ _ _ _ _ hcall =>
    ⟨returns_of_call (hcall.mono fun _ _ _ _ _ h => h.1),
      hP _ _ _ _ _ (hcall.mono fun _ _ _ _ _ h => h.2)⟩
  have hstart : ∀ asked, ∃ result asked', R [] start asked result asked' :=
    path_induction (Q := fun path node => ∀ asked, ∃ result asked', R path node asked result asked')
      (fun _ _ _ hnext => exists_of_call hR hnext) h
  exact hstart asked

end Recursion
end Walk
end CallImpact
