import CallImpact.Proofs.ChainTree.Insertion
import CallImpact.Proofs.Support.Lists

/-!
# Merged chains

A forest of merged chains has a node for each way in which the chains begin, and a leaf for
each chain that is not the beginning of a longer one.  Siblings are in the order in which the
chains first go on to them.  No two siblings have the same content, and among such forests the
paths determine a forest up to the order of siblings, and the paths to the leaves, from left to
right, determine it altogether.
-/

namespace CallImpact
namespace ChainTree

variable {α : Type}

/-- The length of the longest chain. -/
def longest (chains : List (List α)) : Nat :=
  (chains.map List.length).foldr max 0

/-- The forests differ in the order of siblings only. -/
inductive SameUpToSiblingOrder : List (ChainTree α) → List (ChainTree α) → Prop
  | nil : SameUpToSiblingOrder [] []
  | cons {content : α} {children children' ts ts' : List (ChainTree α)} :
      SameUpToSiblingOrder children children' → SameUpToSiblingOrder ts ts' →
      SameUpToSiblingOrder (node content children :: ts) (node content children' :: ts')
  | swap (t u : ChainTree α) (ts : List (ChainTree α)) :
      SameUpToSiblingOrder (t :: u :: ts) (u :: t :: ts)
  | trans {ts us vs : List (ChainTree α)} :
      SameUpToSiblingOrder ts us → SameUpToSiblingOrder us vs → SameUpToSiblingOrder ts vs

section Order

variable [DecidableEq α]

/-- The children of the node that a path leads to along first matches.  The empty path leads to
the roots. -/
def childrenAt : List α → List (ChainTree α) → List (ChainTree α)
  | [], forest => forest
  | content :: rest, forest =>
    match forest.find? fun t => decide (t.content = content) with
    | none => []
    | some t => childrenAt rest t.children

/-- The entry of a chain after a path, if the chain begins with the path and goes on. -/
def entryAfter (path chain : List α) : Option α :=
  if path <+: chain then chain[path.length]? else none

end Order

theorem longest_le_iff {chains : List (List α)} {bound : Nat} :
    longest chains ≤ bound ↔ ∀ chain ∈ chains, chain.length ≤ bound := by
  induction chains with
  | nil => simp [longest]
  | cons chain chains ih =>
    rw [List.forall_mem_cons, ← ih, ← Nat.max_le]
    rfl

variable {content : α} {forest before children after : List (ChainTree α)} {t : ChainTree α}
  {path : List α}

/-! ## Forests with the same paths -/

theorem sameUpToSiblingOrder_refl : (ts : List (ChainTree α)) → SameUpToSiblingOrder ts ts
  | [] => .nil
  | node _ children :: ts =>
    .cons (sameUpToSiblingOrder_refl children) (sameUpToSiblingOrder_refl ts)

/-- A root may stand anywhere. -/
theorem sameUpToSiblingOrder_middle (t : ChainTree α) (before after : List (ChainTree α)) :
    SameUpToSiblingOrder (t :: (before ++ after)) (before ++ t :: after) := by
  induction before with
  | nil => exact sameUpToSiblingOrder_refl (t :: after)
  | cons u before ih =>
    obtain ⟨content, children⟩ := u
    exact .trans (.swap t _ _) (.cons (sameUpToSiblingOrder_refl children) ih)

theorem hasPath_iff_of_perm {forest' : List (ChainTree α)} (h : forest.Perm forest') :
    HasPath forest path ↔ HasPath forest' path := by
  cases path with
  | nil => exact Iff.rfl
  | cons content rest => simp only [HasPath, h.mem_iff]

theorem DistinctSiblings.of_perm {forest' : List (ChainTree α)} (h : DistinctSiblings forest)
    (hperm : forest.Perm forest') : DistinctSiblings forest' := by
  obtain ⟨hnodup, hchildren⟩ := distinctSiblings_iff.mp h
  refine distinctSiblings_iff.mpr ⟨(hperm.map _).nodup_iff.mp hnodup, fun t ht => ?_⟩
  exact hchildren t (hperm.mem_iff.mpr ht)

section Parting

variable {ts : List (ChainTree α)} (hnew : content ∉ ts.map ChainTree.content)
include hnew

theorem not_hasPath_of_not_mem : ¬ HasPath ts (content :: path) := by
  rintro ⟨t, ht, hcontent, -⟩
  exact hnew (List.mem_map.mpr ⟨t, ht, hcontent⟩)

/-- A path that begins with the content of the first root only goes on below it. -/
theorem hasPath_content_cons_iff :
    HasPath (node content children :: ts) (content :: path) ↔ HasPath children path := by
  rw [hasPath_cons_iff, or_iff_left (not_hasPath_of_not_mem hnew), and_iff_right rfl]

/-- The other paths stay when the first root is taken away. -/
theorem hasPath_tail_iff :
    HasPath ts path ↔ HasPath (node content children :: ts) path ∧ path.head? ≠ some content := by
  cases path with
  | nil => simp [HasPath]
  | cons c rest =>
    rw [hasPath_cons_iff, List.head?_cons, ne_eq, Option.some_inj]
    by_cases hc : c = content
    · subst hc
      exact iff_of_false (not_hasPath_of_not_mem hnew) fun h => h.2 rfl
    · simp [hc, Ne.symm hc]

end Parting

/-- Forests with distinct siblings and the same paths differ in the order of siblings only. -/
theorem DistinctSiblings.sameUpToSiblingOrder {forest' : List (ChainTree α)}
    (h : DistinctSiblings forest) (h' : DistinctSiblings forest')
    (hpaths : ∀ path, HasPath forest path ↔ HasPath forest' path) :
    SameUpToSiblingOrder forest forest' := by
  induction h generalizing forest' with
  | nil =>
    obtain rfl : forest' = [] := by
      refine List.eq_nil_iff_forall_not_mem.mpr fun t ht => ?_
      have hroot := (hpaths [t.content]).mpr ⟨t, ht, rfl, trivial⟩
      exact List.cons_ne_nil _ _ (hasPath_nil_iff.mp hroot)
    exact .nil
  | @cons content children ts hnew _ _ ihchildren ihts =>
    obtain ⟨⟨root, children'⟩, hmem, hroot, -⟩ :=
      (hpaths [content]).mp ⟨node content children, List.mem_cons_self .., rfl, trivial⟩
    obtain rfl : root = content := hroot
    obtain ⟨before, after, rfl⟩ := List.append_of_mem hmem
    have hmiddle : (before ++ node root children' :: after).Perm
        (node root children' :: (before ++ after)) := List.perm_middle
    cases h'.of_perm hmiddle with
    | cons hnew' hchildren' hts' =>
      simp only [hasPath_iff_of_perm hmiddle] at hpaths
      refine .trans (.cons (ihchildren hchildren' fun path => ?_) (ihts hts' fun path => ?_))
        (sameUpToSiblingOrder_middle (node root children') before after)
      · rw [← hasPath_content_cons_iff hnew, hpaths, hasPath_content_cons_iff hnew']
      · rw [hasPath_tail_iff hnew, hpaths, ← hasPath_tail_iff hnew']

/-! ## Merging chain after chain -/

variable [DecidableEq α] {change : List (ChainTree α) → List (ChainTree α)}
  {chain : List α} {chains : List (List α)}

theorem ofChains_concat (chains : List (List α)) (chain : List α) :
    ofChains (chains ++ [chain]) = graft chain (ofChains chains) := by
  rw [ofChains, List.foldl_append]
  rfl

/-- A new content comes last among the roots. -/
theorem contents_updateFirst (content : α) (forest : List (ChainTree α)) :
    (updateFirst content change forest).map ChainTree.content =
      if content ∈ forest.map ChainTree.content then forest.map ChainTree.content
      else forest.map ChainTree.content ++ [content] := by
  rcases exists_first content forest with hnone | ⟨before, children, after, rfl, hbefore⟩
  · have hnew : content ∉ forest.map ChainTree.content := by
      simpa using hnone
    rw [updateFirst_of_forall_ne hnone, if_neg hnew, List.map_append, List.map_singleton,
      content_node]
  · rw [updateFirst_append_cons hbefore, if_pos (by simp)]
    simp

theorem DistinctSiblings.updateFirst (h : DistinctSiblings forest)
    (hchange : ∀ ts, DistinctSiblings ts → DistinctSiblings (change ts)) (content : α) :
    DistinctSiblings (updateFirst content change forest) := by
  obtain ⟨hnodup, hchildren⟩ := distinctSiblings_iff.mp h
  refine distinctSiblings_iff.mpr ⟨?_, ?_⟩
  · rw [contents_updateFirst]
    split
    case isTrue => exact hnodup
    case isFalse hnew =>
      rw [← List.concat_eq_append, List.nodup_concat]
      exact ⟨hnew, hnodup⟩
  · rcases exists_first content forest with hnone | ⟨before, children, after, rfl, hbefore⟩
    · rw [updateFirst_of_forall_ne hnone, List.forall_mem_append, List.forall_mem_singleton]
      exact ⟨hchildren, hchange [] .nil⟩
    · rw [List.forall_mem_append, List.forall_mem_cons] at hchildren
      rw [updateFirst_append_cons hbefore, List.forall_mem_append, List.forall_mem_cons]
      exact ⟨hchildren.1, hchange children hchildren.2.1, hchildren.2.2⟩

theorem DistinctSiblings.graft (h : DistinctSiblings forest) (chain : List α) :
    DistinctSiblings (graft chain forest) := by
  induction chain generalizing forest with
  | nil => exact h
  | cons content rest ih => exact h.updateFirst (fun _ hts => ih hts) content

theorem distinctSiblings_ofChains (chains : List (List α)) :
    DistinctSiblings (ofChains chains) := by
  induction chains using List.reverseRecOn with
  | nil => exact .nil
  | append_singleton chains chain ih =>
    rw [ofChains_concat]
    exact ih.graft chain

/-- Merged chains have the paths that one of them begins with. -/
theorem hasPath_ofChains_iff :
    HasPath (ofChains chains) path ↔ path = [] ∨ ∃ chain ∈ chains, path <+: chain := by
  induction chains using List.reverseRecOn with
  | nil =>
    rw [ofChains, List.foldl_nil, hasPath_nil_iff]
    simp
  | append_singleton chains chain ih =>
    rw [ofChains_concat, hasPath_graft_iff, ih]
    simp [or_and_right, exists_or, or_assoc]

theorem mem_nodePathsOfForest_ofChains_iff :
    path ∈ nodePathsOfForest (ofChains chains) ↔
      path ≠ [] ∧ ∃ chain ∈ chains, path <+: chain := by
  rw [mem_nodePathsOfForest_iff, hasPath_ofChains_iff]
  refine and_congr_right fun hne => ?_
  exact or_iff_right hne

/-- The leaves are at the chains that no other chain continues. -/
theorem mem_leafPathsOfForest_ofChains_iff :
    path ∈ leafPathsOfForest (ofChains chains) ↔
      (path ∈ chains ∧ path ≠ []) ∧ ∀ chain ∈ chains, path <+: chain → chain = path := by
  rw [(distinctSiblings_ofChains chains).mem_leafPathsOfForest_iff]
  simp only [hasPath_ofChains_iff]
  constructor
  · rintro ⟨hne, hpath, hmaximal⟩
    have hlast : ∀ chain ∈ chains, path <+: chain → chain = path := fun chain hchain =>
      hmaximal chain (Or.inr ⟨chain, hchain, List.prefix_rfl⟩)
    obtain ⟨chain, hchain, hbegins⟩ := hpath.resolve_left hne
    exact ⟨⟨hlast chain hchain hbegins ▸ hchain, hne⟩, hlast⟩
  · rintro ⟨⟨hmem, hne⟩, hlast⟩
    refine ⟨hne, Or.inr ⟨path, hmem, List.prefix_rfl⟩, ?_⟩
    rintro longer (rfl | ⟨chain, hchain, hlonger⟩) hbegins
    · exact (List.prefix_nil.mp hbegins).symm
    · obtain rfl := hlast chain hchain (hbegins.trans hlonger)
      exact hlonger.eq_of_length_le hbegins.length_le

/-- Merged chains are no deeper than the longest of them. -/
theorem depthOfForest_ofChains_le_iff {bound : Nat} :
    depthOfForest (ofChains chains) ≤ bound ↔ ∀ chain ∈ chains, chain.length ≤ bound := by
  induction chains using List.reverseRecOn with
  | nil => simp [ofChains, depthOfForest]
  | append_singleton chains chain ih =>
    rw [ofChains_concat, depthOfForest_graft, Nat.max_le, ih, List.forall_mem_append,
      List.forall_mem_singleton, and_comm]

theorem depthOfForest_ofChains (chains : List (List α)) :
    depthOfForest (ofChains chains) = longest chains :=
  eq_of_forall_ge_iff fun _ => depthOfForest_ofChains_le_iff.trans longest_le_iff.symm

/-! ## Repeated chains -/

/-- A chain that the forest has already adds nothing to it. -/
theorem graft_of_hasPath (hforest : DistinctSiblings forest) (hchain : HasPath forest chain) :
    graft chain forest = forest := by
  induction chain generalizing forest with
  | nil => rfl
  | cons content rest ih =>
    obtain ⟨t, ht, hcontent, hrest⟩ := hchain
    rcases exists_first content forest with hnone | ⟨before, children, after, rfl, hbefore⟩
    · exact absurd hcontent (hnone t ht)
    · have hmem : node content children ∈ before ++ node content children :: after := by simp
      obtain rfl := hforest.eq_of_content_eq ht hmem hcontent
      have hchildren : graft rest children = children := ih (hforest.of_mem hmem) hrest
      rw [graft, updateFirst_append_cons hbefore, hchildren]

theorem ofChains_eraseDups (chains : List (List α)) :
    ofChains chains.eraseDups = ofChains chains := by
  induction chains using List.reverseRecOn with
  | nil => rfl
  | append_singleton chains chain ih =>
    rw [eraseDups_concat, ofChains_concat]
    split
    case isTrue hmem =>
      have hpath : HasPath (ofChains chains) chain :=
        hasPath_ofChains_iff.mpr (Or.inr ⟨chain, hmem, List.prefix_rfl⟩)
      rw [ih, graft_of_hasPath (distinctSiblings_ofChains chains) hpath]
    case isFalse => rw [ofChains_concat, ih]

/-! ## Merging the paths to the leaves -/

/-- The chains merged into a forest, in order. -/
def graftAll (chains : List (List α)) (forest : List (ChainTree α)) : List (ChainTree α) :=
  chains.foldl (fun forest chain => graft chain forest) forest

theorem ofChains_eq_graftAll (chains : List (List α)) : ofChains chains = graftAll chains [] :=
  rfl

theorem graftAll_cons (chain : List α) (chains : List (List α)) (forest : List (ChainTree α)) :
    graftAll (chain :: chains) forest = graftAll chains (graft chain forest) :=
  rfl

theorem graftAll_append (chains chains' : List (List α)) (forest : List (ChainTree α)) :
    graftAll (chains ++ chains') forest = graftAll chains' (graftAll chains forest) :=
  List.foldl_append

/-- Chains that begin with the content of the last root are merged below it. -/
theorem graftAll_map_cons (h : ∀ t ∈ forest, t.content ≠ content) (children : List (ChainTree α))
    (chains : List (List α)) :
    graftAll (chains.map (content :: ·)) (forest ++ [node content children]) =
      forest ++ [node content (graftAll chains children)] := by
  induction chains generalizing children with
  | nil => rfl
  | cons chain chains ih =>
    rw [List.map_cons, graftAll_cons, graft, updateFirst_append_cons h, ih, graftAll_cons]

theorem graftAll_map_cons_of_ne_nil (h : ∀ t ∈ forest, t.content ≠ content) (hne : chains ≠ []) :
    graftAll (chains.map (content :: ·)) forest = forest ++ [node content (ofChains chains)] := by
  obtain ⟨chain, chains, rfl⟩ := List.exists_cons_of_ne_nil hne
  rw [List.map_cons, graftAll_cons, graft, updateFirst_of_forall_ne h, graftAll_map_cons h,
    ofChains_eq_graftAll, graftAll_cons]

/-- Merged into a forest with other roots, the paths to the leaves give the trees back. -/
theorem graftAll_leafPathsOfForest {ts : List (ChainTree α)} (hts : DistinctSiblings ts)
    (hnew : ∀ t ∈ ts, ∀ u ∈ forest, u.content ≠ t.content) :
    graftAll (leafPathsOfForest ts) forest = forest ++ ts := by
  induction hts generalizing forest with
  | nil => exact (List.append_nil forest).symm
  | @cons content children ts hother _ _ ihchildren ihts =>
    obtain ⟨hroot, hrest⟩ := List.forall_mem_cons.mp hnew
    rw [content_node] at hroot
    have hfirst : graftAll (node content children).leafPaths forest =
        forest ++ [node content children] := by
      by_cases hchildren : children = []
      · subst hchildren
        exact updateFirst_of_forall_ne hroot
      · have hleaves := leafPathsOfForest_eq_nil_iff.not.mpr hchildren
        have hbelow : ofChains (leafPathsOfForest children) = children :=
          ihchildren fun _ _ _ hu => absurd hu List.not_mem_nil
        rw [leafPaths_of_children_ne_nil hchildren, graftAll_map_cons_of_ne_nil hroot hleaves,
          hbelow]
    rw [leafPathsOfForest, graftAll_append, hfirst, ihts, List.append_assoc,
      List.singleton_append]
    intro t ht u hu
    rw [List.mem_append, List.mem_singleton] at hu
    rcases hu with hu | rfl
    · exact hrest t ht u hu
    · exact fun heq => hother (List.mem_map.mpr ⟨t, ht, heq.symm⟩)

theorem ofChains_leafPathsOfForest (h : DistinctSiblings forest) :
    ofChains (leafPathsOfForest forest) = forest :=
  graftAll_leafPathsOfForest h fun _ _ _ hu => absurd hu List.not_mem_nil

/-! ## The order of siblings -/

theorem entryAfter_cons_cons (path chain : List α) (content : α) :
    entryAfter (content :: path) (content :: chain) = entryAfter path chain := by
  simp [entryAfter, List.cons_prefix_cons]

theorem childrenAt_nil_right (path : List α) :
    childrenAt path ([] : List (ChainTree α)) = [] := by
  cases path with
  | nil => rfl
  | cons _ _ => rfl

theorem childrenAt_cons (content : α) (path : List α) (forest : List (ChainTree α)) :
    childrenAt (content :: path) forest = childrenAt path (childrenAt [content] forest) := by
  rw [childrenAt, childrenAt]
  cases forest.find? fun t => decide (t.content = content) with
  | none => exact (childrenAt_nil_right path).symm
  | some t => rfl

theorem childrenAt_of_forall_ne (h : ∀ t ∈ forest, t.content ≠ content) (path : List α) :
    childrenAt (content :: path) forest = [] := by
  rw [childrenAt, find?_of_forall_ne h]

theorem childrenAt_append_cons (h : ∀ t ∈ before, t.content ≠ content) (path : List α) :
    childrenAt (content :: path) (before ++ node content children :: after) =
      childrenAt path children := by
  rw [childrenAt, find?_append_cons h]
  rfl

theorem childrenAt_updateFirst_self (path : List α) (content : α) (forest : List (ChainTree α)) :
    childrenAt (content :: path) (updateFirst content change forest) =
      childrenAt path (change (childrenAt [content] forest)) := by
  rcases exists_first content forest with hnone | ⟨before, children, after, rfl, hbefore⟩
  · rw [updateFirst_of_forall_ne hnone, childrenAt_append_cons hnone,
      childrenAt_of_forall_ne hnone]
  · rw [updateFirst_append_cons hbefore, childrenAt_append_cons hbefore,
      childrenAt_append_cons hbefore, childrenAt]

theorem childrenAt_updateFirst_of_ne {c : α} (hc : content ≠ c) (path : List α)
    (forest : List (ChainTree α)) :
    childrenAt (c :: path) (updateFirst content change forest) = childrenAt (c :: path) forest := by
  have hfind : ((updateFirst content change forest).find? fun t => decide (t.content = c)) =
      forest.find? fun t => decide (t.content = c) := by
    rcases exists_first content forest with hnone | ⟨before, children, after, rfl, hbefore⟩
    · rw [updateFirst_of_forall_ne hnone, List.find?_append, List.find?_cons_of_neg (by simp [hc]),
        List.find?_nil, Option.or_none]
    · rw [updateFirst_append_cons hbefore, List.find?_append, List.find?_append,
        List.find?_cons_of_neg (by simp [hc]), List.find?_cons_of_neg (by simp [hc])]
  rw [childrenAt, hfind, childrenAt]

/-- Merging a chain puts the entry after a path last among the children there, if it is new. -/
theorem contents_childrenAt_graft (path chain : List α) (forest : List (ChainTree α)) :
    (childrenAt path (graft chain forest)).map ChainTree.content =
      (entryAfter path chain).elim ((childrenAt path forest).map ChainTree.content) fun content =>
        if content ∈ (childrenAt path forest).map ChainTree.content then
          (childrenAt path forest).map ChainTree.content
        else (childrenAt path forest).map ChainTree.content ++ [content] := by
  induction path generalizing chain forest with
  | nil =>
    cases chain with
    | nil => rfl
    | cons content rest => exact contents_updateFirst content forest
  | cons c path ih =>
    cases chain with
    | nil => simp [entryAfter, graft]
    | cons content rest =>
      by_cases hc : content = c
      · subst hc
        rw [graft, childrenAt_updateFirst_self, ih, entryAfter_cons_cons, ← childrenAt_cons]
      · have hnone : entryAfter (c :: path) (content :: rest) = none := by
          simp [entryAfter, List.cons_prefix_cons, Ne.symm hc]
        rw [graft, childrenAt_updateFirst_of_ne hc, hnone, Option.elim_none]

/-- The children at a path are in the order in which the chains first go on to them. -/
theorem contents_childrenAt_ofChains (path : List α) (chains : List (List α)) :
    (childrenAt path (ofChains chains)).map ChainTree.content =
      (chains.filterMap (entryAfter path)).eraseDups := by
  induction chains using List.reverseRecOn with
  | nil => exact congrArg (List.map ChainTree.content) (childrenAt_nil_right path)
  | append_singleton chains chain ih =>
    rw [ofChains_concat, contents_childrenAt_graft, ih, List.filterMap_append]
    cases h : entryAfter path chain with
    | none => simp [h]
    | some content =>
      have hone : [chain].filterMap (entryAfter path) = [content] := by simp [h]
      simp only [hone, eraseDups_concat, Option.elim_some, List.mem_eraseDups]

/-! ## Forests of merged chains -/

theorem sameUpToSiblingOrder_ofChains {chains' : List (List α)} (h : chains.Perm chains') :
    SameUpToSiblingOrder (ofChains chains) (ofChains chains') := by
  apply (distinctSiblings_ofChains chains).sameUpToSiblingOrder (distinctSiblings_ofChains chains')
  intro path
  simp only [hasPath_ofChains_iff, h.mem_iff]

/-- Merged chains make a forest of distinct siblings with one node for each beginning of a chain,
and the children of a node are in the order in which the chains first go on to them.  There is
one leaf for each chain that no other chain continues, and the forest is as deep as the longest
chain.  The paths to the leaves, merged again, give the same forest, and the order of the chains
decides about the order of siblings only. -/
theorem ofChains_merges_beginnings (chains : List (List α)) :
    DistinctSiblings (ofChains chains) ∧
      ListsExactly (fun path => path ≠ [] ∧ ∃ chain ∈ chains, path <+: chain)
        (nodePathsOfForest (ofChains chains)) ∧
      (∀ path, (childrenAt path (ofChains chains)).map ChainTree.content =
        (chains.filterMap (entryAfter path)).eraseDups) ∧
      ListsExactly (fun path => (path ∈ chains ∧ path ≠ []) ∧
          ∀ chain ∈ chains, path <+: chain → chain = path)
        (leafPathsOfForest (ofChains chains)) ∧
      leafCounts (ofChains chains) = (leafPathsOfForest (ofChains chains)).length ∧
      depthOfForest (ofChains chains) = longest chains ∧
      ofChains (leafPathsOfForest (ofChains chains)) = ofChains chains ∧
      ∀ chains', chains.Perm chains' →
        SameUpToSiblingOrder (ofChains chains) (ofChains chains') := by
  have hdistinct := distinctSiblings_ofChains chains
  refine ⟨hdistinct, ⟨hdistinct.nodup_nodePathsOfForest, ?_⟩, ?_,
    ⟨hdistinct.nodup_leafPathsOfForest, ?_⟩, ?_, ?_, ?_, ?_⟩
  · exact fun _ => mem_nodePathsOfForest_ofChains_iff
  · exact fun path => contents_childrenAt_ofChains path chains
  · exact fun _ => mem_leafPathsOfForest_ofChains_iff
  · exact (length_leafPathsOfForest _).symm
  · exact depthOfForest_ofChains chains
  · exact ofChains_leafPathsOfForest hdistinct
  · exact fun _ h => sameUpToSiblingOrder_ofChains h

/-- Of six chains one is empty, one comes twice and one is continued by another. -/
theorem ofChains_merges_beginnings_six :
    [[4, 2], [4, 3, 1], [], [4, 2, 1], [4, 3, 1], [6]].Perm
        [[6], [4, 3, 1], [4, 2, 1], [4, 3, 1], [4, 2], []] ∧
      leafPathsOfForest (ofChains [[4, 2], [4, 3, 1], [], [4, 2, 1], [4, 3, 1], [6]]) =
        [[4, 2, 1], [4, 3, 1], [6]] ∧
      SameUpToSiblingOrder (ofChains [[4, 2], [4, 3, 1], [], [4, 2, 1], [4, 3, 1], [6]])
        (ofChains [[6], [4, 3, 1], [4, 2, 1], [4, 3, 1], [4, 2], []]) := by
  have hperm : [[4, 2], [4, 3, 1], [], [4, 2, 1], [4, 3, 1], [6]].Perm
      [[6], [4, 3, 1], [4, 2, 1], [4, 3, 1], [4, 2], []] := by decide
  obtain ⟨-, -, -, -, -, -, -, horder⟩ :=
    ofChains_merges_beginnings [[4, 2], [4, 3, 1], [], [4, 2, 1], [4, 3, 1], [6]]
  exact ⟨hperm, by decide, horder _ hperm⟩

end ChainTree
end CallImpact
