import CallImpact.Proofs.ChainTree.Paths

/-!
# Inserting a chain

A chain is followed along first matches as far as there are any; from there on its entries
become new nodes, each the last of its siblings.  So the paths that lead along the chain are
added and no other ones, also where siblings repeat a content.  A new leaf comes into being
if the chain leaves the tree at a node that was none.
-/

namespace CallImpact
namespace ChainTree

variable {α : Type}

/-- The first root with the content, if there is one, parts the forest. -/
theorem exists_first (content : α) (forest : List (ChainTree α)) :
    (∀ t ∈ forest, t.content ≠ content) ∨
      ∃ before children after, forest = before ++ node content children :: after ∧
        ∀ t ∈ before, t.content ≠ content := by
  induction forest with
  | nil => exact Or.inl nofun
  | cons t ts ih =>
    by_cases ht : t.content = content
    · obtain ⟨_, children⟩ := t
      obtain rfl := ht
      exact Or.inr ⟨[], children, ts, rfl, nofun⟩
    · rcases ih with hnone | ⟨before, children, after, rfl, hbefore⟩
      · exact Or.inl (List.forall_mem_cons.mpr ⟨ht, hnone⟩)
      · exact Or.inr ⟨t :: before, children, after, rfl, List.forall_mem_cons.mpr ⟨ht, hbefore⟩⟩

variable [DecidableEq α] {content : α} {change : List (ChainTree α) → List (ChainTree α)}
  {before children after forest : List (ChainTree α)} {t : ChainTree α} {chain path rest : List α}

/-! ## The first match -/

theorem updateFirst_of_forall_ne (h : ∀ t ∈ forest, t.content ≠ content) :
    updateFirst content change forest = forest ++ [node content (change [])] := by
  induction forest with
  | nil => rfl
  | cons t ts ih =>
    obtain ⟨c, children⟩ := t
    obtain ⟨hc, hts⟩ := List.forall_mem_cons.mp h
    rw [content_node] at hc
    rw [updateFirst, if_neg hc, ih hts, List.cons_append]

theorem updateFirst_append_cons (h : ∀ t ∈ before, t.content ≠ content) :
    updateFirst content change (before ++ node content children :: after) =
      before ++ node content (change children) :: after := by
  induction before with
  | nil => rw [List.nil_append, updateFirst, if_pos rfl, List.nil_append]
  | cons t ts ih =>
    obtain ⟨c, _⟩ := t
    obtain ⟨hc, hts⟩ := List.forall_mem_cons.mp h
    rw [content_node] at hc
    rw [List.cons_append, updateFirst, if_neg hc, ih hts, List.cons_append]

theorem updateFirst_updateFirst (h : ∀ ts, change (change ts) = change ts) (content : α)
    (forest : List (ChainTree α)) :
    updateFirst content change (updateFirst content change forest) =
      updateFirst content change forest := by
  rcases exists_first content forest with hnone | ⟨before, children, after, rfl, hbefore⟩
  · rw [updateFirst_of_forall_ne hnone, updateFirst_append_cons hnone, h]
  · rw [updateFirst_append_cons hbefore, updateFirst_append_cons hbefore, h]

theorem find?_of_forall_ne (h : ∀ t ∈ forest, t.content ≠ content) :
    (forest.find? fun t => decide (t.content = content)) = none := by
  simpa using h

theorem find?_append_cons (h : ∀ t ∈ before, t.content ≠ content) :
    ((before ++ node content children :: after).find? fun t => decide (t.content = content)) =
      some (node content children) := by
  rw [List.find?_append, find?_of_forall_ne h, List.find?_cons_of_pos (by simp), Option.none_or]

/-- Merging a chain again changes nothing. -/
theorem graft_graft (chain : List α) (forest : List (ChainTree α)) :
    graft chain (graft chain forest) = graft chain forest := by
  induction chain generalizing forest with
  | nil => rfl
  | cons content rest ih => exact updateFirst_updateFirst ih content forest

/-! ## Paths -/

theorem hasPath_updateFirst_iff
    (h : ∀ ts path, HasPath (change ts) path ↔ HasPath ts path ∨ path <+: rest) :
    HasPath (updateFirst content change forest) path ↔
      HasPath forest path ∨ path <+: content :: rest := by
  cases path with
  | nil => exact iff_of_true trivial (Or.inl trivial)
  | cons c path =>
    have hnew : HasPath [] path → path <+: rest := by
      intro hpath
      rw [hasPath_nil_iff.mp hpath]
      exact List.nil_prefix
    rw [List.cons_prefix_cons, eq_comm (a := c)]
    rcases exists_first content forest with hnone | ⟨before, children, after, rfl, hbefore⟩
    · rw [updateFirst_of_forall_ne hnone, hasPath_append_iff, hasPath_cons_iff, hasPath_nil_iff, h,
        or_iff_right_of_imp hnew, or_iff_left (List.cons_ne_nil _ _)]
    · rw [updateFirst_append_cons hbefore, hasPath_append_iff, hasPath_append_iff,
        hasPath_cons_iff, hasPath_cons_iff, h, and_or_left, or_right_comm, or_assoc, or_assoc,
        or_assoc]

/-- Merging a chain adds the paths that lead along it. -/
theorem hasPath_graft_iff :
    HasPath (graft chain forest) path ↔ HasPath forest path ∨ path <+: chain := by
  induction chain generalizing forest path with
  | nil =>
    rw [graft, List.prefix_nil, iff_self_or]
    rintro rfl
    exact trivial
  | cons content rest ih => exact hasPath_updateFirst_iff fun _ _ => ih

/-! ## Depth -/

/-- A change below a content that makes room for some nodes makes room for one more. -/
theorem depthOfForest_updateFirst {length : Nat}
    (hchange : ∀ ts, depthOfForest (change ts) = max length (depthOfForest ts)) (content : α)
    (forest : List (ChainTree α)) :
    depthOfForest (updateFirst content change forest) =
      max (length + 1) (depthOfForest forest) := by
  induction forest with
  | nil => simp [updateFirst, depthOfForest, depth, hchange]
  | cons t rest ih =>
    obtain ⟨c, children⟩ := t
    rw [updateFirst]
    split
    · simp only [depthOfForest, depth, hchange]
      omega
    · simp only [depthOfForest, depth, ih]
      omega

theorem depthOfForest_graft (chain : List α) (forest : List (ChainTree α)) :
    depthOfForest (graft chain forest) = max chain.length (depthOfForest forest) := by
  induction chain generalizing forest with
  | nil => exact (Nat.zero_max _).symm
  | cons content rest ih => exact depthOfForest_updateFirst ih content forest

/-! ## Leaves -/

/-- The node at which a chain leaves a tree, if it follows first matches among the children and
is not in the tree to its end. -/
def leavesAt? : ChainTree α → List α → Option (ChainTree α)
  | _, [] => none
  | t, content :: rest =>
    match t.children.find? fun child => decide (child.content = content) with
    | none => some t
    | some child => child.leavesAt? rest

theorem leavesAt?_of_forall_ne (h : ∀ child ∈ t.children, child.content ≠ content) :
    t.leavesAt? (content :: rest) = some t := by
  rw [leavesAt?, find?_of_forall_ne h]

theorem leavesAt?_append_cons {root : α} (h : ∀ child ∈ before, child.content ≠ content) :
    (node root (before ++ node content children :: after)).leavesAt? (content :: rest) =
      (node content children).leavesAt? rest := by
  rw [leavesAt?, children_node, find?_append_cons h]

theorem insertChain_of_forall_ne (h : ∀ child ∈ t.children, child.content ≠ content) :
    t.insertChain (content :: rest) =
      node t.content (t.children ++ [(single content).insertChain rest]) := by
  rw [insertChain, graft, updateFirst_of_forall_ne h]
  rfl

theorem insertChain_append_cons {root : α} (h : ∀ child ∈ before, child.content ≠ content) :
    (node root (before ++ node content children :: after)).insertChain (content :: rest) =
      node root (before ++ (node content children).insertChain rest :: after) := by
  rw [insertChain, children_node, graft, updateFirst_append_cons h]
  rfl

/-- The chain leaves the tree at a node that has children. -/
def LeavesInside (t : ChainTree α) (chain : List α) : Prop :=
  ∃ u, t.leavesAt? chain = some u ∧ u.children ≠ []

theorem not_leavesInside_single (content : α) (chain : List α) :
    ¬ LeavesInside (single content) chain := by
  rintro ⟨u, hu, hne⟩
  cases chain with
  | nil => cases hu
  | cons next rest =>
    have hnone : ∀ child ∈ (single content).children, child.content ≠ next :=
      fun _ hchild => absurd hchild List.not_mem_nil
    rw [leavesAt?_of_forall_ne hnone, Option.some_inj] at hu
    exact hne (hu ▸ rfl)

/-- A chain makes a new leaf if it leaves the tree at a node that has children. -/
theorem leafCount_insertChain (chain : List α) (t : ChainTree α) :
    (LeavesInside t chain → (t.insertChain chain).leafCount = t.leafCount + 1) ∧
      (¬ LeavesInside t chain → (t.insertChain chain).leafCount = t.leafCount) := by
  induction chain generalizing t with
  | nil =>
    obtain ⟨root, children⟩ := t
    refine ⟨?_, fun _ => rfl⟩
    rintro ⟨u, hu, -⟩
    cases hu
  | cons content rest ih =>
    obtain ⟨root, siblings⟩ := t
    rcases exists_first content siblings with hnone | ⟨before, children, after, rfl, hbefore⟩
    · -- the rest of the chain is one line of nodes below the new one
      have hnew : ((single content).insertChain rest).leafCount = 1 :=
        (ih (single content)).2 (not_leavesInside_single content rest)
      have hafter : (node root (siblings ++ [(single content).insertChain rest])).leafCount =
          leafCounts siblings + 1 := by
        rw [leafCount_of_children_ne_nil (by simp), leafCounts_append, leafCounts, leafCounts, hnew]
      have hleaves : LeavesInside (node root siblings) (content :: rest) ↔ siblings ≠ [] := by
        rw [LeavesInside, leavesAt?_of_forall_ne hnone]
        simp
      rw [insertChain_of_forall_ne hnone, hleaves, not_not]
      constructor
      · intro hne
        rw [leafCount_of_children_ne_nil hne]
        exact hafter
      · rintro rfl
        exact hafter
    · rw [insertChain_append_cons hbefore, LeavesInside, leavesAt?_append_cons hbefore,
        leafCount_of_children_ne_nil (by simp), leafCount_of_children_ne_nil (by simp),
        leafCounts_append, leafCounts_append, leafCounts, leafCounts]
      obtain ⟨hinside, hnot⟩ := ih (node content children)
      constructor
      · intro h
        rw [hinside h]
        omega
      · intro h
        rw [hnot h]

/-! ## The tree after an insertion -/

/-- A tree with a chain inserted has its own paths and those from its root along the chain.
Inserting the chain again changes nothing.  The tree is as deep as it was or as the chain is
long, and has one more leaf exactly if the chain leaves it at a node that has children. -/
theorem insertChain_exact (t : ChainTree α) (chain : List α) :
    (∀ path, path ∈ (t.insertChain chain).nodePaths ↔
        path ∈ t.nodePaths ∨ ∃ along, path = t.content :: along ∧ along <+: chain) ∧
      (t.insertChain chain).insertChain chain = t.insertChain chain ∧
      (t.insertChain chain).depth = max t.depth (1 + chain.length) ∧
      (LeavesInside t chain → (t.insertChain chain).leafCount = t.leafCount + 1) ∧
      (¬ LeavesInside t chain → (t.insertChain chain).leafCount = t.leafCount) := by
  refine ⟨?_, ?_, ?_, leafCount_insertChain chain t⟩
  · intro path
    simp only [mem_nodePaths_iff, insertChain, content_node, children_node, hasPath_graft_iff,
      and_or_left, exists_or]
  · rw [insertChain, insertChain, children_node, graft_graft, content_node]
  · obtain ⟨root, children⟩ := t
    rw [insertChain, depth, depth, children_node, depthOfForest_graft]
    omega

/-- Two children of a root have the same content, and only the second one has a child. -/
def repeatedChildren : ChainTree Nat :=
  node 0 [single 1, node 1 [single 2]]

/-- A chain to the second child goes below the first one, which is a leaf; a chain beside both
makes a new leaf. -/
theorem insertChain_exact_repeated :
    ¬ LeavesInside repeatedChildren [1, 2] ∧
      (repeatedChildren.insertChain [1, 2]).leafCount = repeatedChildren.leafCount ∧
      LeavesInside repeatedChildren [3, 4, 5] ∧
      (repeatedChildren.insertChain [3, 4, 5]).leafCount = repeatedChildren.leafCount + 1 ∧
      (repeatedChildren.insertChain [3, 4, 5]).depth = max repeatedChildren.depth 4 := by
  have hleaf : ¬ LeavesInside repeatedChildren [1, 2] := by
    rintro ⟨u, hu, hne⟩
    exact hne (Option.some_inj.mp hu ▸ rfl)
  have hinside : LeavesInside repeatedChildren [3, 4, 5] := ⟨repeatedChildren, rfl, nofun⟩
  obtain ⟨-, -, -, -, hsame⟩ := insertChain_exact repeatedChildren [1, 2]
  obtain ⟨-, -, hdepth, hmore, -⟩ := insertChain_exact repeatedChildren [3, 4, 5]
  exact ⟨hleaf, hsame hleaf, hinside, hmore hinside, hdepth⟩

end ChainTree
end CallImpact
