import CallImpact.Proofs.ChainTree.Merging
import CallImpact.Proofs.Walk.HeardAnswers

/-!
# The tree of a walk

Merged, any chains become the paths of a forest, but a chain that another one continues is lost
as a leaf, and the leaves need not come in the order of the chains.  The chains of a walk suffer
neither.  None of them continues another one, since a walk hears one answer for each node and
reports full paths only.  And a walk reports all chains through one successor before those
through the next one, and the same chains again if it comes to that successor again.  So the
chains, without repetitions, are the paths to the leaves of their tree from left to right.

The order is shown along the recursion behind the walk: the chains of every call form a tree
(`FormsTree`), whose subtrees are those of the calls inside.
-/

namespace CallImpact
namespace Walk

open ChainTree Recursion

variable {N : Type} {successors : N → List N} {maxDepth : Option Nat} {start node : N}
  {path c d : List N} {found : List (List N)}

/-! ## Full paths do not continue each other -/

theorem FullPath.eq_of_begins (hc : FullPath successors maxDepth start c)
    (hd : FullPath successors maxDepth start d) (hbegins : c <+: d) : c = d := by
  rcases List.eq_nil_or_concat' c with rfl | ⟨path, last, rfl⟩
  · cases hc.head_eq
  rcases hd.eq_or_exists_next hbegins with heq | ⟨next, hnext, -, hfurther⟩
  · exact heq.symm
  · -- the shorter path would end too early
    rcases hc.ends last List.getLast?_concat with hsink | hmax
    · rw [hsink] at hnext
      cases hnext
    · have hle := hd.hops_le _ hmax
      have hlt := hfurther.length_le
      simp only [List.length_append, List.length_singleton] at hle hlt
      omega

variable [DecidableEq N]

/-- The recursion returns the chains, whatever it asked about before. -/
def ReturnsAlways (successors : N → List N) (maxDepth : Option Nat) (path : List N) (node : N)
    (found : List (List N)) : Prop :=
  ∀ asked, ∃ asked',
    Returns (chains (fun n => .ok (successors n)) maxDepth path node) asked (.ok found) asked'

/-- The chains, without repetitions, lead along the path and then to the leaves of a tree with
the node as its root, from left to right.  Without chains there is no tree. -/
def FormsTree (path : List N) (node : N) (found : List (List N)) : Prop :=
  ∃ forest, DistinctSiblings forest ∧ (∀ t ∈ forest, t.content = node) ∧
    found.eraseDups = (leafPathsOfForest forest).map (path ++ ·)

theorem ReturnsAlways.unique {found' : List (List N)}
    (h : ReturnsAlways successors maxDepth path node found)
    (h' : ReturnsAlways successors maxDepth path node found') : found = found' := by
  obtain ⟨_, hreturns⟩ := h []
  obtain ⟨_, hreturns'⟩ := h' []
  exact Except.ok.inj (hreturns.unique hreturns').1

/-! ## Trees of chains -/

theorem formsTree_singleton (path : List N) (node : N) : FormsTree path node [path ++ [node]] := by
  refine ⟨[.single node], .cons List.not_mem_nil .nil .nil, ?_, rfl⟩
  rw [List.forall_mem_singleton]
  rfl

theorem FormsTree.prefix_of_mem (h : FormsTree path node found) (hc : c ∈ found) :
    path ++ [node] <+: c := by
  obtain ⟨forest, -, hroots, hfound⟩ := h
  rw [← List.mem_eraseDups, hfound] at hc
  obtain ⟨leaf, hleaf, rfl⟩ := List.mem_map.mp hc
  cases leaf with
  | nil => exact absurd hleaf (nil_not_mem_leafPathsOfForest forest)
  | cons content rest =>
    obtain ⟨t, ht, rfl, -⟩ := cons_mem_leafPathsOfForest_iff.mp hleaf
    rw [hroots t ht]
    exact ⟨rest, by simp⟩

/-- If the chains through each successor form a tree, then the chains through all of them form
the forest of these trees, also if successors are repeated. -/
theorem exists_forest_of_formsTree {nexts : List N} {block : N → List (List N)}
    (h : ∀ next ∈ nexts, FormsTree path next (block next)) :
    ∃ forest, DistinctSiblings forest ∧ (∀ t ∈ forest, t.content ∈ nexts) ∧
      (nexts.flatMap block).eraseDups = (leafPathsOfForest forest).map (path ++ ·) := by
  induction nexts using List.reverseRecOn with
  | nil => exact ⟨[], .nil, List.forall_mem_nil _, rfl⟩
  | append_singleton nexts next ih =>
    rw [List.forall_mem_append, List.forall_mem_singleton] at h
    obtain ⟨forest, hdistinct, hcontents, hforest⟩ := ih h.1
    rw [List.flatMap_append, List.flatMap_singleton]
    by_cases hnext : next ∈ nexts
    · -- the chains through a repeated successor are there already
      have hsubset : block next ⊆ nexts.flatMap block := fun c hc =>
        List.mem_flatMap.mpr ⟨next, hnext, hc⟩
      refine ⟨forest, hdistinct, fun t ht => List.mem_append_left _ (hcontents t ht), ?_⟩
      rw [eraseDups_append_of_subset hsubset, hforest]
    · have hdisjoint : (nexts.flatMap block).Disjoint (block next) := by
        intro c hc hc'
        obtain ⟨other, hother, hc⟩ := List.mem_flatMap.mp hc
        have hsame := eq_of_concat_begins ((h.1 other hother).prefix_of_mem hc)
          (h.2.prefix_of_mem hc')
        exact hnext (hsame ▸ hother)
      obtain ⟨trees, htrees, hroots, hfound⟩ := h.2
      refine ⟨forest ++ trees, hdistinct.append htrees ?_, ?_, ?_⟩
      · intro t ht u hu heq
        rw [hroots u hu] at heq
        exact hnext (heq ▸ hcontents t ht)
      · rw [List.forall_mem_append]
        refine ⟨fun t ht => List.mem_append_left _ (hcontents t ht), fun t ht => ?_⟩
        rw [hroots t ht]
        exact List.mem_concat_self
      · rw [eraseDups_append_of_disjoint hdisjoint, hforest, hfound, leafPathsOfForest_append,
          List.map_append]

/-- The forest of the successors becomes the tree of the node, if there is a forest. -/
theorem formsTree_of_forest {forest : List (ChainTree N)} (hdistinct : DistinctSiblings forest)
    (hfound : found.eraseDups = (leafPathsOfForest forest).map (path ++ [node] ++ ·)) :
    FormsTree path node found := by
  by_cases hforest : forest = []
  · subst hforest
    exact ⟨[], .nil, List.forall_mem_nil _, hfound⟩
  · refine ⟨[.node node forest], .cons List.not_mem_nil hdistinct .nil, ?_, ?_⟩
    · rw [List.forall_mem_singleton]
      rfl
    · rw [hfound, leafPathsOfForest_singleton, leafPaths_of_children_ne_nil hforest, List.map_map]
      simp [Function.comp_def]

/-! ## The recursion behind the walk -/

/-- A call of the recursion returns, whatever was asked before, chains that form a tree. -/
def Branches (successors : N → List N) (maxDepth : Option Nat) (path : List N) (node : N)
    (_asked : List N) (result : Except (Failure N) (List (List N))) (_asked' : List N) : Prop :=
  ∃ found, result = .ok found ∧ ReturnsAlways successors maxDepth path node found ∧
    FormsTree path node found

theorem returnsAlways_branch {blocks : List (List (List N))}
    (hdeep : maxDepth.any (· ≤ path.length) = false) (hne : successors node ≠ [])
    (hblocks : List.Forall₂ (ReturnsAlways successors maxDepth (path ++ [node]))
      ((successors node).filter (· ∉ path ++ [node])) blocks) :
    ReturnsAlways successors maxDepth path node blocks.flatten := by
  intro asked
  have heach : List.Forall₂ (fun next block => ∀ asked, ∃ found asked',
      Returns (chains (fun n => .ok (successors n)) maxDepth (path ++ [node]) next) asked
        (.ok found) asked' ∧ block = found)
      ((successors node).filter (· ∉ path ++ [node])) blocks := by
    refine hblocks.imp fun next block hblock asked => ?_
    obtain ⟨asked', hreturns⟩ := hblock asked
    exact ⟨block, asked', hreturns, rfl⟩
  obtain ⟨found, asked', hfound, hsame⟩ := exists_each_ok heach (node :: asked)
  rw [List.forall₂_eq_eq_eq] at hsame
  exact ⟨asked', returns_branch hdeep rfl hne (hsame ▸ hfound)⟩

theorem branches_of_call {asked asked' : List N} {result : Except (Failure N) (List (List N))}
    (h : Call (fun n => .ok (successors n)) maxDepth (Branches successors maxDepth) path node
      asked result asked') :
    Branches successors maxDepth path node asked result asked' := by
  cases h with
  | deep hdeep =>
    refine ⟨_, rfl, fun asked => ⟨asked, ?_⟩, formsTree_singleton path node⟩
    exact returns_of_call (.deep hdeep)
  | failed _ ha => cases ha
  | sink hdeep ha =>
    refine ⟨_, rfl, fun asked => ⟨node :: asked, ?_⟩, formsTree_singleton path node⟩
    exact returns_of_call (.sink hdeep ha)
  | branch hdeep ha hne hblocks =>
    obtain rfl := Except.ok.inj ha
    obtain ⟨blocks, rfl, hall⟩ := hblocks.exists_forall₂ fun _ _ _ _ _ hcall => hcall
    refine ⟨_, rfl, returnsAlways_branch hdeep hne (hall.imp fun _ _ h => h.1), ?_⟩
    -- a repeated successor comes with the same chains
    obtain ⟨block, rfl, hblock⟩ := exists_eq_map_of_forall₂ (fun _ _ _ h h' => h.1.unique h'.1) hall
    obtain ⟨forest, hdistinct, -, hforest⟩ := exists_forest_of_formsTree fun next hnext =>
      (hblock next hnext).2
    rw [← List.flatMap_def]
    exact formsTree_of_forest hdistinct hforest

theorem exists_formsTree_and_returns
    (h : maxDepth.isSome = true ∨ (reachable (fun n => .ok (successors n)) start).Finite) :
    ∃ found asked, FormsTree [] start found ∧
      Returns (chains (fun n => .ok (successors n)) maxDepth [] start) [] (.ok found) asked := by
  obtain ⟨_, asked, hreturns, found, rfl, -, htree⟩ :=
    exists_returns (P := Branches successors maxDepth) (fun _ _ _ _ _ => branches_of_call) h []
  exact ⟨found, asked, htree, hreturns⟩

/-! ## The tree of the chains returned -/

/-- A walk returns full paths along the answers that it heard, and they form a tree. -/
theorem exists_fullPath_and_formsTree {bounds : Bounds} {source : Source N} {lookups : List N}
    (h : Search.Ends bounds source start ⟨.ok found, lookups⟩) :
    ∃ successors : N → List N,
      (∀ c ∈ found, FullPath successors bounds.maxDepth start c) ∧ FormsTree [] start found := by
  obtain ⟨successors, hfinite, hends⟩ := Search.exists_ends_fixed h
  have hbounded : bounds.maxDepth.isSome = true ∨
      (reachable (fun n => .ok (successors n)) start).Finite := Or.inr hfinite
  obtain ⟨listed, _, hlisted, hpaths⟩ := exists_listsPaths_and_returns (S := Set.univ)
    (fun _ _ => rfl) (fun _ _ _ _ => Set.mem_univ _) (Set.mem_univ start) hbounded
  obtain ⟨formed, _, hformed, htree⟩ := exists_formsTree_and_returns hbounded
  obtain rfl := (reports_of_returns hbounded hpaths).eq_of_ends hends
  obtain rfl := (reports_of_returns hbounded htree).eq_of_ends hends
  exact ⟨successors, fun c hc => continues_start_iff.mp ((hlisted.mem_iff c).mp hc), hformed⟩

/-- Merged, the chains give the tree that they form. -/
theorem FormsTree.ofChains_eq (h : FormsTree [] start found) :
    found = [] ∧ ofChains found = [] ∨
      ∃ t, ofChains found = [t] ∧ t.content = start ∧ t.leafPaths = found.eraseDups := by
  obtain ⟨forest, hdistinct, hroots, hfound⟩ := h
  have hleaves : found.eraseDups = leafPathsOfForest forest := by simpa using hfound
  have hmerged : ofChains found = forest := by
    rw [← ofChains_eraseDups, hleaves, ofChains_leafPathsOfForest hdistinct]
  rw [hmerged]
  rcases hdistinct.eq_nil_or_singleton hroots with rfl | ⟨t, rfl⟩
  · refine Or.inl ⟨List.eq_nil_iff_forall_not_mem.mpr fun c hc => ?_, rfl⟩
    rw [← List.mem_eraseDups, hleaves] at hc
    cases hc
  · refine Or.inr ⟨t, rfl, hroots t (List.mem_singleton_self t), ?_⟩
    rw [hleaves, leafPathsOfForest_singleton]

/-- Of the chains that a walk returns none continues another one.  Merged they are no tree if
there are none, and else one tree with the start as its root: from left to right, the paths to
its leaves are the chains without repetitions.  So it has one leaf for each of them, is as deep
as the longest chain, which the bound of the walk limits, and visits no node twice on a path. -/
theorem ofChains_walk {bounds : Bounds} {source : Source N} {lookups : List N}
    (h : Search.Ends bounds source start ⟨.ok found, lookups⟩) :
    (∀ c ∈ found, ∀ d ∈ found, c <+: d → c = d) ∧
      (ofChains found = [] ↔ found = []) ∧
      (found ≠ [] → ∃ t, ofChains found = [t] ∧ t.content = start ∧
        t.leafPaths = found.eraseDups ∧ t.leafCount = found.eraseDups.length ∧
        t.depth = longest found ∧
        (∀ depth, bounds.maxDepth = some depth → t.depth ≤ depth + 1) ∧
        ∀ path ∈ t.leafPaths, path.Nodup) := by
  obtain ⟨successors, hfull, htree⟩ := exists_fullPath_and_formsTree h
  refine ⟨fun c hc d hd => (hfull c hc).eq_of_begins (hfull d hd), ?_, ?_⟩
  · rcases htree.ofChains_eq with ⟨rfl, -⟩ | ⟨t, hmerged, -⟩
    · exact iff_of_true rfl rfl
    · rw [hmerged]
      refine iff_of_false (List.cons_ne_nil t []) ?_
      rintro rfl
      cases hmerged
  · intro hne
    rcases htree.ofChains_eq with ⟨hnil, -⟩ | ⟨t, hmerged, hroot, hleaves⟩
    · exact absurd hnil hne
    have hdepth : t.depth = depthOfForest (ofChains found) := by
      rw [hmerged, depthOfForest, depthOfForest, Nat.max_zero]
    refine ⟨t, hmerged, hroot, hleaves, ?_, ?_, ?_, ?_⟩
    · rw [← hleaves, length_leafPaths]
    · rw [hdepth, depthOfForest_ofChains]
    · intro depth hmax
      rw [hdepth, depthOfForest_ofChains_le_iff]
      exact fun c hc => (hfull c hc).hops_le depth hmax
    · intro path hpath
      rw [hleaves, List.mem_eraseDups] at hpath
      exact (hfull path hpath).nodup

/-- Of four nodes with a loop the first one lists a successor twice, and later questions fail. -/
def repeatingSource : Source Nat := fun asked n =>
  if 4 ≤ asked.length then .error "gone"
  else if n = 0 then .ok [1, 2, 1]
  else if n = 1 then .ok [3, 0]
  else if n = 2 then .ok [3, 1]
  else .ok []

theorem ofChains_walk_repeating :
    Search.Ends { maxDepth := some 3 } repeatingSource 0
        ⟨.ok [[0, 1, 3], [0, 2, 3], [0, 2, 1, 3], [0, 1, 3]], [0, 1, 3, 2]⟩ ∧
      ∃ t, ofChains [[0, 1, 3], [0, 2, 3], [0, 2, 1, 3], [0, 1, 3]] = [t] ∧
        t.leafPaths = [[0, 1, 3], [0, 2, 3], [0, 2, 1, 3]] ∧ t.depth ≤ 4 := by
  have hends : Search.Ends { maxDepth := some 3 } repeatingSource 0
      ⟨.ok [[0, 1, 3], [0, 2, 3], [0, 2, 1, 3], [0, 1, 3]], [0, 1, 3, 2]⟩ := ⟨20, rfl⟩
  obtain ⟨-, -, htree⟩ := ofChains_walk hends
  obtain ⟨t, hmerged, -, hleaves, -, -, hdepth, -⟩ := htree (List.cons_ne_nil _ _)
  exact ⟨hends, t, hmerged, hleaves.trans (by decide), hdepth 3 rfl⟩

end Walk
end CallImpact
