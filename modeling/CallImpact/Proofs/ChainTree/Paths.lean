import CallImpact.ChainTree
import Mathlib.Data.List.Nodup

/-!
# The paths of a forest

A node of a forest is reached along the contents from a root down to it.  The paths to all
nodes and the paths to the leaves are listed here; whether some nodes spell a path is said
apart from the lists, by recursion along the path.

Where no two siblings have the same content, a path leads to one node at most.  The leaves
are then at the ends of the paths that nothing continues.
-/

namespace CallImpact
namespace ChainTree

variable {α : Type}

mutual

/-- The contents from the root to each node, those of a node before those of the nodes below
it. -/
def nodePaths : ChainTree α → List (List α)
  | node content children => [content] :: (nodePathsOfForest children).map (content :: ·)

def nodePathsOfForest : List (ChainTree α) → List (List α)
  | [] => []
  | t :: ts => t.nodePaths ++ nodePathsOfForest ts

end

mutual

/-- The contents from the root to each leaf, from left to right. -/
def leafPaths : ChainTree α → List (List α)
  | node content [] => [[content]]
  | node content (t :: ts) => (t.leafPaths ++ leafPathsOfForest ts).map (content :: ·)

def leafPathsOfForest : List (ChainTree α) → List (List α)
  | [] => []
  | t :: ts => t.leafPaths ++ leafPathsOfForest ts

end

/-- Nodes of the forest spell the path, from a root on. -/
def HasPath : List (ChainTree α) → List α → Prop
  | _, [] => True
  | forest, content :: rest => ∃ t ∈ forest, t.content = content ∧ HasPath t.children rest

/-- The roots have different contents, and so have the children of every node. -/
inductive DistinctSiblings : List (ChainTree α) → Prop
  | nil : DistinctSiblings []
  | cons {content : α} {children ts : List (ChainTree α)} :
      content ∉ ts.map ChainTree.content → DistinctSiblings children → DistinctSiblings ts →
      DistinctSiblings (node content children :: ts)

variable {content : α} {children forest ts : List (ChainTree α)} {t : ChainTree α}
  {path rest : List α}

@[simp] theorem content_node (content : α) (children : List (ChainTree α)) :
    (node content children).content = content :=
  rfl

@[simp] theorem children_node (content : α) (children : List (ChainTree α)) :
    (node content children).children = children :=
  rfl

/-! ## Leaves -/

theorem leafPaths_of_children_ne_nil (h : children ≠ []) :
    (node content children).leafPaths = (leafPathsOfForest children).map (content :: ·) := by
  obtain ⟨t, ts, rfl⟩ := List.exists_cons_of_ne_nil h
  rw [leafPaths, leafPathsOfForest]

theorem leafPaths_ne_nil : (t : ChainTree α) → t.leafPaths ≠ []
  | node _ [] => List.cons_ne_nil _ _
  | node _ (t :: _) => by
    rw [leafPaths]
    simp [leafPaths_ne_nil t]

theorem leafPathsOfForest_eq_nil_iff : leafPathsOfForest forest = [] ↔ forest = [] := by
  cases forest with
  | nil => exact iff_of_true rfl rfl
  | cons t ts => simp [leafPathsOfForest, leafPaths_ne_nil t]

theorem leafCount_of_children_ne_nil (h : children ≠ []) :
    (node content children).leafCount = leafCounts children := by
  obtain ⟨t, ts, rfl⟩ := List.exists_cons_of_ne_nil h
  rw [leafCount, leafCounts]

theorem leafCounts_append (ts us : List (ChainTree α)) :
    leafCounts (ts ++ us) = leafCounts ts + leafCounts us := by
  induction ts with
  | nil => simp [leafCounts]
  | cons t ts ih => rw [List.cons_append, leafCounts, ih, leafCounts, Nat.add_assoc]

mutual

theorem length_leafPaths : (t : ChainTree α) → t.leafPaths.length = t.leafCount
  | node _ [] => rfl
  | node _ (t :: ts) => by
    rw [leafPaths, List.length_map, List.length_append, length_leafPaths t,
      length_leafPathsOfForest ts, leafCount]

theorem length_leafPathsOfForest :
    (ts : List (ChainTree α)) → (leafPathsOfForest ts).length = leafCounts ts
  | [] => rfl
  | t :: ts => by
    rw [leafPathsOfForest, List.length_append, length_leafPaths t, length_leafPathsOfForest ts,
      leafCounts]

end

mutual

/-- The paths to the leaves are some of the paths to the nodes. -/
theorem leafPaths_sublist : (t : ChainTree α) → t.leafPaths.Sublist t.nodePaths
  | node content [] => List.Sublist.refl _
  | node content (t :: ts) => by
    rw [leafPaths, nodePaths]
    exact ((leafPathsOfForest_sublist (t :: ts)).map _).cons _

theorem leafPathsOfForest_sublist :
    (ts : List (ChainTree α)) → (leafPathsOfForest ts).Sublist (nodePathsOfForest ts)
  | [] => List.Sublist.refl _
  | t :: ts => (leafPaths_sublist t).append (leafPathsOfForest_sublist ts)

end

/-! ## Membership -/

theorem nodePathsOfForest_eq_flatMap (ts : List (ChainTree α)) :
    nodePathsOfForest ts = ts.flatMap nodePaths := by
  induction ts with
  | nil => rfl
  | cons t ts ih => rw [nodePathsOfForest, ih, List.flatMap_cons]

theorem leafPathsOfForest_eq_flatMap (ts : List (ChainTree α)) :
    leafPathsOfForest ts = ts.flatMap leafPaths := by
  induction ts with
  | nil => rfl
  | cons t ts ih => rw [leafPathsOfForest, ih, List.flatMap_cons]

theorem leafPathsOfForest_append (ts us : List (ChainTree α)) :
    leafPathsOfForest (ts ++ us) = leafPathsOfForest ts ++ leafPathsOfForest us := by
  simp only [leafPathsOfForest_eq_flatMap, List.flatMap_append]

theorem leafPathsOfForest_singleton (t : ChainTree α) : leafPathsOfForest [t] = t.leafPaths :=
  List.append_nil _

theorem nil_not_mem_nodePathsOfForest (forest : List (ChainTree α)) :
    [] ∉ nodePathsOfForest forest := by
  rw [nodePathsOfForest_eq_flatMap, List.mem_flatMap]
  rintro ⟨⟨content, children⟩, -, hmem⟩
  simp [nodePaths] at hmem

theorem nil_not_mem_leafPathsOfForest (forest : List (ChainTree α)) :
    [] ∉ leafPathsOfForest forest :=
  fun hmem => nil_not_mem_nodePathsOfForest forest ((leafPathsOfForest_sublist forest).mem hmem)

theorem cons_mem_nodePaths_iff :
    content :: rest ∈ t.nodePaths ↔
      t.content = content ∧ (rest = [] ∨ rest ∈ nodePathsOfForest t.children) := by
  obtain ⟨root, children⟩ := t
  simp [nodePaths, eq_comm, and_or_left, and_comm]

theorem cons_mem_leafPaths_iff :
    content :: rest ∈ t.leafPaths ↔
      t.content = content ∧
        (rest = [] ∧ t.children = [] ∨ rest ∈ leafPathsOfForest t.children) := by
  obtain ⟨root, children⟩ := t
  by_cases h : children = []
  · subst h
    simp [leafPaths, leafPathsOfForest, eq_comm]
  · simp [leafPaths_of_children_ne_nil h, h, and_comm]

/-- The nodes are at the paths that are spelled, apart from the empty one. -/
theorem mem_nodePathsOfForest_iff :
    path ∈ nodePathsOfForest forest ↔ path ≠ [] ∧ HasPath forest path := by
  induction path generalizing forest with
  | nil => exact iff_of_false (nil_not_mem_nodePathsOfForest forest) fun h => h.1 rfl
  | cons content rest ih =>
    have hrest : ∀ children : List (ChainTree α),
        rest = [] ∨ rest ∈ nodePathsOfForest children ↔ HasPath children rest := by
      intro children
      by_cases hnil : rest = []
      · simp [hnil, HasPath]
      · simp [hnil, ih]
    rw [nodePathsOfForest_eq_flatMap, List.mem_flatMap, HasPath,
      and_iff_right (List.cons_ne_nil _ _)]
    simp only [cons_mem_nodePaths_iff, hrest]

theorem mem_nodePaths_iff :
    path ∈ t.nodePaths ↔ ∃ rest, path = t.content :: rest ∧ HasPath t.children rest := by
  obtain ⟨root, children⟩ := t
  rw [nodePaths, List.mem_cons, List.mem_map, content_node, children_node]
  constructor
  · rintro (rfl | ⟨rest, hrest, rfl⟩)
    · exact ⟨[], rfl, trivial⟩
    · exact ⟨rest, rfl, (mem_nodePathsOfForest_iff.mp hrest).2⟩
  · rintro ⟨rest, rfl, hrest⟩
    by_cases hnil : rest = []
    · exact Or.inl (hnil ▸ rfl)
    · exact Or.inr ⟨rest, mem_nodePathsOfForest_iff.mpr ⟨hnil, hrest⟩, rfl⟩

theorem cons_mem_leafPathsOfForest_iff :
    content :: rest ∈ leafPathsOfForest forest ↔
      ∃ t ∈ forest, t.content = content ∧
        (rest = [] ∧ t.children = [] ∨ rest ∈ leafPathsOfForest t.children) := by
  rw [leafPathsOfForest_eq_flatMap, List.mem_flatMap]
  simp only [cons_mem_leafPaths_iff]

theorem hasPath_nil_iff : HasPath ([] : List (ChainTree α)) path ↔ path = [] := by
  cases path with
  | nil => exact iff_of_true trivial rfl
  | cons _ _ => simp [HasPath]

theorem hasPath_cons_iff {root : α} :
    HasPath (node root children :: ts) (content :: rest) ↔
      root = content ∧ HasPath children rest ∨ HasPath ts (content :: rest) := by
  simp [HasPath]

theorem hasPath_append_iff {us : List (ChainTree α)} :
    HasPath (ts ++ us) (content :: rest) ↔
      HasPath ts (content :: rest) ∨ HasPath us (content :: rest) := by
  simp [HasPath, or_and_right, exists_or]

/-! ## Forests with distinct siblings -/

theorem distinctSiblings_iff :
    DistinctSiblings forest ↔
      (forest.map ChainTree.content).Nodup ∧ ∀ t ∈ forest, DistinctSiblings t.children := by
  induction forest with
  | nil => simp [DistinctSiblings.nil]
  | cons t ts ih =>
    obtain ⟨content, children⟩ := t
    rw [List.map_cons, List.nodup_cons, List.forall_mem_cons]
    constructor
    · intro h
      cases h with
      | cons hcontent hchildren hts =>
        exact ⟨⟨hcontent, (ih.mp hts).1⟩, hchildren, (ih.mp hts).2⟩
    · rintro ⟨⟨hcontent, hnodup⟩, hchildren, hall⟩
      exact .cons hcontent hchildren (ih.mpr ⟨hnodup, hall⟩)

namespace DistinctSiblings

theorem of_mem (h : DistinctSiblings forest) (ht : t ∈ forest) : DistinctSiblings t.children :=
  (distinctSiblings_iff.mp h).2 t ht

theorem eq_of_content_eq (h : DistinctSiblings forest) {u : ChainTree α} (ht : t ∈ forest)
    (hu : u ∈ forest) (heq : t.content = u.content) : t = u :=
  List.inj_on_of_nodup_map (distinctSiblings_iff.mp h).1 ht hu heq

/-- Trees with the same root are one tree at most. -/
theorem eq_nil_or_singleton (h : DistinctSiblings forest)
    (hroots : ∀ t ∈ forest, t.content = content) : forest = [] ∨ ∃ t, forest = [t] := by
  cases h with
  | nil => exact Or.inl rfl
  | @cons root children ts hnew _ _ =>
    obtain ⟨hroot, hroots⟩ := List.forall_mem_cons.mp hroots
    have hnone : ts = [] := by
      rw [List.eq_nil_iff_forall_not_mem]
      intro u hu
      exact hnew (List.mem_map.mpr ⟨u, hu, (hroots u hu).trans hroot.symm⟩)
    exact Or.inr ⟨.node root children, by rw [hnone]⟩

theorem append {us : List (ChainTree α)} (hts : DistinctSiblings ts) (hus : DistinctSiblings us)
    (hnew : ∀ t ∈ ts, ∀ u ∈ us, t.content ≠ u.content) : DistinctSiblings (ts ++ us) := by
  obtain ⟨htsnodup, htschildren⟩ := distinctSiblings_iff.mp hts
  obtain ⟨husnodup, huschildren⟩ := distinctSiblings_iff.mp hus
  refine distinctSiblings_iff.mpr ⟨?_, List.forall_mem_append.mpr ⟨htschildren, huschildren⟩⟩
  rw [List.map_append, List.nodup_append]
  refine ⟨htsnodup, husnodup, ?_⟩
  simpa using hnew

theorem nodup_nodePathsOfForest (h : DistinctSiblings forest) :
    (nodePathsOfForest forest).Nodup := by
  induction h with
  | nil => exact List.nodup_nil
  | @cons content children ts hcontent _ _ hchildren hts =>
    have hinjective : Function.Injective (content :: · : List α → List α) :=
      fun _ _ heq => (List.cons.inj heq).2
    rw [nodePathsOfForest, nodePaths, List.cons_append, List.nodup_cons, List.mem_append, not_or]
    refine ⟨⟨?_, ?_⟩, List.nodup_append'.mpr ⟨hchildren.map hinjective, hts, ?_⟩⟩
    · simp [nil_not_mem_nodePathsOfForest]
    · intro hmem
      obtain ⟨-, t, ht, heq, -⟩ := mem_nodePathsOfForest_iff.mp hmem
      exact hcontent (List.mem_map.mpr ⟨t, ht, heq⟩)
    · intro path hpath hmem
      obtain ⟨rest, -, rfl⟩ := List.mem_map.mp hpath
      obtain ⟨-, t, ht, heq, -⟩ := mem_nodePathsOfForest_iff.mp hmem
      exact hcontent (List.mem_map.mpr ⟨t, ht, heq⟩)

theorem nodup_leafPathsOfForest (h : DistinctSiblings forest) :
    (leafPathsOfForest forest).Nodup :=
  h.nodup_nodePathsOfForest.sublist (leafPathsOfForest_sublist forest)

/-- The leaves are at the paths that nothing continues. -/
theorem mem_leafPathsOfForest_iff (h : DistinctSiblings forest) :
    path ∈ leafPathsOfForest forest ↔
      path ≠ [] ∧ HasPath forest path ∧
        ∀ longer, HasPath forest longer → path <+: longer → longer = path := by
  induction path generalizing forest with
  | nil => exact iff_of_false (nil_not_mem_leafPathsOfForest forest) fun h => h.1 rfl
  | cons content rest ih =>
    rw [cons_mem_leafPathsOfForest_iff, and_iff_right (List.cons_ne_nil _ _)]
    constructor
    · rintro ⟨t, ht, hcontent, hrest⟩
      -- every path that begins with the content goes through this root
      have hbelow : HasPath t.children rest ∧
          ∀ longer, HasPath t.children longer → rest <+: longer → longer = rest := by
        rcases hrest with ⟨rfl, hleaf⟩ | hrest
        · refine ⟨trivial, fun longer hlonger _ => ?_⟩
          rw [hleaf] at hlonger
          cases longer with
          | nil => rfl
          | cons next _ =>
            obtain ⟨u, hu, -⟩ := hlonger
            cases hu
        · exact ((ih (h.of_mem ht)).mp hrest).2
      refine ⟨⟨t, ht, hcontent, hbelow.1⟩, ?_⟩
      rintro longer hlonger ⟨last, rfl⟩
      obtain ⟨u, hu, hsame, hlonger⟩ := hlonger
      obtain rfl := h.eq_of_content_eq hu ht (hsame.trans hcontent.symm)
      exact congrArg (content :: ·) (hbelow.2 _ hlonger (List.prefix_append rest last))
    · rintro ⟨⟨t, ht, hcontent, hrest⟩, hmaximal⟩
      have hbelow : ∀ longer, HasPath t.children longer → rest <+: longer → longer = rest := by
        intro longer hlonger hbegins
        exact (List.cons.inj (hmaximal (content :: longer) ⟨t, ht, hcontent, hlonger⟩
          (List.cons_prefix_cons.mpr ⟨rfl, hbegins⟩))).2
      refine ⟨t, ht, hcontent, ?_⟩
      by_cases hnil : rest = []
      · subst hnil
        refine Or.inl ⟨rfl, List.eq_nil_iff_forall_not_mem.mpr fun u hu => ?_⟩
        exact List.cons_ne_nil _ _ (hbelow [u.content] ⟨u, hu, rfl, trivial⟩ List.nil_prefix)
      · exact Or.inr ((ih (h.of_mem ht)).mpr ⟨hnil, hrest, hbelow⟩)

end DistinctSiblings

end ChainTree
end CallImpact
