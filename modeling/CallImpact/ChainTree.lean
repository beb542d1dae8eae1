/-!
# Trees of chains

Chains merged on their common beginnings.  A node's children are in order of
first appearance, and equal chains collapse.
-/

namespace CallImpact

/-- A tree whose paths from the root are chains. -/
inductive ChainTree (α : Type) where
  | node (content : α) (children : List (ChainTree α))

namespace ChainTree

variable {α : Type}

def content : ChainTree α → α
  | node content _ => content

def children : ChainTree α → List (ChainTree α)
  | node _ children => children

def single (content : α) : ChainTree α :=
  node content []

section Merging

variable [DecidableEq α]

/-- Changes the children of the first tree that holds `content`; without such a
tree, one is added at the end. -/
def updateFirst (content : α) (change : List (ChainTree α) → List (ChainTree α)) :
    List (ChainTree α) → List (ChainTree α)
  | [] => [node content (change [])]
  | node c children :: rest =>
    if c = content then node c (change children) :: rest
    else node c children :: updateFirst content change rest

/-- Merges a chain into a forest: it follows first matches as long as there are
any. -/
def graft : List α → List (ChainTree α) → List (ChainTree α)
  | [], forest => forest
  | content :: rest, forest => updateFirst content (graft rest) forest

/-- Merges a chain into the children of the root. -/
def insertChain (t : ChainTree α) (chain : List α) : ChainTree α :=
  node t.content (graft chain t.children)

/-- The forest of the chains, merged in order. -/
def ofChains (chains : List (List α)) : List (ChainTree α) :=
  chains.foldl (fun forest chain => graft chain forest) []

end Merging

mutual

/-- The number of paths from the root to a leaf. -/
def leafCount : ChainTree α → Nat
  | node _ [] => 1
  | node _ (t :: ts) => t.leafCount + leafCounts ts

def leafCounts : List (ChainTree α) → Nat
  | [] => 0
  | t :: ts => t.leafCount + leafCounts ts

end

mutual

/-- The number of nodes on the longest path from the root. -/
def depth : ChainTree α → Nat
  | node _ children => depthOfForest children + 1

def depthOfForest : List (ChainTree α) → Nat
  | [] => 0
  | t :: ts => max t.depth (depthOfForest ts)

end

mutual

def decEq [DecidableEq α] : (s t : ChainTree α) → Decidable (s = t)
  | node a ss, node b ts =>
    match decEqForest ss ts with
    | .isTrue h => decidable_of_iff (a = b) (by simp [h])
    | .isFalse h => .isFalse (by simp [h])

def decEqForest [DecidableEq α] : (ss ts : List (ChainTree α)) → Decidable (ss = ts)
  | [], [] => .isTrue rfl
  | s :: ss, t :: ts =>
    match decEq s t, decEqForest ss ts with
    | .isTrue h, .isTrue hs => .isTrue (by rw [h, hs])
    | .isFalse h, _ => .isFalse (by simp [h])
    | _, .isFalse h => .isFalse (by simp [h])
  | [], _ :: _ | _ :: _, [] => .isFalse nofun

end

instance [DecidableEq α] : DecidableEq (ChainTree α) := decEq

end ChainTree
end CallImpact
