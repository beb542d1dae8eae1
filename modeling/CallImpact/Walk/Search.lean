/-!
# The search behind a chain walk

A walk enumerates chains: paths from a start node along a relation that repeat
no node.  It asks for the successors of a node at most once and remembers the
answer.  A path becomes a chain when its last node has no successors or lies at
the depth bound; a path all of whose continuations lead back into it is given
up.

The search keeps a stack of frames, one for each node of the current path, and
beside the path the set of its nodes.  Each `step` enters the next successor of the
top frame that is not on the path, or leaves the top node if there is none.

Before every question the walk looks at two signals that may change while it
runs: whether it is cancelled, and whether its time is over.

The search is written for questions in any monad, since a question may have effects.
-/

namespace CallImpact
namespace Walk

/-- How a walk is limited.  The signals are given by their course: what they say
before the question that follows `n` others. -/
structure Bounds where
  /-- The greatest number of hops of a chain. -/
  maxDepth : Option Nat := none
  cancelled : Nat → Bool := fun _ => false
  overdue : Nat → Bool := fun _ => false

/-- Why a walk ends without a result. -/
inductive Failure (N : Type) where
  | lookupFailed (node : N) (cause : String)
  | budgetExceeded
  | cancelled
deriving DecidableEq

/-- How a walk ends, and the nodes it asked about, in order. -/
structure Outcome (N : Type) where
  result : Except (Failure N) (List (List N))
  lookups : List N

/-- What answers the questions of a walk.  It is given the nodes asked about
before, the last one first, so an answer may change in the course of a walk. -/
abbrev Source (N : Type) : Type :=
  List N → N → Except String (List N)

/-- The successors of a node on the path, and how many of them were taken up. -/
structure Frame (N : Type) where
  successors : List N
  taken : Nat

/-- A search under way. -/
structure Search (N : Type) where
  /-- The answers so far, the last one first. -/
  memo : List (N × List N) := []
  /-- The current path, its last node first. -/
  path : List N := []
  /-- The nodes of the current path, as a set. -/
  onPath : List N := []
  /-- The frames of the nodes on the path, in the order of `path`. -/
  frames : List (Frame N) := []
  found : List (List N) := []

namespace Search

variable {N : Type}

def asked (s : Search N) : List N :=
  s.memo.map Prod.fst

def record (s : Search N) : Search N :=
  { s with found := s.path.reverse :: s.found }

/-- The search failed; `asked` are the nodes asked about, the last one first. -/
def fail (failure : Failure N) (asked : List N) : Except (Outcome N) (Search N) :=
  .error ⟨.error failure, asked.reverse⟩

/-- The nodes that a search asked about up to a stage, in order. -/
def lookupsAt : Except (Outcome N) (Search N) → List N
  | .ok s => s.asked.reverse
  | .error outcome => outcome.lookups

theorem lookupsAt_of_memo_eq {s t : Search N} (h : t.memo = s.memo) :
    lookupsAt (.ok t) = s.asked.reverse := by
  rw [lookupsAt, asked, h, asked]

variable [DecidableEq N]

/-- Takes the last node off the path. -/
def retreat (s : Search N) : Search N :=
  match s.path with
  | [] => s
  | node :: rest =>
    { s with path := rest, onPath := s.onPath.filter fun n => decide (n ≠ node) }

theorem memo_retreat (s : Search N) : s.retreat.memo = s.memo := by
  rw [retreat]
  split
  · rfl
  · rfl

/-- Puts a node at the end of the path. -/
def advance (s : Search N) (node : N) : Search N :=
  { s with path := node :: s.path, onPath := s.onPath.insert node }

/-- Takes up the successors of the last node of the path: without any, the path
is a chain and the node is left again. -/
def expand (s : Search N) (successors : List N) : Search N :=
  if successors.isEmpty then s.record.retreat
  else { s with frames := ⟨successors, 0⟩ :: s.frames }

theorem memo_expand (s : Search N) (successors : List N) :
    (s.expand successors).memo = s.memo := by
  rw [expand]
  split
  · exact memo_retreat s.record
  · rfl

/-- Records the path that a node would end as a chain, without entering the node. -/
def recordTo (s : Search N) (node : N) : Search N :=
  { s with found := (node :: s.path).reverse :: s.found }

/-- Entering a new node and leaving it again restores the path. -/
theorem retreat_advance {s : Search N} {node : N} (h : node ∉ s.onPath) :
    (s.advance node).retreat = s := by
  have hset : (s.onPath.insert node).filter (fun n => decide (n ≠ node)) = s.onPath := by
    rw [List.insert_of_not_mem h, List.filter_cons_of_neg (by simp)]
    refine List.filter_eq_self.mpr fun n hn => ?_
    exact decide_eq_true fun heq => h (heq ▸ hn)
  simp only [advance, retreat, hset]

theorem retreat_record_advance {s : Search N} {node : N} (h : node ∉ s.onPath) :
    (s.advance node).record.retreat = s.recordTo node :=
  retreat_advance (s := s.recordTo node) h

theorem expand_advance_nil {s : Search N} {node : N} (h : node ∉ s.onPath) :
    (s.advance node).expand [] = s.recordTo node :=
  retreat_record_advance h

/-- While the set holds the nodes of the path, it does so after entering a node. -/
theorem mem_onPath_advance {s : Search N} (hset : ∀ n, n ∈ s.onPath ↔ n ∈ s.path)
    (node n : N) : n ∈ (s.advance node).onPath ↔ n ∈ (s.advance node).path := by
  change n ∈ s.onPath.insert node ↔ n ∈ node :: s.path
  rw [List.mem_insert_iff, hset, List.mem_cons]

/-- The set holds the nodes of the path after leaving its last node too, which is on the path
only once. -/
theorem mem_onPath_retreat {s : Search N} (hset : ∀ n, n ∈ s.onPath ↔ n ∈ s.path)
    (hnodup : s.path.Nodup) (n : N) : n ∈ s.retreat.onPath ↔ n ∈ s.retreat.path := by
  cases hpath : s.path with
  | nil =>
    simp only [retreat, hpath]
    rw [hset, hpath]
  | cons last rest =>
    rw [hpath, List.nodup_cons] at hnodup
    simp only [retreat, hpath]
    rw [List.mem_filter, hset, hpath, List.mem_cons, decide_eq_true_eq]
    constructor
    · rintro ⟨heq | hn, hne⟩
      · exact absurd heq hne
      · exact hn
    · intro hn
      exact ⟨Or.inr hn, fun heq => hnodup.1 (heq ▸ hn)⟩

def remembered? (s : Search N) (node : N) : Option (List N) :=
  s.memo.lookup node

/-- Takes up the answer about the last node of the path. -/
def receive (s : Search N) (node : N) :
    Except String (List N) → Except (Outcome N) (Search N)
  | .error cause => fail (.lookupFailed node cause) (node :: s.asked)
  | .ok successors => .ok ({ s with memo := (node, successors) :: s.memo }.expand successors)

section Asking

variable {m : Type → Type} [Monad m]

/-- Asks about the last node of the path, unless a signal is set. -/
def askM (bounds : Bounds) (lookUp : N → m (Except String (List N))) (s : Search N) (node : N) :
    m (Except (Outcome N) (Search N)) :=
  if bounds.cancelled s.memo.length then return fail .cancelled s.asked
  else if bounds.overdue s.memo.length then return fail .budgetExceeded s.asked
  else return s.receive node (← lookUp node)

/-- Enters a node: at the depth bound the path to it is a chain, and otherwise its successors
are taken up, which are asked for unless they are remembered. -/
def visitM (bounds : Bounds) (lookUp : N → m (Except String (List N))) (s : Search N) (node : N) :
    m (Except (Outcome N) (Search N)) :=
  if bounds.maxDepth.any (· ≤ s.path.length) then return .ok (s.advance node).record.retreat
  else
    match s.remembered? node with
    | some successors => return .ok ((s.advance node).expand successors)
    | none => (s.advance node).askM bounds lookUp node

end Asking

/-! A source is asked without effects. -/

def ask (bounds : Bounds) (source : Source N) (s : Search N) (node : N) :
    Except (Outcome N) (Search N) :=
  Id.run (s.askM bounds (fun n => pure (source s.asked n)) node)

def visit (bounds : Bounds) (source : Source N) (s : Search N) (node : N) :
    Except (Outcome N) (Search N) :=
  Id.run (s.visitM bounds (fun n => pure (source s.asked n)) node)

theorem ask_eq (bounds : Bounds) (source : Source N) (s : Search N) (node : N) :
    s.ask bounds source node =
      if bounds.cancelled s.memo.length then fail .cancelled s.asked
      else if bounds.overdue s.memo.length then fail .budgetExceeded s.asked
      else s.receive node (source s.asked node) :=
  rfl

theorem visit_eq (bounds : Bounds) (source : Source N) (s : Search N) (node : N) :
    s.visit bounds source node =
      if bounds.maxDepth.any (· ≤ s.path.length) then .ok (s.advance node).record.retreat
      else
        match s.remembered? node with
        | some successors => .ok ((s.advance node).expand successors)
        | none => (s.advance node).ask bounds source node :=
  rfl

section Visiting

variable {bounds : Bounds} {source : Source N} {s : Search N} {node : N}

theorem visit_eq_of_deep (hdeep : bounds.maxDepth.any (· ≤ s.path.length) = true) :
    s.visit bounds source node = .ok (s.advance node).record.retreat :=
  if_pos hdeep

theorem visit_eq_of_remembered (hdeep : ¬ bounds.maxDepth.any (· ≤ s.path.length) = true)
    {successors : List N} (hmemo : s.remembered? node = some successors) :
    s.visit bounds source node = .ok ((s.advance node).expand successors) := by
  rw [visit_eq, if_neg hdeep, hmemo]

theorem visit_eq_of_new (hdeep : ¬ bounds.maxDepth.any (· ≤ s.path.length) = true)
    (hmemo : s.remembered? node = none) :
    s.visit bounds source node =
      if bounds.cancelled s.memo.length then fail .cancelled s.asked
      else if bounds.overdue s.memo.length then fail .budgetExceeded s.asked
      else
        match source s.asked node with
        | .error cause => fail (.lookupFailed node cause) (node :: s.asked)
        | .ok successors =>
          .ok (({ s with memo := (node, successors) :: s.memo } : Search N).advance node
            |>.expand successors) := by
  rw [visit_eq, if_neg hdeep, hmemo]
  rfl

/-- Before the depth bound, entering a node takes up its remembered successors or those that
it asks for, or fails for a reason. -/
theorem visit_cases (source : Source N) (node : N)
    (hdeep : ¬ bounds.maxDepth.any (· ≤ s.path.length) = true) :
    (∃ successors, s.remembered? node = some successors ∧
        s.visit bounds source node = .ok ((s.advance node).expand successors)) ∨
      (∃ successors, source s.asked node = .ok successors ∧
        s.visit bounds source node =
          .ok (({ s with memo := (node, successors) :: s.memo } : Search N).advance node
            |>.expand successors)) ∨
      ∃ failure lookups, s.visit bounds source node = .error ⟨.error failure, lookups⟩ ∧
        (failure = .cancelled ∧ bounds.cancelled s.memo.length = true ∨
          failure = .budgetExceeded ∧ bounds.overdue s.memo.length = true ∨
          ∃ cause, failure = .lookupFailed node cause ∧ source s.asked node = .error cause) := by
  cases hmemo : s.remembered? node with
  | some successors => exact Or.inl ⟨successors, rfl, visit_eq_of_remembered hdeep hmemo⟩
  | none =>
    refine Or.inr ?_
    rw [visit_eq_of_new hdeep hmemo]
    by_cases hcancelled : bounds.cancelled s.memo.length = true
    · exact Or.inr ⟨_, _, if_pos hcancelled, Or.inl ⟨rfl, hcancelled⟩⟩
    rw [if_neg hcancelled]
    by_cases hoverdue : bounds.overdue s.memo.length = true
    · exact Or.inr ⟨_, _, if_pos hoverdue, Or.inr (Or.inl ⟨rfl, hoverdue⟩)⟩
    rw [if_neg hoverdue]
    cases source s.asked node with
    | ok successors => exact Or.inl ⟨successors, rfl, rfl⟩
    | error cause => exact Or.inr ⟨_, _, rfl, Or.inr (Or.inr ⟨cause, rfl, rfl⟩)⟩

end Visiting

/-- The next successor of a frame that is not on the path, and the frame after it
was taken up. -/
def next? (onPath : List N) (frame : Frame N) : Option (N × Frame N) :=
  let pending := frame.successors.drop frame.taken
  match pending.dropWhile (· ∈ onPath) with
  | [] => none
  | node :: rest =>
    some (node, { frame with taken := frame.taken + (pending.length - rest.length) })

def finished (s : Search N) : Outcome N :=
  ⟨.ok s.found.reverse, s.asked.reverse⟩

section Stepping

variable {m : Type → Type} [Monad m]

def stepM (bounds : Bounds) (lookUp : N → m (Except String (List N))) (s : Search N) :
    m (Except (Outcome N) (Search N)) :=
  match s.frames with
  | [] => return .error s.finished
  | frame :: outer =>
    match next? s.onPath frame with
    | some (node, frame) => { s with frames := frame :: outer }.visitM bounds lookUp node
    | none => return .ok { s with frames := outer }.retreat

theorem stepM_of_next {bounds : Bounds} {lookUp : N → m (Except String (List N))}
    {s : Search N} {frame after : Frame N} {outer : List (Frame N)} {node : N}
    (hframes : s.frames = frame :: outer) (hnext : next? s.onPath frame = some (node, after)) :
    s.stepM bounds lookUp =
      ({ s with frames := after :: outer } : Search N).visitM bounds lookUp node := by
  rw [stepM, hframes]
  simp only [hnext]

theorem stepM_of_done {bounds : Bounds} {lookUp : N → m (Except String (List N))}
    {s : Search N} {frame : Frame N} {outer : List (Frame N)}
    (hframes : s.frames = frame :: outer) (hnext : next? s.onPath frame = none) :
    s.stepM bounds lookUp = pure (.ok ({ s with frames := outer } : Search N).retreat) := by
  rw [stepM, hframes]
  simp only [hnext]

end Stepping

def step (bounds : Bounds) (source : Source N) (s : Search N) :
    Except (Outcome N) (Search N) :=
  Id.run (s.stepM bounds fun n => pure (source s.asked n))

theorem step_of_nil {bounds : Bounds} {source : Source N} {s : Search N}
    (hframes : s.frames = []) : s.step bounds source = .error s.finished := by
  rw [step, stepM, hframes]
  rfl

theorem step_of_next {bounds : Bounds} {source : Source N} {s : Search N}
    {frame after : Frame N} {outer : List (Frame N)} {node : N}
    (hframes : s.frames = frame :: outer) (hnext : next? s.onPath frame = some (node, after)) :
    s.step bounds source =
      ({ s with frames := after :: outer } : Search N).visit bounds source node := by
  rw [step, stepM_of_next hframes hnext]
  rfl

theorem step_of_done {bounds : Bounds} {source : Source N} {s : Search N}
    {frame : Frame N} {outer : List (Frame N)}
    (hframes : s.frames = frame :: outer) (hnext : next? s.onPath frame = none) :
    s.step bounds source = .ok ({ s with frames := outer } : Search N).retreat := by
  rw [step, stepM_of_done hframes hnext]
  rfl

/-- The outcome, if it is reached within the given number of steps. -/
def run (bounds : Bounds) (source : Source N) : Nat → Search N → Option (Outcome N)
  | 0, _ => none
  | fuel + 1, s =>
    match s.step bounds source with
    | .error outcome => some outcome
    | .ok s => run bounds source fuel s

/-- The outcome of a walk from a node, if it is reached within the given number
of steps. -/
def walk (bounds : Bounds) (source : Source N) (fuel : Nat) (start : N) : Option (Outcome N) :=
  match ({} : Search N).visit bounds source start with
  | .error outcome => some outcome
  | .ok s => run bounds source fuel s

end Search
end Walk
end CallImpact
