import CallImpact.Proofs.Walk.Ending
import CallImpact.Proofs.Walk.HeardAnswers

/-!
# The state of a walk

A search keeps its path as a list, as a set and in its frames.  At every stage of a walk the three
agree: the frames belong to the nodes of the path, one to each, and all but the top one were left
at the next node (`Aligned`).  Every step keeps this, since entering a node either opens a frame for
it or leaves it at once (`Awaits`).

The steps read what lies beyond a count, subtract from a length and take nodes off a path.  That
they never do so in vain is said by steps that look first (`checkedStep`): at every stage they do
what the steps do.
-/

namespace CallImpact
namespace Walk
namespace Search

variable {N : Type}

/-- The frame was opened for the node: it holds the successors remembered for the node, at least
one, and took up no more than there are. -/
structure Opened [DecidableEq N] (memo : List (N × List N)) (node : N) (frame : Frame N) :
    Prop where
  remembered : memo.lookup node = some frame.successors
  nonempty : frame.successors ≠ []
  taken_le : frame.taken ≤ frame.successors.length

/-- The node is the last one of the successors that the frame took up. -/
def TookUp (node : N) (frame : Frame N) : Prop :=
  (frame.successors.take frame.taken).getLast? = some node

/-- The path, the set of its nodes and the frames of a search agree, and the chains found are
simple paths along the answers.  Paths and frames have the last node first, so the start is the
last element of the path, and the top frame the first one of the frames. -/
structure Aligned [DecidableEq N] (start : N) (s : Search N) : Prop where
  begins : s.path = [] ∨ s.path.getLast? = some start
  nodup_path : s.path.Nodup
  mem_onPath : ∀ n, n ∈ s.onPath ↔ n ∈ s.path
  opened : List.Forall₂ (Opened s.memo) s.path s.frames
  tookUp : List.Forall₂ TookUp s.path.dropLast s.frames.tail
  simplePath : ∀ chain ∈ s.found, SimplePath (heard s.memo) start chain

/-- The search is about to enter the node: it is new, and the top frame took it up, or there is no
frame and it is the start. -/
structure Awaits [DecidableEq N] (start : N) (s : Search N) (node : N) : Prop
    extends Aligned start s where
  not_mem_path : node ∉ s.path
  begins_cons : (node :: s.path).getLast? = some start
  tookUp_cons : List.Forall₂ TookUp (node :: s.path).dropLast s.frames

variable [DecidableEq N] {bounds : Bounds} {source : Source N} {start node : N}
  {s t : Search N} {frame after : Frame N} {frames outer : List (Frame N)}
  {memo : List (N × List N)} {successors onPath path : List N}

/-! ## New answers -/

theorem Opened.learn (hnew : memo.lookup node = none) {n : N} (h : Opened memo n frame) :
    Opened ((node, successors) :: memo) n frame :=
  ⟨lookup_cons_of_lookup hnew h.remembered, h.nonempty, h.taken_le⟩

/-- What was heard before is heard after a new answer. -/
theorem mem_heard_cons (hnew : memo.lookup node = none) {a b : N} (h : b ∈ heard memo a) :
    b ∈ heard ((node, successors) :: memo) a := by
  cases hlookup : memo.lookup a with
  | none =>
    rw [heard, hlookup] at h
    cases h
  | some answer =>
    rw [heard, lookup_cons_of_lookup hnew hlookup]
    rwa [heard, hlookup] at h

/-- A new answer keeps the frames and the chains found. -/
theorem Aligned.learn (hs : s.Aligned start) (hnew : s.remembered? node = none) :
    Search.Aligned start { s with memo := (node, successors) :: s.memo } where
  begins := hs.begins
  nodup_path := hs.nodup_path
  mem_onPath := hs.mem_onPath
  opened := hs.opened.imp fun _ _ => Opened.learn hnew
  tookUp := hs.tookUp
  simplePath chain hchain :=
    (hs.simplePath chain hchain).mono fun _ _ => mem_heard_cons hnew

theorem Awaits.learn (hs : s.Awaits start node) (hnew : s.remembered? node = none) :
    Search.Awaits start { s with memo := (node, successors) :: s.memo } node :=
  ⟨hs.toAligned.learn hnew, hs.not_mem_path, hs.begins_cons, hs.tookUp_cons⟩

/-! ## Entering a node -/

theorem awaits_empty (start : N) : ({} : Search N).Awaits start start where
  begins := Or.inl rfl
  nodup_path := List.nodup_nil
  mem_onPath _ := Iff.rfl
  opened := .nil
  tookUp := .nil
  simplePath _ h := by cases h
  not_mem_path := List.not_mem_nil
  begins_cons := rfl
  tookUp_cons := .nil

/-- Nodes that frames took up one after the other follow each other along the answers. -/
theorem isChain_of_tookUp (hopened : List.Forall₂ (Opened memo) path frames)
    (htook : List.Forall₂ TookUp (node :: path).dropLast frames) :
    (node :: path).IsChain fun b a => b ∈ heard memo a := by
  -- along the frames: each one took up the node that follows its own on the path
  induction hopened generalizing node with
  | nil => exact List.isChain_singleton node
  | @cons last frame path frames hlast _ ih =>
    rw [List.dropLast_cons_cons] at htook
    obtain ⟨hnode, htook⟩ := List.forall₂_cons.mp htook
    refine List.isChain_cons_cons.mpr ⟨?_, ih htook⟩
    rw [heard, hlast.remembered, Option.getD_some]
    exact List.mem_of_mem_take (List.mem_of_getLast? hnode)

/-- The path that the node would end is a simple path. -/
theorem Awaits.simplePath_reverse (hs : s.Awaits start node) :
    SimplePath (heard s.memo) start (node :: s.path).reverse where
  head_eq := by rw [List.head?_reverse, hs.begins_cons]
  nodup := List.nodup_reverse.mpr (List.nodup_cons.mpr ⟨hs.not_mem_path, hs.nodup_path⟩)
  linked := List.isChain_reverse.mpr (isChain_of_tookUp hs.opened hs.tookUp_cons)

/-- A node may be left at once, with its path as a chain. -/
theorem Awaits.recordTo (hs : s.Awaits start node) : (s.recordTo node).Aligned start where
  begins := hs.begins
  nodup_path := hs.nodup_path
  mem_onPath := hs.mem_onPath
  opened := hs.opened
  tookUp := hs.tookUp
  simplePath := List.forall_mem_cons.mpr ⟨hs.simplePath_reverse, hs.simplePath⟩

/-- A frame may be opened for the node. -/
theorem Awaits.push (hs : s.Awaits start node) (hmemo : s.remembered? node = some successors)
    (hne : successors ≠ []) : ((s.advance node).push ⟨successors, 0⟩).Aligned start where
  begins := Or.inr hs.begins_cons
  nodup_path := List.nodup_cons.mpr ⟨hs.not_mem_path, hs.nodup_path⟩
  mem_onPath := mem_onPath_advance hs.mem_onPath node
  opened := .cons ⟨hmemo, hne, Nat.zero_le _⟩ hs.opened
  tookUp := hs.tookUp_cons
  simplePath := hs.simplePath

theorem Awaits.not_mem_onPath (hs : s.Awaits start node) : node ∉ s.onPath :=
  fun h => hs.not_mem_path ((hs.mem_onPath node).mp h)

/-- Taking up the remembered successors opens a frame for them, or leaves the node. -/
theorem Awaits.expand (hs : s.Awaits start node)
    (hmemo : s.remembered? node = some successors) :
    ((s.advance node).expand successors).Aligned start := by
  by_cases hempty : successors = []
  · rw [hempty, expand_advance_nil hs.not_mem_onPath]
    exact hs.recordTo
  · rw [Search.expand, if_neg (by rwa [List.isEmpty_iff])]
    exact hs.push hmemo hempty

theorem Awaits.visit (hs : s.Awaits start node) (h : s.visit bounds source node = .ok t) :
    t.Aligned start := by
  by_cases hdeep : bounds.maxDepth.any (· ≤ s.path.length) = true
  · rw [visit_eq_of_deep hdeep, retreat_record_advance hs.not_mem_onPath] at h
    exact Except.ok.inj h ▸ hs.recordTo
  cases hmemo : s.remembered? node with
  | some successors =>
    rw [visit_eq_of_remembered hdeep hmemo] at h
    exact Except.ok.inj h ▸ hs.expand hmemo
  | none =>
    rcases visit_cases source node hdeep with ⟨_, hremembered, -⟩ | ⟨successors, -, hvisit⟩ |
      ⟨_, _, hvisit, -⟩
    · cases hmemo.symm.trans hremembered
    · obtain rfl := Except.ok.inj (hvisit.symm.trans h)
      exact (hs.learn hmemo).expand List.lookup_cons_self
    · cases hvisit.symm.trans h

/-! ## Steps -/

/-- A frame that takes up its next successor has taken it up last. -/
theorem Opened.next {last : N} (h : Opened memo last frame)
    (hnext : next? onPath frame = some (node, after)) :
    Opened memo last after ∧ TookUp node after := by
  obtain ⟨passed, rest, hpending, -, -, rfl⟩ := exists_passed_of_next? hnext
  refine ⟨⟨h.remembered, h.nonempty, ?_⟩, ?_⟩
  · have htaken := h.taken_le
    have hlength := congrArg List.length hpending
    rw [List.length_drop, List.length_append, List.length_cons] at hlength
    dsimp only
    omega
  · have htake : frame.successors.take (frame.taken + (passed.length + 1)) =
        frame.successors.take frame.taken ++ (passed ++ [node]) := by
      rw [List.take_add, hpending, List.take_length_add_append, List.take_succ_cons,
        List.take_zero]
    rw [TookUp, htake, ← List.append_assoc, List.getLast?_concat]

/-- The node of the top frame is the last node of the path. -/
theorem Aligned.exists_path_eq (hs : s.Aligned start) (hframes : s.frames = frame :: outer) :
    ∃ last before, s.path = last :: before ∧ Opened s.memo last frame ∧
      List.Forall₂ (Opened s.memo) before outer := by
  have hopened := hs.opened
  rw [hframes] at hopened
  obtain ⟨last, before, hlast, hbefore, hpath⟩ := List.forall₂_cons_right_iff.mp hopened
  exact ⟨last, before, hpath, hlast, hbefore⟩

/-- Without its last node and the frame of it, a search is aligned. -/
theorem Aligned.retreat (hs : s.Aligned start) (hframes : s.frames = frame :: outer) :
    ({ s with frames := outer } : Search N).retreat.Aligned start := by
  obtain ⟨last, before, hpath, -, hbefore⟩ := hs.exists_path_eq hframes
  have hset := mem_onPath_retreat (s := { s with frames := outer }) hs.mem_onPath hs.nodup_path
  have hbegins := hs.begins
  have hnodup := hs.nodup_path
  have htook := hs.tookUp
  rw [hpath] at hbegins hnodup htook
  rw [hframes, List.tail_cons] at htook
  simp only [Search.retreat, hpath] at hset ⊢
  -- the frame below, if any, becomes the top frame, so where it was left no longer matters
  cases hbefore with
  | nil => exact ⟨Or.inl rfl, List.nodup_nil, hset, .nil, .nil, hs.simplePath⟩
  | cons hnext hbefore =>
    rw [List.getLast?_cons_cons] at hbegins
    rw [List.dropLast_cons_cons] at htook
    exact ⟨Or.inr (hbegins.resolve_left (List.cons_ne_nil _ _)), (List.nodup_cons.mp hnodup).2,
      hset, .cons hnext hbefore, (List.forall₂_cons.mp htook).2, hs.simplePath⟩

/-- The next successor of the top frame is awaited once the frame took it up. -/
theorem Aligned.awaits (hs : s.Aligned start) (hframes : s.frames = frame :: outer)
    (hnext : next? s.onPath frame = some (node, after)) :
    ({ s with frames := after :: outer } : Search N).Awaits start node := by
  obtain ⟨last, before, hpath, hlast, hbefore⟩ := hs.exists_path_eq hframes
  obtain ⟨hafter, htook⟩ := hlast.next hnext
  have hbegins := hs.begins
  have htooks := hs.tookUp
  rw [hpath] at hbegins
  rw [hframes, List.tail_cons] at htooks
  constructor
  · refine ⟨hs.begins, hs.nodup_path, hs.mem_onPath, ?_, htooks, hs.simplePath⟩
    rw [hpath]
    exact .cons hafter hbefore
  · exact fun h => (next?_spec hnext).2.1 ((hs.mem_onPath node).mpr h)
  · rw [hpath, List.getLast?_cons_cons]
    exact hbegins.resolve_left (List.cons_ne_nil _ _)
  · rw [hpath] at htooks ⊢
    rw [List.dropLast_cons_cons]
    exact .cons htook htooks

theorem Aligned.step (hs : s.Aligned start) (h : s.step bounds source = .ok t) :
    t.Aligned start := by
  rcases step_cases s with ⟨-, hstep⟩ | ⟨_, outer, hframes, -, hstep⟩ |
    ⟨_, outer, node, after, hframes, hnext, hstep⟩
  · cases (hstep bounds source).symm.trans h
  · rw [hstep] at h
    exact Except.ok.inj h ▸ hs.retreat hframes
  · rw [hstep] at h
    exact (hs.awaits hframes hnext).visit h

/-- Every stage of a walk is aligned. -/
theorem Stage.aligned (h : Stage bounds source start (.ok s)) : s.Aligned start := by
  generalize hc : (.ok s : Except (Outcome N) (Search N)) = c at h
  induction h generalizing s with
  | refl => exact (awaits_empty start).visit hc.symm
  | tail _ hstep ih =>
    obtain ⟨s', rfl, rfl⟩ := hstep
    exact (ih rfl).step hc.symm

/-! ## Steps that look first -/

/-- The successors that a frame did not take up, unless it took up more than there are. -/
def pending? (frame : Frame N) : Option (List N) :=
  if frame.taken ≤ frame.successors.length then some (frame.successors.drop frame.taken)
  else none

/-- The next successor by its place, if it has one, and the frame after it was taken up. -/
def checkedNext (onPath : List N) (frame : Frame N) : Option (Option (N × Frame N)) :=
  (pending? frame).bind fun pending =>
    match pending.findIdx? (· ∉ onPath) with
    | none => some none
    | some offset =>
      frame.successors[frame.taken + offset]?.map fun node =>
        some (node, { frame with taken := frame.taken + offset + 1 })

/-- The hops of the path, if it has a node. -/
def hops? (s : Search N) : Option Nat :=
  if s.path.isEmpty then none else some (s.path.length - 1)

/-- Takes the last node off the path, if there is one. -/
def checkedRetreat (s : Search N) : Option (Search N) :=
  if s.path.isEmpty then none else some s.retreat

def checkedExpand (s : Search N) (successors : List N) : Option (Search N) :=
  if successors.isEmpty then s.record.checkedRetreat
  else some { s with frames := ⟨successors, 0⟩ :: s.frames }

def checkedAsk (bounds : Bounds) (source : Source N) (s : Search N) (node : N) :
    Option (Except (Outcome N) (Search N)) :=
  if bounds.cancelled s.memo.length then some (fail .cancelled s.asked)
  else if bounds.overdue s.memo.length then some (fail .budgetExceeded s.asked)
  else
    match source s.asked node with
    | .error cause => some (fail (.lookupFailed node cause) (node :: s.asked))
    | .ok successors =>
      (checkedExpand { s with memo := (node, successors) :: s.memo } successors).map .ok

/-- Enters a node as `visit` does, but counts the hops after entering it and looks for a node
before leaving it. -/
def checkedVisit (bounds : Bounds) (source : Source N) (s : Search N) (node : N) :
    Option (Except (Outcome N) (Search N)) :=
  (s.advance node).hops?.bind fun hops =>
    if bounds.maxDepth.any (· ≤ hops) then (s.advance node).record.checkedRetreat.map .ok
    else
      match s.remembered? node with
      | some successors => ((s.advance node).checkedExpand successors).map .ok
      | none => (s.advance node).checkedAsk bounds source node

/-- A step that looks first whether there is what it takes; none if not. -/
def checkedStep (bounds : Bounds) (source : Source N) (s : Search N) :
    Option (Except (Outcome N) (Search N)) :=
  match s.frames with
  | [] => some (.error s.finished)
  | frame :: outer =>
    (checkedNext s.onPath frame).bind fun next =>
      match next with
      | some (node, frame) =>
        ({ s with frames := frame :: outer } : Search N).checkedVisit bounds source node
      | none => ({ s with frames := outer } : Search N).checkedRetreat.map .ok

theorem checkedNext_eq (htaken : frame.taken ≤ frame.successors.length) :
    checkedNext onPath frame = some (next? onPath frame) := by
  rw [checkedNext, pending?, if_pos htaken, Option.bind_some]
  cases hnext : next? onPath frame with
  | none =>
    have hremaining : remaining onPath frame = [] := by
      cases h : remaining onPath frame with
      | nil => rfl
      | cons node nodes =>
        obtain ⟨after, hsome, -⟩ := next?_eq_some h
        cases hnext.symm.trans hsome
    have hindex : (frame.successors.drop frame.taken).findIdx? (· ∉ onPath) = none :=
      List.findIdx?_eq_none_iff.mpr fun n hn => by
        simpa using List.filter_eq_nil_iff.mp hremaining n hn
    rw [hindex]
  | some next =>
    obtain ⟨node, after⟩ := next
    obtain ⟨passed, rest, hpending, hpassed, hnode, rfl⟩ := exists_passed_of_next? hnext
    have hindex : (frame.successors.drop frame.taken).findIdx? (· ∉ onPath) =
        some passed.length := by
      have hnone : passed.findIdx? (· ∉ onPath) = none :=
        List.findIdx?_eq_none_iff.mpr fun n hn => by simpa using hpassed n hn
      rw [hpending, List.findIdx?_append, hnone, List.findIdx?_cons, if_pos (by simpa using hnode),
        Option.map_some, Nat.zero_add, Option.none_or]
    have hget : frame.successors[frame.taken + passed.length]? = some node := by
      rw [← List.getElem?_drop, hpending, List.getElem?_append_right (Nat.le_refl _),
        Nat.sub_self, List.getElem?_cons_zero]
    rw [hindex]
    dsimp only
    rw [hget, Option.map_some, Nat.add_assoc]

theorem checkedRetreat_eq (hpath : s.path ≠ []) : s.checkedRetreat = some s.retreat := by
  rw [checkedRetreat, if_neg (by rwa [List.isEmpty_iff])]

theorem checkedExpand_eq (hpath : s.path ≠ []) (successors : List N) :
    s.checkedExpand successors = some (s.expand successors) := by
  have hrecord : s.record.path ≠ [] := hpath
  rw [checkedExpand, checkedRetreat_eq hrecord, Search.expand]
  split <;> rfl

theorem checkedAsk_eq (hpath : s.path ≠ []) (bounds : Bounds) (source : Source N) (node : N) :
    s.checkedAsk bounds source node = some (s.ask bounds source node) := by
  rw [checkedAsk, ask_eq]
  split
  · rfl
  split
  · rfl
  cases source s.asked node with
  | error cause => rfl
  | ok successors =>
    have hlearn : ({ s with memo := (node, successors) :: s.memo } : Search N).path ≠ [] := hpath
    dsimp only
    rw [checkedExpand_eq hlearn, Option.map_some, receive]

/-- Entering a node finds all it takes, since the node itself is on the path then. -/
theorem checkedVisit_eq (bounds : Bounds) (source : Source N) (s : Search N) (node : N) :
    s.checkedVisit bounds source node = some (s.visit bounds source node) := by
  have hpath : (s.advance node).path ≠ [] := List.cons_ne_nil _ _
  have hrecord : (s.advance node).record.path ≠ [] := List.cons_ne_nil _ _
  have hhops : (s.advance node).hops? = some s.path.length := rfl
  rw [checkedVisit, hhops, Option.bind_some, visit_eq, checkedRetreat_eq hrecord]
  split
  · rfl
  cases s.remembered? node with
  | some successors =>
    dsimp only
    rw [checkedExpand_eq hpath, Option.map_some]
  | none => exact checkedAsk_eq hpath bounds source node

/-- A step of an aligned search finds all it takes. -/
theorem Aligned.checkedStep_eq (hs : s.Aligned start) (bounds : Bounds) (source : Source N) :
    s.checkedStep bounds source = some (s.step bounds source) := by
  cases hframes : s.frames with
  | nil => rw [checkedStep, hframes, step_of_nil hframes]
  | cons frame outer =>
    obtain ⟨last, before, hpath, hlast, -⟩ := hs.exists_path_eq hframes
    have hne : ({ s with frames := outer } : Search N).path ≠ [] := by
      change s.path ≠ []
      rw [hpath]
      exact List.cons_ne_nil _ _
    rw [checkedStep, hframes]
    dsimp only
    rw [checkedNext_eq hlast.taken_le, Option.bind_some]
    cases hnext : next? s.onPath frame with
    | none =>
      dsimp only
      rw [checkedRetreat_eq hne, Option.map_some, step_of_done hframes hnext]
    | some next =>
      rw [step_of_next hframes hnext]
      exact checkedVisit_eq ..

/-- Whatever is answered and whenever, a walk keeps its path, the set and the frames in agreement:
before every step there are as many nodes on the path as frames, the path begins with the start if
there are any, and otherwise it is empty, and so is the set.  So no step, and not the entry of the
start either, reads beyond the successors of a frame, counts the hops of an empty path or takes a
node off it. -/
theorem walk_stays_aligned (bounds : Bounds) (source : Source N) (start : N) :
    ({} : Search N).checkedVisit bounds source start =
        some (({} : Search N).visit bounds source start) ∧
      ∀ s, Stage bounds source start (.ok s) →
        s.Aligned start ∧ s.path.length = s.frames.length ∧
        (s.frames ≠ [] → s.path.getLast? = some start) ∧
        (s.frames = [] → s.path = [] ∧ s.onPath = []) ∧
        s.checkedStep bounds source = some (s.step bounds source) := by
  refine ⟨checkedVisit_eq bounds source {} start, fun s hstage => ?_⟩
  have hs := hstage.aligned
  have hlength := hs.opened.length_eq
  have hempty : s.path = [] ↔ s.frames = [] := by
    rw [← List.length_eq_zero_iff, hlength, List.length_eq_zero_iff]
  refine ⟨hs, hlength, fun hframes => ?_, fun hframes => ?_, hs.checkedStep_eq bounds source⟩
  · exact hs.begins.resolve_left (hempty.not.mpr hframes)
  · have hpath := hempty.mpr hframes
    refine ⟨hpath, List.eq_nil_iff_forall_not_mem.mpr fun n hn => ?_⟩
    rw [hs.mem_onPath, hpath] at hn
    cases hn

/-- From node 1 a walk comes back to the start, to a node without successors, and on. -/
def sideBranch : Source Nat :=
  fun _ n => .ok (match n with | 0 => [1, 2] | 1 => [0, 3, 2] | 2 => [1, 4] | _ => [])

/-- The walk from 0 after it left node 3 and entered node 2. -/
def sideBranchStage : Search Nat where
  memo := [(2, [1, 4]), (3, []), (1, [0, 3, 2]), (0, [1, 2])]
  path := [2, 1, 0]
  onPath := [2, 1, 0]
  frames := [⟨[1, 4], 0⟩, ⟨[0, 3, 2], 3⟩, ⟨[1, 2], 1⟩]
  found := [[0, 1, 3]]

theorem walk_stays_aligned_sideBranch :
    Stage {} sideBranch 0 (.ok sideBranchStage) ∧ sideBranchStage.Aligned 0 ∧
      sideBranchStage.checkedStep {} sideBranch =
        some (sideBranchStage.step {} sideBranch) := by
  have hstage : Stage {} sideBranch 0 (.ok sideBranchStage) :=
    ((Relation.ReflTransGen.refl.tail ⟨_, rfl, rfl⟩).tail ⟨_, rfl, rfl⟩).tail ⟨_, rfl, rfl⟩
  obtain ⟨haligned, -, -, -, hchecked⟩ := (walk_stays_aligned {} sideBranch 0).2 _ hstage
  exact ⟨hstage, haligned, hchecked⟩

end Search
end Walk
end CallImpact
