import CallImpact.Walk.Search

/-!
# Walks over finite sources end

A lookup answers every node the same way each time, and only the finitely many
nodes of its domain have successors.  Over a lookup every walk ends: the
*potential* of the frames is a number that every step lowers.  So `Lookup.walk`
runs the search to its end, and `Lookup.walk_eq` says that a run with a bound on
its steps agrees with it as soon as it has an outcome; `Lookup.stepBound` is such
a bound.

The potential of a frame counts its pending successors, each with the greatest
potential a frame one hop further can have.  The hops that are left, its *room*,
end at the depth bound, or when the path holds every node there is.
-/

namespace CallImpact
namespace Walk

/-- A source that answers every node the same way each time, and without
successors outside a finite domain. -/
structure Lookup (N : Type) where
  answer : N → Except String (List N)
  domain : List N
  mem_domain : ∀ node successors, answer node = .ok successors → successors ≠ [] →
    node ∈ domain

namespace Lookup

variable {N : Type} (l : Lookup N)

def source : Source N :=
  fun _ node => l.answer node

/-- The successors of a node, none if there is no answer for it. -/
def successors (node : N) : List N :=
  match l.answer node with
  | .ok successors => successors
  | .error _ => []

def nodes : List N :=
  l.domain.flatMap l.successors

/-- The greatest number of successors of a node. -/
def degree : Nat :=
  (l.domain.map fun node => (l.successors node).length).foldr max 0

/-- How many hops there are from the start of a path to its end at most. -/
def room (bounds : Bounds) : Nat :=
  match bounds.maxDepth with
  | none => l.nodes.length
  | some depth => min depth l.nodes.length

end Lookup

/-- The greatest potential of a frame with that much room. -/
def weight (degree : Nat) : Nat → Nat
  | 0 => 1
  | room + 1 => 1 + degree * (1 + weight degree room)

def Frame.pending {N : Type} (f : Frame N) : Nat :=
  f.successors.length - f.taken

/-- The potential of a frame with that much room. -/
def Frame.potential {N : Type} (degree : Nat) (f : Frame N) : Nat → Nat
  | 0 => 1
  | room + 1 => 1 + f.pending * (1 + weight degree room)

/-- The potential of a stack of frames, of which the outermost has that much room. -/
def potential {N : Type} (degree room : Nat) : List (Frame N) → Nat
  | [] => 0
  | f :: outer => f.potential degree (room - outer.length) + potential degree room outer

namespace Lookup

variable {N : Type} (l : Lookup N)

/-- A number greater than the number of steps of any walk. -/
def stepBound (bounds : Bounds) : Nat :=
  weight l.degree (l.room bounds) + 1

theorem le_foldr_max {n : Nat} {ns : List Nat} (h : n ∈ ns) : n ≤ ns.foldr max 0 := by
  induction ns with
  | nil => cases h
  | cons m ns ih =>
    rw [List.foldr_cons]
    rcases List.mem_cons.mp h with rfl | h
    · exact Nat.le_max_left _ _
    · exact Nat.le_trans (ih h) (Nat.le_max_right _ _)

/-- Answers name known nodes only, and no more than the degree. -/
theorem answer_bounded {node : N} {successors : List N}
    (h : l.answer node = .ok successors) :
    successors ⊆ l.nodes ∧ successors.length ≤ l.degree := by
  have hs : l.successors node = successors := by simp [Lookup.successors, h]
  rcases Decidable.em (successors.length = 0) with h0 | h0
  · rw [List.length_eq_zero_iff] at h0
    subst h0
    exact ⟨List.nil_subset _, Nat.zero_le _⟩
  · have hmem : node ∈ l.domain :=
      l.mem_domain node successors h (fun h => h0 (by simp [h]))
    constructor
    · intro m hm
      exact List.mem_flatMap.mpr ⟨node, hmem, by rwa [hs]⟩
    · apply le_foldr_max
      exact List.mem_map.mpr ⟨node, hmem, by rw [hs]⟩

end Lookup

namespace Search

variable {N : Type}

/-- What every step of a walk over a lookup keeps. -/
structure Fits (l : Lookup N) (bounds : Bounds) (start : N) (s : Search N) : Prop where
  memo_bounded : ∀ entry ∈ s.memo, entry.2 ⊆ l.nodes ∧ entry.2.length ≤ l.degree
  frames_bounded : ∀ frame ∈ s.frames,
    frame.successors ⊆ l.nodes ∧ frame.successors.length ≤ l.degree
  path_nodup : s.path.Nodup
  path_subset : s.path ⊆ start :: l.nodes
  mem_onPath : ∀ node, node ∈ s.onPath ↔ node ∈ s.path
  length_frames : s.frames.length = s.path.length
  frames_le_depth : ∀ depth, bounds.maxDepth = some depth → s.frames.length ≤ depth

theorem fits_empty (l : Lookup N) (bounds : Bounds) (start : N) :
    Search.Fits l bounds start ({} : Search N) :=
  ⟨by simp, by simp, List.nodup_nil, List.nil_subset _, by simp, rfl, by simp⟩

theorem potential_le_weight {degree : Nat} {f : Frame N}
    (h : f.successors.length ≤ degree) (room : Nat) :
    f.potential degree room ≤ weight degree room := by
  cases room with
  | zero => exact Nat.le_refl _
  | succ room =>
    have : f.pending ≤ degree := Nat.le_trans (Nat.sub_le _ _) h
    exact Nat.add_le_add_left (Nat.mul_le_mul_right _ this) 1

theorem potential_pos (degree : Nat) (f : Frame N) (room : Nat) :
    0 < f.potential degree room := by
  cases room with
  | zero => exact Nat.one_pos
  | succ room =>
    rw [Frame.potential, Nat.add_comm]
    exact Nat.succ_pos _

/-- A frame that takes up a successor can pay for the frame of that successor. -/
theorem potential_add_weight_lt {degree room : Nat} {f after : Frame N}
    (h : after.pending < f.pending) :
    after.potential degree (room + 1) + weight degree room <
      f.potential degree (room + 1) := by
  have hmul : (after.pending + 1) * (1 + weight degree room) ≤
      f.pending * (1 + weight degree room) := Nat.mul_le_mul_right _ h
  rw [Nat.add_mul, Nat.one_mul] at hmul
  simp only [Frame.potential]
  omega

theorem lookup_mem [DecidableEq N] {memo : List (N × List N)} {node : N}
    {successors : List N} (h : memo.lookup node = some successors) :
    (node, successors) ∈ memo := by
  obtain ⟨before, after, rfl, -⟩ := List.lookup_eq_some_iff.mp h
  simp

/-! ## What a step keeps -/

section

variable {l : Lookup N} {bounds : Bounds} {start node : N} {s t : Search N}
  {frame after : Frame N} {outer : List (Frame N)}

namespace Fits

theorem not_mem_onPath (hs : s.Fits l bounds start) (hnew : node ∉ s.path) :
    node ∉ s.onPath :=
  fun h => hnew ((hs.mem_onPath node).mp h)

theorem length_path (hs : s.Fits l bounds start) (hframes : s.frames = frame :: outer) :
    s.path.length = outer.length + 1 := by
  rw [← hs.length_frames, hframes, List.length_cons]

theorem frame_bounded (hs : s.Fits l bounds start) (hframes : s.frames = frame :: outer) :
    frame.successors ⊆ l.nodes ∧ frame.successors.length ≤ l.degree :=
  hs.frames_bounded frame (by rw [hframes]; exact List.mem_cons_self ..)

/-- What is remembered and found does not matter as long as the answers are bounded. -/
theorem remember (hs : s.Fits l bounds start) {memo : List (N × List N)}
    {found : List (List N)}
    (hmemo : ∀ entry ∈ memo, entry.2 ⊆ l.nodes ∧ entry.2.length ≤ l.degree) :
    Search.Fits l bounds start { s with memo, found } :=
  ⟨hmemo, hs.frames_bounded, hs.path_nodup, hs.path_subset, hs.mem_onPath, hs.length_frames,
    hs.frames_le_depth⟩

/-- A frame of the same successors may take the place of the top frame. -/
theorem replace (hs : s.Fits l bounds start) (hframes : s.frames = frame :: outer)
    (hsame : after.successors = frame.successors) :
    Search.Fits l bounds start { s with frames := after :: outer } := by
  refine ⟨hs.memo_bounded, ?_, hs.path_nodup, hs.path_subset, hs.mem_onPath, ?_, ?_⟩
  · intro f hf
    rcases List.mem_cons.mp hf with rfl | hf
    · rw [hsame]
      exact hs.frame_bounded hframes
    · exact hs.frames_bounded f (by rw [hframes]; exact List.mem_cons_of_mem _ hf)
  · rw [hs.length_path hframes, List.length_cons]
  · intro depth hd
    have hle := hs.frames_le_depth depth hd
    rwa [hframes] at hle

/-- As long as a node is new, there is room for it. -/
theorem lt_room (hs : s.Fits l bounds start) (hframes : s.frames = frame :: outer)
    (hnew : node ∉ s.path) (hnode : node ∈ l.nodes) :
    outer.length < l.room bounds := by
  have hlength := hs.length_path hframes
  have hfull : (node :: s.path).length ≤ (start :: l.nodes).length :=
    List.Nodup.length_le_of_subset (List.nodup_cons.mpr ⟨hnew, hs.path_nodup⟩)
      (List.cons_subset.mpr ⟨List.mem_cons_of_mem _ hnode, hs.path_subset⟩)
  simp only [List.length_cons, hlength] at hfull
  cases hd : bounds.maxDepth with
  | none =>
    simp only [Lookup.room, hd]
    omega
  | some depth =>
    have hle := hs.frames_le_depth depth hd
    rw [hframes, List.length_cons] at hle
    simp only [Lookup.room, hd]
    omega

end Fits

variable [DecidableEq N]

/-- Leaving the last node of the path closes its frame. -/
theorem Fits.retreat (hs : s.Fits l bounds start) (hframes : s.frames = frame :: outer) :
    (({ s with frames := outer } : Search N).retreat).Fits l bounds start ∧
      (({ s with frames := outer } : Search N).retreat).frames = outer := by
  have hlength := hs.length_path hframes
  obtain ⟨last, rest, hpath⟩ : ∃ last rest, s.path = last :: rest :=
    List.exists_cons_of_length_eq_add_one hlength
  rw [hpath, List.length_cons, Nat.add_right_cancel_iff] at hlength
  have hset := mem_onPath_retreat (s := { s with frames := outer }) hs.mem_onPath hs.path_nodup
  have hnodup := hs.path_nodup
  rw [hpath, List.nodup_cons] at hnodup
  simp only [Search.retreat, hpath] at hset ⊢
  refine ⟨⟨hs.memo_bounded, ?_, hnodup.2, ?_, hset, hlength.symm, ?_⟩, trivial⟩
  · intro f hf
    exact hs.frames_bounded f (by rw [hframes]; exact List.mem_cons_of_mem _ hf)
  · intro n hn
    exact hs.path_subset (by rw [hpath]; exact List.mem_cons_of_mem _ hn)
  · intro depth hd
    have hle := hs.frames_le_depth depth hd
    rw [hframes, List.length_cons] at hle
    exact Nat.le_of_succ_le hle

/-- What entering a node comes to: it is left again, or a frame is opened for it. -/
def Enters (l : Lookup N) (bounds : Bounds) (start : N) (s t : Search N) : Prop :=
  t.Fits l bounds start ∧
    (t.frames = s.frames ∨
      ∃ successors, successors.length ≤ l.degree ∧ t.frames = ⟨successors, 0⟩ :: s.frames)

theorem enters_expand (hs : s.Fits l bounds start) (hnew : node ∉ s.path)
    (hnode : node ∈ start :: l.nodes) {successors : List N}
    (hsucc : successors ⊆ l.nodes ∧ successors.length ≤ l.degree)
    (hdepth : ∀ depth, bounds.maxDepth = some depth → s.path.length < depth) :
    Enters l bounds start s ((s.advance node).expand successors) := by
  cases successors with
  | nil =>
    rw [expand_advance_nil (hs.not_mem_onPath hnew)]
    exact ⟨hs.remember hs.memo_bounded, Or.inl rfl⟩
  | cons first others =>
    refine ⟨⟨hs.memo_bounded, ?_, ?_, ?_, mem_onPath_advance hs.mem_onPath node, ?_, ?_⟩,
      Or.inr ⟨first :: others, hsucc.2, rfl⟩⟩
    · intro frame hframe
      rcases List.mem_cons.mp hframe with rfl | hframe
      · exact hsucc
      · exact hs.frames_bounded frame hframe
    · exact List.nodup_cons.mpr ⟨hnew, hs.path_nodup⟩
    · exact List.cons_subset.mpr ⟨hnode, hs.path_subset⟩
    · exact congrArg (· + 1) hs.length_frames
    · intro depth hd
      have hlt := hdepth depth hd
      rw [← hs.length_frames] at hlt
      exact hlt

theorem visit_enters (hs : s.Fits l bounds start) (hnew : node ∉ s.path)
    (hnode : node ∈ start :: l.nodes) (h : s.visit bounds l.source node = .ok t) :
    Enters l bounds start s t := by
  by_cases hdeep : bounds.maxDepth.any (· ≤ s.path.length) = true
  · rw [visit_eq_of_deep hdeep, retreat_record_advance (hs.not_mem_onPath hnew)] at h
    cases h
    exact ⟨hs.remember hs.memo_bounded, Or.inl rfl⟩
  have hdepth : ∀ depth, bounds.maxDepth = some depth → s.path.length < depth := by
    intro depth hd
    simpa [hd] using hdeep
  rcases visit_cases l.source node hdeep with
    ⟨successors, hmemo, hvisit⟩ | ⟨successors, ha, hvisit⟩ | ⟨failure, lookups, hvisit, -⟩
  · cases hvisit.symm.trans h
    exact enters_expand hs hnew hnode (hs.memo_bounded _ (lookup_mem hmemo)) hdepth
  · cases hvisit.symm.trans h
    have hbounded := l.answer_bounded ha
    have hmemo : ∀ entry ∈ (node, successors) :: s.memo,
        entry.2 ⊆ l.nodes ∧ entry.2.length ≤ l.degree := by
      intro entry hentry
      rcases List.mem_cons.mp hentry with rfl | hentry
      · exact hbounded
      · exact hs.memo_bounded entry hentry
    have hs' : Search.Fits l bounds start { s with memo := (node, successors) :: s.memo } :=
      hs.remember hmemo
    exact enters_expand hs' hnew hnode hbounded hdepth
  · cases hvisit.symm.trans h

theorem fits_of_visit_empty (h : ({} : Search N).visit bounds l.source start = .ok s) :
    s.Fits l bounds start :=
  (visit_enters (fits_empty l bounds start) List.not_mem_nil (List.mem_cons_self ..) h).1

/-- Up to its next successor a frame passes nodes on the path only, and takes up those and the
successor. -/
theorem exists_passed_of_next? {onPath : List N} (h : next? onPath frame = some (node, after)) :
    ∃ passed rest, frame.successors.drop frame.taken = passed ++ node :: rest ∧
      (∀ n ∈ passed, n ∈ onPath) ∧ node ∉ onPath ∧
      after = { frame with taken := frame.taken + (passed.length + 1) } := by
  simp only [next?] at h
  split at h
  · cases h
  · rename_i first rest hdrop
    obtain ⟨rfl, rfl⟩ := Prod.mk.inj (Option.some.inj h)
    have hsplit := List.takeWhile_append_dropWhile (p := fun n => decide (n ∈ onPath))
      (l := frame.successors.drop frame.taken)
    have hpassed := List.all_takeWhile (p := fun n => decide (n ∈ onPath))
      (l := frame.successors.drop frame.taken)
    have hnode := List.head?_dropWhile_not (fun n => decide (n ∈ onPath))
      (frame.successors.drop frame.taken)
    rw [hdrop] at hsplit hnode
    refine ⟨_, rest, hsplit.symm, ?_, by simpa using hnode, ?_⟩
    · intro n hn
      exact of_decide_eq_true (List.all_eq_true.mp hpassed n hn)
    · have hlength := congrArg List.length hsplit
      rw [List.length_append, List.length_cons] at hlength
      congr 2
      omega

/-- The next successor of a frame is one of its pending successors and is not on
the path. -/
theorem next?_spec {onPath : List N} (h : next? onPath frame = some (node, after)) :
    node ∈ frame.successors ∧ node ∉ onPath ∧
      after.successors = frame.successors ∧ after.pending < frame.pending := by
  obtain ⟨passed, rest, hpending, -, hnode, rfl⟩ := exists_passed_of_next? h
  have hmem : node ∈ frame.successors.drop frame.taken := by
    rw [hpending]
    exact List.mem_append_right _ (List.mem_cons_self ..)
  have hlength := congrArg List.length hpending
  rw [List.length_drop, List.length_append, List.length_cons] at hlength
  refine ⟨List.mem_of_mem_drop hmem, hnode, rfl, ?_⟩
  simp only [Frame.pending]
  omega

/-- Every step keeps what fits and lowers the potential. -/
theorem step_lowers (hs : s.Fits l bounds start) (h : s.step bounds l.source = .ok t) :
    t.Fits l bounds start ∧
      potential l.degree (l.room bounds) t.frames <
        potential l.degree (l.room bounds) s.frames := by
  cases hframes : s.frames with
  | nil =>
    rw [step_of_nil hframes] at h
    cases h
  | cons frame outer =>
    cases hnext : next? s.onPath frame with
    | none =>
      rw [step_of_done hframes hnext] at h
      cases h
      obtain ⟨hfits, houter⟩ := hs.retreat hframes
      have hpos := potential_pos l.degree frame (l.room bounds - outer.length)
      rw [houter, potential]
      exact ⟨hfits, Nat.lt_add_of_pos_left hpos⟩
    | some next =>
      obtain ⟨node, after⟩ := next
      rw [step_of_next hframes hnext] at h
      obtain ⟨hmem, hset, hsame, hpending⟩ := next?_spec hnext
      have hnew : node ∉ s.path := fun h => hset ((hs.mem_onPath node).mpr h)
      have hnode : node ∈ l.nodes := (hs.frame_bounded hframes).1 hmem
      obtain ⟨hfits, hcases⟩ :=
        visit_enters (hs.replace hframes hsame) hnew (List.mem_cons_of_mem _ hnode) h
      refine ⟨hfits, ?_⟩
      -- the room of the frame is that of the next one and one hop more
      obtain ⟨room, hroom⟩ : ∃ room, l.room bounds - outer.length = room + 1 :=
        Nat.exists_eq_add_one_of_ne_zero
          (Nat.sub_ne_zero_of_lt (hs.lt_room hframes hnew hnode))
      have hless : after.potential l.degree (room + 1) + weight l.degree room <
          frame.potential l.degree (room + 1) := potential_add_weight_lt hpending
      rcases hcases with heq | ⟨successors, hdegree, heq⟩
      · rw [heq]
        simp only [potential, hroom]
        omega
      · have hroom' : l.room bounds - (outer.length + 1) = room := by omega
        have hle := potential_le_weight (f := ⟨successors, 0⟩) hdegree room
        rw [heq]
        simp only [potential, List.length_cons, hroom, hroom']
        omega

end

variable [DecidableEq N]

/-- The outcome of a search over a lookup: every step lowers the potential, so the
search goes on until there is one. -/
def finish (l : Lookup N) (bounds : Bounds) (start : N) (s : Search N)
    (hs : s.Fits l bounds start) : Outcome N :=
  match h : s.step bounds l.source with
  | .error outcome => outcome
  | .ok t => finish l bounds start t (step_lowers hs h).1
termination_by potential l.degree (l.room bounds) s.frames
decreasing_by exact (step_lowers hs h).2

theorem finish_of_error {l : Lookup N} {bounds : Bounds} {start : N} {s : Search N}
    {outcome : Outcome N} (hs : s.Fits l bounds start)
    (h : s.step bounds l.source = .error outcome) :
    s.finish l bounds start hs = outcome := by
  rw [finish]
  split
  · rename_i hstep
    exact Except.error.inj (hstep.symm.trans h)
  · rename_i hstep
    cases hstep.symm.trans h

theorem finish_of_ok {l : Lookup N} {bounds : Bounds} {start : N} {s t : Search N}
    (hs : s.Fits l bounds start) (h : s.step bounds l.source = .ok t) :
    s.finish l bounds start hs = t.finish l bounds start (step_lowers hs h).1 := by
  rw [finish]
  split
  · rename_i hstep
    cases hstep.symm.trans h
  · rename_i hstep
    cases hstep.symm.trans h
    rfl

theorem finish_eq_of_run {l : Lookup N} {bounds : Bounds} {start : N} {fuel : Nat}
    {s : Search N} {outcome : Outcome N} (hs : s.Fits l bounds start)
    (h : s.run bounds l.source fuel = some outcome) :
    s.finish l bounds start hs = outcome := by
  induction fuel generalizing s with
  | zero => cases h
  | succ fuel ih =>
    rw [run] at h
    cases hstep : s.step bounds l.source with
    | error outcome' =>
      rw [hstep] at h
      rw [finish_of_error hs hstep]
      exact Option.some_inj.mp h
    | ok t =>
      rw [hstep] at h
      rw [finish_of_ok hs hstep]
      exact ih _ h

theorem run_isSome {l : Lookup N} {bounds : Bounds} {start : N} (fuel : Nat) {s : Search N}
    (hs : s.Fits l bounds start)
    (hfuel : potential l.degree (l.room bounds) s.frames < fuel) :
    (s.run bounds l.source fuel).isSome = true := by
  induction fuel generalizing s with
  | zero => omega
  | succ fuel ih =>
    rw [run]
    split
    · rfl
    · rename_i t hstep
      obtain ⟨ht, hlow⟩ := step_lowers hs hstep
      exact ih ht (by omega)

end Search

namespace Lookup

variable {N : Type} [DecidableEq N]

def walk (l : Lookup N) (bounds : Bounds) (start : N) : Outcome N :=
  match h : ({} : Search N).visit bounds l.source start with
  | .error outcome => outcome
  | .ok s => s.finish l bounds start (Search.fits_of_visit_empty h)

theorem walk_of_error {l : Lookup N} {bounds : Bounds} {start : N} {outcome : Outcome N}
    (h : ({} : Search N).visit bounds l.source start = .error outcome) :
    l.walk bounds start = outcome := by
  rw [walk]
  split
  · rename_i hvisit
    exact Except.error.inj (hvisit.symm.trans h)
  · rename_i hvisit
    cases hvisit.symm.trans h

theorem walk_of_ok {l : Lookup N} {bounds : Bounds} {start : N} {s : Search N}
    (h : ({} : Search N).visit bounds l.source start = .ok s) :
    l.walk bounds start = s.finish l bounds start (Search.fits_of_visit_empty h) := by
  rw [walk]
  split
  · rename_i hvisit
    cases hvisit.symm.trans h
  · rename_i hvisit
    cases hvisit.symm.trans h
    rfl

theorem walk_eq {l : Lookup N} {bounds : Bounds} {start : N} {fuel : Nat}
    {outcome : Outcome N} (h : Search.walk bounds l.source fuel start = some outcome) :
    l.walk bounds start = outcome := by
  rw [Search.walk] at h
  cases hvisit : ({} : Search N).visit bounds l.source start with
  | error outcome' =>
    rw [hvisit] at h
    rw [walk_of_error hvisit]
    exact Option.some_inj.mp h
  | ok s =>
    rw [hvisit] at h
    rw [walk_of_ok hvisit]
    exact Search.finish_eq_of_run _ h

theorem walk_isSome (l : Lookup N) (bounds : Bounds) (start : N) :
    (Search.walk bounds l.source (l.stepBound bounds) start).isSome = true := by
  rw [Search.walk]
  split
  · rfl
  · rename_i s hvisit
    obtain ⟨hs, hcases⟩ := Search.visit_enters (Search.fits_empty l bounds start) (by simp)
      (List.mem_cons_self ..) hvisit
    apply Search.run_isSome _ hs
    rcases hcases with heq | ⟨successors, hdegree, heq⟩
    · rw [heq]
      simp [potential, stepBound]
    · rw [heq]
      have := Search.potential_le_weight (f := ⟨successors, 0⟩) hdegree (l.room bounds)
      simp only [potential, List.length_nil, Nat.sub_zero, Nat.add_zero, stepBound]
      omega

theorem walk_stepBound (l : Lookup N) (bounds : Bounds) (start : N) :
    Search.walk bounds l.source (l.stepBound bounds) start = some (l.walk bounds start) := by
  obtain ⟨outcome, h⟩ := Option.isSome_iff_exists.mp (l.walk_isSome bounds start)
  rw [h, walk_eq h]

end Lookup
end Walk
end CallImpact
