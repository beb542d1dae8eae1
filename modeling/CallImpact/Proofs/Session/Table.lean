import CallImpact.Proofs.Graph.Neighbours
import CallImpact.Proofs.Walk.Lookups
import CallImpact.Session

/-!
# The table of a session does not show

A session computes the table of neighbours when it first looks up the neighbours of a known
descriptor, and keeps it.  Whether it has the table makes no difference to what it answers:
a computation in a session has the result that the graph alone determines, and it leaves the
session as a list of lookups leaves it, which the graph alone determines as well (`Performs`).
A walk in a session performs the walk over the graph and the lookups of its questions.  So the
table is there exactly after a lookup of a known descriptor.
-/

namespace CallImpact

/-- The answer with nothing said about the table. -/
def Answer.hideTable : Answer → Answer
  | .stats summary => .stats { summary with tableReady := false }
  | answer => answer

namespace FunctionGraph

/-- The descriptor is the one of a vertex. -/
def Knows (g : FunctionGraph) (d : Descriptor) : Prop :=
  (g.indexOf d).isSome = true

/-- The descriptors whose neighbours are looked up for the neighbourhoods of functions. -/
def lookupsOf (functions : List LocatedFunction) : List Descriptor :=
  functions.flatMap fun f => [f.descriptor, f.descriptor]

/-- The descriptors whose neighbours are looked up for a request, in order. -/
def lookups (g : FunctionGraph) : Request → List Descriptor
  | .neighbours d _ => [d]
  | .neighbourhood f => lookupsOf [f]
  | .query f _ .oneHop => [f.descriptor]
  | .query f r (.chains hops) =>
    if g.contains f then (g.walk { maxDepth := some hops.toNat } r f.descriptor).lookups
    else []
  | .walk bounds r d => (g.walk bounds r d).lookups
  | .neighbourhoodsBySignature s => lookupsOf (g.withSignature s)
  | .neighbourhoodsByLines path lines => lookupsOf (g.touching path lines)
  | .digestBatches digestBytes size =>
    if hasRoom digestBytes size.toNat then lookupsOf g.vertices else []
  | .allNeighbourhoods | .digestStore => lookupsOf g.vertices
  | .stats | .functions | .edges _ | .function _ | .contains _ | .bySignature _
  | .byIndexName _ | .byLines _ _ | .reopen => []

/-- The request cannot be answered without the neighbours of some vertex. -/
def NeedsTable (g : FunctionGraph) : Request → Prop
  | .neighbours d _ => g.Knows d
  | .neighbourhood f => g.Knows f.descriptor
  | .query f _ .oneHop => g.Knows f.descriptor
  | .query f _ (.chains hops) => g.Knows f.descriptor ∧ hops ≠ 0
  | .walk bounds _ d => g.Knows d ∧ bounds.AllowsLookup
  | .neighbourhoodsBySignature s => g.withSignature s ≠ []
  | .neighbourhoodsByLines path lines => g.touching path lines ≠ []
  | .digestBatches digestBytes size => hasRoom digestBytes size.toNat ∧ g.vertices ≠ []
  | .allNeighbourhoods | .digestStore => g.vertices ≠ []
  | .stats | .functions | .edges _ | .function _ | .contains _ | .bySignature _
  | .byIndexName _ | .byLines _ _ | .reopen => False

/-- What the graph answers by itself. -/
def answer (g : FunctionGraph) : Request → Answer
  | .stats | .reopen =>
    .stats ⟨UInt64.ofNat g.callGraph.order, UInt64.ofNat g.callGraph.edges.length, false⟩
  | .functions => .functions g.vertices
  | .edges r => .edges (g.edges r)
  | .neighbours d r => .functions (g.neighbours d r)
  | .function d => .function (g.function? d)
  | .contains f => .contains (g.contains f)
  | .bySignature s => .functions (g.withSignature s)
  | .byIndexName n => .functions (g.withIndexName n)
  | .byLines path lines => .functions (g.touching path lines)
  | .neighbourhood f => .neighbourhoods [g.neighbourhood f]
  | .query f r depth => .related (g.query f r depth)
  | .walk bounds r d => .outcome (g.walk bounds r d)
  | .neighbourhoodsBySignature s => .neighbourhoods ((g.withSignature s).map g.neighbourhood)
  | .neighbourhoodsByLines path lines =>
    .neighbourhoods ((g.touching path lines).map g.neighbourhood)
  | .allNeighbourhoods => .neighbourhoods (g.vertices.map g.neighbourhood)
  | .digestBatches digestBytes size => .batches (g.digestBatches? digestBytes size)
  | .digestStore => .store g.digestStore

end FunctionGraph

namespace Session

open FunctionGraph

/-- The session is one about the graph, and if it has a table, it is the one of the graph. -/
structure Serves (s : Session) (g : FunctionGraph) : Prop where
  graph_eq : s.graph = g
  table_eq : s.table = none ∨ s.table = some g.neighbourTable

/-- The session after a lookup of the neighbours of a descriptor. -/
def lookUp (s : Session) (d : Descriptor) : Session :=
  if (s.graph.indexOf d).isSome then s.withTable else s

/-- In every session about the graph the computation has the result and leaves the session
that lookups of the descriptors leave. -/
def Performs {α : Type} (g : FunctionGraph) (m : StateM Session α) (result : α)
    (asked : List Descriptor) : Prop :=
  ∀ s : Session, s.Serves g → m.run s = (result, asked.foldl lookUp s)

variable {g : FunctionGraph} {s : Session} {α β : Type}

theorem serves_ofGraph (g : FunctionGraph) : (ofGraph g).Serves g :=
  ⟨rfl, Or.inl rfl⟩

namespace Serves

theorem currentTable_eq (hs : s.Serves g) : s.currentTable = g.neighbourTable := by
  rw [currentTable, hs.graph_eq]
  rcases hs.table_eq with htable | htable
  · rw [htable, Option.getD_none]
  · rw [htable, Option.getD_some]

theorem lookUp (hs : s.Serves g) (d : Descriptor) : (s.lookUp d).Serves g := by
  rw [Session.lookUp]
  split
  · exact ⟨hs.graph_eq, Or.inr (congrArg some hs.currentTable_eq)⟩
  · exact hs

theorem lookUps (hs : s.Serves g) (asked : List Descriptor) :
    (asked.foldl Session.lookUp s).Serves g := by
  induction asked generalizing s with
  | nil => exact hs
  | cons d rest ih => exact ih (hs.lookUp d)

end Serves

/-- Lookups leave a session with its table if one of them is about a known descriptor. -/
theorem foldl_lookUp (s : Session) (asked : List Descriptor) :
    asked.foldl lookUp s =
      if asked.any fun d => (s.graph.indexOf d).isSome then s.withTable else s := by
  induction asked generalizing s with
  | nil => rfl
  | cons d rest ih =>
    rw [List.foldl_cons, ih, List.any_cons, lookUp]
    by_cases hd : (s.graph.indexOf d).isSome = true
    · -- a table that is there is kept
      have hkept : s.withTable.withTable = s.withTable := rfl
      rw [if_pos hd, hd, Bool.true_or, if_pos rfl, hkept, ite_self]
    · rw [if_neg hd, Bool.eq_false_iff.mpr hd, Bool.false_or]

theorem isSome_table_foldl_lookUp (hs : s.Serves g) (asked : List Descriptor) :
    (asked.foldl lookUp s).table.isSome = true ↔
      s.table.isSome = true ∨ ∃ d ∈ asked, g.Knows d := by
  have hany : (asked.any fun d => (s.graph.indexOf d).isSome) = true ↔
      ∃ d ∈ asked, g.Knows d := by
    rw [hs.graph_eq, List.any_eq_true]
    rfl
  rw [foldl_lookUp, ← hany]
  split
  · rename_i hknown
    exact ⟨fun _ => Or.inr hknown, fun _ => rfl⟩
  · rename_i hunknown
    rw [or_iff_left hunknown]

/-! ## What computations perform -/

theorem performs_pure (g : FunctionGraph) (a : α) : Performs g (pure a) a [] :=
  fun _ _ => rfl

theorem Performs.bind {m : StateM Session α} {f : α → StateM Session β} {a : α} {b : β}
    {first rest : List Descriptor} (hm : Performs g m a first) (hf : Performs g (f a) b rest) :
    Performs g (m >>= f) b (first ++ rest) := by
  intro s hs
  rw [StateT.run_bind, hm s hs, List.foldl_append]
  exact hf _ (hs.lookUps first)

theorem Performs.bind_pure {m : StateM Session α} {a : α} {asked : List Descriptor}
    (hm : Performs g m a asked) (f : α → β) :
    Performs g (m >>= fun a => pure (f a)) (f a) asked := by
  have hbind := hm.bind (performs_pure g (f a)) (f := fun a => pure (f a))
  rwa [List.append_nil] at hbind

/-- What a computation reads off the graph of its session is known beforehand. -/
theorem Performs.get_bind {f : Session → StateM Session β} {b : β} {asked : List Descriptor}
    (hf : ∀ s : Session, s.graph = g → Performs g (f s) b asked) :
    Performs g (get >>= f) b asked :=
  fun s hs => hf s hs.graph_eq s hs

theorem performs_neighbours (g : FunctionGraph) (d : Descriptor) (r : Relation) :
    Performs g (neighbours d r) (g.neighbours d r) [d] := by
  intro s hs
  rw [run_neighbours, hs.currentTable_eq, List.foldl_cons, List.foldl_nil, lookUp, hs.graph_eq,
    FunctionGraph.neighbours]

theorem performs_neighbourhood (g : FunctionGraph) (f : LocatedFunction) :
    Performs g (neighbourhood f) (g.neighbourhood f) [f.descriptor, f.descriptor] :=
  (performs_neighbours g f.descriptor .calls).bind
    ((performs_neighbours g f.descriptor .callers).bind_pure _)

theorem performs_neighbourhoods (g : FunctionGraph) (functions : List LocatedFunction) :
    Performs g (neighbourhoods functions) (functions.map g.neighbourhood)
      (lookupsOf functions) := by
  induction functions with
  | nil => exact performs_pure g []
  | cons f rest ih =>
    exact (performs_neighbourhood g f).bind (ih.bind_pure fun others =>
      g.neighbourhood f :: others)

/-- A question of a walk leaves the session as a lookup of the neighbours does. -/
theorem after_lookup (s : Session) (r : Relation) (d : Descriptor) :
    (lookup r).after s d = s.lookUp d := by
  change ((neighbours d r >>= _).run s).2 = s.lookUp d
  rw [StateT.run_bind, run_neighbours]
  rfl

/-- A walk looks up the neighbours of the nodes that it asks about. -/
theorem performs_walk (g : FunctionGraph) (bounds : Walk.Bounds) (r : Relation)
    (d : Descriptor) :
    Performs g (walk bounds r d) (g.walk bounds r d) (g.walk bounds r d).lookups := by
  intro s hs
  have hanswers : (lookup r).answers s = g.lookup r := by
    change s.graph.lookupIn s.currentTable r = g.lookup r
    rw [hs.graph_eq, hs.currentTable_eq, FunctionGraph.lookup]
  have hafter : (lookup r).after = lookUp := funext₂ fun s d => after_lookup s r d
  rw [Session.walk, (lookup r).run_walk, hanswers, hafter, FunctionGraph.walk]

theorem performs_query (g : FunctionGraph) (f : LocatedFunction) (r : Relation)
    (depth : Reach) :
    Performs g (query f r depth) (g.query f r depth) (g.lookups (.query f r depth)) := by
  cases depth with
  | oneHop =>
    exact (performs_neighbours g f.descriptor r).bind_pure
      (fun functions => Except.ok (QueryAnswer.oneHop functions))
  | chains hops =>
    apply Performs.get_bind
    rintro s rfl
    by_cases hf : s.graph.contains f = true
    · simp only [FunctionGraph.query, lookups, if_pos hf]
      exact (performs_walk s.graph { maxDepth := some hops.toNat } r f.descriptor).bind_pure
        s.graph.relatedByChains
    · simp only [FunctionGraph.query, lookups, if_neg hf]
      exact performs_pure s.graph _

theorem performs_digests (g : FunctionGraph) :
    Performs g digests g.digests (lookupsOf g.vertices) := by
  apply Performs.get_bind
  rintro s rfl
  have hdigests := (performs_neighbourhoods s.graph s.graph.vertices).bind_pure fun all =>
    all.map Neighbourhood.digest
  rw [List.map_map] at hdigests
  exact hdigests

/-! ## Answers -/

/-- What is read off the graph alone needs no lookups. -/
theorem performs_read (g : FunctionGraph) (f : FunctionGraph → Answer) :
    Performs g (get >>= fun s => pure (f s.graph)) (f g) [] := by
  apply Performs.get_bind
  rintro s rfl
  exact performs_pure s.graph _

theorem performs_neighbourhoodsOf (g : FunctionGraph)
    (select : FunctionGraph → List LocatedFunction) :
    Performs g
      (get >>= fun s => neighbourhoods (select s.graph) >>= fun all =>
        pure (Answer.neighbourhoods all))
      (Answer.neighbourhoods ((select g).map g.neighbourhood)) (lookupsOf (select g)) := by
  apply Performs.get_bind
  rintro s rfl
  exact (performs_neighbourhoods s.graph _).bind_pure Answer.neighbourhoods

/-- Without room for a batch nothing is looked up. -/
theorem performs_digestBatches (g : FunctionGraph) (digestBytes : Nat) (size : UInt64) :
    Performs g (Session.answer (.digestBatches digestBytes size))
      (.batches (g.digestBatches? digestBytes size))
      (g.lookups (.digestBatches digestBytes size)) := by
  simp only [Session.answer, digestBatches?, batches?, lookups]
  split
  · exact (performs_digests g).bind_pure fun ds =>
      Answer.batches (some (batches size.toNat ds))
  · exact performs_pure g _

/-- A session answers a request as its graph does, and is left by the lookups that the graph
determines. -/
def AnswersAlone (g : FunctionGraph) (request : Request) : Prop :=
  ∀ s : Session, s.Serves g →
    ((Session.answer request).run s).1.hideTable = g.answer request ∧
      ((Session.answer request).run s).2 = (g.lookups request).foldl lookUp s

theorem Performs.answersAlone {request : Request}
    (h : Performs g (Session.answer request) (g.answer request) (g.lookups request)) :
    AnswersAlone g request := by
  intro s hs
  rw [h s hs]
  refine ⟨?_, rfl⟩
  cases request <;> rfl

/-- The summary is the only answer that says something about the table. -/
theorem hideTable_stats (hs : s.Serves g) :
    (Answer.stats s.stats).hideTable = g.answer .stats := by
  rw [stats, hs.graph_eq]
  rfl

theorem answersAlone (g : FunctionGraph) (request : Request) : AnswersAlone g request := by
  cases request with
  | stats => exact fun s hs => ⟨hideTable_stats hs, rfl⟩
  | reopen => exact fun s hs => ⟨hideTable_stats hs, rfl⟩
  | functions => exact (performs_read g fun g => .functions g.vertices).answersAlone
  | edges r => exact (performs_read g fun g => .edges (g.edges r)).answersAlone
  | function d => exact (performs_read g fun g => .function (g.function? d)).answersAlone
  | contains f => exact (performs_read g fun g => .contains (g.contains f)).answersAlone
  | bySignature s =>
    exact (performs_read g fun g => .functions (g.withSignature s)).answersAlone
  | byIndexName n =>
    exact (performs_read g fun g => .functions (g.withIndexName n)).answersAlone
  | byLines path lines =>
    exact (performs_read g fun g => .functions (g.touching path lines)).answersAlone
  | neighbours d r =>
    exact ((performs_neighbours g d r).bind_pure Answer.functions).answersAlone
  | neighbourhood f =>
    exact ((performs_neighbourhood g f).bind_pure fun n =>
      Answer.neighbourhoods [n]).answersAlone
  | query f r depth =>
    exact ((performs_query g f r depth).bind_pure Answer.related).answersAlone
  | walk bounds r d =>
    exact ((performs_walk g bounds r d).bind_pure Answer.outcome).answersAlone
  | neighbourhoodsBySignature s =>
    exact (performs_neighbourhoodsOf g fun g => g.withSignature s).answersAlone
  | neighbourhoodsByLines path lines =>
    exact (performs_neighbourhoodsOf g fun g => g.touching path lines).answersAlone
  | allNeighbourhoods =>
    exact (performs_neighbourhoodsOf g FunctionGraph.vertices).answersAlone
  | digestBatches digestBytes size =>
    exact (performs_digestBatches g digestBytes size).answersAlone
  | digestStore =>
    exact ((performs_digests g).bind_pure fun ds =>
      Answer.store (.ofList ds)).answersAlone

/-! ## Sequences of requests -/

/-- The session after it answered requests, one after another. -/
def after (s : Session) (requests : List Request) : Session :=
  requests.foldl (fun s request => ((Session.answer request).run s).2) s

theorem after_eq_foldl_lookUp (hs : s.Serves g) (requests : List Request) :
    s.after requests = (requests.flatMap g.lookups).foldl lookUp s := by
  induction requests generalizing s with
  | nil => rfl
  | cons request rest ih =>
    obtain ⟨-, hafter⟩ := answersAlone g request s hs
    rw [after, List.foldl_cons, hafter, List.flatMap_cons, List.foldl_append]
    exact ih (hs.lookUps (g.lookups request))

theorem Serves.after (hs : s.Serves g) (requests : List Request) :
    (s.after requests).Serves g := by
  rw [after_eq_foldl_lookUp hs]
  exact hs.lookUps _

theorem isSome_table_after (g : FunctionGraph) (requests : List Request) :
    ((ofGraph g).after requests).table.isSome = true ↔
      ∃ request ∈ requests, ∃ d ∈ g.lookups request, g.Knows d := by
  have hnone : ¬ (ofGraph g).table.isSome = true := Bool.false_ne_true
  rw [after_eq_foldl_lookUp (serves_ofGraph g), isSome_table_foldl_lookUp (serves_ofGraph g),
    or_iff_right hnone]
  constructor
  · rintro ⟨d, hd, hknown⟩
    obtain ⟨request, hrequest, hd⟩ := List.mem_flatMap.mp hd
    exact ⟨request, hrequest, d, hd, hknown⟩
  · rintro ⟨request, hrequest, d, hd, hknown⟩
    exact ⟨d, List.mem_flatMap.mpr ⟨request, hrequest, hd⟩, hknown⟩

end Session

/-! ## Which requests look up a known descriptor -/

namespace FunctionGraph

variable {g : FunctionGraph}

theorem knows_of_mem_vertices (hg : g.WellFormed) {f : LocatedFunction} (hf : f ∈ g.vertices) :
    g.Knows f.descriptor := by
  obtain ⟨v, hv⟩ := List.mem_iff_getElem?.mp hf
  rw [Knows, hg.indexOf_of_getElem? hv]
  rfl

/-- A walk looks up a known descriptor if it starts at one and gets to its first question;
from another start it asks about nothing else. -/
theorem exists_known_lookup_walk_iff (g : FunctionGraph) (bounds : Walk.Bounds) (r : Relation)
    (d : Descriptor) :
    (∃ d' ∈ (g.walk bounds r d).lookups, g.Knows d') ↔ g.Knows d ∧ bounds.AllowsLookup := by
  constructor
  · rintro ⟨d', hd', hknown⟩
    have hallows : bounds.AllowsLookup := by
      by_contra hnot
      rw [walk, (g.lookup r).lookups_walk_of_not_allowsLookup hnot] at hd'
      cases hd'
    refine ⟨?_, hallows⟩
    by_contra hunknown
    have hnone : g.indexOf d = none := by
      rwa [Knows, Bool.not_eq_true, Option.isSome_eq_false_iff, Option.isNone_iff_eq_none]
        at hunknown
    have hsink : (g.lookup r).answer d = .ok [] := by
      have hneighbours := neighbours_of_unknown hnone r
      rw [neighbours] at hneighbours
      simp only [lookup, lookupIn, hneighbours, List.map_nil]
    rw [walk, (g.lookup r).lookups_walk_of_sink hallows hsink, List.mem_singleton] at hd'
    exact hunknown (hd' ▸ hknown)
  · rintro ⟨hknown, hallows⟩
    have hprefix := (g.lookup r).start_prefix_lookups_walk d hallows
    exact ⟨d, hprefix.subset (List.mem_singleton_self d), hknown⟩

theorem exists_known_lookupsOf_iff (hg : g.WellFormed) {functions : List LocatedFunction}
    (hfunctions : ∀ f ∈ functions, f ∈ g.vertices) :
    (∃ d ∈ lookupsOf functions, g.Knows d) ↔ functions ≠ [] := by
  rcases functions with _ | ⟨f, rest⟩
  · simp [lookupsOf]
  · have hf := knows_of_mem_vertices hg (hfunctions f (List.mem_cons_self ..))
    simp only [ne_eq, reduceCtorEq, not_false_eq_true, iff_true]
    exact ⟨f.descriptor, by simp [lookupsOf], hf⟩

/-- A request looks up a known descriptor exactly if it needs the neighbours of a vertex. -/
theorem exists_known_lookup_iff (hg : g.WellFormed) (request : Request) :
    (∃ d ∈ g.lookups request, g.Knows d) ↔ g.NeedsTable request := by
  have hfilter : ∀ p : LocatedFunction → Bool, ∀ f ∈ g.vertices.filter p, f ∈ g.vertices :=
    fun p f hf => (List.mem_filter.mp hf).1
  cases request with
  | neighbours d r => simp [lookups, NeedsTable]
  | neighbourhood f => simp [lookups, lookupsOf, NeedsTable]
  | query f r depth =>
    cases depth with
    | oneHop => simp [lookups, NeedsTable]
    | chains hops =>
      have hhops : hops ≠ 0 ↔ ({ maxDepth := some hops.toNat } : Walk.Bounds).AllowsLookup := by
        simp [Walk.Bounds.AllowsLookup, ← UInt64.toNat_inj]
      rw [NeedsTable, hhops, ← exists_known_lookup_walk_iff g _ r, lookups]
      by_cases hf : g.contains f = true
      · rw [if_pos hf]
      · rw [if_neg hf, exists_known_lookup_walk_iff]
        simp only [List.not_mem_nil, false_and, exists_false, false_iff]
        exact fun h => hf h.1
  | walk bounds r d => exact exists_known_lookup_walk_iff g bounds r d
  | neighbourhoodsBySignature s => exact exists_known_lookupsOf_iff hg (hfilter _)
  | neighbourhoodsByLines path lines => exact exists_known_lookupsOf_iff hg (hfilter _)
  | digestBatches digestBytes size =>
    simp only [lookups, NeedsTable]
    by_cases hroom : hasRoom digestBytes size.toNat = true
    · rw [if_pos hroom, exists_known_lookupsOf_iff hg fun f hf => hf, and_iff_right hroom]
    · rw [if_neg hroom]
      simp [hroom]
  | allNeighbourhoods | digestStore =>
    exact exists_known_lookupsOf_iff hg fun f hf => hf
  | stats | functions | edges r | function d | contains f | bySignature s | byIndexName n
  | byLines path lines | reopen =>
    simp [lookups, NeedsTable]

open Session in
/-- In a session about a built graph every request gets, but for what is said about the
table, the answer that it gets in a new session, whatever was requested before.  The table is
there exactly after a lookup of a known descriptor, and it stays. -/
theorem build_table_hidden (limits : Limits) (functionFiles : List (SourceFile FunctionDecl))
    (occurrenceFiles : List (SourceFile Occurrence)) :
    let g := build limits functionFiles occurrenceFiles
    (∀ requests request,
      ((Session.answer request).run ((ofGraph g).after requests)).1.hideTable =
        ((Session.answer request).run (ofGraph g)).1.hideTable) ∧
      (∀ requests,
        ((ofGraph g).after requests).stats.vertices = (ofGraph g).stats.vertices ∧
          ((ofGraph g).after requests).stats.edges = (ofGraph g).stats.edges ∧
          (((ofGraph g).after requests).stats.tableReady = true ↔
            ∃ request ∈ requests, ∃ d ∈ g.lookups request, g.Knows d)) ∧
      (∀ request, (∃ d ∈ g.lookups request, g.Knows d) ↔ g.NeedsTable request) ∧
      ∀ requests more, ((ofGraph g).after requests).stats.tableReady = true →
        ((ofGraph g).after (requests ++ more)).stats.tableReady = true := by
  intro g
  have hg : g.WellFormed := wellFormed_build limits functionFiles occurrenceFiles
  have hserves := (serves_ofGraph g).after
  refine ⟨?_, ?_, exists_known_lookup_iff hg, ?_⟩
  · intro requests request
    have hlater := (answersAlone g request _ (hserves requests)).1
    have hfirst := (answersAlone g request _ (serves_ofGraph g)).1
    exact hlater.trans hfirst.symm
  · intro requests
    have hgraph := (hserves requests).graph_eq
    refine ⟨?_, ?_, isSome_table_after g requests⟩
    · rw [stats, hgraph, stats]
      rfl
    · rw [stats, hgraph, stats]
      rfl
  · intro requests more hready
    obtain ⟨request, hrequest, hknown⟩ := (isSome_table_after g requests).mp hready
    exact (isSome_table_after g _).mpr ⟨request, List.mem_append_left more hrequest, hknown⟩

open Session in
/-- A walk of no hops and a signature that no function has leave a session without a table.
The callees of a function leave it with one, which it takes into a new session. -/
theorem build_table_hidden_three :
    let s := ofGraph (build {} [threeFunctions "m.go"] [threeOccurrences "m.go"])
    let d : Descriptor := ⟨"m.go", .ofRows 0 5, ⟨"::main||"⟩⟩
    (s.after [.walk { maxDepth := some 0 } .calls d,
        .neighbourhoodsBySignature ⟨"::gamma||"⟩]).stats.tableReady = false ∧
      (s.after [.neighbours d .calls]).stats.tableReady = true ∧
      (s.after ([.neighbours d .calls] ++ [.reopen])).stats.tableReady = true := by
  intro s d
  obtain ⟨-, hready, hneeds, hstays⟩ :=
    build_table_hidden {} [threeFunctions "m.go"] [threeOccurrences "m.go"]
  have hneighbours : (s.after [.neighbours d .calls]).stats.tableReady = true := by
    apply (hready _).2.2.mpr
    refine ⟨_, List.mem_singleton_self _, (hneeds _).mpr ?_⟩
    change (FunctionGraph.indexOf _ d).isSome = true
    decide +kernel
  refine ⟨?_, hneighbours, hstays _ _ hneighbours⟩
  rw [Bool.eq_false_iff]
  intro htable
  obtain ⟨request, hrequest, hknown⟩ := (hready _).2.2.mp htable
  rw [hneeds] at hknown
  rcases List.mem_pair.mp hrequest with rfl | rfl
  · exact hknown.2.1 rfl
  · exact hknown (by decide +kernel)

end FunctionGraph
end CallImpact
