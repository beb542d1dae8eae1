import CallImpact.Proofs.ChainTree.Merging
import CallImpact.Proofs.DigestStore.Merging
import CallImpact.Proofs.Document.Nesting
import CallImpact.Proofs.Walk.Refinement

/-!
# Which impact reports are read back

The trees of a report are as deep as its longest chain of callers, and a chain has one node
more than hops.  So the hops asked for bound how deep the document of a report nests: up to
61 hops every report is read back from its text.  Beyond that a long chain makes a report that
is written and not read back.
-/

namespace CallImpact

open Document

/-! ## Chains within the depth bound -/

namespace Walk

open Recursion Search

variable {N : Type} [DecidableEq N] {answer : N → Except String (List N)} {depth : Nat}

/-- Chains that continue a path within the depth bound stay within it. -/
theorem Recursion.length_le_of_call {path : List N} {node : N} {asked asked' : List N}
    {result : Except (Failure N) (List (List N))}
    (h : Call answer (some depth) (fun path _ _ result _ => path.length ≤ depth →
      ∀ chains, result = .ok chains → ∀ chain ∈ chains, chain.length ≤ depth + 1)
      path node asked result asked')
    (hpath : path.length ≤ depth) :
    ∀ chains, result = .ok chains → ∀ chain ∈ chains, chain.length ≤ depth + 1 := by
  have hend : (path ++ [node]).length ≤ depth + 1 := by
    rw [List.length_append, List.length_singleton]
    exact Nat.succ_le_succ hpath
  intro chains hresult chain hchain
  cases h with
  | deep _ =>
    obtain rfl := Except.ok.inj hresult
    exact List.mem_singleton.mp hchain ▸ hend
  | failed _ _ => cases hresult
  | sink _ _ =>
    obtain rfl := Except.ok.inj hresult
    exact List.mem_singleton.mp hchain ▸ hend
  | @branch _ _ blocks hdeep _ _ hblocks =>
    have hlength : (path ++ [node]).length ≤ depth := by
      rw [List.length_append, List.length_singleton]
      exact Nat.succ_le_of_lt (Walk.shallow_iff.mp hdeep depth rfl)
    cases blocks with
    | error failure => cases hresult
    | ok blocks =>
      obtain rfl := Except.ok.inj hresult
      obtain ⟨block, hblock, hmem⟩ := List.mem_flatten.mp hchain
      obtain ⟨next, _, _, hnext⟩ := hblocks.exists_of_mem hblock
      exact hnext hlength block rfl chain hmem

/-- The chains of a walk have no more hops than allowed. -/
theorem Lookup.length_le_of_mem_walk {l : Lookup N} {start : N} {chains : List (List N)}
    (h : (l.walk { maxDepth := some depth } start).result = .ok chains) :
    ∀ chain ∈ chains, chain.length ≤ depth + 1 := by
  have hbound : (some depth).isSome = true ∨ (reachable l.answer start).Finite := Or.inl rfl
  obtain ⟨result, asked, hreturns, hlength⟩ :=
    exists_returns (fun _ _ _ _ _ => length_le_of_call) hbound []
  have hends : Ends { maxDepth := some depth } (fun _ => l.answer) start
      (l.walk { maxDepth := some depth } start) := (l.ends_iff _ _ _).mpr rfl
  rw [(ends_iff_of_returns hbound hreturns _).mp hends] at h
  exact hlength (Nat.zero_le depth) chains h

end Walk

/-! ## Reports -/

namespace DigestStore

/-- A digest of a store has the function of one of the digests inserted. -/
theorem exists_function_eq_of_get?_ofList {digests : List Digest} {key : Signature} {d : Digest}
    (h : (ofList digests).get? key = some d) : ∃ d' ∈ digests, d.function = d'.function := by
  rw [get?_ofList] at h
  cases hdigests : digestsOf digests key with
  | nil =>
    rw [hdigests] at h
    cases h
  | cons first rest =>
    rw [hdigests] at h
    obtain rfl := Option.some_inj.mp h
    have hfirst : first ∈ digestsOf digests key := hdigests ▸ List.mem_cons_self ..
    exact ⟨first, (mem_digestsOf.mp hfirst).1, Digest.function_foldl_merge first rest⟩

theorem impact_eq_ok_iff {s : DigestStore} {key : Signature} {hops : UInt64}
    {report : ImpactReport} :
    s.impact key hops = .ok report ↔ ∃ digest chains, s.get? key = some digest ∧
      ((s.lookup .callers).walk { maxDepth := some hops.toNat } key).result = .ok chains ∧
        report = ⟨digest, ChainTree.ofChains chains⟩ := by
  rw [impact]
  cases s.get? key with
  | none => simp
  | some digest =>
    cases ((s.lookup .callers).walk { maxDepth := some hops.toNat } key).result with
    | error failure => simp
    | ok chains =>
      simp only [Option.some.injEq, Except.ok.injEq]
      constructor
      · rintro rfl
        exact ⟨digest, chains, rfl, rfl, rfl⟩
      · rintro ⟨_, _, rfl, rfl, rfl⟩
        rfl

/-- In a store of digests without payloads, the trees of a report decide whether it is read
back from its text. -/
theorem read?_write_of_impact {digests : List Digest} {key : Signature} {hops : UInt64}
    {report : ImpactReport}
    (hextras : ∀ d ∈ digests, d.function.decl.extras.isEmpty = true)
    (h : (ofList digests).impact key hops = .ok report) :
    read? (write report) =
      if ChainTree.depthOfForest report.callerChains ≤ 62 then some report else none := by
  obtain ⟨digest, chains, hget, -, rfl⟩ := impact_eq_ok_iff.mp h
  obtain ⟨d, hd, hfunction⟩ := exists_function_eq_of_get?_ofList hget
  exact ImpactReport.read?_write_eq (hfunction ▸ hextras d hd)

/-- In a store of digests without payloads, a report is read back from its text exactly if no
chain of callers has more than 62 functions, hence whenever at most 61 hops were asked for. -/
theorem impact_read_back (digests : List Digest)
    (hextras : ∀ d ∈ digests, d.function.decl.extras.isEmpty = true) (key : Signature)
    (hops : UInt64) (report : ImpactReport)
    (h : (ofList digests).impact key hops = .ok report) :
    ∃ chains,
      (((ofList digests).lookup .callers).walk { maxDepth := some hops.toNat } key).result =
        .ok chains ∧
      read? (write report) =
        (if ∀ chain ∈ chains, chain.length ≤ 62 then some report else none) ∧
      (hops.toNat ≤ 61 → read? (write report) = some report) := by
  have hread := read?_write_of_impact hextras h
  obtain ⟨digest, chains, -, hwalk, rfl⟩ := impact_eq_ok_iff.mp h
  simp only [ChainTree.depthOfForest_ofChains_le_iff] at hread
  refine ⟨chains, hwalk, hread, fun hhops => ?_⟩
  have hlength := Walk.Lookup.length_le_of_mem_walk hwalk
  rw [hread, if_pos fun chain hchain => (hlength chain hchain).trans (by omega)]

/-- The signature of a function in a line. -/
def lineSignature (i : Nat) : Signature :=
  (FunctionDecl.ofSpans (toString i) (.ofRows 0 1) (.ofRows 0 1)).signature

/-- Digests of so many functions, each of which is called by the next one. -/
def lineDigests (length : Nat) : List Digest :=
  (List.range length).map fun i =>
    ⟨⟨.ofSpans (toString i) (.ofRows 0 1) (.ofRows 0 1), "a.go"⟩, [],
      if i + 1 < length then [lineSignature (i + 1)] else []⟩

/-- The chain through a line is the only one. -/
theorem exists_impact_line {length fuel : Nat} {hops : UInt64}
    (hkey : lineSignature 0 ∈ (ofList (lineDigests length)).keys)
    (hrun : (Walk.Search.walk { maxDepth := some hops.toNat }
      ((ofList (lineDigests length)).lookup .callers).source fuel (lineSignature 0)).map
        Walk.Outcome.result = some (.ok [(List.range length).map lineSignature])) :
    ∃ report, (ofList (lineDigests length)).impact (lineSignature 0) hops = .ok report ∧
      report.callerChains = ChainTree.ofChains [(List.range length).map lineSignature] := by
  obtain ⟨digest, hget⟩ := mem_keys_iff.mp hkey
  obtain ⟨outcome, hwalk, hresult⟩ := Option.map_eq_some_iff.mp hrun
  rw [← Walk.Lookup.walk_eq hwalk] at hresult
  exact ⟨_, impact_eq_ok_iff.mpr ⟨digest, _, hget, hresult, rfl⟩, rfl⟩

/-- The report on a short line is read back. -/
theorem impact_read_back_line :
    (∀ d ∈ lineDigests 5, d.function.decl.extras.isEmpty = true) ∧
      ∃ report, (ofList (lineDigests 5)).impact (lineSignature 0) 61 = .ok report ∧
        read? (write report) = some report := by
  have hextras : ∀ d ∈ lineDigests 5, d.function.decl.extras.isEmpty = true := by decide
  obtain ⟨report, himpact, -⟩ := @exists_impact_line 5 20 61 (by decide +kernel)
    (by decide +kernel)
  obtain ⟨-, -, -, hread⟩ :=
    impact_read_back (lineDigests 5) hextras (lineSignature 0) 61 report himpact
  exact ⟨hextras, report, himpact, hread (by decide)⟩

/-- The report on a line of 63 functions is written and not read back. -/
theorem impact_line_not_read_back :
    (∀ d ∈ lineDigests 63, d.function.decl.extras.isEmpty = true) ∧
      ∃ report, (ofList (lineDigests 63)).impact (lineSignature 0) 62 = .ok report ∧
        read? (write report) = (none : Option ImpactReport) := by
  have hextras : ∀ d ∈ lineDigests 63, d.function.decl.extras.isEmpty = true := by decide
  obtain ⟨report, himpact, hchains⟩ := @exists_impact_line 63 130 62 (by decide +kernel)
    (by decide +kernel)
  refine ⟨hextras, report, himpact, ?_⟩
  rw [read?_write_of_impact hextras himpact, hchains, if_neg]
  rw [ChainTree.depthOfForest_ofChains_le_iff]
  decide

end DigestStore
end CallImpact
