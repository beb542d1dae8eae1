import CallImpact.Proofs.DigestStore.Merging
import CallImpact.Proofs.Graph.Neighbours

/-!
# The store of a graph

The store of the digests of a graph has the signatures of the vertices as its keys, also if
several vertices share a signature.  It lists one signature under another one exactly if an
edge runs between vertices with these signatures, so the two lists that a digest keeps say
the same, seen from either end.
-/

namespace CallImpact
namespace FunctionGraph

/-- The signatures of the vertices, in the order of the vertices. -/
def signatures (g : FunctionGraph) : List Signature :=
  g.vertices.map LocatedFunction.signature

/-- An edge along a relation leads from a vertex with the first signature to one with the
second. -/
def Connects (g : FunctionGraph) (r : Relation) (s t : Signature) : Prop :=
  ∃ v w, (v, w) ∈ g.edges r ∧ g.signatures[v]? = some s ∧ g.signatures[w]? = some t

variable {g : FunctionGraph} {r : Relation} {s t : Signature}

theorem connects_callers_iff (hg : g.WellFormed) :
    g.Connects .callers s t ↔ g.Connects .calls t s := by
  constructor
  · rintro ⟨v, w, hedge, hv, hw⟩
    exact ⟨w, v, (mem_edges_callers_iff hg).mp hedge, hw, hv⟩
  · rintro ⟨v, w, hedge, hv, hw⟩
    exact ⟨w, v, (mem_edges_callers_iff hg).mpr hedge, hw, hv⟩

theorem map_signature_digests (g : FunctionGraph) :
    (g.digests.map fun d => d.function.signature) = g.signatures := by
  rw [digests, List.map_map]
  rfl

theorem mem_keys_digestStore_iff (g : FunctionGraph) (s : Signature) :
    s ∈ g.digestStore.keys ↔ s ∈ g.signatures := by
  rw [digestStore, DigestStore.mem_keys_ofList_iff, ← map_signature_digests, List.mem_map]

theorem neighbours_digest (g : FunctionGraph) (f : LocatedFunction) (r : Relation) :
    (g.neighbourhood f).digest.neighbours r =
      (g.neighbours f.descriptor r).map LocatedFunction.signature := by
  cases r <;> rfl

theorem getElem?_signatures (g : FunctionGraph) (v : Nat) :
    g.signatures[v]? = some s ↔ ∃ f, g.vertices[v]? = some f ∧ f.signature = s := by
  rw [signatures, List.getElem?_map, Option.map_eq_some_iff]

theorem getElem?_signatures_of_indexOf (hg : g.WellFormed) {d : Descriptor} {v : Nat}
    (hd : g.indexOf d = some v) : g.signatures[v]? = some d.signature := by
  obtain ⟨f, hf, rfl⟩ := hg.indexOf_eq_some_iff.mp hd
  exact (getElem?_signatures g v).mpr ⟨f, hf, rfl⟩

/-- What is listed under a signature are the signatures that edges lead to. -/
theorem lists_digestStore_iff (hg : g.WellFormed) :
    g.digestStore.Lists r s t ↔ g.Connects r s t := by
  rw [digestStore, DigestStore.lists_ofList_iff]
  constructor
  · rintro ⟨d, hd, rfl, ht⟩
    obtain ⟨f, -, rfl⟩ := List.mem_map.mp hd
    rw [neighbours_digest] at ht
    obtain ⟨f', hf', rfl⟩ := List.mem_map.mp ht
    obtain ⟨v, w, hv, hw, hedge⟩ := (mem_neighbours_iff hg).mp hf'
    exact ⟨v, w, hedge, getElem?_signatures_of_indexOf hg hv,
      (getElem?_signatures g w).mpr ⟨f', hw, rfl⟩⟩
  · rintro ⟨v, w, hedge, hs, ht⟩
    obtain ⟨f, hf, rfl⟩ := (getElem?_signatures g v).mp hs
    obtain ⟨f', hf', rfl⟩ := (getElem?_signatures g w).mp ht
    have hneighbour : f' ∈ g.neighbours f.descriptor r :=
      (mem_neighbours_of_getElem? hg hf).mpr ⟨w, hf', hedge⟩
    refine ⟨_, List.mem_map_of_mem (List.mem_of_getElem? hf), rfl, ?_⟩
    rw [neighbours_digest]
    exact List.mem_map_of_mem hneighbour

/-- The keys of the store of a built graph are the signatures of the vertices.  A second
signature is listed among the callees of a first one exactly if the first one is listed
among the callers of the second one, and exactly if an edge runs from a vertex with the
first signature to one with the second. -/
theorem build_digestStore_consistent (limits : Limits)
    (functionFiles : List (SourceFile FunctionDecl))
    (occurrenceFiles : List (SourceFile Occurrence)) :
    let g := build limits functionFiles occurrenceFiles
    (∀ s, s ∈ g.digestStore.keys ↔ s ∈ g.signatures) ∧
      ∀ s t, (g.digestStore.Lists .calls s t ↔ g.digestStore.Lists .callers t s) ∧
        (g.digestStore.Lists .calls s t ↔ g.Connects .calls s t) := by
  intro g
  have hg : g.WellFormed := wellFormed_build limits functionFiles occurrenceFiles
  refine ⟨mem_keys_digestStore_iff g, fun s t => ⟨?_, lists_digestStore_iff hg⟩⟩
  rw [lists_digestStore_iff hg, lists_digestStore_iff hg, connects_callers_iff hg]

end FunctionGraph
end CallImpact
