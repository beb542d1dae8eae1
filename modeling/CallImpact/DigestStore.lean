import CallImpact.ChainTree
import CallImpact.Error
import CallImpact.Neighbourhood
import CallImpact.Walk.Termination

/-!
# The store of digests

Digests of one revision under their signatures.  The store is what persists, and
it answers chain walks without the graph.  Functions that share a signature
count as one function, so their lists of neighbours are merged.
-/

namespace CallImpact

/-- Digests, each under a key of its own, in the order in which the keys came. -/
structure DigestStore where
  entries : List (Signature × Digest)
  keys_nodup : (entries.map Prod.fst).Nodup
deriving DecidableEq

/-- A digest with the chains of its callers, merged to trees. -/
structure ImpactReport where
  digest : Digest
  callerChains : List (ChainTree Signature)
deriving DecidableEq

namespace Walk.Failure

def toImpactError {N : Type} (text : N → String) : Walk.Failure N → ImpactError
  | .lookupFailed node cause => .lookupFailed (text node) cause
  | .budgetExceeded => .budgetExceeded
  | .cancelled => .cancelled

end Walk.Failure

namespace Digest

/-- The signatures followed by those of the second list that are not there yet. -/
def mergeSignatures (signatures more : List Signature) : List Signature :=
  more.foldl (fun merged s => if s ∈ merged then merged else merged ++ [s]) signatures

def merge (d more : Digest) : Digest :=
  { d with
    callees := mergeSignatures d.callees more.callees
    callers := mergeSignatures d.callers more.callers }

end Digest

namespace DigestStore

def get? (s : DigestStore) (key : Signature) : Option Digest :=
  s.entries.lookup key

def size (s : DigestStore) : Nat :=
  s.entries.length

/-- The keys, in the order in which they were first stored. -/
def keys (s : DigestStore) : List Signature :=
  s.entries.map Prod.fst

def empty : DigestStore := ⟨[], List.nodup_nil⟩

instance : Inhabited DigestStore := ⟨empty⟩

/-- Changes what is stored under a key, or stores a value under a new key. -/
def updateEntries (key : Signature) (change : Digest → Digest) (fresh : Digest) :
    List (Signature × Digest) → List (Signature × Digest)
  | [] => [(key, fresh)]
  | (k, d) :: rest =>
    if k = key then (k, change d) :: rest
    else (k, d) :: updateEntries key change fresh rest

theorem keys_updateEntries
    (key : Signature) (change : Digest → Digest) (fresh : Digest)
    (entries : List (Signature × Digest)) :
    (updateEntries key change fresh entries).map Prod.fst =
      if key ∈ entries.map Prod.fst then entries.map Prod.fst
      else entries.map Prod.fst ++ [key] := by
  induction entries with
  | nil => simp [updateEntries]
  | cons entry rest ih =>
    obtain ⟨k, d⟩ := entry
    rw [updateEntries]
    by_cases h : k = key
    · simp [h]
    · have h' : key ≠ k := fun e => h e.symm
      simp only [h, if_false, List.map_cons, ih, List.mem_cons, h', false_or]
      split <;> simp

theorem nodup_updateEntries
    {key : Signature} {change : Digest → Digest} {fresh : Digest}
    {entries : List (Signature × Digest)} (h : (entries.map Prod.fst).Nodup) :
    ((updateEntries key change fresh entries).map Prod.fst).Nodup := by
  rw [keys_updateEntries]
  split
  · exact h
  · rename_i hnew
    refine List.nodup_append.mpr ⟨h, by simp, ?_⟩
    intro k hk l hl
    rw [List.mem_singleton.mp hl]
    rintro rfl
    exact hnew hk

/-- After an update the key has its changed or fresh value, and every other key
what it had. -/
theorem lookup_updateEntries
    (key : Signature) (change : Digest → Digest) (fresh : Digest)
    (entries : List (Signature × Digest)) (k : Signature) :
    (updateEntries key change fresh entries).lookup k =
      if k = key then some ((entries.lookup key).elim fresh change) else entries.lookup k := by
  induction entries with
  | nil =>
    by_cases h : k = key
    · simp [updateEntries, h]
    · have hne : (k == key) = false := by simpa using h
      simp [updateEntries, List.lookup_cons, h, hne]
  | cons entry rest ih =>
    obtain ⟨l, d⟩ := entry
    rw [updateEntries]
    by_cases hl : l = key
    · subst hl
      by_cases h : k = l
      · simp [h]
      · have hne : (k == l) = false := by simpa using h
        simp [List.lookup_cons, h, hne]
    · have hkey : (key == l) = false := by simpa using fun e : key = l => hl e.symm
      rw [if_neg hl, List.lookup_cons]
      by_cases h : k = l
      · have hne : ¬ k = key := fun e => hl (h.symm.trans e)
        simp [h, hl]
      · have hne : (k == l) = false := by simpa using h
        simp [List.lookup_cons, hne, hkey, ih]

/-- Stores a digest under a key, in place of what was there. -/
def put (s : DigestStore) (key : Signature) (d : Digest) : DigestStore :=
  ⟨updateEntries key (fun _ => d) d s.entries, nodup_updateEntries s.keys_nodup⟩

/-- Stores a digest under the signature of its function, merged with what is
there. -/
def insert (s : DigestStore) (d : Digest) : DigestStore :=
  ⟨updateEntries d.function.signature (fun stored => stored.merge d) d s.entries,
    nodup_updateEntries s.keys_nodup⟩

/-- Inserting a digest changes what is stored under its signature and nothing
else. -/
theorem get?_insert (s : DigestStore) (d : Digest) (k : Signature) :
    (s.insert d).get? k =
      if k = d.function.signature then
        some ((s.get? d.function.signature).elim d fun stored => stored.merge d)
      else s.get? k := by
  rw [get?, insert, lookup_updateEntries]
  rfl

/-- The store of the digests, inserted in order. -/
def ofList (digests : List Digest) : DigestStore :=
  digests.foldl insert empty

/-- What a walk hears of a signature under which nothing is stored. -/
def missing (key : Signature) : String :=
  "no function context stored for " ++ key.text

def lookup (s : DigestStore) (r : Relation) : Walk.Lookup Signature where
  answer key :=
    match s.get? key with
    | some d => .ok (d.neighbours r)
    | none => .error (missing key)
  domain := s.keys
  mem_domain := by
    intro key successors h _
    split at h
    · rename_i d hd
      obtain ⟨before, after, heq, -⟩ := List.lookup_eq_some_iff.mp hd
      simp [keys, heq]
    · cases h

/-- What is stored under a signature, with the chains of its callers of at most
that many hops. -/
def impact (s : DigestStore) (key : Signature) (hops : UInt64) :
    Except ImpactError ImpactReport :=
  match s.get? key with
  | none => .error (.nodeNotFound key.text)
  | some digest =>
    match ((s.lookup .callers).walk { maxDepth := some hops.toNat } key).result with
    | .error failure => .error (failure.toImpactError Signature.text)
    | .ok chains => .ok ⟨digest, ChainTree.ofChains chains⟩

end DigestStore
end CallImpact
