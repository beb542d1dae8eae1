import Mathlib.Data.List.Destutter
import Mathlib.Data.List.Forall2
import Mathlib.Data.List.Induction
import Mathlib.Data.List.Nodup

/-!
# Facts about lists

Lists that grow at their end, their distinct entries, repetitions next to each other, the
intermediate results of a fold, lists of everything that has a property, and the first entries
of each key.
-/

namespace CallImpact

variable {α β : Type}

/-- An entry of a list that was extended by one is an old entry or the new one. -/
theorem getElem?_concat_cases {xs : List α} {x y : α} {j : Nat}
    (h : (xs ++ [x])[j]? = some y) :
    xs[j]? = some y ∨ j = xs.length ∧ y = x := by
  rw [List.getElem?_append] at h
  split at h
  · exact Or.inl h
  · obtain ⟨hlt, heq⟩ := List.getElem?_eq_some_iff.mp h
    rw [List.length_singleton] at hlt
    rw [List.getElem_singleton] at heq
    exact Or.inr ⟨by omega, heq.symm⟩

theorem getElem?_concat_iff [DecidableEq α] {xs : List α} {x y : α} {i : Nat}
    (hx : x ∉ xs) :
    (xs ++ [x])[i]? = some y ↔ if y = x then i = xs.length else xs[i]? = some y := by
  constructor
  · intro h
    rcases getElem?_concat_cases h with h | ⟨hi, hy⟩
    · have hne : y ≠ x := fun heq => hx (heq ▸ List.mem_of_getElem? h)
      rwa [if_neg hne]
    · rwa [if_pos hy]
  · intro h
    by_cases hy : y = x
    · rw [if_pos hy] at h
      rw [h, hy]
      exact List.getElem?_concat_length
    · rw [if_neg hy] at h
      rwa [List.getElem?_append_left (List.getElem?_eq_some_iff.mp h).1]

/-- The last entry with a property is the one after which no entry has it. -/
theorem getLast?_filter_eq_some_iff {p : α → Bool} {xs : List α} {x : α} :
    (xs.filter p).getLast? = some x ↔
      ∃ i : Nat, xs[i]? = some x ∧ p x = true ∧
        ∀ (j : Nat) (y : α), xs[j]? = some y → p y = true → j ≤ i := by
  induction xs using List.reverseRecOn with
  | nil => simp
  | append_singleton xs last ih =>
    rw [List.filter_append]
    by_cases hlast : p last = true
    · rw [List.filter_cons_of_pos hlast, List.filter_nil, List.getLast?_concat]
      constructor
      · intro h
        obtain rfl := Option.some_inj.mp h
        refine ⟨xs.length, List.getElem?_concat_length, hlast, fun j y hj _ => ?_⟩
        have hlt := (List.getElem?_eq_some_iff.mp hj).1
        rw [List.length_append, List.length_singleton] at hlt
        omega
      · rintro ⟨i, hi, -, hmax⟩
        have hle := hmax xs.length last List.getElem?_concat_length hlast
        rcases getElem?_concat_cases hi with hi | ⟨-, rfl⟩
        · have hlt := (List.getElem?_eq_some_iff.mp hi).1
          omega
        · rfl
    · rw [List.filter_cons_of_neg hlast, List.filter_nil, List.append_nil, ih]
      constructor
      · rintro ⟨i, hi, hx, hmax⟩
        refine ⟨i, ?_, hx, fun j y hj hy => ?_⟩
        · rwa [List.getElem?_append_left (List.getElem?_eq_some_iff.mp hi).1]
        · rcases getElem?_concat_cases hj with hj | ⟨-, rfl⟩
          · exact hmax j y hj hy
          · exact absurd hy hlast
      · rintro ⟨i, hi, hx, hmax⟩
        rcases getElem?_concat_cases hi with hi | ⟨-, rfl⟩
        · refine ⟨i, hi, hx, fun j y hj hy => hmax j y ?_ hy⟩
          rwa [List.getElem?_append_left (List.getElem?_eq_some_iff.mp hj).1]
        · exact absurd hx hlast

/-- A list has one entry after a list that it begins with. -/
theorem eq_of_concat_begins {xs ys : List α} {x y : α} (hx : xs ++ [x] <+: ys)
    (hy : xs ++ [y] <+: ys) : x = y := by
  have hbegins := List.prefix_of_prefix_length_le hx hy (by simp)
  have heq := hbegins.eq_of_length (by simp)
  exact List.singleton_inj.mp (List.append_cancel_left heq)

/-- Without repetitions a property of one entry alone filters out that entry. -/
theorem filter_eq_singleton {xs : List α} (hxs : xs.Nodup) {x : α} {p : α → Bool} (hx : x ∈ xs)
    (hp : ∀ y ∈ xs, p y = true ↔ y = x) : xs.filter p = [x] := by
  rw [← List.perm_singleton,
    List.perm_ext_iff_of_nodup (hxs.filter p) (List.nodup_singleton x)]
  intro y
  rw [List.mem_filter, List.mem_singleton]
  constructor
  · intro ⟨hy, hpy⟩
    exact (hp y hy).mp hpy
  · intro heq
    exact ⟨heq ▸ hx, (hp y (heq ▸ hx)).mpr heq⟩

/-- Without repetitions an entry has one place. -/
theorem getElem?_unique {xs : List α} (hxs : xs.Nodup) {i j : Nat} {x : α}
    (hi : xs[i]? = some x) (hj : xs[j]? = some x) : i = j := by
  have hlt := (List.getElem?_eq_some_iff.mp hi).1
  exact (List.getElem?_inj hlt hxs).mp (hi.trans hj.symm)

/-- A further entry is kept if it is new. -/
theorem eraseDups_concat [BEq α] [LawfulBEq α] (xs : List α) (x : α) :
    (xs ++ [x]).eraseDups = if x ∈ xs then xs.eraseDups else xs.eraseDups ++ [x] := by
  rw [List.eraseDups_append]
  by_cases hx : x ∈ xs
  · rw [if_pos hx]
    have hnone : [x].removeAll xs = [] := by
      simp [List.removeAll, hx]
    rw [hnone, List.eraseDups_nil, List.append_nil]
  · rw [if_neg hx]
    have hone : [x].removeAll xs = [x] := by
      simp [List.removeAll, hx]
    rw [hone, List.eraseDups_cons, List.filter_nil, List.eraseDups_nil]

/-- Further entries that are all there already change nothing. -/
theorem eraseDups_append_of_subset [BEq α] [LawfulBEq α] {xs ys : List α} (h : ys ⊆ xs) :
    (xs ++ ys).eraseDups = xs.eraseDups := by
  have hnone : ys.removeAll xs = [] := by
    rw [List.removeAll, List.filter_eq_nil_iff]
    intro y hy
    simp [h hy]
  rw [List.eraseDups_append, hnone, List.eraseDups_nil, List.append_nil]

theorem eraseDups_append_of_disjoint [BEq α] [LawfulBEq α] {xs ys : List α}
    (h : xs.Disjoint ys) : (xs ++ ys).eraseDups = xs.eraseDups ++ ys.eraseDups := by
  have hall : ys.removeAll xs = ys := by
    rw [List.removeAll, List.filter_eq_self]
    intro y hy
    have hnew : y ∉ xs := fun hmem => h hmem hy
    simp [hnew]
  rw [List.eraseDups_append, hall]

theorem nodup_eraseDups [BEq α] [LawfulBEq α] (xs : List α) : xs.eraseDups.Nodup := by
  induction xs using List.reverseRecOn with
  | nil => exact List.nodup_nil
  | append_singleton xs x ih =>
    rw [eraseDups_concat]
    split
    case isTrue => exact ih
    case isFalse hx =>
      rw [← List.concat_eq_append, List.nodup_concat]
      exact ⟨fun hmem => hx (List.mem_eraseDups.mp hmem), ih⟩

/-- Nothing is removed from a list without repetitions. -/
theorem eraseDups_of_nodup [BEq α] [LawfulBEq α] {xs : List α} (h : xs.Nodup) :
    xs.eraseDups = xs := by
  induction xs using List.reverseRecOn with
  | nil => rfl
  | append_singleton xs x ih =>
    rw [← List.concat_eq_append, List.nodup_concat] at h
    rw [eraseDups_concat, if_neg h.1, ih h.2]

/-- An image occurs at most once among the images of different entries if only one of them
has it. -/
theorem count_map_le_one_iff [DecidableEq β] {f : α → β} {xs : List α} (h : xs.Nodup) {b : β} :
    (xs.map f).count b ≤ 1 ↔ ∀ x ∈ xs, ∀ y ∈ xs, f x = b → f y = b → x = y := by
  induction xs with
  | nil => simp
  | cons x xs ih =>
    obtain ⟨hx, hxs⟩ := List.nodup_cons.mp h
    rw [List.map_cons]
    by_cases hb : f x = b
    · rw [hb, List.count_cons_self]
      constructor
      · intro hle
        have hnone : b ∉ xs.map f := List.count_eq_zero.mp (by omega)
        have honly : ∀ y ∈ x :: xs, f y = b → y = x := by
          intro y hy hfy
          rcases List.mem_cons.mp hy with rfl | hy
          · rfl
          · exact absurd (List.mem_map.mpr ⟨y, hy, hfy⟩) hnone
        intro y hy z hz hfy hfz
        exact (honly y hy hfy).trans (honly z hz hfz).symm
      · intro hall
        have hnone : b ∉ xs.map f := by
          intro hmem
          obtain ⟨y, hy, hfy⟩ := List.mem_map.mp hmem
          have hsame := hall x (List.mem_cons_self ..) y (List.mem_cons_of_mem x hy) hb hfy
          exact hx (hsame ▸ hy)
        rw [List.count_eq_zero.mpr hnone]
    · rw [List.count_cons_of_ne hb, ih hxs]
      constructor
      · intro hall y hy z hz hfy hfz
        have hold : ∀ y ∈ x :: xs, f y = b → y ∈ xs := fun y hy hfy =>
          (List.mem_cons.mp hy).resolve_left fun heq => hb (heq ▸ hfy)
        exact hall y (hold y hy hfy) z (hold z hz hfz) hfy hfz
      · intro hall y hy z hz
        exact hall y (List.mem_cons_of_mem x hy) z (List.mem_cons_of_mem x hz)

theorem destutter_replicate_sublist [DecidableEq α] (n : Nat) (x : α) :
    ((List.replicate n x).destutter (· ≠ ·)).Sublist [x] := by
  cases n with
  | zero => exact List.nil_sublist _
  | succ n =>
    have hrun : (List.replicate n x).destutter' (· ≠ ·) x = [x] := by
      induction n with
      | zero => rfl
      | succ n ih => rw [List.replicate_succ, List.destutter'_cons_neg _ (by simp), ih]
    rw [List.replicate_succ, List.destutter_cons', hrun]

/-- Collapsing adjacent repetitions in two lists keeps no less than collapsing them in the
whole. -/
theorem destutter_append_sublist [DecidableEq α] (xs ys : List α) :
    ((xs ++ ys).destutter (· ≠ ·)).Sublist
      (xs.destutter (· ≠ ·) ++ ys.destutter (· ≠ ·)) := by
  cases xs with
  | nil => exact List.Sublist.refl _
  | cons x xs =>
    induction xs generalizing x with
    | nil =>
      cases ys with
      | nil => exact List.Sublist.refl _
      | cons y ys =>
        rw [List.singleton_append, List.destutter_cons', List.destutter_cons']
        by_cases h : x = y
        · rw [List.destutter'_cons_neg _ (not_not.mpr h), h]
          exact List.sublist_append_right _ _
        · rw [List.destutter'_cons_pos _ h]
          exact List.Sublist.refl _
    | cons y xs ih =>
      have hrest := ih y
      simp only [List.cons_append, List.destutter_cons'] at hrest ⊢
      by_cases h : x = y
      · rw [List.destutter'_cons_neg _ (not_not.mpr h),
          List.destutter'_cons_neg _ (not_not.mpr h), h]
        exact hrest
      · rw [List.destutter'_cons_pos _ h, List.destutter'_cons_pos _ h]
        exact hrest.cons_cons x

/-- If every entry has a value with a property, so has the list. -/
theorem exists_mapM_eq_some {f : α → Option β} {Q : α → β → Prop} {xs : List α}
    (h : ∀ x ∈ xs, ∃ y, f x = some y ∧ Q x y) :
    ∃ ys, xs.mapM f = some ys ∧ ∀ y ∈ ys, ∃ x ∈ xs, Q x y := by
  induction xs with
  | nil => exact ⟨[], rfl, fun _ hy => absurd hy List.not_mem_nil⟩
  | cons x xs ih =>
    obtain ⟨⟨y, hy, hQ⟩, hxs⟩ := List.forall_mem_cons.mp h
    obtain ⟨ys, hys, hQs⟩ := ih hxs
    refine ⟨y :: ys, ?_, List.forall_mem_cons.mpr ⟨⟨x, List.mem_cons_self .., hQ⟩, ?_⟩⟩
    · rw [List.mapM_cons, hy, hys]
      rfl
    · intro z hz
      obtain ⟨w, hw, hQw⟩ := hQs z hz
      exact ⟨w, List.mem_cons_of_mem _ hw, hQw⟩

/-- A list related to another one by a relation with one value each is the image of that one. -/
theorem exists_eq_map_of_forall₂ [Inhabited β] {R : α → β → Prop} {xs : List α} {ys : List β}
    (hR : ∀ x y z, R x y → R x z → y = z) (h : List.Forall₂ R xs ys) :
    ∃ f : α → β, ys = xs.map f ∧ ∀ x ∈ xs, R x (f x) := by
  have hvalue : ∀ x ∈ xs, ∃ y, R x y := by
    induction h with
    | nil => exact List.forall_mem_nil _
    | cons hxy _ ih => exact List.forall_mem_cons.mpr ⟨⟨_, hxy⟩, ih⟩
  choose! f hf using hvalue
  refine ⟨f, ?_, hf⟩
  induction h with
  | nil => rfl
  | cons hxy _ ih =>
    obtain ⟨hx, hxs⟩ := List.forall_mem_cons.mp hf
    rw [List.map_cons, hR _ _ _ hxy hx, ← ih hxs]

/-- A list whose entries are all values of a function is the image of a list. -/
theorem exists_map_eq_of_forall_mem {P : α → Prop} {f : α → β} {ys : List β}
    (h : ∀ y ∈ ys, ∃ x, P x ∧ f x = y) : ∃ xs : List α, (∀ x ∈ xs, P x) ∧ xs.map f = ys := by
  induction ys with
  | nil => exact ⟨[], List.forall_mem_nil P, rfl⟩
  | cons y ys ih =>
    obtain ⟨⟨x, hx, rfl⟩, hys⟩ := List.forall_mem_cons.mp h
    obtain ⟨xs, hxs, rfl⟩ := ih hys
    exact ⟨x :: xs, List.forall_mem_cons.mpr ⟨hx, hxs⟩, rfl⟩

/-- Along a list whose neighbours are related it matters only what holds of related entries. -/
theorem isChain_congr {R P Q : α → α → Prop} {xs : List α} (h : xs.IsChain R)
    (hiff : ∀ a b, R a b → (P a b ↔ Q a b)) : xs.IsChain P ↔ xs.IsChain Q := by
  induction xs with
  | nil => simp
  | cons a xs ih =>
    cases xs with
    | nil => simp
    | cons b xs =>
      rw [List.isChain_cons_cons] at h
      rw [List.isChain_cons_cons, List.isChain_cons_cons, hiff a b h.1, ih h.2]

theorem dropWhile_congr {p q : α → Bool} {xs : List α} (h : ∀ x ∈ xs, p x = q x) :
    xs.dropWhile p = xs.dropWhile q := by
  induction xs with
  | nil => rfl
  | cons x xs ih =>
    obtain ⟨hx, hxs⟩ := List.forall_mem_cons.mp h
    rw [List.dropWhile_cons, List.dropWhile_cons, hx, ih hxs]

/-- What holds of a start and is kept by every step holds of all intermediate
results. -/
theorem forall_mem_scanl {step : β → α → β} {P : β → Prop} {xs : List α} {b : β}
    (hb : P b) (hstep : ∀ b, P b → ∀ x ∈ xs, P (step b x)) :
    ∀ result ∈ xs.scanl step b, P result := by
  induction xs generalizing b with
  | nil =>
    intro result hresult
    rw [List.scanl_nil, List.mem_singleton] at hresult
    exact hresult ▸ hb
  | cons x xs ih =>
    intro result hresult
    rw [List.scanl_cons] at hresult
    rcases List.mem_cons.mp hresult with rfl | hresult
    · exact hb
    · have hnext := hstep b hb x (List.mem_cons_self ..)
      exact ih hnext (fun b hb y hy => hstep b hb y (List.mem_cons_of_mem x hy)) result hresult

/-- The list holds exactly what has the property, each once. -/
def ListsExactly (S : α → Prop) (xs : List α) : Prop :=
  xs.Nodup ∧ ∀ a, a ∈ xs ↔ S a

theorem mem_flatten_iff_of_forall₂ {ι : Type} {S : ι → α → Prop} {is : List ι}
    {blocks : List (List α)}
    (h : List.Forall₂ (fun i block => ∀ a, a ∈ block ↔ S i a) is blocks) (a : α) :
    a ∈ blocks.flatten ↔ ∃ i ∈ is, S i a := by
  induction h with
  | nil => simp
  | @cons i block is blocks hblock _ ih =>
    rw [List.flatten_cons, List.mem_append, hblock, ih]
    exact (List.exists_mem_cons_iff (fun j => S j a) i is).symm

/-- What only the blocks of one index hold, and each of them equally often, is in their
concatenation that often for each time the index comes. -/
theorem count_flatten_of_forall₂ {ι : Type} [DecidableEq ι] [BEq α] [LawfulBEq α]
    {R : ι → List α → Prop} {is : List ι} {blocks : List (List α)} {i : ι} {a : α} {n : Nat}
    (h : List.Forall₂ R is blocks) (hi : ∀ block, R i block → block.count a = n)
    (hother : ∀ j block, R j block → j ≠ i → a ∉ block) :
    blocks.flatten.count a = is.count i * n := by
  induction h with
  | nil => simp
  | @cons j block is blocks hblock _ ih =>
    rw [List.flatten_cons, List.count_append, ih]
    by_cases hj : j = i
    · subst hj
      rw [hi block hblock, List.count_cons_self, Nat.succ_mul, Nat.add_comm]
    · rw [List.count_eq_zero.mpr (hother j block hblock hj), List.count_cons_of_ne hj,
        Nat.zero_add]

/-! ## The first entry of each key -/

section Keys

variable [DecidableEq β] {key : α → β}

/-- What holds of a list if it holds of the later entries with a key that the first one does not
have, holds of all lists. -/
theorem keyInduction (key : α → β) {P : List α → Prop} (nil : P [])
    (cons : ∀ x xs, P (xs.filter fun y => decide (key y ≠ key x)) → P (x :: xs))
    (xs : List α) : P xs := by
  induction hlength : xs.length using Nat.strong_induction_on generalizing xs with
  | h n ih =>
    cases xs with
    | nil => exact nil
    | cons x xs =>
      refine cons x xs (ih _ ?_ _ rfl)
      have hle := List.length_filter_le (fun y => decide (key y ≠ key x)) xs
      rw [List.length_cons] at hlength
      omega

theorem eraseDupsBy_key_cons (x : α) (xs : List α) :
    (x :: xs).eraseDupsBy (fun y z => decide (key y = key z)) =
      x :: (xs.filter fun y => decide (key y ≠ key x)).eraseDupsBy
        fun y z => decide (key y = key z) := by
  rw [List.eraseDupsBy_cons]
  simp only [decide_eq_false_iff_not]

/-- Keeping the first entry of each key keeps each key once. -/
theorem map_eraseDupsBy_key (xs : List α) :
    (xs.eraseDupsBy fun y z => decide (key y = key z)).map key = (xs.map key).eraseDups := by
  induction xs using keyInduction key with
  | nil => rfl
  | cons x xs ih =>
    have hkeys : (fun b => !b == key x) ∘ key = fun y => decide (key y ≠ key x) := by
      funext y
      rw [Function.comp_apply, beq_eq_decide, decide_not]
    rw [eraseDupsBy_key_cons, List.map_cons, ih, List.map_cons, List.eraseDups_cons,
      List.filter_map, hkeys]

theorem find?_of_mem_eraseDupsBy_key {xs : List α} {x : α}
    (h : x ∈ xs.eraseDupsBy fun y z => decide (key y = key z)) :
    xs.find? (fun y => decide (key y = key x)) = some x := by
  induction xs using keyInduction key with
  | nil => cases h
  | cons first rest ih =>
    rw [eraseDupsBy_key_cons] at h
    rcases List.mem_cons.mp h with rfl | h
    · exact List.find?_cons_of_pos (decide_eq_true rfl)
    · have hfound := ih h
      have hne : key x ≠ key first :=
        of_decide_eq_true (List.mem_filter.mp (List.mem_of_find?_eq_some hfound)).2
      have hkeys : ∀ y, (decide (key y ≠ key first) = true ∧ decide (key y = key x) = true) ↔
          key y = key x := by
        intro y
        rw [decide_eq_true_iff, decide_eq_true_iff]
        exact and_iff_right_of_imp fun hy => hy ▸ hne
      simp only [List.find?_filter, hkeys] at hfound
      rw [List.find?_cons_of_neg (by simpa using hne.symm)]
      exact hfound

theorem getElem?_idxOf_map (key : α → β) (xs : List α) (b : β) :
    xs[(xs.map key).idxOf b]? = xs.find? fun x => decide (key x = b) := by
  induction xs with
  | nil => rfl
  | cons x xs ih =>
    rw [List.map_cons]
    by_cases hb : key x = b
    · rw [hb, List.idxOf_cons_self, List.find?_cons_of_pos (by simpa using hb)]
      rfl
    · rw [List.idxOf_cons_ne _ hb, List.find?_cons_of_neg (by simpa using hb), ← ih]
      rfl

/-- Entries that are the first ones of their keys are determined by the keys. -/
theorem eq_of_map_key_eq (xs : List α) {ys zs : List α} (hkeys : ys.map key = zs.map key)
    (hys : ∀ y ∈ ys, xs.find? (fun x => decide (key x = key y)) = some y)
    (hzs : ∀ z ∈ zs, xs.find? (fun x => decide (key x = key z)) = some z) : ys = zs := by
  have hsome : ∀ entries : List α,
      (∀ y ∈ entries, xs.find? (fun x => decide (key x = key y)) = some y) →
      entries.map some = (entries.map key).map fun k => xs.find? fun x => decide (key x = k) := by
    intro entries hentries
    rw [List.map_map]
    exact List.map_congr_left fun y hy => (hentries y hy).symm
  apply List.map_injective_iff.mpr fun _ _ h => Option.some.inj h
  rw [hsome ys hys, hsome zs hzs, hkeys]

end Keys

end CallImpact
