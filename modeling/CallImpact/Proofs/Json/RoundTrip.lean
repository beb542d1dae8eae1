import CallImpact.Json.Reader
import CallImpact.Proofs.Json.Scanning

/-!
# Written trees are read back

Reading the text of a tree gives the tree, as far as its containers may nest: a container
inside too many others has no value in the result (`within`).  So a tree is read back as it
is if it nests no deeper than `maxDepth`.

Tokens are put together for whatever is open around the tree: after the tokens of a value
the assembly has put the value where one was expected (`Assembles`).
-/

namespace CallImpact
namespace Json

mutual

/-- The tree without the values of the containers that nest deeper than a bound. -/
def within (bound : Nat) : Json → Json
  | .array xs =>
    match bound with
    | 0 => .unreadable
    | bound + 1 => .array (withinItems bound xs)
  | .object ms =>
    match bound with
    | 0 => .unreadable
    | bound + 1 => .object (withinMembers bound ms)
  | j => j

def withinItems (bound : Nat) : List Json → List Json
  | [] => []
  | x :: xs => x.within bound :: withinItems bound xs

def withinMembers (bound : Nat) : List (String × Json) → List (String × Json)
  | [] => []
  | (k, x) :: ms => (k, x.within bound) :: withinMembers bound ms

end

mutual

/-- A tree that nests no deeper than the bound keeps all its values. -/
theorem within_of_depth_le : (j : Json) → (bound : Nat) → j.depth ≤ bound → j.within bound = j
  | .array xs, 0, h => absurd h (Nat.not_succ_le_zero _)
  | .array xs, bound + 1, h => by
    rw [depth] at h
    rw [within, withinItems_of_depth_le xs bound (Nat.le_of_succ_le_succ h)]
  | .object ms, 0, h => absurd h (Nat.not_succ_le_zero _)
  | .object ms, bound + 1, h => by
    rw [depth] at h
    rw [within, withinMembers_of_depth_le ms bound (Nat.le_of_succ_le_succ h)]
  | .null, _, _ | .bool _, _, _ | .int _, _, _ | .real _, _, _ | .string _, _, _
  | .unreadable, _, _ => rfl

theorem withinItems_of_depth_le : (xs : List Json) → (bound : Nat) →
    depthOfItems xs ≤ bound → withinItems bound xs = xs
  | [], _, _ => rfl
  | x :: xs, bound, h => by
    obtain ⟨hx, hxs⟩ := Nat.max_le.mp h
    rw [withinItems, within_of_depth_le x bound hx, withinItems_of_depth_le xs bound hxs]

theorem withinMembers_of_depth_le : (ms : List (String × Json)) → (bound : Nat) →
    depthOfMembers ms ≤ bound → withinMembers bound ms = ms
  | [], _, _ => rfl
  | (k, x) :: ms, bound, h => by
    obtain ⟨hx, hms⟩ := Nat.max_le.mp h
    rw [withinMembers, within_of_depth_le x bound hx, withinMembers_of_depth_le ms bound hms]

end

namespace Assembly

/-- The tree of a text of which the assembly has taken the first tokens. -/
def assemble (a : Assembly) (tokens : List Token) : Option Json :=
  (tokens.foldlM Assembly.step a).bind Assembly.finish

variable {t : Token} {rest : List Token} {stack : List Open} {depth : Nat}

theorem assemble_cons (a : Assembly) (t : Token) (rest : List Token) :
    a.assemble (t :: rest) = (a.step t).bind (·.assemble rest) := by
  rw [assemble, List.foldlM_cons]
  exact Option.bind_assoc ..

/-- Where an array may end, a token that does not end it begins a value. -/
theorem step_firstItem (h : t ≠ .closeBracket) :
    step ⟨stack, depth, .firstItem⟩ t = step ⟨stack, depth, .value⟩ t := by
  rcases t with _ | _ | _ | _ | _ | _ | _ | _
  case closeBracket => exact absurd rfl h
  all_goals rfl

theorem exists_tokens_eq_cons : (j : Json) → ∃ t ts, j.tokens = t :: ts ∧ t ≠ .closeBracket
  | .null | .bool _ | .int _ | .real _ | .string _ | .unreadable => ⟨_, _, rfl, nofun⟩
  | .array [] | .array (_ :: _) | .object [] | .object (_ :: _) => ⟨_, _, rfl, nofun⟩

theorem assemble_firstItem (j : Json) :
    assemble ⟨stack, depth, .firstItem⟩ (j.tokens ++ rest) =
      assemble ⟨stack, depth, .value⟩ (j.tokens ++ rest) := by
  obtain ⟨t, ts, htokens, ht⟩ := exists_tokens_eq_cons j
  rw [htokens, List.cons_append, assemble_cons, assemble_cons, step_firstItem ht]

theorem within_array (bound : Nat) (xs : List Json) :
    (Json.array xs).within bound =
      if 1 ≤ bound then .array (withinItems (bound - 1) xs) else .unreadable := by
  rcases bound with _ | bound
  · rfl
  · rw [within, if_pos (Nat.le_add_left ..), Nat.add_sub_cancel]

theorem within_object (bound : Nat) (ms : List (String × Json)) :
    (Json.object ms).within bound =
      if 1 ≤ bound then .object (withinMembers (bound - 1) ms) else .unreadable := by
  rcases bound with _ | bound
  · rfl
  · rw [within, if_pos (Nat.le_add_left ..), Nat.add_sub_cancel]

theorem closed_array (depth : Nat) (xs : List Json) :
    closed (depth + 1) (.array (withinItems (maxDepth - (depth + 1)) xs)) =
      (Json.array xs).within (maxDepth - depth) := by
  rw [within_array, closed, Nat.sub_sub]
  exact if_congr (by omega) rfl rfl

theorem closed_object (depth : Nat) (ms : List (String × Json)) :
    closed (depth + 1) (.object (withinMembers (maxDepth - (depth + 1)) ms)) =
      (Json.object ms).within (maxDepth - depth) := by
  rw [within_object, closed, Nat.sub_sub]
  exact if_congr (by omega) rfl rfl

/-- The token that ends an array ends the innermost container, with its value. -/
theorem assemble_closeArray (xs : List Json) :
    assemble ⟨.array (withinItems (maxDepth - (depth + 1)) xs).reverse :: stack, depth + 1,
        .separator⟩ (.closeBracket :: rest) =
      (put stack depth ((Json.array xs).within (maxDepth - depth))).bind (·.assemble rest) := by
  rw [assemble_cons, ← closed_array]
  simp only [step, closeArray, List.reverse_reverse, Nat.add_sub_cancel]

theorem assemble_closeObject (ms : List (String × Json)) :
    assemble ⟨.object (withinMembers (maxDepth - (depth + 1)) ms).reverse true :: stack,
        depth + 1, .separator⟩ (.closeBrace :: rest) =
      (put stack depth ((Json.object ms).within (maxDepth - depth))).bind (·.assemble rest) := by
  rw [assemble_cons, ← closed_object]
  simp only [step, closeObject, List.reverse_reverse, Nat.add_sub_cancel, if_true]

mutual

/-- The tokens of a tree put the tree where a value was expected. -/
theorem assemble_tokens : (j : Json) → ∀ stack depth rest,
    assemble ⟨stack, depth, .value⟩ (j.tokens ++ rest) =
      (put stack depth (j.within (maxDepth - depth))).bind (·.assemble rest)
  | .null, _, _, _ | .bool _, _, _, _ | .int _, _, _, _ | .real _, _, _, _
  | .string _, _, _, _ | .unreadable, _, _, _ => assemble_cons ..
  | .array [], stack, depth, rest => assemble_closeArray []
  | .array (x :: xs), stack, depth, rest => by
    calc
      _ = assemble ⟨.array [] :: stack, depth + 1, .firstItem⟩
          (x.tokens ++ (tokensOfItems xs ++ .closeBracket :: rest)) := by
        rw [tokens]
        simp only [List.cons_append, List.append_assoc, List.nil_append]
        rfl
      _ = assemble ⟨.array [x.within (maxDepth - (depth + 1))] :: stack, depth + 1,
          .separator⟩ (tokensOfItems xs ++ .closeBracket :: rest) := by
        rw [assemble_firstItem, assemble_tokens]
        rfl
      _ = assemble ⟨.array (withinItems (maxDepth - (depth + 1)) (x :: xs)).reverse :: stack,
          depth + 1, .separator⟩ (.closeBracket :: rest) := by
        rw [assemble_tokensOfItems, withinItems, List.reverse_cons]
      _ = _ := assemble_closeArray (x :: xs)
  | .object [], stack, depth, rest => assemble_closeObject []
  | .object ((k, x) :: ms), stack, depth, rest => by
    calc
      _ = assemble ⟨.member [] true k :: stack, depth + 1, .value⟩
          (x.tokens ++ (tokensOfMembers ms ++ .closeBrace :: rest)) := by
        rw [tokens]
        simp only [List.cons_append, List.append_assoc, List.nil_append]
        rfl
      _ = assemble ⟨.object [(k, x.within (maxDepth - (depth + 1)))] true :: stack, depth + 1,
          .separator⟩ (tokensOfMembers ms ++ .closeBrace :: rest) := by
        rw [assemble_tokens]
        rfl
      _ = assemble ⟨.object (withinMembers (maxDepth - (depth + 1)) ((k, x) :: ms)).reverse
          true :: stack, depth + 1, .separator⟩ (.closeBrace :: rest) := by
        rw [assemble_tokensOfMembers, withinMembers, List.reverse_cons]
      _ = _ := assemble_closeObject ((k, x) :: ms)

/-- The tokens of the items after the first put them into the array that is open. -/
theorem assemble_tokensOfItems : (xs : List Json) → ∀ items stack depth rest,
    assemble ⟨.array items :: stack, depth, .separator⟩ (tokensOfItems xs ++ rest) =
      assemble ⟨.array ((withinItems (maxDepth - depth) xs).reverse ++ items) :: stack, depth,
        .separator⟩ rest
  | [], _, _, _, _ => rfl
  | x :: xs, items, stack, depth, rest => by
    calc
      _ = assemble ⟨.array items :: stack, depth, .value⟩
          (x.tokens ++ (tokensOfItems xs ++ rest)) := by
        rw [tokensOfItems]
        simp only [List.cons_append, List.append_assoc]
        rfl
      _ = assemble ⟨.array (x.within (maxDepth - depth) :: items) :: stack, depth,
          .separator⟩ (tokensOfItems xs ++ rest) := by
        rw [assemble_tokens]
        rfl
      _ = _ := by
        rw [assemble_tokensOfItems, withinItems, List.reverse_cons, List.append_assoc,
          List.singleton_append]

theorem assemble_tokensOfMembers : (ms : List (String × Json)) → ∀ members stack depth rest,
    assemble ⟨.object members true :: stack, depth, .separator⟩ (tokensOfMembers ms ++ rest) =
      assemble ⟨.object ((withinMembers (maxDepth - depth) ms).reverse ++ members) true :: stack,
        depth, .separator⟩ rest
  | [], _, _, _, _ => rfl
  | (k, x) :: ms, members, stack, depth, rest => by
    calc
      _ = assemble ⟨.member members true k :: stack, depth, .value⟩
          (x.tokens ++ (tokensOfMembers ms ++ rest)) := by
        rw [tokensOfMembers]
        simp only [List.cons_append, List.append_assoc]
        rfl
      _ = assemble ⟨.object ((k, x.within (maxDepth - depth)) :: members) true :: stack, depth,
          .separator⟩ (tokensOfMembers ms ++ rest) := by
        rw [assemble_tokens]
        rfl
      _ = _ := by
        rw [assemble_tokensOfMembers, withinMembers, List.reverse_cons, List.append_assoc,
          List.singleton_append]

end

end Assembly

theorem ofTokens?_tokens (j : Json) : ofTokens? j.tokens = some (j.within maxDepth) := by
  have hassemble := Assembly.assemble_tokens j [] 0 []
  rw [List.append_nil] at hassemble
  exact hassemble

/-- A written tree is read back as far as its containers may nest. -/
theorem ofString?_render {j : Json} (h : j.isExact = true) :
    ofString? j.render = some (j.within maxDepth) := by
  rw [ofString?, render, String.toList_ofList, ofSymbols?, tokens?_chars h, Option.bind_some,
    ofTokens?_tokens]

/-- A written tree that nests no deeper than allowed is read back as it is. -/
theorem ofString?_render_of_depth_le {j : Json} (h : j.isExact = true)
    (hdepth : j.depth ≤ maxDepth) : ofString? j.render = some j := by
  rw [ofString?_render h, within_of_depth_le j maxDepth hdepth]

end Json
end CallImpact
