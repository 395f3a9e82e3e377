import Contrary.Proofs.Template

/-!
# Folding brackets

The words of a line are found by folding its tokens, and written out again as tokens.  The
two are inverse to each other, and which tokens can be folded is seen from the neighbours of
each token.

**Inverse.**  Tokens that fold are the tokens of their words, and the tokens of words fold
(`Word.ofTokens?_eq_some_iff`).

**Places.**  `Token.FitsAt ts i` says which tokens may stand at a position of a line: a left bracket
between a name and a subscript that a right bracket follows, a right bracket two places after
a left one, names and numbers anywhere, and nothing else.  Whether a token fits does not
depend on the words before it (`fitsAt_append`, `fitsAt_of_append`), so it is enough to look
at one word after another.

**Results.**
* `folding_inverts_flattening`: which tokens fold, and into which words.
-/

namespace Contrary

/-- A token may stand at a position of a line: its neighbours are those that it has in a
word. -/
def Token.FitsAt (ts : List Token) (i : Nat) : Token → Prop
  | .name _ => True
  | .literal _ => True
  | .bracket .left =>
      (∃ j x, i = j + 1 ∧ ts[j]? = some (.name x)) ∧
        (∃ s : Subscript, ts[i + 1]? = some s.token) ∧ ts[i + 2]? = some (.bracket .right)
  | .bracket .right => ∃ j, i = j + 2 ∧ ts[j]? = some (.bracket .left)
  | .comment _ => False
  | .unknown => False

/-- Every token of a line fits where it stands. -/
def Token.AllFit (ts : List Token) : Prop :=
  ∀ (i : Nat) (t : Token), ts[i]? = some t → t.FitsAt ts i

section Places

variable {ts us : List Token} {t : Token}

theorem getElem?_append_length
    (us ts : List Token) (i : Nat) :
    (us ++ ts)[us.length + i]? = ts[i]? := by
  rw [List.getElem?_append_right (Nat.le_add_right _ _), Nat.add_sub_cancel_left]

/-- A token fits after other tokens as well. -/
theorem fitsAt_append
    {i : Nat}
    (h : t.FitsAt ts i) :
    t.FitsAt (us ++ ts) (us.length + i) := by
  have hget := getElem?_append_length us ts
  cases t with
  | name x => trivial
  | literal n => trivial
  | comment x => exact h
  | unknown => exact h
  | bracket side =>
      cases side with
      | left =>
          obtain ⟨⟨j, x, rfl, hj⟩, ⟨s, hs⟩, hclose⟩ := h
          exact ⟨⟨us.length + j, x, rfl, (hget j).trans hj⟩, ⟨s, (hget _).trans hs⟩,
            (hget _).trans hclose⟩
      | right =>
          obtain ⟨j, rfl, hj⟩ := h
          exact ⟨us.length + j, rfl, (hget j).trans hj⟩

/-- A token that fits after the tokens of a word fits without them, unless it goes on with
the word. -/
theorem fitsAt_of_append
    {w : Word} {i : Nat}
    (hget : ts[i]? = some t)
    (hnext : ∀ x, w = .name x → ts[0]? ≠ some (.bracket .left))
    (h : t.FitsAt (w.tokens ++ ts) (w.tokens.length + i)) :
    t.FitsAt ts i := by
  have hshift := getElem?_append_length w.tokens ts
  cases t with
  | name x => trivial
  | literal n => trivial
  | comment x => exact h
  | unknown => exact h
  | bracket side =>
      cases side with
      | left =>
          obtain ⟨⟨j, x, hj, hname⟩, ⟨s, hs⟩, hclose⟩ := h
          refine ⟨?_, ⟨s, (hshift _).symm.trans hs⟩, (hshift _).symm.trans hclose⟩
          cases i with
          | succ k =>
              have hk : j = w.tokens.length + k := by omega
              rw [hk, hshift] at hname
              exact ⟨k, x, rfl, hname⟩
          | zero =>
              -- the name before the bracket would be the last token of the word
              cases w with
              | name y => exact absurd hget (hnext y rfl)
              | literal n =>
                  obtain rfl : j = 0 := by simp [Word.tokens] at hj; omega
                  cases hname
              | element a index =>
                  obtain rfl : j = 3 := by simp [Word.tokens] at hj; omega
                  cases hname
      | right =>
          obtain ⟨j, hj, hopen⟩ := h
          by_cases hi : 2 ≤ i
          · obtain ⟨k, rfl⟩ := Nat.exists_eq_add_of_le' hi
            have hk : j = w.tokens.length + k := by omega
            rw [hk, hshift] at hopen
            exact ⟨k, rfl, hopen⟩
          · -- the left bracket would be one of the last two tokens of the word
            cases w with
            | name y =>
                obtain rfl : j = 0 := by simp [Word.tokens] at hj; omega
                cases hopen
            | literal n =>
                obtain rfl : j = 0 := by simp [Word.tokens] at hj; omega
                cases hopen
            | element a index =>
                have hcases : j = 2 ∨ j = 3 := by simp [Word.tokens] at hj; omega
                rcases hcases with rfl | rfl
                · cases index <;> cases hopen
                · cases hopen

/-- The tokens of a word fit. -/
theorem fitsAt_tokens
    (ts : List Token) {w : Word} {i : Nat}
    (h : w.tokens[i]? = some t) :
    t.FitsAt (w.tokens ++ ts) i := by
  cases w with
  | name x =>
      rw [List.mem_singleton.mp (List.mem_of_getElem? h)]
      trivial
  | literal n =>
      rw [List.mem_singleton.mp (List.mem_of_getElem? h)]
      trivial
  | element a index =>
      rcases i with _ | _ | _ | _ | i
      · cases h
        trivial
      · cases h
        exact ⟨⟨0, a, rfl, rfl⟩, ⟨index, rfl⟩, rfl⟩
      · cases h
        cases index <;> trivial
      · cases h
        exact ⟨1, rfl, rfl⟩
      · cases h

end Places

namespace Word

/-- Tokens fold into words if and only if they are the tokens of these words. -/
theorem ofTokens?_eq_some_iff
    {ts : List Token} {ws : List Word} :
    ofTokens? ts = some ws ↔ ws.flatMap tokens = ts := by
  constructor
  · intro h
    exact (tokens_of_ofTokens? h).symm
  · rintro rfl
    exact ofTokens?_tokens ws

/-- Every token of a list of words fits. -/
theorem allFit_flatMap_tokens
    (ws : List Word) :
    Token.AllFit (ws.flatMap tokens) := by
  induction ws with
  | nil =>
      intro i t h
      cases h
  | cons w ws ih =>
      intro i t h
      rw [List.flatMap_cons] at h ⊢
      by_cases hi : i < w.tokens.length
      · rw [List.getElem?_append_left hi] at h
        exact fitsAt_tokens _ h
      · obtain ⟨k, rfl⟩ := Nat.exists_eq_add_of_le (Nat.le_of_not_lt hi)
        rw [getElem?_append_length] at h
        exact fitsAt_append (ih k t h)

/-- Tokens that fit after the tokens of a word fit without them, unless they go on with the
word. -/
theorem allFit_of_append
    {w : Word} {ts : List Token}
    (hnext : ∀ x, w = .name x → ts[0]? ≠ some (.bracket .left))
    (h : Token.AllFit (w.tokens ++ ts)) :
    Token.AllFit ts := by
  intro i t ht
  exact fitsAt_of_append ht hnext (h _ t ((getElem?_append_length _ _ i).trans ht))

/-- Tokens fold if all of them fit. -/
theorem isSome_ofTokens?_of_allFit
    (ts : List Token) :
    Token.AllFit ts → (ofTokens? ts).isSome = true := by
  fun_induction ofTokens? ts with
  | case1 =>
      intro _
      rfl
  | case2 value ts ih =>
      intro h
      rw [Option.isSome_map]
      exact ih (allFit_of_append (w := .literal value) (fun x hx => by cases hx) h)
  | case3 array index ts ih =>
      intro h
      rw [Option.isSome_map]
      exact ih (allFit_of_append (w := .element array (.name index)) (fun x hx => by cases hx) h)
  | case4 array index ts ih =>
      intro h
      rw [Option.isSome_map]
      exact ih
        (allFit_of_append (w := .element array (.literal index)) (fun x hx => by cases hx) h)
  | case5 array side ts hname hliteral =>
      intro h
      exfalso
      have hside := h 1 (.bracket side) rfl
      cases side with
      | left =>
          obtain ⟨-, ⟨s, hs⟩, hclose⟩ := hside
          rcases ts with _ | ⟨t, _ | ⟨t', ts⟩⟩
          · cases hs
          · cases hclose
          · cases hclose
            cases s with
            | name x =>
                cases hs
                exact hname x ts rfl rfl
            | literal n =>
                cases hs
                exact hliteral n ts rfl rfl
      | right =>
          obtain ⟨j, hj, -⟩ := hside
          omega
  | case6 text ts _ _ hbracket ih =>
      intro h
      rw [Option.isSome_map]
      refine ih (allFit_of_append (w := .name text) ?_ h)
      intro _ _ hfirst
      cases ts with
      | nil => cases hfirst
      | cons t ts =>
          cases hfirst
          exact hbracket .left ts rfl
  | case7 ts hnil hliteral _ _ _ hname =>
      intro h
      exfalso
      cases ts with
      | nil => exact hnil rfl
      | cons t ts =>
          have ht := h 0 t rfl
          cases t with
          | name x => exact hname x ts rfl
          | literal n => exact hliteral n ts rfl
          | comment x => exact ht
          | unknown => exact ht
          | bracket side =>
              cases side with
              | left =>
                  obtain ⟨⟨j, -, hj, -⟩, -⟩ := ht
                  omega
              | right =>
                  obtain ⟨j, hj, -⟩ := ht
                  omega

end Word

/-- **Folding inverts flattening.**  Tokens fold into words if and only if they are the tokens
of these words, so they fold exactly if they are the tokens of some words, and these are the
only ones; the tokens of any words fold into these words.  This is so exactly if every token
fits where it stands: a bracket in another place, a comment or an unknown token makes the
folding fail. -/
theorem folding_inverts_flattening :
    (∀ (ts : List Token) (ws : List Word),
      Word.ofTokens? ts = some ws ↔ ws.flatMap Word.tokens = ts) ∧
    (∀ ts : List Token,
      (Word.ofTokens? ts).isSome = true ↔ ∃! ws : List Word, ws.flatMap Word.tokens = ts) ∧
    (∀ ws : List Word, Word.ofTokens? (ws.flatMap Word.tokens) = some ws) ∧
    ∀ ts : List Token, (Word.ofTokens? ts).isSome = true ↔ Token.AllFit ts := by
  have hfold := @Word.ofTokens?_eq_some_iff
  refine ⟨fun ts ws => hfold, ?_, Word.ofTokens?_tokens, ?_⟩
  · intro ts
    rw [Option.isSome_iff_exists]
    constructor
    · rintro ⟨ws, hws⟩
      refine ⟨ws, hfold.mp hws, ?_⟩
      intro ws' hws'
      exact Option.some.inj ((hfold.mpr hws').symm.trans hws)
    · rintro ⟨ws, hws, -⟩
      exact ⟨ws, hfold.mpr hws⟩
  · intro ts
    constructor
    · intro h
      obtain ⟨ws, hws⟩ := Option.isSome_iff_exists.mp h
      rw [← hfold.mp hws]
      exact Word.allFit_flatMap_tokens ws
    · exact Word.isSome_ofTokens?_of_allFit ts

end Contrary
