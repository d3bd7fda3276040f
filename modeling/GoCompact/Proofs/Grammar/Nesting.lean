import GoCompact.Proofs.Grammar.Mirror.Fragment

namespace GoCompact

open CodePoint (char)

-- A text begins as its first part does.
theorem take_toList_append {n : Nat} (s u : Text) (h : n ≤ s.toList.length) :
    (s ++ u).toList.take n = s.toList.take n := by
  rw [Text.toList_append, List.take_append_of_le_length h]

namespace Cause

-- No other message begins like the one about nesting.
theorem take_message {cause : Cause} (h : cause ≠ .nestingTooDeep) :
    cause.message.toList.take 3 ≠ [char 'e', char 'x', char 'c'] := by
  cases cause with
  | nestingTooDeep => exact absurd rfl h
  | illegalCharacter c =>
      have htake : (illegalCharacter c).message.toList.take 3 = "illegal character ".toList.take 3 :=
        take_toList_append _ _ (by decide)
      rw [htake]
      decide
  | unfinished what => cases what <;> decide
  | expected what found =>
      have hmessage : (expected what found).message =
          "expected " ++ (what.name ++ (", found " ++ found.described)) := by
        rw [← Text.append_assoc, ← Text.append_assoc]
        rfl
      rw [hmessage, take_toList_append _ _ (by decide)]
      decide
  | expectedExpression part => cases part <;> decide
  | parenthesizedCall word => cases word <;> decide
  | notACall word => cases word <;> decide
  | _ => decide

theorem message_eq_iff {cause : Cause} :
    cause.message = "exceeded maximum nesting depth" ↔ cause = .nestingTooDeep := by
  constructor
  · intro h
    by_contra hne
    have htake := take_message hne
    rw [h] at htake
    exact htake rfl
  · rintro rfl
    rfl

end Cause

namespace Fragment

variable {source : Text} {file : Option Text} {ts : List Token} {fragment : Fragment}
  {limit : Limit}

theorem parse_of_ok {t : Tree} (htokens : Lexer.tokens source file = .ok ts)
    (h : fragment.parseTokens limit ts = .ok t) : fragment.parse limit source file = .ok t := by
  simp only [parse, htokens, bind, Except.bind, h]
  rfl

theorem parse_of_error {r : Refusal} (htokens : Lexer.tokens source file = .ok ts)
    (h : fragment.parseTokens limit ts = .error r) :
    fragment.parse limit source file = .error (r.diagnostic file) := by
  simp only [parse, htokens, bind, Except.bind, h]
  rfl

-- A text has a tree if it has tokens and the rule of the fragment gives the tree.
theorem parse_of_gives {t : Tree} {c : Cursor} (htokens : Lexer.tokens source file = .ok ts)
    (h : (fragment.rule (Grammar.upTo ts.length)).Gives ⟨0, 0, limit⟩ (Cursor.ofTokens ts) t c) :
    fragment.parse limit source file = .ok t :=
  parse_of_ok htokens (parseTokens_ok h)

theorem gives_of_parse {t : Tree} (h : fragment.parse limit source file = .ok t) :
    ∃ ts c, Lexer.tokens source file = .ok ts ∧
      (fragment.rule (Grammar.upTo ts.length)).Gives ⟨0, 0, limit⟩ (Cursor.ofTokens ts) t c := by
  cases htokens : Lexer.tokens source file with
  | error d =>
      simp only [parse, htokens, bind, Except.bind] at h
      cases h
  | ok ts =>
      cases hrun : fragment.rule (Grammar.upTo ts.length) ⟨0, 0, limit⟩ (Cursor.ofTokens ts) with
      | error r =>
          rw [parse_of_error htokens (parseTokens_error hrun)] at h
          cases h
      | ok q =>
          rw [parse_of_ok htokens (parseTokens_ok hrun)] at h
          obtain rfl := Except.ok.inj h
          exact ⟨ts, q.2, rfl, hrun⟩

-- A text with a tree has tokens.
theorem tokens_of_parse {t : Tree} (h : fragment.parse limit source file = .ok t) :
    ∃ ts, Lexer.tokens source file = .ok ts := by
  obtain ⟨ts, -, hts, -⟩ := gives_of_parse h
  exact ⟨ts, hts⟩

-- A text that can be read has a tree.
theorem exists_of_isSome (fragment : Fragment) (limit : Limit) (source : Text)
    (h : (fragment.parse limit source none).toOption.isSome = true) :
    ∃ t, fragment.parse limit source none = .ok t := by
  cases hparse : fragment.parse limit source none with
  | ok t => exact ⟨t, rfl⟩
  | error d =>
      rw [hparse] at h
      cases h

-- A text whose tree meets a condition.
theorem exists_of_any (fragment : Fragment) (limit : Limit) (source : Text) (p : Tree → Bool)
    (h : (fragment.parse limit source none).toOption.any p = true) :
    ∃ t, fragment.parse limit source none = .ok t ∧ p t = true := by
  cases hparse : fragment.parse limit source none with
  | ok t =>
      rw [hparse] at h
      exact ⟨t, rfl, h⟩
  | error d =>
      rw [hparse] at h
      cases h

-- Whether a text was refused for a cause that meets a condition.
def refusedFor (p : Cause → Bool) : Except Diagnostic Tree → Bool
  | .ok _ => false
  | .error d => p d.cause

theorem exists_of_refusedFor (fragment : Fragment) (limit : Limit) (source : Text)
    (p : Cause → Bool) (h : refusedFor p (fragment.parse limit source none) = true) :
    ∃ d, fragment.parse limit source none = .error d ∧ p d.cause = true := by
  cases hparse : fragment.parse limit source none with
  | ok t =>
      rw [hparse] at h
      cases h
  | error d =>
      rw [hparse] at h
      exact ⟨d, rfl, h⟩

theorem sourced_of_tokens (h : Lexer.tokens source file = .ok ts) :
    Sourced false (ts.map (·.toLexeme)) :=
  (Lexer.lexes_of_tokens h).sourced

theorem eq_cons_of_tokens
    (hts : Lexer.tokens source file = .ok ts) :
    ts = (Cursor.ofTokens ts).current :: (Cursor.ofTokens ts).upcoming := by
  cases ts with
  | nil => exact absurd rfl (sourced_of_tokens hts).ne_nil
  | cons t ts => rfl

-- A lower limit changes nothing, or the nesting is too deep for it.
theorem parse_eq_or_deep (htokens : Lexer.tokens source file = .ok ts) {d d' : Int} (h : d ≤ d') :
    fragment.parse (.atMost d) source file = fragment.parse (.atMost d') source file ∨
      ∃ diagnostic, fragment.parse (.atMost d) source file = .error diagnostic ∧
        diagnostic.cause = .nestingTooDeep := by
  have hlimit : ∀ n, (Limit.atMost d').admits n = (Limit.atMost d).admits n ∨
      (True ∧ (Limit.atMost d).admits n = some false) := by
    intro n
    simp only [Limit.admits, Option.some.injEq, decide_eq_decide, decide_eq_false_iff_not, true_and]
    by_cases hn : (n : Int) ≤ d
    · exact Or.inl ⟨fun _ => hn, fun _ => Int.le_trans hn h⟩
    · exact Or.inr hn
  have hanswers := answers_parseTokens .stay True fragment (sourced_of_tokens htokens) hlimit
  have hstay : ts.map Relocation.stay.token = ts := List.map_id ts
  rw [hstay] at hanswers
  generalize ho : fragment.parseTokens (.atMost d) ts = o at hanswers
  generalize ho' : fragment.parseTokens (.atMost d') ts = o' at hanswers
  cases hanswers with
  | @ok t =>
      rw [show (Comparison.whole .stay True ts.length).tree t = t from Relocation.tree_stay t] at ho'
      rw [parse_of_ok htokens ho, parse_of_ok htokens ho']
      exact Or.inl rfl
  | error =>
      rw [parse_of_error htokens ho, parse_of_error htokens ho']
      exact Or.inl rfl
  | cut =>
      rw [parse_of_error htokens ho]
      exact Or.inr ⟨_, rfl, rfl⟩

-- Three levels for each token are enough.
theorem parse_not_deep (htokens : Lexer.tokens source file = .ok ts) {d : Int}
    (h : 3 * (ts.length : Int) ≤ d) {diagnostic : Diagnostic}
    (hparse : fragment.parse (.atMost d) source file = .error diagnostic) :
    diagnostic.cause ≠ .nestingTooDeep := by
  have hlimit : ∀ n, (Limit.atMost d).admits n = (Limit.atMost d).admits n ∨
      (False ∧ (Limit.atMost d).admits n = some false) :=
    fun n => Or.inl rfl
  have hanswers := answers_parseTokens .stay False fragment (sourced_of_tokens htokens) hlimit
  generalize ho : fragment.parseTokens (.atMost d) ts = o at hanswers
  generalize fragment.parseTokens (.atMost d) (ts.map Relocation.stay.token) = o' at hanswers
  cases hanswers with
  | ok =>
      rw [parse_of_ok htokens ho] at hparse
      cases hparse
  | error hdeep =>
      rw [parse_of_error htokens ho] at hparse
      cases hparse
      intro hcause
      have hfalse := hdeep hcause
      simp only [Limit.admits, Option.some.injEq, decide_eq_false_iff_not] at hfalse
      omega
  | cut hcuts => exact hcuts.elim

theorem parse_nesting (fragment : Fragment) (htokens : Lexer.tokens source file = .ok ts) :
    (∀ d d' : Int, d ≤ d' →
      fragment.parse (.atMost d) source file = fragment.parse (.atMost d') source file ∨
        ∃ diagnostic, fragment.parse (.atMost d) source file = .error diagnostic ∧
          diagnostic.cause.message = "exceeded maximum nesting depth") ∧
      ∀ d : Int, 3 * (ts.length : Int) ≤ d → ∀ diagnostic,
        fragment.parse (.atMost d) source file = .error diagnostic →
          diagnostic.cause.message ≠ "exceeded maximum nesting depth" := by
  refine ⟨fun d d' hd => ?_, fun d hd diagnostic hparse hmessage => ?_⟩
  · rcases parse_eq_or_deep htokens hd with h | ⟨diagnostic, h, hcause⟩
    · exact Or.inl h
    · exact Or.inr ⟨diagnostic, h, Cause.message_eq_iff.mpr hcause⟩
  · exact parse_not_deep htokens hd hparse (Cause.message_eq_iff.mp hmessage)

-- A name in parentheses: five tokens, for which a limit of one level is too low and one of fifteen is
-- not.
theorem parse_nesting_paren :
    ∃ ts, Lexer.tokens "(x)" none = .ok ts ∧ ts.length = 5 ∧
      (∃ diagnostic, expression.parse (.atMost 1) "(x)" none = .error diagnostic ∧
        diagnostic.cause.message = "exceeded maximum nesting depth") ∧
      ∀ diagnostic, expression.parse (.atMost 15) "(x)" none = .error diagnostic →
        diagnostic.cause.message ≠ "exceeded maximum nesting depth" := by
  have htokens : Lexer.tokens "(x)" none =
      .ok [⟨⟨.op .LParen, "("⟩, 1, 1, 0, 1, none⟩, ⟨⟨.ident, "x"⟩, 1, 2, 1, 2, none⟩,
        ⟨⟨.op .RParen, ")"⟩, 1, 3, 2, 3, none⟩, ⟨.newline, 1, 4, 3, 3, none⟩,
        ⟨.ending, 1, 4, 3, 3, none⟩] := by
    rfl
  have hnesting := parse_nesting .expression htokens
  refine ⟨_, htokens, rfl, ?_, hnesting.2 15 (by decide)⟩
  rcases hnesting.1 1 15 (by decide) with h | h
  · have hlow : (expression.parse (.atMost 1) "(x)" none).toOption.isSome = false := by
      rfl
    have hhigh : (expression.parse (.atMost 15) "(x)" none).toOption.isSome = true := by
      rfl
    rw [h, hhigh] at hlow
    cases hlow
  · exact h

end Fragment

end GoCompact
