import GoCompact.Proofs.Grammar.Independence

namespace GoCompact

namespace Token

-- What a reader of a diagnostic can tell tokens apart by: what they are, and in which line and column
-- they stand.
def seen (t : Token) : Lexeme × Nat × Nat := (t.toLexeme, t.line, t.column)

end Token

-- Lines and columns are kept. Offsets and the names of files are forgotten.
def Relocation.lines : Relocation where
  token t := ⟨t.toLexeme, t.line, t.column, 0, 0, none⟩
  place
    | .location l => .location { l with offset := .int 0, endOffset := .int 0, file := .null }
    | t => t
  toLexeme_token _ := rfl
  place_token _ := rfl
  place_unknownPlace := rfl

theorem Relocation.map_lines {ts ts' : List Token} (h : ts.map Token.seen = ts'.map Token.seen) :
    ts.map Relocation.lines.token = ts'.map Relocation.lines.token := by
  have hmap : ∀ us : List Token, us.map Relocation.lines.token =
      (us.map Token.seen).map fun s => ⟨s.1, s.2.1, s.2.2, 0, 0, none⟩ := by
    intro us
    rw [List.map_map]
    rfl
  rw [hmap, hmap, h]

-- The end comes last, so that a text does not go on behind it.
theorem Sourced.eq_nil_of_append {pending pending' : Bool} {ls ms : List Lexeme}
    (h : Sourced pending ls) (h' : Sourced pending' (ls ++ ms)) : ms = [] := by
  have htail : ∀ {pending' : Bool} {l : Lexeme} {ns : List Lexeme}, ns ≠ [] →
      Sourced pending' (l :: (ns ++ ms)) → ∃ pending, Sourced pending (ns ++ ms) := by
    intro pending' l ns hne h'
    generalize hns : ns ++ ms = rest at h' ⊢
    cases h' with
    | finish => exact absurd (List.append_eq_nil_iff.mp hns).1 hne
    | newline h' => exact ⟨_, h'⟩
    | token hwhole h' => exact ⟨_, h'⟩
  induction h generalizing pending' with
  | finish =>
      cases h' with
      | finish => rfl
      | token hwhole h' => exact absurd rfl hwhole.kind_ne_eof
  | newline h ih => exact (htail h.ne_nil h').elim fun _ h' => ih h'
  | token hwhole h ih => exact (htail h.ne_nil h').elim fun _ h' => ih h'

-- How many tokens come before the one that was current when a text was refused.
def Refusal.index (r : Refusal) (tokens : List Token) : Nat :=
  tokens.length - (r.cursor.upcoming.length + 1)

namespace Fragment

open Comparison Relocation

variable {fragment : Fragment} {limit : Limit} {ts ts' : List Token} {r : Refusal}

theorem rule_of_parseTokens (h : fragment.parseTokens limit ts = .error r) :
    fragment.rule (Grammar.upTo ts.length) ⟨0, 0, limit⟩ (Cursor.ofTokens ts) = .error r := by
  cases ho : fragment.rule (Grammar.upTo ts.length) ⟨0, 0, limit⟩ (Cursor.ofTokens ts) with
  | ok a =>
      rw [parseTokens_ok ho] at h
      cases h
  | error q =>
      rw [parseTokens_error ho] at h
      cases h
      rfl

-- More rounds than there are tokens change nothing where a text is refused.
theorem parseTokens_of_rule {m : Nat} {cause : Cause} {t : Token} {d : Cursor} {l : Int}
    (h : Sourced false (ts.map (·.toLexeme))) (hm : ts.length ≤ m)
    (hrule : fragment.rule (Grammar.upTo m) ⟨0, 0, limit⟩ (Cursor.ofTokens ts) =
      .error ⟨cause, t, d, l⟩) :
    ∃ e l', fragment.parseTokens limit ts = .error ⟨cause, t, e, l'⟩ := by
  have hlength := length_ofTokens h
  have hrun := outcome_rule (.whole .stay False ts.length) fragment hm (valid_ofTokens h) (by omega)
    (faces_whole .stay False ts.length _) fun n => .inl (rfl : limit.admits n = limit.admits n)
  rw [cursor_stay, hrule] at hrun
  generalize ho : fragment.rule (Grammar.upTo ts.length) ⟨0, 0, limit⟩ (Cursor.ofTokens ts) = o
    at hrun
  generalize ho' : (Except.error ⟨cause, t, d, l⟩ : Except Refusal (Tree × Cursor)) = o' at hrun
  cases hrun.agrees with
  | ok => cases ho'
  | error =>
      cases ho'
      exact ⟨_, _, parseTokens_error ho⟩
  | cut hcuts => exact hcuts.elim
  | beyond hbeyond => exact absurd List.nil_suffix hbeyond

-- The current token is one of those that were given.
theorem upcoming_lt_of_parseTokens (h : Sourced false (ts.map (·.toLexeme)))
    (hrefused : fragment.parseTokens limit ts = .error r) :
    r.cursor.upcoming.length < ts.length := by
  have hlength := length_ofTokens h
  have hrun := outcome_rule (.whole .stay False ts.length) fragment (Nat.le_refl ts.length)
    (valid_ofTokens h) (by omega) (faces_whole .stay False ts.length _)
    fun n => .inl (rfl : limit.admits n = limit.admits n)
  rw [rule_of_parseTokens hrefused] at hrun
  have hle := hrun.falls.reached.length_le
  change r.cursor.upcoming.length ≤ _ at hle
  omega

-- A text that ends in other tokens, where none of these was looked at.
theorem parseTokens_alike {t : Token} {shared rest rest' : List Token}
    (h : Sourced false ((t :: (shared ++ rest)).map (·.toLexeme)))
    (h' : Sourced false ((t :: (shared ++ rest')).map (·.toLexeme)))
    (hrefused : fragment.parseTokens limit (t :: (shared ++ rest)) = .error r)
    (hreached : r.cursor.upcoming.length = rest.length) :
    ∃ d l, fragment.parseTokens limit (t :: (shared ++ rest')) =
      .error ⟨r.cause, r.token, d, l⟩ := by
  have hnil : ∀ {us us' : List Token}, Sourced false ((t :: (shared ++ us)).map (·.toLexeme)) →
      Sourced false ((t :: (shared ++ us')).map (·.toLexeme)) → us = [] → us' = [] := by
    intro us us' hus hus' hempty
    rw [hempty, List.append_nil] at hus
    rw [← List.cons_append, List.map_append] at hus'
    exact List.map_eq_nil_iff.mp (hus.eq_nil_of_append hus')
  let C : Comparison := ⟨.stay, False, 0, rest, rest', hnil h h', hnil h' h⟩
  have hfaces : C.Faces ⟨t, shared ++ rest⟩ ⟨t, shared ++ rest'⟩ := by
    intro shared' hshared
    obtain rfl : shared = shared' := List.append_cancel_right hshared
    change (⟨t, _⟩ : Cursor) = ⟨t, shared.map id ++ rest'⟩
    rw [List.map_id]
  have hrun := outcome_rule (n := (t :: (shared ++ rest)).length) C fragment
    (Nat.le_max_left _ (t :: (shared ++ rest')).length) (valid_ofTokens h) (Nat.lt_succ_self _)
    hfaces fun n => .inl (rfl : limit.admits n = limit.admits n)
  rw [rule_of_parseTokens hrefused] at hrun
  generalize ho' : fragment.rule _ ⟨0, 0, limit⟩ ⟨t, shared ++ rest'⟩ = o' at hrun
  obtain ⟨hfalls, hagrees⟩ := hrun
  cases hagrees with
  | error => exact parseTokens_of_rule h' (Nat.le_max_right _ _) ho'
  | cut hcuts => exact hcuts.elim
  | beyond hbeyond =>
      -- As many tokens are left as the texts differ in, so that it is these.
      refine absurd ?_ hbeyond
      exact List.suffix_of_suffix_length_le (List.suffix_append shared rest) hfalls.reached
        (Nat.le_of_eq hreached.symm)

theorem parseTokens_index (h : Sourced false (ts.map (·.toLexeme)))
    (h' : Sourced false (ts'.map (·.toLexeme)))
    (hrefused : fragment.parseTokens limit ts = .error r)
    (hagree : ts.take (r.index ts + 1) = ts'.take (r.index ts + 1)) :
    ∃ d l, fragment.parseTokens limit ts' = .error ⟨r.cause, r.token, d, l⟩ := by
  have hlt := upcoming_lt_of_parseTokens h hrefused
  have hindex : r.index ts + 1 + r.cursor.upcoming.length = ts.length := by
    simp only [Refusal.index]
    omega
  obtain ⟨t, shared, hshared⟩ : ∃ t shared, ts.take (r.index ts + 1) = t :: shared := by
    cases ts with
    | nil => exact absurd hlt (Nat.not_lt_zero _)
    | cons t ts => exact ⟨t, _, rfl⟩
  have hts : ts = t :: (shared ++ ts.drop (r.index ts + 1)) := by
    rw [← List.cons_append, ← hshared, List.take_append_drop]
  have hts' : ts' = t :: (shared ++ ts'.drop (r.index ts + 1)) := by
    rw [← List.cons_append, ← hshared, hagree, List.take_append_drop]
  have hreached : r.cursor.upcoming.length = (ts.drop (r.index ts + 1)).length := by
    rw [List.length_drop]
    omega
  rw [hts] at h hrefused
  rw [hts'] at h' ⊢
  exact parseTokens_alike h h' hrefused hreached

-- Moved tokens are refused where the tokens are that were not moved.
theorem parseTokens_moved (moves : Relocation) (h : Sourced false (ts.map (·.toLexeme)))
    (hrefused : fragment.parseTokens limit ts = .error r) :
    ∃ d l, fragment.parseTokens limit (ts.map moves.token) =
        .error ⟨r.cause, moves.token r.token, d, l⟩ ∧
      d.upcoming.length = r.cursor.upcoming.length := by
  have hanswers := answers_parseTokens moves False fragment h
    fun n => .inl (rfl : limit.admits n = limit.admits n)
  rw [hrefused] at hanswers
  generalize fragment.parseTokens limit (ts.map moves.token) = o at hanswers ⊢
  cases hanswers with
  | cut hcuts => exact hcuts.elim
  | @error cause t d d' l l' hdeep hfaces =>
      refine ⟨d', l', rfl, ?_⟩
      rw [hfaces d.upcoming (List.append_nil _).symm]
      simp [whole]

theorem parseTokens_of_moved (moves : Relocation) {cause : Cause} {t : Token} {d : Cursor} {l : Int}
    (h : Sourced false (ts.map (·.toLexeme)))
    (hrefused : fragment.parseTokens limit (ts.map moves.token) = .error ⟨cause, t, d, l⟩) :
    ∃ q, fragment.parseTokens limit ts = .error q ∧ q.cause = cause ∧ moves.token q.token = t := by
  have hanswers := answers_parseTokens moves False fragment h
    fun n => .inl (rfl : limit.admits n = limit.admits n)
  generalize fragment.parseTokens limit ts = o at hanswers ⊢
  generalize ho' : fragment.parseTokens limit (ts.map moves.token) = o' at hanswers
  rw [hrefused] at ho'
  cases hanswers with
  | ok => cases ho'
  | cut hcuts => exact hcuts.elim
  | error =>
      obtain ⟨hcause, ht, -⟩ := Refusal.mk.inj (Except.error.inj ho')
      exact ⟨_, rfl, hcause.symm, ht.symm⟩

-- The two texts are refused for the same cause and at the same line and column.
theorem parse_lookahead (fragment : Fragment) (limit : Limit) {source source' : Text}
    {file file' : Option Text} {ts ts' : List Token} {r : Refusal}
    (hts : Lexer.tokens source file = .ok ts) (hts' : Lexer.tokens source' file' = .ok ts')
    (hrefused : fragment.parseTokens limit ts = .error r)
    (hagree : (ts.take (r.index ts + 1)).map Token.seen =
      (ts'.take (r.index ts + 1)).map Token.seen) :
    fragment.parse limit source file = .error (r.diagnostic file) ∧
      fragment.parse limit source' file' = .error (r.diagnostic file') := by
  have hsourced : ∀ {us : List Token}, Sourced false (us.map (·.toLexeme)) →
      Sourced false ((us.map lines.token).map (·.toLexeme)) := by
    intro us h
    rwa [List.map_map]
  -- Both texts are read as if offsets and names of files were forgotten.
  obtain ⟨d, l, hlines, hlength⟩ := parseTokens_moved lines (sourced_of_tokens hts) hrefused
  have hindex : Refusal.index ⟨r.cause, lines.token r.token, d, l⟩ (ts.map lines.token) =
      r.index ts := by
    simp only [Refusal.index, List.length_map, hlength]
  obtain ⟨e, m, hlines'⟩ := parseTokens_index (hsourced (sourced_of_tokens hts))
    (hsourced (sourced_of_tokens hts')) hlines (by
      rw [hindex, ← List.map_take, ← List.map_take]
      exact map_lines hagree)
  obtain ⟨q, hq, hcause, htoken⟩ := parseTokens_of_moved lines (sourced_of_tokens hts') hlines'
  have hline := congrArg Token.line htoken
  have hcolumn := congrArg Token.column htoken
  change q.token.line = r.token.line at hline
  change q.token.column = r.token.column at hcolumn
  refine ⟨parse_of_error hts hrefused, ?_⟩
  rw [parse_of_error hts' hq]
  simp only [Refusal.diagnostic, hcause, hline, hcolumn]

-- Two names: the second one is refused, whatever follows it.
theorem parse_lookahead_names :
    ∃ ts ts' r, Lexer.tokens "x y" none = .ok ts ∧ Lexer.tokens "x y + z" none = .ok ts' ∧
      expression.parseTokens (.atMost 100) ts = .error r ∧
      (ts.take (r.index ts + 1)).map Token.seen = (ts'.take (r.index ts + 1)).map Token.seen ∧
      expression.parse (.atMost 100) "x y + z" none = .error (r.diagnostic none) := by
  let x : Token := ⟨⟨.ident, "x"⟩, 1, 1, 0, 1, none⟩
  let y : Token := ⟨⟨.ident, "y"⟩, 1, 3, 2, 3, none⟩
  have hts : Lexer.tokens "x y" none =
      .ok [x, y, ⟨.newline, 1, 4, 3, 3, none⟩, ⟨.ending, 1, 4, 3, 3, none⟩] :=
    rfl
  have hts' : Lexer.tokens "x y + z" none =
      .ok [x, y, ⟨⟨.op .Add, "+"⟩, 1, 5, 4, 5, none⟩, ⟨⟨.ident, "z"⟩, 1, 7, 6, 7, none⟩,
        ⟨.newline, 1, 8, 7, 7, none⟩, ⟨.ending, 1, 8, 7, 7, none⟩] :=
    rfl
  exact ⟨_, _, _, hts, hts', rfl, rfl, (parse_lookahead .expression (.atMost 100) hts hts' rfl rfl).2⟩

end Fragment

end GoCompact
