import GoCompact.Proofs.Grammar.Independence
import GoCompact.Proofs.Grammar.Parts
import GoCompact.Proofs.Grammar.TypeOperand
import GoCompact.Proofs.Grammar.Variable

namespace GoCompact

open GoCompact.Parser GoCompact.Tree Comparison

namespace Lexes

variable {cs : List CodePoint} {ls : List Lexeme}

-- Where no semicolon is inserted first, it does not matter whether one could be.
theorem of_pending (h : Lexes true cs ls) (hls : ls.head? ≠ some .newline) : Lexes false cs ls := by
  generalize hpending : true = pending at h
  induction h with
  | finish => cases hpending
  | finishLine => exact absurd rfl hls
  | insert => exact absurd rfl hls
  | skip hgap _ _ ih => exact .skip hgap rfl (ih hls hpending)
  | token hgap hscan hne h => exact .token hgap hscan hne h

-- The lexemes behind a keyword and a name, each with a blank after it.
theorem of_variable {source : Text} (h : Lexes false ("var x " ++ source).toList ls) :
    ∃ ms, ls = .ofKeyword .Var :: ⟨.ident, "x"⟩ :: ms ∧ Lexes true source.toList ms := by
  have hname : (⟨.ident, "x"⟩ : Lexeme).Whole := Lexeme.whole_of_isWhole rfl
  have hfront : Strung "var x ".toList [.ofKeyword .Var, ⟨.ident, "x"⟩] source.toList :=
    .token (Lexeme.whole_ofKeyword .Var) (by simp; decide) (.blank (.token hname (by simp; decide) (.blank .nil)))
  rw [Text.toList_append] at h
  exact hfront.split_lexes h

end Lexes

namespace Limit

-- Without a limit a depth is admitted as it is under a limit, or the limit is met.
theorem admits_unbounded {limit : Limit} (h : limit ≠ .incomparable) (n : Nat) :
    unbounded.admits n = limit.admits n ∨ (True ∧ limit.admits n = some false) := by
  cases limit with
  | atMost d =>
      by_cases hn : (n : Int) ≤ d
      · exact .inl (by simp [admits, hn])
      · exact .inr (by simp [admits, hn])
  | unbounded => exact .inl rfl
  | incomparable => exact absurd rfl h

end Limit

namespace Cursor

variable {c d : Cursor} {ts : List Token}

theorem lexemes_cursor (r : Relocation) (c : Cursor) : (r.cursor c).lexemes = c.lexemes := by
  simp [lexemes, Function.comp_def]

-- Nothing comes after the end.
theorem Valid.lexemes_eq (h : c.Valid) (hkind : c.current.kind = .eof) : c.lexemes = [.ending] := by
  obtain ⟨pending, h⟩ := h
  have hhead : c.lexemes.head?.map (·.kind) = some .eof := congrArg some hkind
  generalize c.lexemes = ls at h hhead
  cases h with
  | finish => rfl
  | newline => cases hhead
  | token hl => exact absurd (Option.some.inj hhead) hl.kind_ne_eof

theorem forget_eq (h : c.lexemes = d.lexemes) :
    Relocation.forget.cursor c = Relocation.forget.cursor d := by
  obtain ⟨hcurrent, hupcoming⟩ := List.cons.inj (Fragment.map_forget h)
  exact congrArg₂ Cursor.mk hcurrent hupcoming

theorem within_forget (h : c.Valid) {n : Nat} (hn : c.upcoming.length ≤ n) :
    (Relocation.forget.cursor c).Within n := by
  obtain ⟨pending, h⟩ := h
  refine ⟨⟨pending, by rwa [lexemes_cursor]⟩, ?_, by simpa using hn⟩
  simp [Relocation.cursor, Relocation.forget]

-- Two semicolons at the end of a text, of which the second one stands in the text.
theorem getLast?_of_semicolons (h : c.Valid) (hleft : c.upcoming <:+ ts)
    (hfirst : c.current.kind = .op .Semicolon) (hsecond : c.advance.current.kind = .op .Semicolon)
    (hend : c.advance.advance.current.kind = .eof) :
    ∃ l ∈ ((ts.map (·.toLexeme)).filter Lexeme.isWritten).getLast?, l.kind = .op .Semicolon := by
  have hfresh := h.fresh_advance (by simp [hfirst]) (by rw [hfirst]; rfl)
  obtain ⟨hlexemes, -, hwhole⟩ := hfresh.valid.cases (by simp [hsecond])
  have hwhole : c.advance.current.toLexeme.Whole :=
    (hwhole.resolve_right fun hnewline => hfresh.text_ne_lineEnd hnewline.1).1
  rw [(hfresh.valid.advance (by simp [hsecond])).lexemes_eq hend] at hlexemes
  obtain ⟨front, rfl⟩ := hleft
  have hupcoming : c.upcoming.map (·.toLexeme) = [c.advance.current.toLexeme, .ending] := by
    rw [← hlexemes]
    exact (List.cons.inj (h.cases (by simp [hfirst])).1).2
  refine ⟨_, ?_, hsecond⟩
  simp [hupcoming, hwhole.isWritten, Lexeme.isWritten_ending]

end Cursor

namespace Fragment

variable {source : Text} {file : Option Text} {limit : Limit} {place specPlace name typ : Tree}
  {s : Scope} {n : Nat} {c d e : Cursor}

-- A text that stands behind a name in the declaration of a variable: a type, which is read from `c` to
-- `d` without a limit and without places, and the end of the declaration.
structure Typed (source : Text) (typ : Tree) (n : Nat) (c d : Cursor) : Prop where
  lexes : Lexes true source.toList c.lexemes
  valid : c.Valid
  length_le : c.upcoming.length ≤ n
  gives : (Grammar.upTo (n + 1)).typeRule.Gives ⟨0, 0, .unbounded⟩ (Relocation.forget.cursor c) typ.bare
    (Relocation.forget.cursor d)
  rest : d.Valid
  left : d.upcoming <:+ c.upcoming
  ends : d.current.kind = .eof ∨ d.current.kind = .op .Semicolon ∧ (d.advance.current.kind = .eof ∨
    d.advance.current.kind = .op .Semicolon ∧ d.advance.advance.current.kind = .eof)

theorem below_unbounded (h : limit ≠ .incomparable) :
    (whole .forget True n).Below ⟨0, 0, limit⟩ ⟨0, 0, .unbounded⟩ :=
  ⟨.inl rfl, fun n => Limit.admits_unbounded h (0 + n)⟩

theorem ends_of_finish (hend : Ends d e) (h : finish.Gives s e () c) :
    d.current.kind = .eof ∨ d.current.kind = .op .Semicolon ∧ (d.advance.current.kind = .eof ∨
      d.advance.current.kind = .op .Semicolon ∧ d.advance.advance.current.kind = .eof) := by
  cases hend with
  | closing hcloses =>
      rcases gives_finish.mp h with ⟨hkind, -⟩ | ⟨hkind, -⟩
      · rw [hkind] at hcloses
        cases hcloses
      · exact .inl hkind
  | semicolon hkind =>
      rcases gives_finish.mp h with ⟨hnext, hlast, -⟩ | ⟨hnext, -⟩
      · exact .inr ⟨hkind, .inr ⟨hnext, hlast⟩⟩
      · exact .inr ⟨hkind, .inl hnext⟩

theorem typed_of_parse (h : declaration.parse limit ("var x " ++ source) file =
    .ok (.variableDecl place specPlace name typ)) : ∃ n c d, Typed source typ n c d := by
  obtain ⟨ts, c', hts, hgives⟩ := gives_of_parse h
  obtain ⟨decl, e, hdecl, hgives⟩ := gives_bind.mp hgives
  obtain ⟨_, e', hfinish, hgives⟩ := gives_bind.mp hgives
  obtain ⟨rfl, -⟩ := gives_pure.mp hgives
  obtain ⟨d, hvar, hname, htyp, hends⟩ := Grammar.typeRule_of_declaration hdecl
  have hvalid := valid_ofTokens (sourced_of_tokens hts)
  have hlength := length_ofTokens (sourced_of_tokens hts)
  have hlexemes := congrArg (List.map (·.toLexeme)) (eq_cons_of_tokens hts)
  obtain ⟨ms, hms, hlexes⟩ := Lexes.of_variable (Lexer.lexes_of_tokens hts)
  rw [← hlength] at htyp
  generalize Cursor.ofTokens ts = start at *
  have hfirst := hvalid.advance (by simp [hvar])
  have hsecond := hfirst.advance (by simp [hname])
  have hless := (hfirst.advance_lt (by simp [hname])).trans (hvalid.advance_lt (by simp [hvar]))
  have hbehind : start.advance.advance.lexemes = ms := by
    have hstart : start.lexemes = _ := hlexemes.symm.trans hms
    rw [(hvalid.cases (by simp [hvar])).1, (hfirst.cases (by simp [hname])).1] at hstart
    exact (List.cons.inj (List.cons.inj hstart).2).2
  have hlimit : limit ≠ .incomparable := by
    rintro rfl
    cases (gives_nested.mp (Grammar.gives_required.mp htyp)).1
  have hmirrors := (Grammar.mirrored_whole .forget True (Nat.le_refl (start.upcoming.length + 1))).typeRule
    (Nat.le_refl (Phase.start 1).need) (c := start.advance.advance)
  have hadmits : (Phase.start 1).Admits (start.upcoming.length + 1) start.advance.advance :=
    (hless.trans (Nat.lt_succ_self _)).le
  obtain ⟨hrest, hleft, -⟩ := Mirrors.left_of_gives hmirrors hsecond hadmits htyp
  have hgives := Mirrors.gives hmirrors (below_unbounded hlimit) hsecond hadmits htyp
  exact ⟨_, _, d, hbehind ▸ hlexes, hsecond, hless.le, hgives, hrest, hleft, ends_of_finish hends hfinish⟩

theorem Typed.lexes_source (h : Typed source typ n c d) : Lexes false source.toList c.lexemes := by
  refine h.lexes.of_pending fun hnewline => ?_
  have hkind : c.current.kind = .op .Semicolon := congrArg Lexeme.kind (Option.some.inj hnewline)
  have hbegins := Grammar.beginsSimple_of_typeHere (gives_nested.mp (Grammar.gives_required.mp h.gives)).2
  rw [Relocation.current_cursor, Relocation.kind_token, hkind] at hbegins
  cases hbegins

-- Without a semicolon of its own at its end, the text is an expression with nothing after it.
theorem Typed.expression (h : Typed source typ n c d)
    (hlast : ∀ ls, Lexer.written source = .ok ls → ∀ l ∈ ls.getLast?, l.kind ≠ .op .Semicolon) :
    ∃ e, (Fragment.expression.rule (Grammar.upTo (n + 1))).Gives ⟨0, 0, .unbounded⟩
      (Relocation.forget.cursor c) typ.bare e := by
  have hunlimited : Scope.Unlimited ⟨0, 0, .unbounded⟩ := ⟨rfl, Int.le_refl 0⟩
  have hends : d.current.kind = .eof ∨
      d.current.kind = .op .Semicolon ∧ d.advance.current.kind = .eof := by
    refine h.ends.imp_right fun ⟨hfirst, hnext⟩ => ⟨hfirst, hnext.resolve_right fun ⟨hsecond, hend⟩ => ?_⟩
    have hleft : d.upcoming <:+ c.current :: c.upcoming := h.left.trans (List.suffix_cons _ _)
    obtain ⟨l, hl, hkind⟩ := Cursor.getLast?_of_semicolons h.rest hleft hfirst hsecond hend
    exact hlast _ (Lexer.written_of_lexes h.lexes_source) l hl hkind
  have hcloses : (Relocation.forget.cursor d).current.kind.closes = true := by
    rw [Relocation.current_cursor, Relocation.kind_token]
    rcases hends with hkind | ⟨hkind, -⟩ <;> rw [hkind] <;> rfl
  have hunary := Grammar.typeAgrees (Grammar.ample_upTo n) (Cursor.within_forget h.valid h.length_le)
    hunlimited hunlimited hcloses h.gives
  obtain ⟨e, hfinish⟩ : ∃ e, finish.Gives ⟨0, 0, .unbounded⟩ (Relocation.forget.cursor d) () e := by
    rcases hends with hkind | ⟨hkind, hend⟩
    · exact ⟨_, gives_finish.mpr (.inr ⟨by simpa using hkind, rfl⟩)⟩
    · exact ⟨_, gives_finish.mpr (.inl ⟨by simpa using hkind, by simpa using hend, rfl⟩)⟩
  exact ⟨e, (Grammar.expressionRule_of_unaryRule hunary hcloses).bind
    (hfinish.bind (gives_pure.mpr ⟨rfl, rfl⟩))⟩

-- The text is read as the type of the variable, unless the limit on nesting is met.
theorem Typed.parse (h : Typed source typ n c d)
    (hlast : ∀ ls, Lexer.written source = .ok ls → ∀ l ∈ ls.getLast?, l.kind ≠ .op .Semicolon)
    (hlimit : limit ≠ .incomparable) (file : Option Text) :
    (∃ t, Fragment.expression.parse limit source file = .ok t ∧ t.same typ = true) ∨
      ∃ diagnostic, Fragment.expression.parse limit source file = .error diagnostic ∧
        diagnostic.cause = .nestingTooDeep := by
  obtain ⟨ts, hts, hlexemes⟩ := Lexer.tokens_of_lexes h.lexes_source file
  obtain ⟨e, hgives⟩ := h.expression hlast
  have hvalid := valid_ofTokens (sourced_of_tokens hts)
  have hlength := length_ofTokens (sourced_of_tokens hts)
  have hstart : c.lexemes = (Cursor.ofTokens ts).lexemes :=
    hlexemes.symm.trans (congrArg (List.map (·.toLexeme)) (eq_cons_of_tokens hts))
  have hcount : c.upcoming.length = (Cursor.ofTokens ts).upcoming.length := by
    simpa [Cursor.lexemes] using congrArg List.length hstart
  rw [Cursor.forget_eq hstart] at hgives
  have hle : ts.length ≤ n + 1 := by
    have hbound := h.length_le
    omega
  have hrun := (outcome_rule (.whole .forget True ts.length) .expression hle hvalid (by omega)
    (faces_whole .forget True ts.length _) (Limit.admits_unbounded hlimit)).agrees
  generalize ho : Fragment.expression.rule _ ⟨0, 0, limit⟩ (Cursor.ofTokens ts) = o at hrun
  generalize ho' : Fragment.expression.rule _ ⟨0, 0, .unbounded⟩ _ = o' at hrun
  obtain rfl : o' = .ok (typ.bare, e) := ho'.symm.trans hgives
  generalize hbare : typ.bare = u at hrun
  cases hrun with
  | @ok t =>
      have hparse := parse_of_ok hts (parseTokens_ok ho)
      exact .inl ⟨t, hparse, same_of_tree (built_of_parse hparse).1 .forget hbare.symm⟩
  | cut => exact .inr ⟨_, parse_of_error hts (parseTokens_error ho), rfl⟩
  | beyond hbeyond => exact absurd List.nil_suffix hbeyond

-- Whatever follows the name in the declaration of a variable that has only a type is the same type as an
-- expression, unless the limit on nesting is met. One that is high enough is not.
theorem parse_variable_type
    (h : declaration.parse limit ("var x " ++ source) file =
      .ok (.variableDecl place specPlace name typ))
    (hlast : ∀ ls, Lexer.written source = .ok ls → ∀ l ∈ ls.getLast?, l.kind ≠ .op .Semicolon) :
    (∀ limit' file', limit' ≠ .incomparable →
      (∃ t, expression.parse limit' source file' = .ok t ∧ t.same typ = true) ∨
        ∃ diagnostic, expression.parse limit' source file' = .error diagnostic ∧
          diagnostic.cause.message = "exceeded maximum nesting depth") ∧
      ∃ least : Int, ∀ d file', least ≤ d →
        ∃ t, expression.parse (.atMost d) source file' = .ok t ∧ t.same typ = true := by
  obtain ⟨n, c, d, htyped⟩ := typed_of_parse h
  refine ⟨fun limit' file' hlimit => ?_, 3 * (c.lexemes.length : Int), fun l file' hl => ?_⟩
  · refine (htyped.parse hlast hlimit file').imp_right fun ⟨diagnostic, hparse, hcause⟩ => ?_
    exact ⟨diagnostic, hparse, Cause.message_eq_iff.mpr hcause⟩
  · refine (htyped.parse hlast (by simp) file').resolve_right fun ⟨diagnostic, hparse, hcause⟩ => ?_
    obtain ⟨ts, hts, hlexemes⟩ := Lexer.tokens_of_lexes htyped.lexes_source file'
    rw [← hlexemes, List.length_map] at hl
    exact parse_not_deep hts hl hparse hcause

-- A channel type to receive such channels from, whose values are those of a generic type.
theorem parse_variable_type_channel :
    ∃ place specPlace name typ t,
      declaration.parse (.atMost 100) ("var x " ++ "<-chan <-chan T[*p.Q,func()]") none =
        .ok (.variableDecl place specPlace name typ) ∧
      (∀ ls, Lexer.written "<-chan <-chan T[*p.Q,func()]" = .ok ls →
        ∀ l ∈ ls.getLast?, l.kind ≠ .op .Semicolon) ∧
      expression.parse (.atMost 100) "<-chan <-chan T[*p.Q,func()]" none = .ok t ∧
      t.same typ = true := by
  have hlast : ∀ ls, Lexer.written "<-chan <-chan T[*p.Q,func()]" = .ok ls →
      ∀ l ∈ ls.getLast?, l.kind ≠ .op .Semicolon := by
    have hall : (Lexer.written "<-chan <-chan T[*p.Q,func()]").toOption.all
        (·.getLast?.all (·.kind != .op .Semicolon)) = true :=
      rfl
    intro ls hls l hl
    rw [hls] at hall
    simpa [Except.toOption, Option.mem_def.mp hl] using hall
  obtain ⟨decl, hparse, hdecl⟩ := exists_of_any declaration (.atMost 100)
    ("var x " ++ "<-chan <-chan T[*p.Q,func()]") isVariableDecl rfl
  unfold isVariableDecl at hdecl
  split at hdecl
  next place specPlace name typ =>
    obtain ⟨t, ht⟩ := exists_of_isSome expression (.atMost 100) "<-chan <-chan T[*p.Q,func()]"
      rfl
    rcases (parse_variable_type hparse hlast).1 (.atMost 100) none (by simp) with h | ⟨_, h, -⟩
    · obtain ⟨u, hu, hsame⟩ := h
      exact ⟨place, specPlace, name, typ, u, hparse, hlast, hu, hsame⟩
    · cases ht.symm.trans h
  next => cases hdecl

end Fragment

end GoCompact
