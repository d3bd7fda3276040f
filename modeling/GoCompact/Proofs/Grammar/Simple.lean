import GoCompact.Proofs.Grammar.Nesting

namespace GoCompact

open GoCompact.Parser Comparison

namespace Limit

-- The limit that is one level higher.
def raised : Limit → Limit
  | .atMost n => .atMost (n + 1)
  | l => l

theorem admits_raised (limit : Limit) (n : Nat) : limit.raised.admits (1 + n) = limit.admits n := by
  cases limit with
  | atMost d =>
      simp only [raised, admits, Option.some.injEq, decide_eq_decide]
      omega
  | unbounded => rfl
  | incomparable => rfl

theorem admits_of_le {limit : Limit} {m n : Nat} (h : limit.admits n = some true) (hle : m ≤ n) :
    limit.admits m = some true := by
  cases limit with
  | atMost d =>
      simp only [admits, Option.some.injEq, decide_eq_true_eq] at h ⊢
      omega
  | unbounded => rfl
  | incomparable => cases h

end Limit

namespace Grammar

variable {g : Grammar} {s : Scope} {t : Tree} {c d : Cursor}

theorem beginsSimple_of_typeHere (h : g.typeHere.Gives s c (some t) d) :
    beginsSimple c.current.kind = true := by
  simp only [typeHere, gives_peek_bind] at h
  split at h
  case h_11 => simp at h
  all_goals
    rename_i hkind
    rw [hkind]
    rfl

theorem beginsSimple_of_operand (h : g.operand.Gives s c t d) :
    beginsSimple c.current.kind = true := by
  simp only [operand, gives_peek_bind] at h
  split at h
  case h_5 =>
    obtain ⟨o, e, ho, h⟩ := gives_bind.mp h
    cases o with
    | none => exact absurd h gives_expected
    | some u => exact beginsSimple_of_typeHere (gives_nested.mp ho).2
  all_goals
    rename_i hkind
    rw [hkind]
    rfl

theorem beginsSimple_of_isUnary {k : TokenKind} (h : isUnary k = true) :
    beginsSimple k = true := by
  cases k with
  | op o => cases o <;> first | rfl | cases h
  | _ => cases h

-- What can begin an expression begins a simple statement.
theorem beginsSimple_of_expression (h : g.expressionRule.Gives s c t d) :
    beginsSimple c.current.kind = true := by
  obtain ⟨x, e, hx, -⟩ := gives_bind.mp h
  have hunary := (gives_nested.mp hx).2
  simp only [unaryHere, gives_current_bind] at hunary
  split at hunary
  · exact beginsSimple_of_isUnary (by assumption)
  · split at hunary
    · rename_i hkind
      rw [hkind]
      rfl
    · rename_i hkind
      rw [hkind]
      rfl
    · obtain ⟨y, e, hy, -⟩ := gives_bind.mp hunary
      exact beginsSimple_of_operand hy

theorem gives_afterCommas_nil {α : Type} {closing : Option TokenKind} {p : Parser α}
    (h : c.current.kind ≠ .op .Comma) : (afterCommas closing p).Gives s c [] c := by
  simp only [afterCommas, gives_ahead_bind]
  cases c.upcoming with
  | nil => exact gives_pure.mpr ⟨rfl, rfl⟩
  | cons u us =>
      simp only [afterCommasWithin, gives_got_bind]
      exact .inr ⟨h, gives_pure.mpr ⟨rfl, rfl⟩⟩

-- Before the end of a text an expression is the whole statement.
theorem simpleStatement_of_expression (h : g.expressionRule.Gives s c t d)
    (hend : d.current.kind = .op .Semicolon ∨ d.current.kind = .eof) :
    (g.simpleStatement true).Gives s c (.exprStmt c.current.place t) d := by
  have hlist : g.expressionList.Gives s c [t] d := by
    refine gives_commaList.mpr ⟨t, [], d, rfl, h, gives_afterCommas_nil ?_⟩
    rcases hend with hkind | hkind <;> simp [hkind]
  simp only [simpleStatement, gives_current_bind]
  refine gives_bind.mpr ⟨[t], d, hlist, ?_⟩
  simp only [gives_peek_bind, simpleAfter]
  rcases hend with hkind | hkind <;> simp [hkind, TokenKind.isAssignment, Operator.isAssignment]

theorem statementHere_of_expression (h : g.expressionRule.Gives s c t d)
    (hend : d.current.kind = .op .Semicolon ∨ d.current.kind = .eof) :
    ∃ e, g.statementHere.Gives s c (.exprStmt c.current.place t) e ∧ Ends d e := by
  obtain ⟨e, he⟩ : ∃ e, Ends d e := by
    rcases hend with hkind | hkind
    · exact ⟨_, .semicolon hkind⟩
    · exact ⟨_, .closing (by rw [hkind]; rfl)⟩
  refine ⟨e, ?_, he⟩
  simp only [statementHere, gives_current_bind, beginsSimple_of_expression h, if_true, endedSimple]
  refine gives_bind.mpr ⟨_, d, simpleStatement_of_expression h hend, ?_⟩
  simpa [Tree.is, Tree.kind?] using he

end Grammar

namespace Fragment

variable {source : Text} {file : Option Text} {ts : List Token} {limit : Limit} {t : Tree}
  {c d : Cursor} {s : Scope}

theorem gives_finish {u : Unit} :
    finish.Gives s c u d ↔
      (c.current.kind = .op .Semicolon ∧ c.advance.current.kind = .eof ∧ d = c.advance) ∨
        (c.current.kind = .eof ∧ d = c) := by
  simp only [finish, discard_bind, gives_got_bind, gives_peek_bind]
  constructor
  · rintro (⟨hkind, h⟩ | ⟨-, h⟩)
    · obtain ⟨hend, -, rfl⟩ := by simpa using h
      exact .inl ⟨hkind, hend, rfl⟩
    · obtain ⟨hend, -, rfl⟩ := by simpa using h
      exact .inr ⟨hend, rfl⟩
  · rintro (⟨hkind, hend, rfl⟩ | ⟨hend, rfl⟩)
    · simp [hkind, hend]
    · simp [hend]

-- What is left after the end of a statement is still the end of a text.
theorem gives_finish_of_ends {s' : Scope} {e : Cursor} {u : Unit} (h : finish.Gives s c u d)
    (hend : Ends c e) : finish.Gives s' e u d := by
  rcases gives_finish.mp h with ⟨hkind, heof, rfl⟩ | ⟨heof, rfl⟩
  · cases hend with
    | closing hcloses => rw [hkind] at hcloses; cases hcloses
    | semicolon => exact gives_finish.mpr (.inr ⟨heof, rfl⟩)
  · cases hend with
    | closing => exact gives_finish.mpr (.inr ⟨heof, rfl⟩)
    | semicolon hkind => rw [hkind] at heof; cases heof

theorem parse_expression_statement (h : expression.parse limit source file = .ok t) :
    ∃ p, statement.parse limit.raised source file = .ok (.exprStmt p t) := by
  obtain ⟨ts, c', hts, hgives⟩ := gives_of_parse h
  obtain ⟨x, d, hx, hgives⟩ := gives_bind.mp hgives
  obtain ⟨_, d', hfinish, hgives⟩ := gives_bind.mp hgives
  obtain ⟨rfl, rfl⟩ := gives_pure.mp hgives
  have hsourced := sourced_of_tokens hts
  -- One level deeper the expression is read as it is on top.
  have hbelow : (whole .stay False ts.length).Below ⟨0, 0, limit⟩
      (⟨0, 0, limit.raised⟩ : Scope).deeper := by
    refine ⟨.inl rfl, fun n => .inl ?_⟩
    simp only [Scope.deeper, Nat.zero_add]
    exact limit.admits_raised n
  have hlength := length_ofTokens hsourced
  have hmirrored := Grammar.mirrored_whole .stay False (Nat.le_refl ts.length)
  have hdeeper := (Mirrors.gives_stay_iff (hmirrored.expressionRule (Nat.le_refl (Phase.start 2).need))
    Relocation.tree_stay hbelow (valid_ofTokens hsourced) (by change _ ≤ ts.length; omega)).mp hx
  have hend : d.current.kind = .op .Semicolon ∨ d.current.kind = .eof :=
    (gives_finish.mp hfinish).imp And.left And.left
  obtain ⟨e, hstatement, hends⟩ := Grammar.statementHere_of_expression hdeeper hend
  have hlimit : limit.raised.admits (0 + 1) = some true := by
    obtain ⟨u, _, hu, -⟩ := gives_bind.mp hx
    have hunary := (gives_nested.mp hu).1
    rw [← limit.admits_raised] at hunary
    exact Limit.admits_of_le hunary (Nat.le_add_left 1 1)
  have hnested : (Grammar.statementRule _).Gives _ _ _ e := gives_nested.mpr ⟨hlimit, hstatement⟩
  exact ⟨_, parse_of_gives hts (gives_bind.mpr ⟨_, e, hnested, gives_bind.mpr
    ⟨(), c', gives_finish_of_ends hfinish hends, gives_pure.mpr ⟨rfl, rfl⟩⟩⟩)⟩

-- A sum of a channel's value and a call: an expression under a limit of two levels, and a statement under
-- one of three.
theorem parse_expression_statement_sum :
    ∃ t p, expression.parse (.atMost 2) "<-c+f()" none = .ok t ∧
      statement.parse (.atMost 3) "<-c+f()" none = .ok (.exprStmt p t) := by
  obtain ⟨t, ht⟩ := exists_of_isSome .expression (.atMost 2) "<-c+f()" rfl
  obtain ⟨p, hp⟩ := parse_expression_statement ht
  exact ⟨t, p, ht, hp⟩

end Fragment

end GoCompact
