import GoCompact.Proofs.Grammar.Simple
import GoCompact.Proofs.Grammar.Sound.Expression
import GoCompact.Proofs.Reread.Expression

namespace GoCompact

open GoCompact.Parser GoCompact.Tree Comparison

namespace Scope

-- A scope in which nothing limits how deep rules are nested, and a brace after a type name begins a
-- literal.
structure Unlimited (s : Scope) : Prop where
  limit : s.limit = .unbounded
  level : 0 ≤ s.level

namespace Unlimited

variable {s s' : Scope}

theorem deeper (h : s.Unlimited) : s.deeper.Unlimited := ⟨h.limit, h.level⟩

theorem bracketed (h : s.Unlimited) : s.bracketed.Unlimited := by
  have hlevel := h.level
  exact ⟨h.limit, by simp only [Scope.bracketed]; omega⟩

theorem admits (h : s.Unlimited) (n : Nat) : s.limit.admits n = some true := by
  rw [h.limit]
  rfl

theorem below {C : Comparison} (h : s.Unlimited) (h' : s'.Unlimited) : C.Below s s' :=
  ⟨.inr ⟨h.level, h'.level⟩, fun n => .inl (by rw [h.admits, h'.admits])⟩

end Unlimited

end Scope

namespace Cursor

-- A cursor before tokens of a text of which the places are not known, with no more than so many after
-- the current one.
structure Within (c : Cursor) (bound : Nat) : Prop where
  valid : c.Valid
  bare : Relocation.forget.cursor c = c
  length_le : c.upcoming.length ≤ bound

namespace Within

variable {c : Cursor} {n : Nat}

theorem advance (h : c.Within n) (hkind : c.current.kind ≠ .eof) : c.advance.Within n := by
  refine ⟨h.valid.advance hkind, ?_, (h.valid.advance_lt hkind).le.trans h.length_le⟩
  rw [← Relocation.advance_cursor, h.bare]

theorem place (h : c.Within n) : c.current.place = .unknownPlace := by
  rw [← h.bare]
  rfl

end Within

end Cursor

namespace Parser

variable {s : Scope} {step : Tree → Parser (Option Tree)} {t u : Tree} {c d : Cursor}

-- A tree that has grown: each step takes a token, and then there is no more of it.
inductive Grown (step : Tree → Parser (Option Tree)) (s : Scope) :
    Tree → Cursor → Tree → Cursor → Prop
  | stop {t : Tree} {c : Cursor} (h : (step t).Gives s c none c) : Grown step s t c t c
  | step {t u v : Tree} {c d e : Cursor} (h : (step t).Gives s c (some u) d)
      (hless : d.upcoming.length < c.upcoming.length) (hs : Grown step s u d v e) :
      Grown step s t c v e

theorem Grown.gives (h : Grown step s t c u d) : (grow step t).Gives s c u d := by
  have main : ∀ rounds : List Token, c.upcoming.length ≤ rounds.length →
      (growWithin step rounds t).Gives s c u d := by
    induction h with
    | stop h =>
        intro rounds _
        cases rounds with
        | nil => exact gives_pure.mpr ⟨rfl, rfl⟩
        | cons r rounds => exact h.bind (gives_pure.mpr ⟨rfl, rfl⟩)
    | step h hless _ ih =>
        intro rounds hlength
        cases rounds with
        | nil => exact absurd (Nat.lt_of_lt_of_le hless hlength) (Nat.not_lt_zero _)
        | cons r rounds => exact h.bind (ih rounds (Nat.le_of_lt_succ (hless.trans_le hlength)))
  exact gives_ahead_bind.mpr (main c.upcoming (Nat.le_refl _))

end Parser

namespace Grammar

variable {g : Grammar} {n : Nat} {s s' : Scope} {t u x : Tree} {o : Option Tree} {c d e : Cursor}

@[simp]
theorem gives_required {p : Parser (Option Tree)} :
    (required p).Gives s c t d ↔ p.Gives s c (some t) d := by
  constructor
  · intro h
    obtain ⟨o, e, ho, h⟩ := gives_bind.mp h
    cases o with
    | none => exact absurd h gives_expected
    | some u =>
        obtain ⟨rfl, rfl⟩ := gives_pure.mp h
        exact ho
  · exact fun h => h.bind (gives_pure.mpr ⟨rfl, rfl⟩)

theorem gives_ident_iff : ident.Gives s c t d ↔
    c.current.kind = .ident ∧ t = .ident c.current.place (.text c.current.text) ∧ d = c.advance := by
  simp only [ident, gives_peek_bind, gives_ite, gives_advance_bind, gives_pure, gives_expected,
    and_false, or_false]

-- There are rules enough for the tokens that are left: each part of the grammar is its rule, in any
-- scope without a limit.
structure Ample (g : Grammar) (n : Nat) : Prop where
  type? {s s' : Scope} {o : Option Tree} {c d : Cursor} : s.Unlimited → s'.Unlimited →
    c.Within n → (g.type?.Gives s c o d ↔ g.typeRule?.Gives s' c o d)
  unary {s s' : Scope} {t : Tree} {c d : Cursor} : s.Unlimited → s'.Unlimited →
    c.Within n → (g.unary.Gives s c t d ↔ g.unaryRule.Gives s' c t d)
  expression {s s' : Scope} {t : Tree} {c d : Cursor} : s.Unlimited → s'.Unlimited →
    c.Within n → (g.expression.Gives s c t d ↔ g.expressionRule.Gives s' c t d)
  mirrored : Mirrored (.whole .stay False (n + 1)) g g

theorem ample_upTo (n : Nat) : Ample (upTo (n + 1)) n where
  type? hs hs' hc :=
    Mirrors.gives_stay_iff ((mirrored_whole .stay False (Nat.le_succ n)).typeRule?
      (Nat.le_refl (Phase.start 1).need)) Relocation.tree?_stay (hs.below hs') hc.valid hc.length_le
  unary hs hs' hc :=
    Mirrors.gives_stay_iff ((mirrored_whole .stay False (Nat.le_succ n)).unaryRule
      (Nat.le_refl (Phase.start 2).need)) Relocation.tree_stay (hs.below hs') hc.valid hc.length_le
  expression hs hs' hc :=
    Mirrors.gives_stay_iff ((mirrored_whole .stay False (Nat.le_succ n)).expressionRule
      (Nat.le_refl (Phase.start 2).need)) Relocation.tree_stay (hs.below hs') hc.valid hc.length_le
  mirrored := mirrored_whole .stay False (Nat.le_refl _)

namespace Ample

theorem type (hg : g.Ample n) (hs : s.Unlimited) (hs' : s'.Unlimited) (hc : c.Within n) :
    g.type.Gives s c t d ↔ g.typeRule.Gives s' c t d := by
  simp only [Grammar.type, typeRule, gives_required]
  exact hg.type? hs hs' hc

-- A type is read alike in all scopes without a limit.
theorem typeRule? (hg : g.Ample n) (hs : s.Unlimited) (hs' : s'.Unlimited) (hc : c.Within n)
    (h : g.typeRule?.Gives s c o d) : g.typeRule?.Gives s' c o d :=
  (hg.type? hs hs' hc).mp ((hg.type? hs hs hc).mpr h)

theorem otherTypes {ts : List Tree} (hg : g.Ample n) (hs : s.Unlimited) (hs' : s'.Unlimited)
    (hc : c.Valid) (hlength : c.upcoming.length ≤ n)
    (h : (afterCommas (some (.op .RBrack)) g.type).Gives s c ts d) :
    (afterCommas (some (.op .RBrack)) g.type).Gives s' c ts d :=
  (Mirrors.gives_stay_iff (Mirrors.afterCommas fun _ => hg.mirrored.type) Relocation.trees_stay
    (hs.below hs') hc (Nat.lt_succ_of_le hlength)).mp h

theorem signature {place : Tree} (hg : g.Ample n) (hs : s.Unlimited) (hs' : s'.Unlimited)
    (hc : c.Within n) (h : (g.signature place true).Gives s c t d) :
    (g.signature place true).Gives s' c t d :=
  (Mirrors.gives_stay_iff hg.mirrored.signature Relocation.tree_stay (hs.below hs') hc.valid
    (Nat.lt_succ_of_le hc.length_le)).mp h

-- What goes on with an operand is read by reading a token.
theorem primaryStep_lt (hg : g.Ample n) (hc : c.Within n)
    (h : (g.primaryStep x).Gives s c (some t) d) : d.upcoming.length < c.upcoming.length :=
  (Mirrors.left_of_gives hg.mirrored.primaryStep hc.valid (Nat.lt_succ_of_le hc.length_le) h).2.2 rfl
    rfl

end Ample

section

theorem primaryStep_of_closes (h : c.current.kind.closes = true) (g : Grammar) (s : Scope) (x : Tree) :
    (g.primaryStep x).Gives s c none c := by
  simp only [primaryStep, gives_peek_bind]
  split <;> rename_i hkind
  case h_5 => exact gives_pure.mpr ⟨rfl, rfl⟩
  all_goals
    rw [hkind] at h
    cases h

theorem binaryStep_of_closes (h : c.current.kind.closes = true) (g : Grammar) (s : Scope) (x : Tree) :
    (g.binaryStep 1 x).Gives s c none c := by
  simp [binaryStep, precedence_of_closes h]

-- An operand before a token that goes on with no expression is the whole expression.
theorem expressionRule_of_unaryRule (h : g.unaryRule.Gives s c t d)
    (hd : d.current.kind.closes = true) : g.expressionRule.Gives s c t d :=
  h.bind (Grown.stop (binaryStep_of_closes hd g s t)).gives

theorem unaryRule_of_operand (hs : s.Unlimited) (hkind : c.current.kind.beginsOperand = true)
    (h : g.operand.Gives s.deeper c x e) (hgrown : Grown g.primaryStep s.deeper x e t d) :
    g.unaryRule.Gives s c t d := by
  refine gives_nested.mpr ⟨hs.admits _, ?_⟩
  rw [gives_unaryHere hkind]
  exact h.bind hgrown.gives

end

-- What is read as a type here is read as an operand, if what follows goes on with no expression.
def TypeAgrees (g : Grammar) (c : Cursor) : Prop :=
  ∀ ⦃s s' : Scope⦄ ⦃t : Tree⦄ ⦃d : Cursor⦄, s.Unlimited → s'.Unlimited →
    d.current.kind.closes = true → g.typeRule.Gives s c t d → g.unaryRule.Gives s' c t d

section

variable (hg : g.Ample n) (hs : s.Unlimited) (hs' : s'.Unlimited) (hc : c.Within n)

include hg hs hs' hc

theorem expression_of_type (hagrees : g.TypeAgrees c) (hd : d.current.kind.closes = true)
    (h : g.type.Gives s c t d) : g.expression.Gives s' c t d :=
  (hg.expression hs' hs' hc).mpr
    (expressionRule_of_unaryRule (hagrees hs hs' hd ((hg.type hs hs hc).mp h)) hd)

theorem indexOrSlice_of_typeArguments (hagrees : g.TypeAgrees c.advance)
    (h : (g.typeArguments x).Gives s c t d) : (g.indexOrSlice x).Gives s' c t d := by
  simp only [typeArguments, discard_bind, gives_expect_bind] at h
  obtain ⟨hkind, h⟩ := h
  obtain ⟨first, e, hfirst, h⟩ := gives_bind.mp h
  obtain ⟨others, e', hothers, h⟩ := gives_bind.mp h
  obtain ⟨hclose, h⟩ := gives_expect_bind.mp h
  obtain ⟨rfl, rfl⟩ := gives_pure.mp h
  have hadvance := hc.advance (by simp [hkind])
  have he : e.current.kind = .op .Comma ∨ e.current.kind = .op .RBrack := by
    cases afterCommas_of_gives hothers with
    | nil => exact .inr hclose
    | trailing hcomma => exact .inl hcomma
    | cons hcomma => exact .inl hcomma
  have hexpression := expression_of_type hg hs hs'.bracketed hadvance hagrees
    (by rcases he with he | he <;> rw [he] <;> rfl) hfirst
  have hbegins := beginsSimple_of_expression ((hg.expression hs'.bracketed hs' hadvance).mp hexpression)
  obtain ⟨hvalid, hleft, -⟩ := Mirrors.left_of_gives hg.mirrored.type hadvance.valid
    (Nat.lt_succ_of_le hadvance.length_le) hfirst
  have hrest := hg.otherTypes hs hs'.bracketed hvalid
    (hleft.length_le.trans hadvance.length_le) hothers
  have hcontents : g.bracketContents.Gives s' c.advance (.indices (first :: others)) e' := by
    simp only [bracketContents, gives_bracketed, gives_peek_bind]
    rw [if_neg (by intro hcolon; rw [hcolon] at hbegins; cases hbegins)]
    refine hexpression.bind ?_
    simp only [bracketsAfter, gives_got_bind]
    refine .inr ⟨by rcases he with he | he <;> simp [he], ?_⟩
    exact hrest.bind (gives_pure.mpr ⟨rfl, rfl⟩)
  simp only [indexOrSlice, discard_bind, gives_expect_bind, gives_peek_bind]
  refine ⟨hkind, ?_⟩
  rw [if_neg (by intro hbrack; rw [hbrack] at hbegins; cases hbegins)]
  exact hcontents.bind (gives_expect_bind.mpr ⟨hclose, gives_pure.mpr ⟨rfl, rfl⟩⟩)

-- A name grows by a selection and by type arguments to the type that begins with it.
theorem grown_instantiated
    (hagrees : ∀ e : Cursor, e.Within n → e.upcoming.length < c.upcoming.length → g.TypeAgrees e)
    (hd : d.current.kind.closes = true) (h : (g.instantiated x).Gives s c t d) :
    Grown g.primaryStep s' x c t d := by
  simp only [instantiated, gives_peek_bind] at h
  split at h
  · rename_i hkind
    have hne : c.current.kind ≠ .eof := by simp [hkind]
    have hadvance := hagrees c.advance (hc.advance hne) (hc.valid.advance_lt hne)
    have hstep : (g.primaryStep x).Gives s' c (some t) d := by
      simp only [primaryStep, gives_peek_bind, hkind]
      exact gives_map.mpr ⟨t, indexOrSlice_of_typeArguments hg hs hs' hc hadvance h, rfl⟩
    exact .step hstep (hg.primaryStep_lt hc hstep) (.stop (primaryStep_of_closes hd g s' t))
  · obtain ⟨rfl, rfl⟩ := gives_pure.mp h
    exact .stop (primaryStep_of_closes hd g s' t)

theorem grown_namedType
    (hagrees : ∀ e : Cursor, e.Within n → e.upcoming.length < c.upcoming.length → g.TypeAgrees e)
    (hd : d.current.kind.closes = true) (h : (g.namedType x).Gives s c t d) :
    Grown g.primaryStep s' x c t d := by
  obtain ⟨name, e, hname, hrest⟩ := gives_bind.mp h
  simp only [qualified, gives_got_bind, if_true, Bool.false_eq_true, if_false] at hname
  obtain ⟨hkind, hname⟩ | ⟨-, hname⟩ := hname
  · obtain ⟨sel, e', hsel, hname⟩ := gives_bind.mp hname
    obtain ⟨rfl, rfl⟩ := gives_pure.mp hname
    obtain ⟨hident, hselected, rfl⟩ := gives_ident_iff.mp hsel
    have hfirst := hc.advance (by simp [hkind])
    have hstep : (g.primaryStep x).Gives s' c (some (.selector x.placeOf x sel)) c.advance.advance := by
      simp only [primaryStep, gives_peek_bind, hkind]
      refine gives_map.mpr ⟨_, ?_, rfl⟩
      simp only [selectorOrAssertion, discard_bind, gives_expect_bind, gives_peek_bind]
      rw [if_pos hident]
      exact ⟨hkind, (gives_ident_iff.mpr ⟨hident, hselected, rfl⟩).bind (gives_pure.mpr ⟨rfl, rfl⟩)⟩
    have hlt := hg.primaryStep_lt hc hstep
    refine .step hstep hlt (grown_instantiated hg hs hs' (hfirst.advance (by simp [hident]))
      (fun e he hless => hagrees e he (hless.trans hlt)) hd hrest)
  · obtain ⟨rfl, rfl⟩ := gives_pure.mp hname
    exact grown_instantiated hg hs hs' hc hagrees hd hrest

-- The types that are read as operands by the rule for types itself.
theorem operand_of_type (hkind : c.current.kind = .op .LBrack ∨ c.current.kind = .word .Struct ∨
      c.current.kind = .word .Interface ∨ c.current.kind = .word .Map ∨ c.current.kind = .word .Chan)
    (h : g.typeRule?.Gives s c (some t) d) : g.operand.Gives s' c t d := by
  have hrule := hg.typeRule? hs hs' hc h
  simp only [operand, gives_peek_bind]
  rcases hkind with hkind | hkind | hkind | hkind | hkind <;>
    simp only [hkind] <;> exact hrule.bind (gives_pure.mpr ⟨rfl, rfl⟩)

theorem functionTypeOrLiteral_of_signature (hkind : c.current.kind = .word .Func)
    (hd : d.current.kind.closes = true)
    (h : (g.signature c.current.place true).Gives s c.advance t d) :
    g.functionTypeOrLiteral.Gives s' c t d := by
  have hsignature := hg.signature hs hs' (hc.advance (by simp [hkind])) h
  simp only [functionTypeOrLiteral, gives_expect_bind]
  refine ⟨hkind, hsignature.bind ?_⟩
  rw [gives_peek_bind, if_neg (by intro hbrace; rw [hbrace] at hd; cases hd)]
  exact gives_pure.mpr ⟨rfl, rfl⟩

-- A type in parentheses is an expression in parentheses.
theorem parenthesized_of_type (hkind : c.current.kind = .op .LParen)
    (hagrees : g.TypeAgrees c.advance) (h : g.type.Gives s c.advance x e)
    (hclose : e.current.kind = .op .RParen) :
    g.parenthesized.Gives s' c (.paren c.current.place x) e.advance := by
  have hexpression := expression_of_type hg hs hs'.bracketed (hc.advance (by simp [hkind])) hagrees
    (by rw [hclose]; rfl) h
  simp only [parenthesized, gives_advance_bind]
  refine (gives_bracketed.mpr hexpression).bind ?_
  simp only [discard_bind, gives_expect_bind]
  exact ⟨hclose, gives_pure.mpr ⟨rfl, rfl⟩⟩

end

-- Channel types: an arrow before a channel type makes it one to receive from.
section

theorem chanType_of_arrow (harrow : c.current.kind = .op .Arrow) (h : g.chanType.Gives s c t d) :
    c.advance.current.kind = .word .Chan ∧ ∃ value,
      t = .chanType c.current.place (.direction .receive) value ∧
        g.type.Gives s c.advance.advance value d := by
  simp only [chanType, chanDirection, gives_current_bind, bind_assoc, gives_got_bind, harrow,
    reduceCtorEq, false_and, false_or, ne_eq, not_false_eq_true, true_and, Bool.false_eq_true, if_false,
    discard_bind, gives_expect_bind, pure_bind] at h
  obtain ⟨hchan, h⟩ := h
  obtain ⟨value, e, hvalue, h⟩ := gives_bind.mp h
  obtain ⟨rfl, rfl⟩ := gives_pure.mp h
  exact ⟨hchan, value, rfl, hvalue⟩

theorem chanType_both (hchan : c.current.kind = .word .Chan)
    (harrow : c.advance.current.kind ≠ .op .Arrow) (h : g.type.Gives s c.advance x d) :
    g.chanType.Gives s c (.chanType c.current.place (.direction .both) x) d := by
  simp only [chanType, chanDirection, gives_current_bind, bind_assoc, gives_got_bind, if_true]
  refine .inl ⟨hchan, .inr ⟨harrow, ?_⟩⟩
  simp only [Bool.false_eq_true, if_false, pure_bind]
  exact h.bind (gives_pure.mpr ⟨rfl, rfl⟩)

theorem chanType_send (hchan : c.current.kind = .word .Chan)
    (harrow : c.advance.current.kind = .op .Arrow) (h : g.type.Gives s c.advance.advance x d) :
    g.chanType.Gives s c (.chanType c.current.place (.direction .send) x) d := by
  simp only [chanType, chanDirection, gives_current_bind, bind_assoc, gives_got_bind, if_true]
  refine .inl ⟨hchan, .inl ⟨harrow, ?_⟩⟩
  simp only [pure_bind]
  exact h.bind (gives_pure.mpr ⟨rfl, rfl⟩)

theorem typeRule_of_chanType (hs : s.Unlimited)
    (hkind : c.current.kind = .word .Chan ∨ c.current.kind = .op .Arrow) :
    g.typeRule.Gives s c t d ↔ g.chanType.Gives s.deeper c t d := by
  simp only [typeRule, gives_required, Grammar.typeRule?, gives_nested, hs.admits, true_and, typeHere,
    gives_peek_bind]
  rcases hkind with hkind | hkind <;> simp [hkind]

-- What is read behind the first arrow of a channel type to receive from.
theorem received_of_arrow (hg : g.Ample n) (hs : s.Unlimited) (hs' : s'.Unlimited) (hc : c.Within n)
    (harrow : c.current.kind = .op .Arrow) (h : g.typeRule.Gives s c t d) :
    ∃ x, g.typeRule.Gives s' c.advance x d ∧ Received x t := by
  induction hlength : c.upcoming.length using Nat.strongRecOn generalizing s s' c t with
  | ind k ih =>
      subst hlength
      obtain ⟨hchan, value, rfl, hvalue⟩ :=
        chanType_of_arrow harrow ((typeRule_of_chanType hs (.inr harrow)).mp h)
      have hfirst := hc.advance (by simp [harrow])
      have hsecond := hfirst.advance (by simp [hchan])
      have hplace : c.current.place = c.advance.current.place := hc.place.trans hfirst.place.symm
      rw [hplace]
      by_cases hnext : c.advance.advance.current.kind = .op .Arrow
      · have hless : c.advance.advance.upcoming.length < c.upcoming.length :=
          (hfirst.valid.advance_lt (by simp [hchan])).trans (hc.valid.advance_lt (by simp [harrow]))
        obtain ⟨x, hx, hreceived⟩ := ih _ hless hs.deeper hs'.deeper hsecond hnext
          ((hg.type hs.deeper hs.deeper hsecond).mp hvalue) rfl
        have hsent := (hg.type hs'.deeper hs'.deeper (hsecond.advance (by simp [hnext]))).mpr hx
        exact ⟨_, (typeRule_of_chanType hs' (.inl hchan)).mpr (chanType_send hchan hnext hsent),
          .send hreceived⟩
      · have hboth := (hg.type hs'.deeper hs.deeper hsecond).mpr
          ((hg.type hs.deeper hs.deeper hsecond).mp hvalue)
        exact ⟨_, (typeRule_of_chanType hs' (.inl hchan)).mpr (chanType_both hchan hnext hboth), .both⟩

theorem receiving_of_received (h : Received x t) : (receiving x).Gives s c t c := by
  induction h with
  | both => exact gives_pure.mpr ⟨rfl, rfl⟩
  | @send p value result h ih =>
      have hchan : value.is .ChanType = true := by cases h <;> rfl
      rw [receiving, if_pos hchan]
      exact ih.bind (gives_pure.mpr ⟨rfl, rfl⟩)

end

section

variable (hg : g.Ample n) (hs : s.Unlimited) (hs' : s'.Unlimited) (hc : c.Within n)

include hg hs hs' hc

theorem unaryRule_of_star (hkind : c.current.kind = .op .Mul) (hagrees : g.TypeAgrees c.advance)
    (hd : d.current.kind.closes = true) (h : g.type.Gives s c.advance x d) :
    g.unaryRule.Gives s' c (.star c.current.place x) d := by
  have hadvance := hc.advance (by simp [hkind])
  have hunary := (hg.unary hs'.deeper hs' hadvance).mpr
    (hagrees hs hs' hd ((hg.type hs hs hadvance).mp h))
  refine gives_nested.mpr ⟨hs'.admits _, ?_⟩
  simp only [unaryHere, gives_current_bind, hkind, discard_bind]
  exact gives_advance_bind.mpr (hunary.bind (gives_pure.mpr ⟨rfl, rfl⟩))

theorem unaryRule_of_arrow (hkind : c.current.kind = .op .Arrow) (hagrees : g.TypeAgrees c.advance)
    (hd : d.current.kind.closes = true) (h : g.typeRule.Gives s c t d) :
    g.unaryRule.Gives s' c t d := by
  obtain ⟨x, hx, hreceived⟩ := received_of_arrow hg hs hs hc hkind h
  have hunary := (hg.unary hs'.deeper hs' (hc.advance (by simp [hkind]))).mpr (hagrees hs hs' hd hx)
  have hchan : x.is .ChanType = true := by cases hreceived <;> rfl
  refine gives_nested.mpr ⟨hs'.admits _, ?_⟩
  simp only [unaryHere, gives_current_bind, hkind, discard_bind]
  refine gives_advance_bind.mpr (hunary.bind ?_)
  rw [if_pos hchan]
  exact receiving_of_received hreceived

end

-- Before a token that goes on with no expression every type is an operand. What is read inside it begins
-- behind a token.
theorem typeAgrees (hg : g.Ample n) (hc : c.Within n) : g.TypeAgrees c := by
  induction hlength : c.upcoming.length using Nat.strongRecOn generalizing c with
  | ind k ih =>
      subst hlength
      have hagrees : ∀ e : Cursor, e.Within n → e.upcoming.length < c.upcoming.length →
          g.TypeAgrees e := fun e he hless => ih _ hless he rfl
      have hbehind : c.current.kind ≠ .eof → g.TypeAgrees c.advance := fun hne =>
        hagrees _ (hc.advance hne) (hc.valid.advance_lt hne)
      intro s s' t d hs hs' hd h
      have hrule := gives_required.mp h
      have hstop : Grown g.primaryStep s'.deeper t d t d := .stop (primaryStep_of_closes hd g _ t)
      have hother := fun hkind => unaryRule_of_operand hs' (by rcases hkind with h | h | h | h | h <;>
        rw [h] <;> rfl) (operand_of_type hg hs hs'.deeper hc hkind hrule) hstop
      have hhere := (gives_nested.mp hrule).2
      simp only [typeHere, gives_peek_bind] at hhere
      split at hhere <;> rename_i hkind
      · obtain ⟨u, hu, ⟨⟩⟩ := gives_map.mp hhere
        obtain ⟨name, e, hname, htype⟩ := gives_bind.mp hu
        obtain ⟨-, rfl, rfl⟩ := gives_ident_iff.mp hname
        have hadvance := hc.advance (by simp [hkind])
        have hless := hc.valid.advance_lt (by simp [hkind])
        refine unaryRule_of_operand hs' (by rw [hkind]; rfl) ?_ (grown_namedType hg hs.deeper hs'.deeper
          hadvance (fun e he hlt => hagrees e he (hlt.trans hless)) hd htype)
        simp only [operand, gives_peek_bind, hkind]
        exact gives_ident_iff.mpr ⟨hkind, rfl, rfl⟩
      · exact hother (.inl hkind)
      · exact hother (.inr (.inl hkind))
      · obtain ⟨u, hu, ⟨⟩⟩ := gives_map.mp hhere
        obtain ⟨x, e, hx, hu⟩ := gives_bind.mp (gives_advance_bind.mp hu)
        obtain ⟨rfl, rfl⟩ := gives_pure.mp hu
        exact unaryRule_of_star hg hs.deeper hs' hc hkind (hbehind (by simp [hkind])) hd hx
      · obtain ⟨u, hu, ⟨⟩⟩ := gives_map.mp hhere
        refine unaryRule_of_operand hs' (by rw [hkind]; rfl) ?_ hstop
        simp only [operand, gives_peek_bind, hkind]
        exact functionTypeOrLiteral_of_signature hg hs.deeper hs'.deeper hc hkind hd
          (gives_advance_bind.mp hu)
      · exact hother (.inr (.inr (.inl hkind)))
      · exact hother (.inr (.inr (.inr (.inl hkind))))
      · exact hother (.inr (.inr (.inr (.inr hkind))))
      · exact unaryRule_of_arrow hg hs hs' hc hkind (hbehind (by simp [hkind])) hd h
      · obtain ⟨u, hu, ⟨⟩⟩ := gives_map.mp hhere
        obtain ⟨x, e, hx, hu⟩ := gives_bind.mp (gives_advance_bind.mp hu)
        rw [discard_bind] at hu
        obtain ⟨hclose, hu⟩ := gives_expect_bind.mp hu
        obtain ⟨rfl, rfl⟩ := gives_pure.mp hu
        refine unaryRule_of_operand hs' (by rw [hkind]; rfl) ?_ hstop
        simp only [operand, gives_peek_bind, hkind]
        exact parenthesized_of_type hg hs.deeper hs'.deeper hc hkind (hbehind (by simp [hkind])) hx hclose
      · exact absurd hhere (by simp)

end Grammar

end GoCompact
