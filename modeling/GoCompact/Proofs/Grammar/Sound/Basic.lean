import GoCompact.Proofs.Grammar.Spans

namespace GoCompact

open GoCompact.Parser

namespace Scope

variable {s : Scope}

theorem level_bracketed (h : -1 ≤ s.level) : 0 ≤ s.bracketed.level := by
  simp only [bracketed]
  omega

theorem isFree_bracketed (h : -1 ≤ s.level) : s.bracketed.isFree = true :=
  decide_eq_true (level_bracketed h)

end Scope

theorem Cursor.Valid.advance_lt {c : Cursor} (h : c.Valid) (hkind : c.current.kind ≠ .eof) :
    c.advance.upcoming.length < c.upcoming.length :=
  (h.cases hkind).2.1

theorem Built.isAbsent {k : Category} {t : Tree} (h : Built k t) : t.isAbsent = false := by
  induction h <;> first | rfl | assumption

namespace Grammar

open GoCompact.Tree Emission

-- A type that was read from `c` to `c'`.
structure TypeRead (t : Tree) (c c' : Cursor) : Prop where
  built : ∀ b, Built (.expression b) t
  isType : t.isType = true
  read : t.ReadAs .expression c (t.absorbs c'.current.kind = false) c'
  start : c.current.kind = t.typeStart

-- A type that was read if there is one.
inductive MaybeTypeRead (c : Cursor) : Option Tree → Cursor → Prop
  | none (h : c.current.kind.beginsType = false) : MaybeTypeRead c none c
  | some {t : Tree} {c' : Cursor} (h : TypeRead t c c') : MaybeTypeRead c (some t) c'

-- An expression that was read. In a header a brace after it is not read with it.
structure ExpressionRead (s : Scope) (t : Tree) (c c' : Cursor) : Prop where
  built : Built (.expression s.isFree) t
  read : t.ReadAs .expression c (t.edge c'.current.kind = false) c'
  brace : s.isFree = false → c'.current.kind = .op .LBrace → t.takesBrace = false
  start : t.startsNamed = true → c.current.kind = .ident

-- An expression of operators that bind at least as tightly as a precedence, and after which no such
-- operator stands.
structure BinaryRead (least : Nat) (s : Scope) (t : Tree) (c c' : Cursor) : Prop
    extends ExpressionRead s t c c' where
  least_le : least ≤ t.precedence
  after : c'.current.kind.precedence < least

-- A statement that was read with its end.
structure StatementRead (t : Tree) (c c' : Cursor) : Prop where
  built : Built .statement t
  read : t.ReadAs .statement c True c'
  fresh : c'.Fresh
  implicit : t.isImplicit = true → c.current.kind = .op .RBrace
  trails : t.trails = true → c'.current.kind = .op .RBrace

-- Every part of the grammar gives trees that are built as they should be, and reads what they are
-- written as.
structure Sound (g : Grammar) : Prop where
  binary {least : Nat} {s : Scope} {t : Tree} {c c' : Cursor} : 1 ≤ least → least ≤ 6 →
    -1 ≤ s.level → c.Valid → (g.binary least).Gives s c t c' → BinaryRead least s t c c'
  unary {s : Scope} {t : Tree} {c c' : Cursor} : -1 ≤ s.level → c.Valid →
    g.unary.Gives s c t c' → ExpressionRead s t c c' ∧ t.is .BinaryExpr = false
  type? {s : Scope} {o : Option Tree} {c c' : Cursor} : -1 ≤ s.level → c.Valid →
    g.type?.Gives s c o c' → MaybeTypeRead c o c'
  bareLiteral {s : Scope} {t : Tree} {c c' : Cursor} : -1 ≤ s.level → c.Valid →
    g.bareLiteral.Gives s c t c' →
      Built .element t ∧ t.is .KeyValueExpr = false ∧ t.ReadAs .expression c True c'
  statement {s : Scope} {t : Tree} {c c' : Cursor} : 0 ≤ s.level → c.Fresh →
    g.statement.Gives s c t c' → StatementRead t c c'
  ifStatement {s : Scope} {t : Tree} {c c' : Cursor} : 0 ≤ s.level → c.Valid →
    g.ifStatement.Gives s c t c' → StatementRead t c c' ∧ t.is .IfStmt = true

variable {g : Grammar} {s : Scope} {t : Tree} {c d c' : Cursor}

theorem TypeRead.valid (h : TypeRead t c c') : c'.Valid := Spans.valid h.read

theorem ExpressionRead.valid (h : ExpressionRead s t c c') : c'.Valid := Spans.valid h.read

theorem Sound.required {p : Parser (Option Tree)}
    (hp : ∀ {o}, p.Gives s c o c' → MaybeTypeRead c o c') (h : (required p).Gives s c t c') :
    TypeRead t c c' := by
  obtain ⟨o, d, ho, h⟩ := gives_bind.mp h
  cases o with
  | none => exact absurd h gives_expected
  | some u =>
      obtain ⟨rfl, rfl⟩ := gives_pure.mp h
      cases hp ho with
      | some h => exact h

theorem Sound.type (hg : g.Sound) (hs : -1 ≤ s.level) (hc : c.Valid) (h : g.type.Gives s c t c') :
    TypeRead t c c' :=
  Sound.required (hg.type? hs hc) h

theorem Sound.expression (hg : g.Sound) (hs : -1 ≤ s.level) (hc : c.Valid)
    (h : g.expression.Gives s c t c') : ExpressionRead s t c c' :=
  (hg.binary (Nat.le_refl 1) (by decide) hs hc h).toExpressionRead

-- A name.
theorem ident_sound (hc : c.Valid) (h : ident.Gives s c t c') :
    ∃ p x, t = .ident p (.text x) ∧ (⟨.ident, x⟩ : Lexeme).Whole ∧ c.current.kind = .ident ∧
      c' = c.advance ∧ Spans c (write x) 0 True c' := by
  simp only [ident, gives_peek_bind] at h
  split at h
  · rename_i hkind
    simp only [gives_advance_bind, gives_pure] at h
    obtain ⟨rfl, rfl⟩ := h
    have hwhole : c.current.toLexeme.Whole := hc.whole (by simp [hkind]) (by simp [hkind])
    refine ⟨_, _, rfl, ?_, hkind, rfl, Spans.literal hc (by rw [hkind]; rfl) hwhole⟩
    rw [← hkind]
    exact hwhole
  · exact absurd h gives_expected

end Grammar

end GoCompact
