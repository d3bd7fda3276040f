import GoCompact.Proofs.Grammar.Parts

namespace GoCompact

namespace Tree

-- The expression after an operator that stands before it.
def operand? : Tree → Option Tree
  | .unary _ _ x => some x
  | .star _ x => some x
  | _ => none

-- The expression that a selection, brackets, an assertion, a call or the braces of a literal follow.
def base? : Tree → Option Tree
  | .selector _ x _ => some x
  | .index _ x _ => some x
  | .slice _ x _ _ _ => some x
  | .typeAssert _ x _ => some x
  | .call _ x _ _ => some x
  | .compositeLit _ typ _ => some typ
  | _ => none

-- An expression with an operator before it or in it.
def isOperation (t : Tree) : Bool := t.is .BinaryExpr || t.is .UnaryExpr || t.is .StarExpr

-- A node and its parts group in this way when they are written without parentheses.
structure Grouped (t : Tree) : Prop where
  binary : ∀ p x op y, t = .binary p x op y →
    ∃ k, op = .token k ∧ 1 ≤ k.precedence ∧ k.precedence ≤ x.precedence ∧
      k.precedence < y.precedence
  operand : ∀ x ∈ t.operand?, x.is .BinaryExpr = false
  base : ∀ x ∈ t.base?, x.isOperation = false

namespace Grouped

variable {t x : Tree}

-- Nodes of the other kinds have nothing to group.
theorem of_none (hbinary : t.is .BinaryExpr = false) (hoperand : t.operand? = none)
    (hbase : t.base? = none) : t.Grouped where
  binary := by
    rintro p x op y rfl
    cases hbinary
  operand := by simp [hoperand]
  base := by simp [hbase]

theorem of_operand (hbinary : t.is .BinaryExpr = false) (hoperand : t.operand? = some x)
    (hbase : t.base? = none) (hx : x.is .BinaryExpr = false) : t.Grouped where
  binary := by
    rintro p x op y rfl
    cases hbinary
  operand := by simpa [hoperand] using hx
  base := by simp [hbase]

theorem of_base (hbinary : t.is .BinaryExpr = false) (hoperand : t.operand? = none)
    (hbase : t.base? = some x) (hx : x.isOperation = false) : t.Grouped where
  binary := by
    rintro p x op y rfl
    cases hbinary
  operand := by simp [hoperand]
  base := by simpa [hbase] using hx

theorem of_binary {p y : Tree} {k : TokenKind} (hk : 1 ≤ k.precedence)
    (hleft : k.precedence ≤ x.precedence) (hright : k.precedence < y.precedence) :
    (Tree.binary p x (.token k) y).Grouped where
  binary := by
    rintro q u op v h
    obtain ⟨-, rfl, rfl, rfl⟩ : p = q ∧ x = u ∧ Tree.token k = op ∧ y = v := by simpa using h
    exact ⟨k, rfl, hk, hleft, hright⟩
  operand := nofun
  base := nofun

end Grouped

theorem isOperation_of_isPrimary {t : Tree} (h : t.isPrimary = true) : t.isOperation = false := by
  simp only [isPrimary, Bool.and_eq_true, Bool.not_eq_true'] at h
  obtain ⟨⟨⟨hunary, hbinary⟩, hstar⟩, -⟩ := h
  simp [isOperation, hunary, hbinary, hstar]

theorem isOperation_of_takesBraces {free : Bool} {t : Tree} (h : t.takesBraces free = true) :
    t.isOperation = false := by
  unfold takesBraces at h
  cases t with
  | node k _ _ => cases k <;> simp_all [Tree.is, kind?, isOperation]
  | _ => rfl

-- A term of a union has no operator between its parts.
theorem precedence_of_isTerm {t : Tree} (h : t.isTerm = true) : t.precedence = 6 := by
  unfold precedence
  split
  · simp [isTerm, isType, NodeKind.family] at h
  · rfl

-- A union that begins with a name and brackets has no other operator.
theorem precedence_of_leadsIndexed {t : Tree} (h : t.leadsIndexed = true) : 4 ≤ t.precedence := by
  unfold leadsIndexed at h
  split at h
  · exact Nat.le_refl 4
  · unfold isIndexed at h
    split at h
    · exact (by decide : 4 ≤ 6)
    · cases h

end Tree

open GoCompact.Tree

theorem Built.grouped {k : Category} {t : Tree} (h : Built k t) : t.Grouped := by
  induction h with
  | selector _ hprimary | index _ hprimary | slice _ hprimary | typeAssert _ hprimary
  | call _ hprimary => exact .of_base rfl rfl rfl (isOperation_of_isPrimary hprimary)
  | compositeLit _ hbraces => exact .of_base rfl rfl rfl (isOperation_of_takesBraces hbraces)
  | bareLiteral => exact .of_base rfl rfl rfl rfl
  | openIndex hname =>
      cases hname
      exact .of_base rfl rfl rfl rfl
  | unary _ _ hbinary | star _ hbinary => exact .of_operand rfl rfl rfl hbinary
  | binary ho _ _ hleft hright => exact .of_binary ho hleft hright
  | openUnion _ hleads _ hterm =>
      refine .of_binary (by decide) (precedence_of_leadsIndexed hleads) ?_
      rw [precedence_of_isTerm hterm]
      decide
  | length _ ih | element _ ih | fieldType _ ih | simpleStmt _ ih | blockStmt _ ih => exact ih
  | _ => exact .of_none rfl rfl rfl

theorem Held.grouped {i : Spot} {t : Tree} (h : Held i t) : t.Grouped := by
  cases h with
  | part h | element h | statement h | caseClause h | commClause h => exact h.grouped
  | _ => exact .of_none rfl rfl rfl

namespace Fragment

-- In a tree that was read, every part groups without parentheses.
theorem parse_grouped {fragment : Fragment} {limit : Limit} {source : Text} {file : Option Text}
    {t : Tree} (h : fragment.parse limit source file = .ok t) : ∀ i u, t.Has i u → u.Grouped :=
  fun _ _ hu => (hu.held (held_of_parse h)).grouped

-- A type parameter that is read as a product, and taken apart before the comma.
theorem parse_grouped_parameter :
    ∃ t, declaration.parse (.atMost 100) "type T[P *C|~D, Q any] [a+b*-c.d]int" none = .ok t ∧
      ∀ i u, t.Has i u → u.Grouped := by
  obtain ⟨t, ht⟩ := exists_of_isSome .declaration (.atMost 100)
    "type T[P *C|~D, Q any] [a+b*-c.d]int" rfl
  exact ⟨t, ht, parse_grouped ht⟩

end Fragment

end GoCompact
