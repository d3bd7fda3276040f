import GoCompact.Proofs.Grammar.Grouping

namespace GoCompact

namespace Tree

-- The expressions of a simple statement.
def ownExpressions : Tree → List Tree
  | .exprStmt _ x => [x]
  | .send _ chan value => [chan, value]
  | .incDec _ x _ => [x]
  | .assign _ (.tuple lhs) _ (.tuple rhs) => lhs ++ rhs
  | _ => []

-- The expressions in the header of a statement, those of its simple statements included.
def headerExpressions : Tree → List Tree
  | .ifStmt _ init cond _ _ => init.ownExpressions ++ [cond]
  | .forStmt _ init cond post _ => init.ownExpressions ++ cond :: post.ownExpressions
  | .rangeStmt _ key value _ x _ => [key, value, x]
  | .switchStmt _ init tag _ => init.ownExpressions ++ [tag]
  | .typeSwitch _ init guard _ => init.ownExpressions ++ guard.ownExpressions
  | _ => []

-- An expression and what in it is not closed off by parentheses, brackets or braces.
inductive Exposed (t : Tree) : Tree → Prop
  | self : Exposed t t
  | left {p x op y : Tree} (h : Exposed t (.binary p x op y)) : Exposed t x
  | right {p x op y : Tree} (h : Exposed t (.binary p x op y)) : Exposed t y
  | operand {u x : Tree} (h : Exposed t u) (hx : x ∈ u.operand?) : Exposed t x
  | base {u x : Tree} (h : Exposed t u) (hx : x ∈ u.base?) : Exposed t x

-- A literal of a type name.
def isNamedLiteral : Tree → Bool
  | .compositeLit _ typ _ => typ.is .Ident || typ.is .SelectorExpr || typ.is .IndexExpr
  | _ => false

end Tree

open GoCompact.Tree

variable {b : Bool} {k : Category} {t u : Tree}

-- Where a brace after a type name begins no literal, it begins none in what is exposed.
theorem Built.exposed (ht : Built (.expression b) t) (h : t.Exposed u) : Built (.expression b) u := by
  induction h with
  | self => exact ht
  | left _ ih => cases ih with | binary _ hx => exact hx
  | right _ ih => cases ih with | binary _ _ hy => exact hy
  | operand _ hx ih =>
      cases ih with
      | unary _ hu | star hu =>
          obtain rfl := Option.some.inj hx
          exact hu
      | _ => cases hx
  | base _ hx ih =>
      cases ih with
      | selector hu | index hu | slice hu | typeAssert hu | call hu | compositeLit hu =>
          obtain rfl := Option.some.inj hx
          exact hu
      | _ => cases hx

theorem Built.not_isNamedLiteral (h : Built (.expression false) t) : t.isNamedLiteral = false := by
  cases h with
  | @compositeLit _ _ typ _ _ hbraces =>
      cases typ with
      | node k _ _ => cases k <;> simp_all [takesBraces, isNamedLiteral, Tree.is, kind?]
      | _ => rfl
  | _ => rfl

theorem Built.ownExpressions (h : Built (.simple b) t) :
    ∀ x ∈ t.ownExpressions, Built (.expression b) x := by
  cases h with
  | exprStmt hx => simpa [Tree.ownExpressions] using hx
  | assign _ hlhs _ _ hrhs => exact List.forall_mem_append.mpr ⟨hlhs, hrhs⟩
  | send hchan hvalue => simpa [Tree.ownExpressions] using ⟨hchan, hvalue⟩
  | incDec hx => simpa [Tree.ownExpressions] using hx

theorem ownExpressions_ofOption {o : Option Tree} (h : ∀ t ∈ o, Built (.simple b) t) :
    ∀ x ∈ (ofOption o).ownExpressions, Built (.expression b) x := by
  cases o with
  | none => simp [ofOption, Tree.ownExpressions]
  | some t => exact (h t rfl).ownExpressions

-- Nothing is exposed where an expression is missing.
theorem exposed_absent (h : Tree.absent.Exposed u) : u = .absent := by
  induction h with
  | self => rfl
  | left _ ih | right _ ih => cases ih
  | operand _ hx ih | base _ hx ih =>
      subst ih
      cases hx

-- What may be missing from a header.
theorem built_or_absent {o : Option Tree} (h : ∀ t ∈ o, Built k t) :
    Built k (.ofOption o) ∨ ofOption o = .absent := by
  cases o with
  | none => exact .inr rfl
  | some t => exact .inl (h t rfl)

-- In the header of a statement a brace after a type name begins no literal.
theorem Built.headerExpressions (h : Built k t) :
    ∀ x ∈ t.headerExpressions, Built (.expression false) x ∨ x = .absent := by
  induction h with
  | ifStmt hinit hcond =>
      simp only [Tree.headerExpressions, List.forall_mem_append, List.forall_mem_singleton]
      exact ⟨fun x hx => .inl (ownExpressions_ofOption hinit x hx), .inl hcond⟩
  | switchStmt hinit htag =>
      simp only [Tree.headerExpressions, List.forall_mem_append, List.forall_mem_singleton]
      exact ⟨fun x hx => .inl (ownExpressions_ofOption hinit x hx), built_or_absent htag⟩
  | typeSwitch hinit hassign =>
      simp only [Tree.headerExpressions, List.forall_mem_append]
      exact ⟨fun x hx => .inl (ownExpressions_ofOption hinit x hx),
        fun x hx => .inl (hassign.ownExpressions x hx)⟩
  | forStmt hinit hcond hpost =>
      simp only [Tree.headerExpressions, List.forall_mem_append, List.forall_mem_cons]
      exact ⟨fun x hx => .inl (ownExpressions_ofOption hinit x hx), built_or_absent hcond,
        fun x hx => .inl (ownExpressions_ofOption hpost x hx)⟩
  | rangeAll hx => simp [Tree.headerExpressions, hx]
  | rangeStmt hkey hvalue _ hx =>
      simp only [Tree.headerExpressions, List.forall_mem_cons]
      exact ⟨.inl hkey, built_or_absent hvalue, .inl hx, nofun⟩
  | length _ ih | element _ ih | fieldType _ ih | simpleStmt _ ih | blockStmt _ ih => exact ih
  | _ => exact nofun

theorem Held.headerExpressions {i : Spot} (h : Held i t) :
    ∀ x ∈ t.headerExpressions, Built (.expression false) x ∨ x = .absent := by
  cases h with
  | part h | element h | statement h | caseClause h | commClause h => exact h.headerExpressions
  | _ => exact nofun

namespace Fragment

-- In the header of a statement that was read no literal of a type name is exposed.
theorem parse_exposed {fragment : Fragment} {limit : Limit} {source : Text} {file : Option Text}
    (h : fragment.parse limit source file = .ok t) :
    ∀ i stmt, t.Has i stmt → ∀ x ∈ stmt.headerExpressions, ∀ u, x.Exposed u →
      u.isNamedLiteral = false := by
  intro i stmt hstmt x hx u hu
  rcases (hstmt.held (held_of_parse h)).headerExpressions x hx with hbuilt | rfl
  · exact (hbuilt.exposed hu).not_isNamedLiteral
  · obtain rfl := exposed_absent hu
    rfl

-- A literal in parentheses in a header, and one of a type name in the function literal there.
theorem parse_exposed_if :
    ∃ t, statement.parse (.atMost 100)
        "if x := (T\x7b1\x7d).f; func() bool \x7b return T\x7b\x7d == x \x7d() \x7b\x7d" none = .ok t ∧
      ∀ i stmt, t.Has i stmt → ∀ x ∈ stmt.headerExpressions, ∀ u, x.Exposed u →
        u.isNamedLiteral = false := by
  obtain ⟨t, ht⟩ := exists_of_isSome .statement (.atMost 100)
    "if x := (T\x7b1\x7d).f; func() bool \x7b return T\x7b\x7d == x \x7d() \x7b\x7d"
    rfl
  exact ⟨t, ht, parse_exposed ht⟩

end Fragment

end GoCompact
