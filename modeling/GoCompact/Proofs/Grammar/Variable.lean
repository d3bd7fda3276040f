import GoCompact.Proofs.Grammar.Nesting
import GoCompact.Proofs.Grammar.Yields

namespace GoCompact

open GoCompact.Parser

-- The declaration of a variable by itself.
def Tree.variableDecl (place specPlace name typ : Tree) : Tree :=
  .genDecl place (.token (.word .Var))
    (.tuple [.valueSpec specPlace (.tuple [name]) typ (.tuple [])]) (.flag false)

def Tree.isVariableDecl : Tree → Bool
  | .genDecl _ (.token (.word .Var)) (.tuple [.valueSpec _ (.tuple [_]) _ (.tuple [])])
      (.flag false) => true
  | _ => false

namespace Grammar

variable {g : Grammar} {s : Scope} {c d c' : Cursor} {t : Tree}

theorem ne_nil_of_commaList {α : Type} {p : Parser α} {xs : List α}
    (h : (commaList p).Gives s c xs c') : xs ≠ [] := by
  obtain ⟨x, ys, d, rfl, -⟩ := gives_commaList.mp h
  exact List.cons_ne_nil x ys

-- One item is not followed by a comma.
theorem gives_of_commaList {α : Type} {p : Parser α} {x : α}
    (h : (commaList p).Gives s c [x] c') : p.Gives s c x c' := by
  obtain ⟨y, ys, d, hxs, hy, hys⟩ := gives_commaList.mp h
  obtain ⟨rfl, rfl⟩ := List.cons.inj hxs
  cases afterCommas_of_gives hys with
  | nil => exact hy
  | trailing _ hclosing => cases hclosing

theorem eq_of_initialValues (h : g.initialValues.Gives s c [] c') :
    c.current.kind ≠ .op .Assign ∧ c' = c := by
  simp only [initialValues, gives_got_bind, if_true, Bool.false_eq_true, if_false] at h
  rcases h with ⟨-, h⟩ | ⟨hkind, h⟩
  · exact absurd rfl (ne_nil_of_commaList h)
  · exact ⟨hkind, (gives_pure.mp h).2⟩

-- Without a value a variable has a type.
theorem typeRule_of_variableTail (h : g.variableTail.Gives s c (t, []) c') :
    g.typeRule.Gives s c t c' := by
  simp only [variableTail, gives_peek_bind] at h
  split at h
  · rename_i hkind
    rw [pure_bind] at h
    obtain ⟨values, e, hvalues, h⟩ := gives_bind.mp h
    obtain ⟨hpair, -⟩ := gives_pure.mp h
    obtain ⟨-, rfl⟩ := Prod.mk.inj hpair
    exact absurd hkind (eq_of_initialValues hvalues).1
  · obtain ⟨typ, d, htyp, h⟩ := gives_bind.mp h
    obtain ⟨values, e, hvalues, h⟩ := gives_bind.mp h
    obtain ⟨hpair, rfl⟩ := gives_pure.mp h
    obtain ⟨rfl, rfl⟩ := Prod.mk.inj hpair
    obtain ⟨-, rfl⟩ := eq_of_initialValues hvalues
    exact htyp

theorem typeRule_of_valueSpec {place name typ : Tree}
    (h : (g.valueSpec .Var).Gives s c (.valueSpec place (.tuple [name]) typ (.tuple [])) c') :
    ∃ d, c.current.kind = .ident ∧ g.typeRule.Gives s c.advance typ d ∧ Ends d c' := by
  simp only [valueSpec, gives_current_bind, reduceCtorEq, if_false] at h
  obtain ⟨names, d, hnames, h⟩ := gives_bind.mp h
  obtain ⟨⟨typ', values⟩, e, htail, h⟩ := gives_bind.mp h
  obtain ⟨e', hend, h⟩ := gives_expectEnd_bind.mp h
  obtain ⟨hspec, rfl⟩ := gives_pure.mp h
  simp only [Tree.node.injEq, List.cons.injEq, Tree.tuple.injEq, true_and, and_true] at hspec
  obtain ⟨-, rfl, rfl, rfl⟩ := hspec
  have hname := gives_of_commaList hnames
  simp only [ident, gives_peek_bind] at hname
  split at hname
  · rename_i hkind
    rw [gives_advance_bind] at hname
    obtain ⟨-, rfl⟩ := gives_pure.mp hname
    exact ⟨e, hkind, typeRule_of_variableTail htail, hend⟩
  · exact absurd hname gives_expected

-- A declaration of one spec without parentheses.
theorem spec_of_genDecl {keyword keyword' : Keyword} {place spec : Tree}
    (h : (g.genDecl keyword).Gives s c
      (.genDecl place (.token (.word keyword')) (.tuple [spec]) (.flag false)) c') :
    keyword = keyword' ∧ c.current.kind = .word keyword ∧
      (g.spec keyword).Gives s c.advance spec c' := by
  simp only [genDecl, gives_expect_bind, gives_got_bind, if_true, Bool.false_eq_true, if_false,
    discard_bind] at h
  obtain ⟨hkind, ⟨-, h⟩ | ⟨-, h⟩⟩ := h
  · obtain ⟨specs, d, -, h⟩ := gives_bind.mp h
    obtain ⟨e, -, h⟩ := gives_expectEnd_bind.mp (gives_expect_bind.mp h).2
    obtain ⟨hdecl, -⟩ := gives_pure.mp h
    simp at hdecl
  · obtain ⟨spec', d, hspec, h⟩ := gives_bind.mp h
    obtain ⟨hdecl, rfl⟩ := gives_pure.mp h
    simp only [Tree.node.injEq, List.cons.injEq, Tree.tuple.injEq, Tree.token.injEq,
      TokenKind.word.injEq, true_and, and_true] at hdecl
    obtain ⟨-, rfl, rfl⟩ := hdecl
    exact ⟨rfl, hkind, hspec⟩

theorem typeRule_of_declaration {place specPlace name typ : Tree}
    (h : g.declaration.Gives s c (.variableDecl place specPlace name typ) c') :
    ∃ d, c.current.kind = .word .Var ∧ c.advance.current.kind = .ident ∧
      g.typeRule.Gives s c.advance.advance typ d ∧ Ends d c' := by
  simp only [declaration, gives_peek_bind, Tree.variableDecl] at h
  split at h
  · cases (spec_of_genDecl h).1
  · cases (spec_of_genDecl h).1
  · obtain ⟨-, hkind, hspec⟩ := spec_of_genDecl h
    obtain ⟨d, hname, htyp, hend⟩ := typeRule_of_valueSpec hspec
    exact ⟨d, hkind, hname, htyp, hend⟩
  · cases (spec_of_genDecl h).1
  · have hfunc : g.funcDecl.Yields s (·.is .FuncDecl = true) :=
      .skip fun _ => .skip fun _ => .skip fun _ => .skip fun _ => .skip fun _ => .skip fun _ =>
        .skip fun _ => .skip fun _ => .pure rfl
    cases hfunc h
  · exact absurd h gives_expected

end Grammar

end GoCompact
