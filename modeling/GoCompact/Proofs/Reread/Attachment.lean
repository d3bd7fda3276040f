import GoCompact.Proofs.Reread.LoneParameter

namespace GoCompact.Tree

open GoCompact.Grammar

variable {k x : Tree}

-- A union whose first term is a star or stands in parentheses. Nothing is asked of the other terms.
inductive Attachable : Tree → Prop
  | star {p y : Tree} : Attachable (.star p y)
  | paren {p y : Tree} : Attachable (.paren p y)
  | union {p k y : Tree} (h : Attachable k) : Attachable (.binary p k (.token (.op .Or)) y)

-- After a name it is an expression that can be taken apart into the name and the constraint.
theorem Attachable.takesApart (h : Attachable k) (name : Tree) :
    ∃ u, TakesApart name (attach name k) u ∧ u.bare = k.bare := by
  induction h with
  | star => exact ⟨_, .star, rfl⟩
  | @paren p y => exact ⟨.paren y.placeOf y, .call, by simp⟩
  | @union p k y _ ih =>
      obtain ⟨u, hu, hbare⟩ := ih
      exact ⟨.binary p u (.token (.op .Or)) y, .union hu, by simp [hbare]⟩

-- A name with a constraint directly after it is taken apart into the two before a comma, and elsewhere if
-- the constraint does not combine with the name. The nodes of the expression may stand anywhere.
theorem typeParameter?_attach (hk : Attachable k) (p n : Tree)
    (hx : x.bare = (attach (.ident p n) k).bare) (force : Bool) :
    (x.typeParameter? force).map (Prod.map bare (Option.map bare)) =
      if force || !k.combinesWithName then some ((Tree.ident p n).bare, some k.bare) else none := by
  obtain ⟨u, hu, hbare⟩ := hk.takesApart (.ident p n)
  calc (x.typeParameter? force).map (Prod.map bare (Option.map bare))
    _ = x.bare.typeParameter? force := (Relocation.forget.typeParameter?_tree force x).symm
    _ = (attach (.ident p n) k).bare.typeParameter? force := by rw [hx]
    _ = ((attach (.ident p n) k).typeParameter? force).map (Prod.map bare (Option.map bare)) :=
      Relocation.forget.typeParameter?_tree force _
    _ = _ := by
      rw [hu.typeParameter?_of_bare hbare rfl]
      split
      · rw [Option.map_some, Prod.map_apply, Option.map_some, hbare]
      · rfl

-- Before a bracket `P *T | ~int` is taken apart because of its last term, and `P *T` is not.
theorem typeParameter?_attach_tilde :
    let pointer : Tree := .star .absent (.ident .absent (.text "T"))
    let tilde : Tree := .unary .absent (.token (.op .Tilde)) (.ident .absent (.text "int"))
    let union : Tree := .binary .absent pointer (.token (.op .Or)) tilde
    let name : Tree := .ident .absent (.text "P")
    ((attach name union).typeParameter? false).map (Prod.map bare (Option.map bare)) =
        some (name.bare, some union.bare) ∧
      ((attach name pointer).typeParameter? false).map (Prod.map bare (Option.map bare)) = none :=
  ⟨typeParameter?_attach (.union .star) .absent (.text "P") rfl false,
    typeParameter?_attach .star .absent (.text "P") rfl false⟩

end GoCompact.Tree
