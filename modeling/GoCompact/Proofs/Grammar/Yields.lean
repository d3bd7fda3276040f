import GoCompact.Proofs.Grammar.Run

namespace GoCompact

namespace Parser

variable {α β : Type} {s : Scope} {P Q : α → Prop} {R : β → Prop} {p q : Parser α}
  {f : α → Parser β}

-- Whatever the parser gives has a property.
def Yields (p : Parser α) (s : Scope) (P : α → Prop) : Prop :=
  ∀ ⦃c : Cursor⦄ ⦃a : α⦄ ⦃c' : Cursor⦄, p.Gives s c a c' → P a

namespace Yields

theorem imp (h : p.Yields s P) (hP : ∀ a, P a → Q a) : p.Yields s Q :=
  fun _ a _ hp => hP a (h hp)

theorem any : p.Yields s fun _ => True := fun _ _ _ _ => trivial

theorem pure {a : α} (h : P a) : (Pure.pure a : Parser α).Yields s P := by
  intro c b c' hp
  obtain ⟨rfl, -⟩ := gives_pure.mp hp
  exact h

theorem bind (hp : p.Yields s P) (hf : ∀ a, P a → (f a).Yields s R) : (p >>= f).Yields s R := by
  intro c b c' h
  obtain ⟨a, d, ha, hb⟩ := gives_bind.mp h
  exact hf a (hp ha) hb

-- A first part of which nothing is known.
theorem skip (hf : ∀ a, (f a).Yields s R) : (p >>= f).Yields s R := bind any fun a _ => hf a

theorem map {g : α → β} (hp : p.Yields s fun a => R (g a)) : (g <$> p).Yields s R := by
  intro c b c' h
  obtain ⟨a, ha, rfl⟩ := gives_map.mp h
  exact hp ha

theorem refuse {cause : Cause} : (Parser.refuse cause : Parser α).Yields s P :=
  fun _ _ _ h => absurd h gives_refuse

theorem refuseAt {cause : Cause} {t : Token} : (Parser.refuseAt cause t : Parser α).Yields s P :=
  fun _ _ _ h => absurd h gives_refuseAt

theorem expected {what : Wanted} : (Parser.expected what : Parser α).Yields s P :=
  fun _ _ _ h => absurd h gives_expected

theorem ite {b : Prop} [Decidable b] (hp : b → p.Yields s P) (hq : ¬b → q.Yields s P) :
    (if b then p else q).Yields s P := by
  split
  · exact hp (by assumption)
  · exact hq (by assumption)

theorem nested (h : s.limit.admits (s.depth + 1) = some true → p.Yields s.deeper P) :
    (Parser.nested p).Yields s P := by
  intro c a c' hp
  obtain ⟨hlimit, hp⟩ := gives_nested.mp hp
  exact h hlimit hp

theorem bracketed (h : p.Yields s.bracketed P) : (Parser.bracketed p).Yields s P := h

theorem inHeader (h : p.Yields s.header P) : (Parser.inHeader p).Yields s P := h

theorem grow {step : Tree → Parser (Option Tree)} {t : Tree} {P : Tree → Prop}
    (hstep : ∀ t, P t → (step t).Yields s fun o => ∀ u ∈ o, P u) (ht : P t) :
    (Parser.grow step t).Yields s P := by
  have main : ∀ (rounds : List Token) (t : Tree), P t → (growWithin step rounds t).Yields s P := by
    intro rounds
    induction rounds with
    | nil => exact fun t ht => .pure ht
    | cons r rounds ih =>
        intro t ht
        refine (hstep t ht).bind fun o ho => ?_
        cases o with
        | none => exact .pure ht
        | some u => exact ih u (ho u rfl)
  exact .skip fun rounds => main rounds t ht

theorem manyWhile {more : TokenKind → Bool} (hp : p.Yields s P) :
    (Parser.manyWhile more p).Yields s fun xs => ∀ x ∈ xs, P x := by
  have main : ∀ rounds : List Token,
      (manyWithin more p rounds).Yields s fun xs => ∀ x ∈ xs, P x := by
    intro rounds
    induction rounds with
    | nil => exact .pure (by simp)
    | cons r rounds ih =>
        refine .skip fun k => .ite (fun _ => ?_) fun _ => .pure (by simp)
        exact hp.bind fun x hx => ih.bind fun xs hxs => .pure (List.forall_mem_cons.mpr ⟨hx, hxs⟩)
  exact .skip main

theorem afterCommas {closing : Option TokenKind} (hp : p.Yields s P) :
    (Parser.afterCommas closing p).Yields s fun xs => ∀ x ∈ xs, P x := by
  have main : ∀ rounds : List Token,
      (afterCommasWithin closing p rounds).Yields s fun xs => ∀ x ∈ xs, P x := by
    intro rounds
    induction rounds with
    | nil => exact .pure (by simp)
    | cons r rounds ih =>
        refine .skip fun b => .ite (fun _ => ?_) fun _ => .pure (by simp)
        refine .skip fun k => .ite (fun _ => .pure (by simp)) fun _ => ?_
        exact hp.bind fun x hx => ih.bind fun xs hxs => .pure (List.forall_mem_cons.mpr ⟨hx, hxs⟩)
  exact .skip main

theorem commaList (hp : p.Yields s P) : (Parser.commaList p).Yields s fun xs => ∀ x ∈ xs, P x :=
  hp.bind fun _ hx => hp.afterCommas.bind fun _ hxs =>
    .pure (List.forall_mem_cons.mpr ⟨hx, hxs⟩)

theorem itemsUntil {closing : TokenKind} (hp : p.Yields s P) :
    (Parser.itemsUntil closing p).Yields s fun xs => ∀ x ∈ xs, P x := by
  have main : ∀ rounds : List Token,
      (itemsWithin closing p rounds).Yields s fun xs => ∀ x ∈ xs, P x := by
    intro rounds
    induction rounds with
    | nil => exact .pure (by simp)
    | cons r rounds ih =>
        refine .skip fun k => .ite (fun _ => .pure (by simp)) fun _ => ?_
        refine hp.bind fun x hx => .skip fun b => .ite (fun _ => ?_) fun _ => .pure (by simpa)
        exact ih.bind fun xs hxs => .pure (List.forall_mem_cons.mpr ⟨hx, hxs⟩)
  exact .skip main

end Yields

end Parser

end GoCompact
