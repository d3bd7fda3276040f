import GoCompact.Proofs.Layout.Fidelity
import GoCompact.Tree.Equality

namespace GoCompact

open GoCompact.Tree

namespace Relocation

variable (r : Relocation)

-- Equality of trees ignores where their nodes stand.
theorem same_tree (t u : Tree) : (r.tree t).same (r.tree u) = t.same u := by
  induction t using tree.induct
    (motive_2 := fun ts => ∀ us, sameAll (r.trees ts) (r.trees us) = sameAll ts us)
    generalizing u with
  | case1 k p fields ih =>
      cases u with
      | node k' p' fields' => simp only [tree, same, ih]
      | _ => rfl
  | case2 items ih =>
      cases u with
      | tuple items' => simp only [tree, same, ih]
      | _ => rfl
  | case3 t hnode htuple =>
      cases t with
      | node k p fields => exact absurd rfl (hnode k p fields)
      | tuple items => exact absurd rfl (htuple items)
      | _ => cases u <;> rfl
  | case4 => cases ‹List Tree› <;> rfl
  | case5 t ts ht hts =>
      rename_i us
      cases us with
      | nil => rfl
      | cons u us => simp only [trees, sameAll, ht, hts]

end Relocation

theorem sameAll_self {ts : List Tree} (h : ∀ t ∈ ts, t.same t = true) : sameAll ts ts = true := by
  induction ts with
  | nil => rfl
  | cons t ts ih =>
      obtain ⟨ht, hts⟩ := List.forall_mem_cons.mp h
      rw [sameAll, ht, ih hts, Bool.and_self]

theorem same_ofOption {o : Option Tree} (h : ∀ t ∈ o, t.same t = true) :
    (Tree.ofOption o).same (.ofOption o) = true := by
  cases o with
  | none => rfl
  | some t => exact h t rfl

@[simp]
theorem Json.same_str (x : Text) : (Json.str x).same (.str x) = true := by simp [Json.same]

@[simp]
theorem Json.same_bool (b : Bool) : (Json.bool b).same (.bool b) = true := by
  simp [Json.same, Json.toInt?]

@[simp]
theorem Json.same_null : Json.null.same .null = true := by simp [Json.same]

-- Trees of parsers hold only texts and truth values, each of which is equal to itself.
theorem Built.same_self {k : Category} {t : Tree} (h : Built k t) : t.same t = true := by
  induction h with
  | _ => simp_all only [same, sameAll, sameAll_self, same_ofOption, Json.same_str, Json.same_bool,
      Json.same_null, beq_self_eq_true, Bool.and_self, implies_true, Bool.and_true]

namespace Fragment

variable {fragment : Fragment} {t u : Tree}

-- Trees that differ only in their locations.
theorem same_of_tree (ht : Built fragment.category t) (r : Relocation)
    (h : r.tree t = r.tree u) : t.same u = true := by
  rw [← r.same_tree, ← h, r.same_tree]
  exact ht.same_self

-- Where nothing is cut off, both runs give a tree or both are refused for one cause.
theorem Answers.eq_of_not_cuts {C : Comparison} {deep : Prop} {o o' : Except Refusal Tree}
    (h : Answers C deep o o') (hcuts : ¬C.cuts) :
    (∃ t, o = .ok t ∧ o' = .ok (C.tree t)) ∨
      ∃ r r', o = .error r ∧ o' = .error r' ∧ r.cause = r'.cause := by
  cases h with
  | ok => exact Or.inl ⟨_, rfl, rfl⟩
  | error => exact Or.inr ⟨_, _, rfl, rfl, rfl⟩
  | cut h => exact absurd h hcuts

-- Without their places tokens are their lexemes.
theorem map_forget {ts ts' : List Token} (h : ts.map (·.toLexeme) = ts'.map (·.toLexeme)) :
    ts.map Relocation.forget.token = ts'.map Relocation.forget.token := by
  have hmap : ∀ us : List Token, us.map Relocation.forget.token =
      (us.map (·.toLexeme)).map fun l => ⟨l, 0, 0, 0, 0, none⟩ := by
    intro us
    rw [List.map_map]
    rfl
  rw [hmap, hmap, h]

theorem parse_layout (fragment : Fragment) (limit : Limit) {source source' : Text}
    {file file' : Option Text} {ts ts' : List Token}
    (hts : Lexer.tokens source file = .ok ts) (hts' : Lexer.tokens source' file' = .ok ts')
    (h : ts.map (·.toLexeme) = ts'.map (·.toLexeme)) :
    (∃ d d', fragment.parse limit source file = .error d ∧
        fragment.parse limit source' file' = .error d' ∧
        d.cause.message = d'.cause.message) ∨
      ∃ t t' text, fragment.parse limit source file = .ok t ∧
        fragment.parse limit source' file' = .ok t' ∧ t.same t' = true ∧
        t.render = .ok text ∧ t'.render = .ok text := by
  -- Both are compared with the reading of the lexemes alone.
  have hlimit : ∀ n, limit.admits n = limit.admits n ∨ (False ∧ limit.admits n = some false) :=
    fun _ => Or.inl rfl
  have hforget := answers_parseTokens .forget False fragment (sourced_of_tokens hts) hlimit
  have hforget' := answers_parseTokens .forget False fragment (sourced_of_tokens hts') hlimit
  rw [← map_forget h] at hforget'
  rcases hforget.eq_of_not_cuts id with ⟨t, ho, hbare⟩ | ⟨r, q, ho, hbare, hcause⟩
  · rcases hforget'.eq_of_not_cuts id with ⟨t', ho', hbare'⟩ | ⟨r', q', ho', hbare', -⟩
    · have htree : Relocation.forget.tree t = Relocation.forget.tree t' :=
        Except.ok.inj (hbare.symm.trans hbare')
      obtain ⟨c, hread⟩ := read_of_parseTokens (sourced_of_tokens hts) ho
      obtain ⟨c', hread'⟩ := read_of_parseTokens (sourced_of_tokens hts') ho'
      refine Or.inr ⟨t, t', _, parse_of_ok hts ho, parse_of_ok hts' ho',
        same_of_tree hread.built .forget htree, hread.render, ?_⟩
      rw [hread'.render, ← hread.built.emittedAs_tree .forget fragment.takes_role,
        ← hread'.built.emittedAs_tree .forget fragment.takes_role, htree]
    · rw [hbare] at hbare'
      cases hbare'
  · rcases hforget'.eq_of_not_cuts id with ⟨t', ho', hbare'⟩ | ⟨r', q', ho', hbare', hcause'⟩
    · rw [hbare] at hbare'
      cases hbare'
    · obtain rfl : q = q' := Except.error.inj (hbare.symm.trans hbare')
      refine Or.inl ⟨_, _, parse_of_error hts ho, parse_of_error hts' ho', ?_⟩
      exact congrArg Cause.message (hcause.trans hcause'.symm)

-- The same sum on one line and on two.
theorem parse_layout_lines :
    ∃ t t' text, expression.parse (.atMost 100) "x+y" none = .ok t ∧
      expression.parse (.atMost 100) "x +\n\ty" none = .ok t' ∧ t.same t' = true ∧
      t.render = .ok text ∧ t'.render = .ok text := by
  have hts : Lexer.tokens "x+y" none =
      .ok [⟨⟨.ident, "x"⟩, 1, 1, 0, 1, none⟩, ⟨⟨.op .Add, "+"⟩, 1, 2, 1, 2, none⟩,
        ⟨⟨.ident, "y"⟩, 1, 3, 2, 3, none⟩, ⟨.newline, 1, 4, 3, 3, none⟩,
        ⟨.ending, 1, 4, 3, 3, none⟩] :=
    rfl
  have hts' : Lexer.tokens "x +\n\ty" none =
      .ok [⟨⟨.ident, "x"⟩, 1, 1, 0, 1, none⟩, ⟨⟨.op .Add, "+"⟩, 1, 3, 2, 3, none⟩,
        ⟨⟨.ident, "y"⟩, 2, 2, 5, 6, none⟩, ⟨.newline, 2, 3, 6, 6, none⟩,
        ⟨.ending, 2, 3, 6, 6, none⟩] :=
    rfl
  rcases parse_layout .expression (.atMost 100) hts hts' rfl with ⟨d, -, herror, -⟩ | h
  · have hread : (expression.parse (.atMost 100) "x+y" none).toOption.isSome = true :=
      rfl
    rw [herror] at hread
    cases hread
  · exact h

end Fragment

end GoCompact
