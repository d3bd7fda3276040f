import GoCompact.Proofs.Grammar.Guard.Type

namespace GoCompact.Grammar

open GoCompact.Parser GoCompact.Tree

variable {g : Grammar} {s : Scope} {n : Nat} {w : Passed}

theorem Shallow.statements (hg : g.Shallow) (w : Passed) (hs : s.Leaves n) :
    g.statements.Yields s fun ts => ∀ t ∈ ts, t.levels w ≤ n :=
  (hg.statement w hs).manyWhile

theorem Shallow.block (hg : g.Shallow) (w : Passed) (hs : s.Leaves n) :
    g.block.Yields s (·.levels w ≤ n) :=
  .skip fun _ => (hg.statements w hs).bind fun _ hstmts => .skip fun _ => .pure (by simpa using hstmts)

theorem Shallow.functionTypeOrLiteral (hg : g.Shallow) (w : Passed) (hs : s.Leaves n) :
    g.functionTypeOrLiteral.Yields s (·.levels w ≤ n) := by
  refine .skip fun _ => (hg.signature w hs).bind fun typ htyp => .skip fun _ =>
    .ite (fun _ => ?_) fun _ => .pure htyp
  exact (Yields.bracketed (hg.block w hs.bracketed)).bind fun body hbody =>
    .pure (by simp [htyp, hbody])

theorem Shallow.parenthesized (hg : g.Shallow) (w : Passed) (hs : s.Leaves n) :
    g.parenthesized.Yields s (·.levels w ≤ n + w.expressionRoom) :=
  .skip fun _ => (Yields.bracketed (hg.expression w hs.bracketed)).bind fun x hx =>
    .skip fun _ => .pure (by simpa)

theorem basicLiteral_levels : basicLiteral.Yields s (·.levels w ≤ n) := .skip fun _ => .pure (by simp)

theorem Shallow.operand (hg : g.Shallow) (w : Passed) (hs : s.Leaves n) :
    g.operand.Yields s (·.levels w ≤ n + w.expressionRoom) := by
  refine .skip fun _ => ?_
  split
  · exact ident_levels
  · exact basicLiteral_levels
  · exact hg.parenthesized w hs
  · exact (hg.functionTypeOrLiteral w hs).imp fun _ => Nat.le_add_right_of_le
  · refine (hg.typeRule? w hs).bind fun o ho => ?_
    cases o with
    | none => exact .expected
    | some t => exact .pure (Nat.le_add_right_of_le (le_of_lt_typeRoom (ho t rfl)))

theorem Shallow.elementPart (hg : g.Shallow) (w : Passed) (hs : s.Leaves n) :
    g.elementPart.Yields s (·.levelsAs .element w ≤ n) :=
  .skip fun _ => .ite (fun _ => hg.bareLiteral w hs)
    fun _ => (hg.expression w hs).imp fun _ => levelsAs_element

theorem Shallow.element (hg : g.Shallow) (w : Passed) (hs : s.Leaves n) :
    g.element.Yields s (·.levelsAs .element w ≤ n) := by
  refine (hg.elementPart w hs).bind fun x hx => .skip fun _ => .ite (fun _ => ?_) fun _ => .pure hx
  exact (hg.elementPart w hs).bind fun value hvalue => .pure (levelsAs_keyValue.mpr ⟨hx, hvalue⟩)

-- A literal needs what its type needs, and what its elements need where they stand.
theorem Shallow.literalValue {typ : Option Tree} (hg : g.Shallow) (w : Passed) (hs : s.Leaves n) :
    (g.literalValue typ).Yields s fun t => ∃ place elts,
      t = .compositeLit place (.ofOption typ) (.tuple elts) ∧ ∀ e ∈ elts, e.levelsAs .element w ≤ n :=
  .skip fun _ => (Yields.bracketed (hg.element w hs.bracketed).itemsUntil).bind fun _ helts =>
    .skip fun _ => .pure ⟨_, _, rfl, helts⟩

theorem Shallow.bareLiteralRule (hg : g.Shallow) (w : Passed) (hs : s.Leaves n) :
    (g.literalValue none).Yields s (·.levelsAs .element w ≤ n) :=
  (hg.literalValue w hs).imp fun _ ⟨_, _, ht, helts⟩ => ht ▸ levelsAs_bareLiteral helts

theorem Shallow.sliceBound (hg : g.Shallow) (w : Passed) (hs : s.Leaves n) :
    g.sliceBound.Yields s fun o => ∀ t ∈ o, t.levels w ≤ n := by
  refine .skip fun _ => ?_
  split
  · exact .pure (by simp)
  · exact .pure (by simp)
  · exact .pure (by simp)
  · exact .map ((hg.expression_le w hs).imp fun t ht => by simpa)

def Brackets.Within (w : Passed) (n : Nat) : Brackets → Prop
  | .indices items => ∀ t ∈ items, t.levels w ≤ n
  | .slice low high => (∀ t ∈ low, t.levels w ≤ n) ∧ ∀ t ∈ high, t.levels w ≤ n
  | .fullSlice low high max =>
    (∀ t ∈ low, t.levels w ≤ n) ∧ (∀ t ∈ high, t.levels w ≤ n) ∧ ∀ t ∈ max, t.levels w ≤ n

theorem Brackets.Within.mono {m : Nat} {contents : Brackets} (h : contents.Within w n) (hm : n ≤ m) :
    contents.Within w m := by
  cases contents with
  | indices items => exact fun t ht => (h t ht).trans hm
  | slice low high => exact ⟨fun t ht => (h.1 t ht).trans hm, fun t ht => (h.2 t ht).trans hm⟩
  | fullSlice low high max =>
      exact ⟨fun t ht => (h.1 t ht).trans hm, fun t ht => (h.2.1 t ht).trans hm,
        fun t ht => (h.2.2 t ht).trans hm⟩

theorem Shallow.bracketsAfter {low : Option Tree} (hg : g.Shallow) (w : Passed) (hs : s.Leaves n)
    (hlow : ∀ t ∈ low, t.levels w ≤ n) : (g.bracketsAfter low).Yields s (Brackets.Within w n) := by
  refine .skip fun _ => .ite (fun _ => ?_) fun _ => ?_
  · refine (hg.sliceBound w hs).bind fun high hhigh => .skip fun _ => .ite (fun _ => ?_) fun _ => ?_
    · exact (hg.sliceBound w hs).bind fun max hmax => .pure ⟨hlow, hhigh, hmax⟩
    · exact .pure ⟨hlow, hhigh⟩
  · refine (hg.type_le w hs).afterCommas.bind fun others hothers => .pure ?_
    simpa [Brackets.Within, or_imp, forall_and] using ⟨hlow, hothers⟩

theorem Shallow.bracketContents (hg : g.Shallow) (w : Passed) (hs : s.Leaves n) :
    g.bracketContents.Yields s (Brackets.Within w n) :=
  .bracketed <| .skip fun _ => .ite (fun _ => hg.bracketsAfter w hs.bracketed (by simp)) fun _ =>
    (hg.expression_le w hs.bracketed).bind fun first hfirst =>
      hg.bracketsAfter w hs.bracketed (by simpa)

-- A tree, and what it may be taken apart into in the declaration of a type.
structure Apart (w : Passed) (n : Nat) (x : Tree) : Prop where
  levels : x.levels w ≤ n + w.expressionRoom
  apart {force : Bool} {name : Tree} {typ : Option Tree} (hw : w.declared = true) :
    x.typeParameter? force = some (name, typ) → name.levels w ≤ n ∧ ∀ t ∈ typ, t.levels w ≤ n

theorem Apart.of_none {x : Tree} (hx : x.levels w ≤ n + w.expressionRoom)
    (h : ∀ force, x.typeParameter? force = none) : Apart w n x :=
  ⟨hx, fun _ hsome => by rw [h] at hsome; cases hsome⟩

theorem Shallow.indexOrSlice {x : Tree} (hg : g.Shallow) (w : Passed) (hs : s.Leaves n)
    (hx : x.levels w ≤ n + w.expressionRoom) : (g.indexOrSlice x).Yields s (Apart w n) := by
  refine .skip fun _ => .skip fun _ => .ite (fun _ => .skip fun _ => ?_) fun _ => ?_
  all_goals
    refine (hg.bracketContents w hs).bind fun contents hwithin => .skip fun _ => ?_
    replace hwithin := hwithin.mono (Nat.le_add_right n w.expressionRoom)
    cases contents with
    | indices items =>
        exact .pure (.of_none (by simpa [Brackets.Within, hx] using hwithin) fun _ => rfl)
    | slice low high =>
        exact .pure (.of_none (by simpa [Brackets.Within, hx] using hwithin) fun _ => rfl)
    | fullSlice low high max =>
        exact .ite (fun _ => .refuse) fun _ =>
          .pure (.of_none (by simpa [Brackets.Within, hx] using hwithin) fun _ => rfl)

theorem Shallow.argumentsWithin (hg : g.Shallow) (w : Passed) (hs : s.Leaves n)
    (rounds : List Token) :
    (g.argumentsWithin rounds).Yields s fun r => ∀ t ∈ r.1, t.levels w < n + w.expressionRoom := by
  induction rounds with
  | nil => exact .pure (by simp)
  | cons r rounds ih =>
      refine .skip fun _ => ?_
      split
      · exact .pure (by simp)
      · exact .pure (by simp)
      · refine (hg.expression w hs).bind fun x hx => .skip fun _ => .skip fun _ =>
          .ite (fun _ => ?_) fun _ => .pure (by simpa)
        exact ih.bind fun r hr => .pure (List.forall_mem_cons.mpr ⟨hx, hr⟩)

theorem Shallow.assertedType (hg : g.Shallow) (w : Passed) (hs : s.Leaves n) :
    g.assertedType.Yields s fun o => ∀ t ∈ o, t.levels w ≤ n :=
  .skip fun _ => .ite (fun _ => .pure (by simp))
    fun _ => .map ((hg.type_le w hs).imp fun t ht => by simpa)

theorem Shallow.selectorOrAssertion {x : Tree} (hg : g.Shallow) (w : Passed) (hs : s.Leaves n)
    (hx : x.levels w ≤ n + w.expressionRoom) :
    (g.selectorOrAssertion x).Yields s (Apart w n) := by
  refine .skip fun _ => .skip fun _ => .ite (fun _ => ?_) fun _ => .skip fun _ =>
    .ite (fun _ => ?_) fun _ => .expected
  · exact (ident_levels (n := n) (w := w)).bind fun sel hsel =>
      .pure (.of_none (by simp [hx, Nat.le_add_right_of_le hsel]) fun _ => rfl)
  · exact (hg.assertedType w hs).bind fun typ htyp => .skip fun _ =>
      .pure (.of_none (by simpa [hx] using fun t ht => Nat.le_add_right_of_le (htyp t ht))
        fun _ => rfl)

theorem expressionRoom_eq_zero (hw : w.declared = true) : w.expressionRoom = 0 := by
  simp [Passed.expressionRoom, hw]

-- The argument of a call gets parentheses when it is taken for a constraint.
theorem apart_call {p callee : Tree} {args : List Tree} {spread : Bool}
    (hcallee : callee.levels w ≤ n + w.expressionRoom)
    (hargs : ∀ t ∈ args, t.levels w < n + w.expressionRoom) :
    Apart w n (.call p callee (.tuple args) (.flag spread)) := by
  refine ⟨by simpa [hcallee] using fun t ht => Nat.le_of_lt (hargs t ht),
    fun {force name typ} hw h => ?_⟩
  rw [expressionRoom_eq_zero hw, Nat.add_zero] at hcallee hargs
  unfold typeParameter? at h
  split at h
  · rename_i heq
    cases heq
  · rename_i heq
    cases heq
  · rename_i arg heq
    cases heq
    split at h
    · cases h
      exact ⟨hcallee, by simpa using hargs⟩
    · cases h
  · cases h

-- The right side of a product gets a star when it is taken for a constraint.
theorem apart_binary {p x y : Tree} {kind : TokenKind} (hx : Apart w n x)
    (hy : y.levels w < n + w.expressionRoom) : Apart w n (.binary p x (.token kind) y) := by
  refine ⟨by simp [hx.levels, Nat.le_of_lt hy], fun {force name typ} hw h => ?_⟩
  have hlevels := hx.levels
  rw [expressionRoom_eq_zero hw, Nat.add_zero] at hlevels hy
  unfold typeParameter? at h
  split at h
  · split at h
    · cases h
      exact ⟨hlevels, by simpa⟩
    · cases h
  · split at h
    · rename_i lhs hlhs
      cases h
      obtain ⟨hname, htyp⟩ := hx.apart hw hlhs
      exact ⟨hname, by simpa [Nat.le_of_lt hy] using htyp _ rfl⟩
    · cases h
  · cases h

theorem Shallow.call {callee : Tree} (hg : g.Shallow) (w : Passed) (hs : s.Leaves n)
    (hcallee : callee.levels w ≤ n + w.expressionRoom) : (g.call callee).Yields s (Apart w n) :=
  .skip fun _ => (Yields.bracketed (.skip (hg.argumentsWithin w hs.bracketed))).bind fun _ hargs =>
    .skip fun _ => .pure (apart_call hcallee hargs)

-- What takes a brace after it is no list.
theorem isLiteralType_isList {x : Tree} :
    (isLiteralType x).Yields s fun b => b = true → x.isList = false := by
  cases x with
  | tuple items =>
      have hnone : ∀ k, (Tree.tuple items).unparen.is k = false := fun _ => rfl
      unfold isLiteralType
      simp only [hnone, Bool.or_self, Bool.false_and]
      exact .skip fun _ => .pure (by simp)
  | _ => exact fun _ _ _ _ _ => rfl

theorem Shallow.primaryStep {x : Tree} (hg : g.Shallow) (w : Passed) (hs : s.Leaves n)
    (hx : x.levels w ≤ n + w.expressionRoom) :
    (g.primaryStep x).Yields s fun o => ∀ t ∈ o, Apart w n t := by
  refine .skip fun _ => ?_
  split
  · exact .map ((hg.selectorOrAssertion w hs hx).imp fun t ht => by simpa)
  · exact .map ((hg.indexOrSlice w hs hx).imp fun t ht => by simpa)
  · exact .map ((hg.call w hs hx).imp fun t ht => by simpa)
  · refine isLiteralType_isList.bind fun b hb => .ite (fun htrue => .map ?_) fun _ => .pure (by simp)
    refine (hg.literalValue w hs).imp ?_
    rintro t ⟨place, elts, rfl, helts⟩
    have hlevels := levels_compositeLit (p := place) (hb htrue) hx helts
    simpa [ofOption] using Apart.of_none hlevels fun _ => rfl
  · exact .pure (by simp)

theorem Shallow.primaryAfter {x : Tree} (hg : g.Shallow) (w : Passed) (hs : s.Leaves n)
    (hx : Apart w n x) : (g.primaryAfter x).Yields s (Apart w n) :=
  .grow (fun _ hx => hg.primaryStep w hs hx.levels) hx

theorem Shallow.unaryHere (hg : g.Shallow) (w : Passed) (hs : s.Leaves n) :
    g.unaryHere.Yields s (·.levels w ≤ n + w.expressionRoom) := by
  have hoperator : ∀ kind, g.unary.Yields s (·.levels (w.behind kind) < n + w.expressionRoom) := by
    intro kind
    have hroom : (w.behind kind).expressionRoom = w.expressionRoom := expressionRoom_behind
    exact hroom ▸ hg.unary (w.behind kind) hs
  refine .skip fun t => .ite (fun _ => .skip fun _ => ?_) fun _ => ?_
  · exact (hoperator t.kind).bind fun x hx => .pure (by simpa)
  split
  · refine .skip fun _ => (hoperator (.op .Arrow)).bind fun x hx => .ite (fun _ => ?_)
      fun _ => .pure (by simpa)
    exact receiving_levels (Nat.le_of_lt hx)
  · exact .skip fun _ => (hg.unary w hs).bind fun x hx => .pure (by simpa)
  · refine (hg.operand w hs).bind fun x hx => ?_
    exact Yields.grow (P := (·.levels w ≤ n + w.expressionRoom)) (fun x hx =>
      (hg.primaryStep w hs hx).imp fun o ho u hu => (ho u hu).levels) hx

theorem Shallow.unaryRule (hg : g.Shallow) (w : Passed) (hs : s.Leaves n) :
    g.unaryRule.Yields s (·.levels w < n + w.expressionRoom) :=
  .nested fun hlimit => by
    obtain ⟨m, rfl, hm⟩ := hs.deeper hlimit
    exact (hg.unaryHere w hm).imp fun t ht => by omega

-- What is kept by operators with what stands to their right is kept by an expression.
theorem Shallow.binaryAfter {least : Nat} {x : Tree} {P : Tree → Prop} (hg : g.Shallow) (w : Passed)
    (hs : s.Leaves n)
    (hP : ∀ p x kind y, P x → y.levels w < n + w.expressionRoom → P (.binary p x (.token kind) y))
    (hx : P x) : (g.binaryAfter least x).Yields s P := by
  refine .grow (fun x hx => ?_) hx
  refine .skip fun op => .ite (fun _ => .pure (by simp)) fun _ => .skip fun _ => ?_
  exact (hg.binary w hs).bind fun y hy => .pure (by simpa using hP _ x op y hx hy)

theorem Shallow.binaryRule {least : Nat} (hg : g.Shallow) (w : Passed) (hs : s.Leaves n) :
    (g.binaryRule least).Yields s (·.levels w < n + w.expressionRoom) := by
  refine (hg.unaryRule w hs).bind fun x hx => hg.binaryAfter w hs (fun p x kind y hx hy => ?_) hx
  generalize n + w.expressionRoom = bound at hx hy
  obtain ⟨m, rfl⟩ := Nat.exists_eq_add_of_lt hx
  simp only [Nat.lt_succ_iff] at hx hy ⊢
  simp [hx, hy]

theorem Shallow.expressionRule (hg : g.Shallow) (w : Passed) (hs : s.Leaves n) :
    g.expressionRule.Yields s (·.levels w ≤ n) :=
  (hg.binaryRule w hs).imp fun _ => le_of_lt_expressionRoom

theorem Shallow.expressionList (hg : g.Shallow) (w : Passed) (hs : s.Leaves n) :
    g.expressionList.Yields s fun ts => ∀ t ∈ ts, t.levels w ≤ n :=
  (hg.expressionRule w hs).commaList

end GoCompact.Grammar
