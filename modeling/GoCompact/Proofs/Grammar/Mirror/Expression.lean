import GoCompact.Proofs.Grammar.Mirror.Type

namespace GoCompact

namespace Relocation

open GoCompact.Grammar

variable (r : Relocation)

@[simp]
theorem unparen_tree (t : Tree) : (r.tree t).unparen = r.tree t.unparen := by
  induction t using Tree.unparen.induct with
  | case1 p x ih => simpa [Tree.unparen] using ih
  | case2 t h =>
      have h' : ∀ p x, r.tree t = .paren p x → False := by
        intro p x ht
        obtain ⟨q, fields, rfl, hfields⟩ := r.eq_node_of_tree ht
        obtain ⟨y, rfl, -⟩ := r.eq_one_of_map hfields
        exact h q y rfl
      rw [Tree.unparen.eq_2 t h, Tree.unparen.eq_2 _ h']

def brackets : Brackets → Brackets
  | .indices items => .indices (items.map r.tree)
  | .slice low high => .slice (low.map r.tree) (high.map r.tree)
  | .fullSlice low high max => .fullSlice (low.map r.tree) (high.map r.tree) (max.map r.tree)

end Relocation

namespace Grammar

open GoCompact.Parser Comparison Comparison.Mirrors Relocation

variable {C : Comparison} {g g' : Grammar} {phase : Phase} {c : Cursor}

theorem Mirrored.functionTypeOrLiteral (hg : Mirrored C g g') :
    C.Mirrors phase C.tree g.functionTypeOrLiteral g'.functionTypeOrLiteral c := by
  refine expect_bind (by decide) fun func c => ?_
  rw [place_token]
  refine bind hg.signature fun typ c => peek_bind ?_
  split
  · exact bind (bracketed hg.block) fun body c => pure (by simp)
  · exact pure rfl

theorem Mirrored.parenthesized (hg : Mirrored C g g') (hkind : c.current.kind ≠ .eof) :
    C.Mirrors phase C.tree g.parenthesized g'.parenthesized c := by
  simp only [Grammar.parenthesized, discard_bind]
  refine advance_bind hkind (bind (bracketed hg.expression) fun x c => ?_)
  exact expect_bind (by decide) fun _ c => pure (by simp)

theorem mirrors_basicLiteral (hkind : c.current.kind ≠ .eof) :
    C.Mirrors phase C.tree basicLiteral basicLiteral c :=
  advance_bind hkind (pure (by simp))

theorem Mirrored.operand (hg : Mirrored C g g') (hphase : 1 ≤ phase.need) :
    C.Mirrors phase C.tree g.operand g'.operand c := by
  refine peek_bind ?_
  split
  · exact mirrors_ident
  · rename_i hkind
    exact mirrors_basicLiteral (by simp [hkind])
  · rename_i hkind
    exact hg.parenthesized (by simp [hkind])
  · exact hg.functionTypeOrLiteral
  · refine bindIf (hg.typeRule? hphase) (fun o d ho _ _ => ?_) fun o d ho => ?_
    · obtain ⟨typ, rfl⟩ := Option.isSome_iff_exists.mp ho
      exact pure rfl
    · obtain rfl := Option.not_isSome_iff_eq_none.mp ho
      exact expected

theorem mirrors_isLiteralType {x : Tree} :
    C.Mirrors .inside id (isLiteralType x) (isLiteralType (C.tree x)) c := by
  unfold isLiteralType
  simp only [unparen_tree, is_tree]
  refine read_bind fun s s' hs => ?_
  have hlevel := hs.level
  rw [show decide (0 ≤ s'.level) = decide (0 ≤ s.level) from decide_eq_decide.mpr (by omega)]
  split
  · split
    · exact refuse (by simp)
    · exact pure rfl
  · exact pure rfl

theorem Mirrored.elementPart (hg : Mirrored C g g') :
    C.Mirrors .inside C.tree g.elementPart g'.elementPart c := by
  refine peek_bind ?_
  split
  · exact hg.bareLiteral
  · exact hg.expression

theorem Mirrored.element (hg : Mirrored C g g') :
    C.Mirrors .inside C.tree g.element g'.element c := by
  refine bind hg.elementPart fun x c => got_ite (by decide) (fun c => ?_) (pure rfl)
  exact bind hg.elementPart fun value c => pure (by simp)

theorem Mirrored.literalValue (hg : Mirrored C g g') {typ : Option Tree} :
    C.Mirrors phase C.tree (g.literalValue typ) (g'.literalValue (C.tree? typ)) c := by
  simp only [Grammar.literalValue, discard_bind]
  refine expect_bind (by decide) fun brace c => ?_
  refine bind (bracketed (itemsUntil fun _ => hg.element)) fun elts c => ?_
  refine expect_bind (by decide) fun _ c => pure ?_
  cases typ <;> simp

theorem Mirrored.sliceBound (hg : Mirrored C g g') :
    C.Mirrors .inside C.tree? g.sliceBound g'.sliceBound c := by
  refine peek_bind ?_
  split
  · exact pure rfl
  · exact pure rfl
  · exact pure rfl
  · exact some hg.expression

theorem Mirrored.bracketsAfter (hg : Mirrored C g g') {low : Option Tree} :
    C.Mirrors .inside C.moves.brackets (g.bracketsAfter low) (g'.bracketsAfter (C.tree? low)) c := by
  refine got_ite (by decide) (fun c => ?_) ?_
  · refine bind hg.sliceBound fun high c => got_ite (by decide) (fun c => ?_) (pure rfl)
    exact bind hg.sliceBound fun max c => pure rfl
  · refine bind (afterCommas fun _ => hg.type) fun others c => pure ?_
    cases low <;> simp [brackets]

theorem Mirrored.bracketContents (hg : Mirrored C g g') :
    C.Mirrors .inside C.moves.brackets g.bracketContents g'.bracketContents c := by
  refine bracketed (peek_bind ?_)
  split
  · exact hg.bracketsAfter
  · exact bind hg.expression fun first c => hg.bracketsAfter

theorem Mirrored.indexOrSlice (hg : Mirrored C g g') {x : Tree} :
    C.Mirrors phase C.tree (g.indexOrSlice x) (g'.indexOrSlice (C.tree x)) c := by
  simp only [Grammar.indexOrSlice, discard_bind]
  refine expect_bind (by decide) fun _ c => peek_bind ?_
  split
  · exact expected_bind
  · refine bind hg.bracketContents fun contents c => expect_bind (by decide) fun _ c => ?_
    cases contents with
    | indices items => exact pure (by simp)
    | slice low high => exact pure (by simp)
    | fullSlice low high max =>
        simp only [brackets, Option.isNone_map]
        split
        · exact refuse (by simp)
        · exact pure (by simp)

theorem Mirrored.arguments (hg : Mirrored C g g') :
    C.Mirrors .inside (Prod.map C.trees id) (ahead >>= g.argumentsWithin)
      (ahead >>= g'.argumentsWithin) c := by
  refine rounds (f := fun _ => g.argumentsWithin) (k := fun _ => g'.argumentsWithin) ()
    (fun _ c => pure rfl) ?_
  intro _ c r r' rounds rounds' ih
  refine peek_bind ?_
  split
  · exact pure rfl
  · exact pure rfl
  · refine insideBind hg.expression fun x d hle => ?_
    have hrest : ∀ (spread : Bool) (e : Cursor), e.upcoming.length < c.upcoming.length →
        C.Mirrors .inside (Prod.map C.trees id)
          (if (true && !spread) = true then do
            let others ← g.argumentsWithin rounds
            return (x :: others.1, others.2)
          else return ([x], spread))
          (if (true && !spread) = true then do
            let others ← g'.argumentsWithin rounds'
            return (C.tree x :: others.1, others.2)
          else return ([C.tree x], spread)) e := by
      intro spread e hlt
      split
      · exact bind (ih () e hlt) fun r e => pure rfl
      · exact pure rfl
    refine got_bind_lt (by decide) (fun e hlt => ?_) ?_
    · exact got_bind_lt (by decide) (fun u hu => hrest true u (by omega)) (pure rfl)
    · exact got_bind_lt (by decide) (fun u hu => hrest false u (by omega)) (pure rfl)

theorem Mirrored.call (hg : Mirrored C g g') {callee : Tree} :
    C.Mirrors phase C.tree (g.call callee) (g'.call (C.tree callee)) c := by
  simp only [Grammar.call, discard_bind]
  refine expect_bind (by decide) fun _ c => ?_
  refine bind (bracketed hg.arguments) fun r c => ?_
  exact expect_bind (by decide) fun _ c => pure (by simp)

theorem Mirrored.assertedType (hg : Mirrored C g g') :
    C.Mirrors .inside C.tree? g.assertedType g'.assertedType c :=
  got_ite (by decide) (fun _ => pure rfl) (some hg.type)

theorem Mirrored.selectorOrAssertion (hg : Mirrored C g g') {x : Tree} :
    C.Mirrors phase C.tree (g.selectorOrAssertion x) (g'.selectorOrAssertion (C.tree x)) c := by
  simp only [Grammar.selectorOrAssertion, discard_bind]
  refine expect_bind (by decide) fun _ c => peek_bind ?_
  split
  · exact bind mirrors_ident fun sel c => pure (by simp)
  · refine got_ite (by decide) (fun c => ?_) expected
    refine bind hg.assertedType fun typ c => ?_
    exact expect_bind (by decide) fun _ c => pure (by simp)

theorem Mirrored.primaryStep (hg : Mirrored C g g') {x : Tree} :
    C.MirrorsIf (·.isSome) .part C.tree? (g.primaryStep x) (g'.primaryStep (C.tree x)) c := by
  refine peek_bind ?_
  split
  · exact some hg.selectorOrAssertion
  · exact some hg.indexOrSlice
  · exact some hg.call
  · refine before mirrors_isLiteralType fun b c => ?_
    cases b with
    | false => exact pureIf rfl (by simp)
    | true => exact some hg.literalValue
  · exact pureIf rfl (by simp)

theorem Mirrored.primaryAfter (hg : Mirrored C g g') {x : Tree} :
    C.Mirrors .inside C.tree (g.primaryAfter x) (g'.primaryAfter (C.tree x)) c :=
  grow fun _ _ => hg.primaryStep

theorem isUnary_ne_eof {k : TokenKind} (h : isUnary k = true) : k ≠ .eof := by
  rintro rfl
  cases h

theorem Mirrored.unaryHere (hg : Mirrored C g g') (hphase : 1 ≤ phase.need) :
    C.Mirrors phase C.tree g.unaryHere g'.unaryHere c := by
  simp only [Grammar.unaryHere, discard_bind]
  refine current_bind ?_
  simp only [kind_token]
  split
  · rename_i hunary
    refine advance_bind (isUnary_ne_eof hunary) ?_
    exact bind hg.unary fun x c => pure (by simp)
  · split
    · rename_i hkind
      refine advance_bind (by simp [hkind]) (bind hg.unary fun x c => ?_)
      rw [is_tree]
      split
      · exact mirrors_receiving x
      · exact pure (by simp)
    · rename_i hkind
      exact advance_bind (by simp [hkind]) (bind hg.unary fun x c => pure (by simp))
    · exact bind (hg.operand hphase) fun x c => hg.primaryAfter

theorem Mirrored.unaryRule (hg : Mirrored C g g') (hphase : 2 ≤ phase.need) :
    C.Mirrors phase C.tree g.unaryRule g'.unaryRule c :=
  nested (k := 1) (hg.unaryHere (Nat.le_refl 1)) hphase

-- The end is no operator, so that a token is read before the right side.
theorem Mirrored.binaryStep (hg : Mirrored C g g') {least : Nat} {x : Tree} (hleast : 1 ≤ least) :
    C.MirrorsIf (·.isSome) phase C.tree? (g.binaryStep least x) (g'.binaryStep least (C.tree x)) c := by
  simp only [Grammar.binaryStep, discard_bind]
  refine peek_bind ?_
  split
  · exact pureIf rfl (by simp)
  · rename_i hle
    have hkind : c.current.kind ≠ .eof := by
      intro hkind
      rw [hkind] at hle
      exact hle hleast
    exact advance_bind hkind (bind (hg.binary (by omega)) fun y c => pure (by simp))

theorem Mirrored.binaryAfter (hg : Mirrored C g g') {least : Nat} {x : Tree} (hleast : 1 ≤ least) :
    C.Mirrors .inside C.tree (g.binaryAfter least x) (g'.binaryAfter least (C.tree x)) c :=
  grow fun _ _ => hg.binaryStep hleast

theorem Mirrored.binaryRule (hg : Mirrored C g g') {least : Nat} (hleast : 1 ≤ least)
    (hphase : 2 ≤ phase.need) :
    C.Mirrors phase C.tree (g.binaryRule least) (g'.binaryRule least) c :=
  bind (hg.unaryRule hphase) fun _ _ => hg.binaryAfter hleast

theorem Mirrored.expressionRule (hg : Mirrored C g g') (hphase : 2 ≤ phase.need) :
    C.Mirrors phase C.tree g.expressionRule g'.expressionRule c :=
  hg.binaryRule (Nat.le_refl 1) hphase

theorem Mirrored.expressionList (hg : Mirrored C g g') (hphase : 2 ≤ phase.need) :
    C.Mirrors phase C.trees g.expressionList g'.expressionList c :=
  commaList (hg.expressionRule hphase) fun _ => hg.expressionRule (by simp)

end Grammar

end GoCompact
