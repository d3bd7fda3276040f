import GoCompact.Proofs.Grammar.Mirror.Declaration

namespace GoCompact

namespace Relocation

open GoCompact.Grammar

variable (r : Relocation)

-- A tree that is moved asks for a type only if it does so where it was.
theorem eq_typeAssert_of_tree {t p x : Tree} (h : r.tree t = .typeAssert p x .absent) :
    ∃ q y, t = .typeAssert q y .absent := by
  obtain ⟨q, fields, rfl, hfields⟩ := r.eq_node_of_tree h
  obtain ⟨y, typ, rfl, -, htyp⟩ := r.eq_two_of_map hfields
  rw [r.tree_eq_datum.mp htyp]
  exact ⟨q, y, rfl⟩

@[simp]
theorem isTypeGuard_tree (t : Tree) : isTypeGuard (r.tree t) = isTypeGuard t := by
  fun_cases isTypeGuard t with
  | case1 p q x => simp [isTypeGuard]
  | case2 p name q x => simp [isTypeGuard]
  | case3 t hexpr hassign =>
      rw [isTypeGuard.eq_3]
      · intro p q x h
        obtain ⟨q, fields, rfl, hfields⟩ := r.eq_node_of_tree h
        obtain ⟨y, rfl, hy⟩ := r.eq_one_of_map hfields
        obtain ⟨q', z, rfl⟩ := r.eq_typeAssert_of_tree hy
        exact hexpr q q' z rfl
      · intro p name q x h
        obtain ⟨p, fields, rfl, hfields⟩ := r.eq_node_of_tree h
        obtain ⟨lhs, op, rhs, rfl, hlhs, hop, hrhs⟩ := r.eq_three_of_map hfields
        obtain ⟨ls, rfl, hls⟩ := r.eq_tuple_of_tree hlhs
        obtain ⟨rs, rfl, hrs⟩ := r.eq_tuple_of_tree hrhs
        obtain ⟨l, rfl, -⟩ := r.eq_one_of_map hls
        obtain ⟨y, rfl, hy⟩ := r.eq_one_of_map hrs
        obtain ⟨q, z, rfl⟩ := r.eq_typeAssert_of_tree hy
        rw [r.tree_eq_token.mp hop] at hassign
        exact hassign p l q z rfl

def loopHeader : LoopHeader → LoopHeader
  | .parts init cond post => .parts (init.map r.tree) (cond.map r.tree) (post.map r.tree)
  | .range vars op x => .range (vars.map r.tree) op (r.tree x)

end Relocation

namespace Grammar

open GoCompact.Parser Comparison Comparison.Mirrors Relocation

variable {C : Comparison} {g g' : Grammar} {phase : Phase} {c : Cursor}

theorem Mirrored.assignmentAfter (hg : Mirrored C g g') {start op : Token} {lhs : List Tree} :
    C.Mirrors .inside C.tree (g.assignmentAfter start op lhs)
      (g'.assignmentAfter (C.moves.token start) (C.moves.token op) (C.trees lhs)) c :=
  bind (hg.expressionList (by simp)) fun rhs c => pure (by simp)

theorem Mirrored.simpleAfter (hg : Mirrored C g g') {labels : Bool} {start : Token}
    {lhs : List Tree} :
    C.Mirrors .inside C.tree (g.simpleAfter labels start lhs)
      (g'.simpleAfter labels (C.moves.token start) (C.trees lhs)) c := by
  rcases lhs with _ | ⟨x, _ | ⟨y, rest⟩⟩
  · exact expected
  · simp only [Grammar.simpleAfter, List.map_cons, List.map_nil, discard_bind, is_tree]
    refine peek_bind ?_
    split
    · rename_i hkind
      split
      · exact advance_bind (by simp [hkind]) (bind (inside hg.statement) fun stmt c => pure (by simp))
      · exact pure (by simp)
    · rename_i hkind
      refine advance_bind (by simp [hkind]) ?_
      exact bind (hg.expressionRule (by simp)) fun value c => pure (by simp)
    · rename_i hkind
      exact advance_bind (by simp [hkind]) (pure (by simp))
    · rename_i hkind
      exact advance_bind (by simp [hkind]) (pure (by simp))
    · exact pure (by simp)
  · exact expected

theorem isAssignment_ne_eof {k : TokenKind} (h : k.isAssignment = true) : k ≠ .eof := by
  rintro rfl
  cases h

theorem Mirrored.simpleStatement (hg : Mirrored C g g') {labels : Bool} (hphase : 2 ≤ phase.need) :
    C.Mirrors phase C.tree (g.simpleStatement labels) (g'.simpleStatement labels) c := by
  refine current_bind (bind (hg.expressionList hphase) fun lhs c => peek_bind ?_)
  split
  · rename_i hkind
    exact advance_bind (isAssignment_ne_eof hkind) hg.assignmentAfter
  · exact hg.simpleAfter

theorem Mirrored.callStatement (hg : Mirrored C g g') {word : CallWord} :
    C.Mirrors .inside C.tree (g.callStatement word) (g'.callStatement word) c := by
  refine bind (hg.expressionRule (by simp)) fun x c => ?_
  simp only [is_tree]
  split
  · exact refuse (by simp)
  · split
    · exact pure rfl
    · exact refuse (by simp)

theorem mirrors_headerExpression {part : HeaderPart} {stmt : Option Tree} :
    C.Mirrors .inside C.tree? (headerExpression part stmt) (headerExpression part (C.tree? stmt)) c := by
  fun_cases headerExpression part stmt with
  | case1 => exact pure rfl
  | case2 p x => exact pure rfl
  | case3 t h =>
      have h' : ∀ p x, C.tree t = .exprStmt p x → False := by
        intro p x ht
        obtain ⟨q, fields, rfl, hfields⟩ := C.moves.eq_node_of_tree ht
        obtain ⟨y, rfl, -⟩ := C.moves.eq_one_of_map hfields
        exact h q y rfl
      rw [show C.tree? (Option.some t) = Option.some (C.tree t) from rfl,
        headerExpression.eq_3 part _ h']
      exact refuse (by simp)

theorem Mirrored.ifFirst (hg : Mirrored C g g') :
    C.Mirrors .inside C.tree? g.ifFirst g'.ifFirst c := by
  refine peek_bind ?_
  split
  · exact pure rfl
  · exact refuse (by simp)
  · exact some (hg.simpleStatement (by simp))

theorem Mirrored.ifCondition (hg : Mirrored C g g') :
    C.Mirrors .inside C.tree? g.ifCondition g'.ifCondition c := by
  refine peek_bind ?_
  split
  · exact pure rfl
  · exact bind (hg.simpleStatement (by simp)) fun stmt c =>
      mirrors_headerExpression

theorem Mirrored.ifClauses (hg : Mirrored C g g') :
    C.Mirrors .inside (Prod.map C.tree? C.tree?) g.ifClauses g'.ifClauses c := by
  refine bind hg.ifFirst fun first c => peek_bind ?_
  split
  · rename_i hkind
    refine advance_bind (by simp [hkind]) ?_
    rw [text_token]
    split
    · exact refuseAt (by simp)
    · exact bind hg.ifCondition fun cond c => pure rfl
  · exact bind mirrors_headerExpression fun cond c => pure rfl

theorem Mirrored.ifHeader (hg : Mirrored C g g') :
    C.Mirrors .inside (Prod.map C.tree C.tree) g.ifHeader g'.ifHeader c := by
  refine peek_bind ?_
  split
  · exact refuse (by simp)
  · refine bind (inHeader hg.ifClauses) fun r c => ?_
    obtain ⟨init, cond⟩ := r
    cases cond with
    | none => exact refuse (by simp)
    | some cond => exact pure (by simp)

theorem Mirrored.elseBranch (hg : Mirrored C g g') :
    C.Mirrors .inside C.tree g.elseBranch g'.elseBranch c := by
  refine got_ite (by decide) (fun c => peek_bind ?_) (expectEnd_bind fun c => pure rfl)
  split
  · exact hg.ifStatement
  · exact bind hg.block fun body c => expectEnd_bind fun c => pure rfl
  · exact expected

theorem Mirrored.ifRule (hg : Mirrored C g g') : C.Mirrors phase C.tree g.ifRule g'.ifRule c := by
  refine expect_bind (by decide) fun start c => ?_
  refine bind hg.ifHeader fun r c => ?_
  refine bind hg.block fun body c => ?_
  exact bind hg.elseBranch fun otherwise c => pure (by simp)

theorem Mirrored.caseClause (hg : Mirrored C g g') {types : Bool} :
    C.Mirrors phase C.tree (g.caseClause types) (g'.caseClause types) c := by
  simp only [Grammar.caseClause, discard_bind, pure_bind]
  refine current_bind (got_ite (by decide) (fun c => ?_) ?_)
  · split
    · refine bind (commaList (hg.typeRule (by simp)) fun _ => hg.typeRule (by simp)) fun values c => ?_
      refine expect_bind (by decide) fun _ c => ?_
      exact bind hg.statements fun body c => pure (by simp)
    · refine bind (hg.expressionList (by simp)) fun values c => ?_
      refine expect_bind (by decide) fun _ c => ?_
      exact bind hg.statements fun body c => pure (by simp)
  · refine expect_bind (by decide) fun _ c => expect_bind (by decide) fun _ c => ?_
    exact bind hg.statements fun body c => pure (by simp)

theorem Mirrored.switchFirst (hg : Mirrored C g g') :
    C.Mirrors .inside C.tree? g.switchFirst g'.switchFirst c := by
  refine peek_bind ?_
  split
  · exact pure rfl
  · exact some (hg.simpleStatement (by simp))

theorem Mirrored.switchHeader (hg : Mirrored C g g') :
    C.Mirrors .inside (Prod.map C.tree? C.tree?) g.switchHeader g'.switchHeader c := by
  refine peek_bind ?_
  split
  · exact pure rfl
  · refine inHeader (bind hg.switchFirst fun first c => ?_)
    refine got_ite (by decide) (fun c => peek_bind ?_) (pure rfl)
    split
    · exact pure rfl
    · exact bind (hg.simpleStatement (by simp)) fun tag c => pure rfl

theorem mirrors_clauses {clause clause' : Parser Tree}
    (h : ∀ c, C.Mirrors .part C.tree clause clause' c) :
    C.Mirrors phase C.tree (clauses clause) (clauses clause') c := by
  simp only [clauses, discard_bind]
  refine expect_bind (by decide) fun brace c => ?_
  refine bind (manyWhile fun c _ => h c) fun items c => ?_
  refine expect_bind (by decide) fun _ c => expectEnd_bind fun c => pure (by simp)

theorem Mirrored.switchStatement (hg : Mirrored C g g') :
    C.Mirrors phase C.tree g.switchStatement g'.switchStatement c := by
  refine expect_bind (by decide) fun start c => bind hg.switchHeader fun r c => ?_
  obtain ⟨init, tag⟩ := r
  have hguard : (C.tree? tag).any isTypeGuard = tag.any isTypeGuard := by
    cases tag <;> simp
  simp only [Prod.map, hguard]
  split
  · exact bind (mirrors_clauses fun _ => hg.caseClause) fun body c => pure (by simp)
  · refine bind (mirrors_clauses fun _ => hg.caseClause) fun body c => ?_
    exact bind mirrors_headerExpression fun tag c => pure (by simp)

theorem Mirrored.communication (hg : Mirrored C g g') :
    C.Mirrors .inside C.tree g.communication g'.communication c := by
  simp only [Grammar.communication, discard_bind]
  refine current_bind (bind (hg.expressionList (by simp)) fun lhs c => peek_bind ?_)
  have hassign : ∀ {rest rest' : Parser Tree}, C.Mirrors .inside C.tree rest rest' c →
      C.Mirrors .inside C.tree
        (if 2 < lhs.length then Parser.expected .twoExpressions >>= fun _ : PUnit => rest else rest)
        (if 2 < (C.trees lhs).length then Parser.expected .twoExpressions >>= fun _ : PUnit => rest'
          else rest') c := by
    intro rest rest' h
    rw [List.length_map]
    split
    · exact expected_bind
    · exact h
  split
  · rename_i x hkind
    simp only [hkind, List.map_cons, List.map_nil]
    refine advance_bind (by simp [hkind]) ?_
    exact bind (hg.expressionRule (by simp)) fun value c => pure (by simp)
  · rename_i hkind
    simp only [hkind]
    refine hassign (advance_bind (by simp [hkind]) ?_)
    exact bind (hg.expressionRule (by simp)) fun value c => pure (by simp)
  · rename_i hkind
    simp only [hkind]
    refine hassign (advance_bind (by simp [hkind]) ?_)
    exact bind (hg.expressionRule (by simp)) fun value c => pure (by simp)
  · rename_i x harrow hassign' hdefine
    split
    · contradiction
    · contradiction
    · contradiction
    · rename_i heq _ _ _
      obtain ⟨rfl, -⟩ := List.cons.inj heq
      exact pure (by simp)
    · rename_i hsingle _
      exact (hsingle _ rfl).elim
  · rename_i lhs _ _ hsingle hassign' hdefine _
    have hsingle' : ∀ x, C.trees lhs = [x] → False := by
      intro x h
      obtain ⟨y, rfl, -⟩ := C.moves.eq_one_of_map h
      exact hsingle y rfl
    split
    · rename_i heq
      exact (hsingle' _ heq).elim
    · contradiction
    · contradiction
    · rename_i heq _ _ _
      exact (hsingle' _ heq).elim
    · exact expected

theorem Mirrored.commClause (hg : Mirrored C g g') :
    C.Mirrors phase C.tree g.commClause g'.commClause c := by
  simp only [Grammar.commClause, discard_bind, pure_bind]
  refine current_bind (got_ite (by decide) (fun c => ?_) ?_)
  · refine bind hg.communication fun comm c => expect_bind (by decide) fun _ c => ?_
    exact bind hg.statements fun body c => pure (by simp)
  · refine expect_bind (by decide) fun _ c => expect_bind (by decide) fun _ c => ?_
    exact bind hg.statements fun body c => pure (by simp)

theorem Mirrored.selectStatement (hg : Mirrored C g g') :
    C.Mirrors phase C.tree g.selectStatement g'.selectStatement c := by
  refine expect_bind (by decide) fun start c => ?_
  exact bind (mirrors_clauses fun _ => hg.commClause) fun body c => pure (by simp)

theorem Mirrored.loopCondition (hg : Mirrored C g g') :
    C.Mirrors .inside C.tree? g.loopCondition g'.loopCondition c := by
  refine peek_bind ?_
  split
  · exact pure rfl
  · exact some (hg.simpleStatement (by simp))

theorem Mirrored.loopPost (hg : Mirrored C g g') :
    C.Mirrors .inside C.tree? g.loopPost g'.loopPost c := by
  refine peek_bind ?_
  split
  · exact pure rfl
  · exact some (hg.simpleStatement (by simp))

theorem Mirrored.loopAfter (hg : Mirrored C g g') {first : Option Tree} :
    C.Mirrors .inside C.moves.loopHeader (g.loopAfter first) (g'.loopAfter (C.tree? first)) c := by
  simp only [Grammar.loopAfter, discard_bind]
  refine got_ite (by decide) (fun c => ?_) (pure rfl)
  refine bind hg.loopCondition fun cond c => expect_bind (by decide) fun _ c => ?_
  exact bind hg.loopPost fun post c => pure rfl

theorem Mirrored.rangeAfter (hg : Mirrored C g g') {vars : List Tree} {op : TokenKind} :
    C.Mirrors phase C.moves.loopHeader (g.rangeAfter vars op) (g'.rangeAfter (C.trees vars) op) c := by
  simp only [Grammar.rangeAfter, discard_bind]
  refine expect_bind (by decide) fun _ c => ?_
  exact bind (hg.expressionRule (by simp)) fun x c => pure rfl

theorem Mirrored.loopFirst (hg : Mirrored C g g') :
    C.Mirrors .inside C.moves.loopHeader g.loopFirst g'.loopFirst c := by
  refine current_bind (bind (hg.expressionList (by simp)) fun lhs c => peek_bind ?_)
  split
  · rename_i hkind
    refine advance_bind (isAssignment_ne_eof hkind) (peek_bind ?_)
    rw [kind_token]
    split
    · exact hg.rangeAfter
    · exact bind hg.assignmentAfter fun first c => hg.loopAfter
  · exact bind hg.simpleAfter fun first c => hg.loopAfter

theorem Mirrored.loopClauses (hg : Mirrored C g g') :
    C.Mirrors .inside C.moves.loopHeader g.loopClauses g'.loopClauses c := by
  refine peek_bind ?_
  split
  · exact hg.loopAfter
  · exact hg.rangeAfter
  · exact hg.loopFirst

theorem Mirrored.loopHeader (hg : Mirrored C g g') :
    C.Mirrors .inside C.moves.loopHeader g.loopHeader g'.loopHeader c := by
  refine peek_bind ?_
  split
  · exact pure rfl
  · exact inHeader hg.loopClauses

theorem Mirrored.forStatement (hg : Mirrored C g g') :
    C.Mirrors phase C.tree g.forStatement g'.forStatement c := by
  refine expect_bind (by decide) fun start c => bind hg.loopHeader fun header c => ?_
  refine bind hg.block fun body c => expectEnd_bind fun c => ?_
  cases header with
  | parts init cond post => exact bind mirrors_headerExpression fun cond c => pure (by simp)
  | range vars op x =>
      rcases vars with _ | ⟨key, _ | ⟨value, _ | ⟨other, rest⟩⟩⟩
      · exact pure (by simp)
      · exact pure (by simp)
      · exact pure (by simp)
      · exact refuseAt (by simp)

theorem Mirrored.declarationStatement (hg : Mirrored C g g') {t : Token} {keyword : Keyword} :
    C.Mirrors phase C.tree (g.declarationStatement t keyword)
      (g'.declarationStatement (C.moves.token t) keyword) c :=
  bind hg.genDecl fun decl c => pure (by simp)

theorem Mirrored.endedSimple (hg : Mirrored C g g') (hphase : 2 ≤ phase.need) :
    C.Mirrors phase C.tree g.endedSimple g'.endedSimple c := by
  refine bind (hg.simpleStatement hphase) fun stmt c => ?_
  rw [is_tree]
  split
  · exact pure rfl
  · exact expectEnd_bind fun c => pure rfl

theorem Mirrored.goStatement (hg : Mirrored C g g') {t : Token} (hkind : c.current.kind ≠ .eof) :
    C.Mirrors phase C.tree (g.goStatement t) (g'.goStatement (C.moves.token t)) c := by
  simp only [Grammar.goStatement, discard_bind]
  refine advance_bind hkind (bind hg.callStatement fun call c => ?_)
  exact expectEnd_bind fun c => pure (by simp)

theorem Mirrored.deferStatement (hg : Mirrored C g g') {t : Token}
    (hkind : c.current.kind ≠ .eof) :
    C.Mirrors phase C.tree (g.deferStatement t) (g'.deferStatement (C.moves.token t)) c := by
  simp only [Grammar.deferStatement, discard_bind]
  refine advance_bind hkind (bind hg.callStatement fun call c => ?_)
  exact expectEnd_bind fun c => pure (by simp)

theorem Mirrored.returned (hg : Mirrored C g g') :
    C.Mirrors .inside C.trees g.returned g'.returned c := by
  refine peek_bind ?_
  split
  · exact pure rfl
  · exact pure rfl
  · exact hg.expressionList (by simp)

theorem Mirrored.returnStatement (hg : Mirrored C g g') {t : Token}
    (hkind : c.current.kind ≠ .eof) :
    C.Mirrors phase C.tree (g.returnStatement t) (g'.returnStatement (C.moves.token t)) c := by
  simp only [Grammar.returnStatement, discard_bind]
  refine advance_bind hkind (bind hg.returned fun results c => ?_)
  exact expectEnd_bind fun c => pure (by simp)

theorem mirrors_branchLabel {k : Keyword} :
    C.Mirrors .inside C.tree (branchLabel k) (branchLabel k) c := by
  refine peek_bind ?_
  split
  · exact mirrors_ident
  · exact pure rfl

theorem mirrors_branchStatement {t : Token} {k : Keyword} (hkind : c.current.kind ≠ .eof) :
    C.Mirrors phase C.tree (branchStatement t k) (branchStatement (C.moves.token t) k) c := by
  simp only [branchStatement, discard_bind]
  refine advance_bind hkind (bind mirrors_branchLabel fun label c => ?_)
  exact expectEnd_bind fun c => pure (by simp)

theorem Mirrored.blockStatement (hg : Mirrored C g g') :
    C.Mirrors phase C.tree g.blockStatement g'.blockStatement c :=
  bind hg.block fun _ _ => expectEnd_bind fun _ => pure rfl

-- Where no block ends.
theorem Mirrored.openStatement (hg : Mirrored C g g') (hphase : 2 ≤ phase.need)
    (hopen : c.current.kind ≠ .op .RBrace) :
    C.Mirrors phase C.tree g.statementHere g'.statementHere c := by
  simp only [Grammar.statementHere, discard_bind]
  refine current_bind ?_
  simp only [kind_token, text_token]
  split
  · exact hg.endedSimple hphase
  · split
    · exact hg.declarationStatement
    · exact hg.declarationStatement
    · exact hg.declarationStatement
    · rename_i hkind
      exact hg.goStatement (by simp [hkind])
    · rename_i hkind
      exact hg.deferStatement (by simp [hkind])
    · rename_i hkind
      exact hg.returnStatement (by simp [hkind])
    · exact hg.ifRule
    · exact hg.switchStatement
    · exact hg.selectStatement
    · exact hg.forStatement
    · rename_i hkind _
      split
      · exact mirrors_branchStatement (by simp [*])
      · exact expected
    · exact hg.blockStatement
    · rename_i hkind
      exact advance_bind (by simp [hkind]) (pure (by simp))
    · contradiction
    · exact expected

-- A statement before the closing brace of a block reads nothing.
theorem Mirrored.statementHere (hg : Mirrored C g g') (hphase : 2 ≤ phase.need) :
    C.MirrorsIf (fun _ => c.current.kind ≠ .op .RBrace) phase C.tree g.statementHere
      g'.statementHere c := by
  by_cases hkind : c.current.kind = .op .RBrace
  · refine current_bind ?_
    simp only [kind_token, hkind, beginsSimple]
    exact pureIf (by simp) fun _ h => h rfl
  · exact imp (hg.openStatement hphase hkind) fun _ _ => trivial

theorem Mirrored.statementRule (hg : Mirrored C g g') (hphase : 3 ≤ phase.need) :
    C.MirrorsIf (fun _ => c.current.kind ≠ .op .RBrace) phase C.tree g.statementRule
      g'.statementRule c :=
  nested (k := 2) (hg.statementHere (Nat.le_refl 2)) hphase

end Grammar

end GoCompact
