import GoCompact.Proofs.Grammar.Mirror.Expression

namespace GoCompact

namespace Relocation

variable (r : Relocation)

theorem typeParameter?_tree (force : Bool) (t : Tree) :
    (r.tree t).typeParameter? force =
      (t.typeParameter? force).map (Prod.map r.tree (Option.map r.tree)) := by
  induction force, t using Tree.typeParameter?.induct with
  | case1 force place name => simp [Tree.typeParameter?]
  | case2 force place x y h => simp [Tree.typeParameter?, h]
  | case3 force place x y h => simp [Tree.typeParameter?, h]
  | case4 force place x y name lhs h ih => simp [Tree.typeParameter?, h, ih]
  | case5 force place x y h ih =>
      simp only [tree_node, List.map_cons, List.map_nil, tree_token, Tree.typeParameter?, isTypeElement_tree, ih]
      rcases hx : x.typeParameter? (force || y.isTypeElement) with _ | ⟨name, _ | lhs⟩
      · rfl
      · rfl
      · exact (h name lhs hx).elim
  | case6 force place x op y hmul hor =>
      rw [Tree.typeParameter?.eq_4 _ _ _ _ _ hmul hor]
      simp only [tree_node, List.map_cons, List.map_nil]
      rw [Tree.typeParameter?.eq_4 _ _ _ _ _ (mt r.tree_eq_token.mp hmul)
        (mt r.tree_eq_token.mp hor)]
      rfl
  | case7 force place callee arg h => simp [Tree.typeParameter?, h]
  | case8 force place callee arg h => simp [Tree.typeParameter?, h]
  | case9 t force hident hbinary hcall =>
      rw [Tree.typeParameter?.eq_6 _ _ hident hbinary hcall, Tree.typeParameter?.eq_6]
      · rfl
      · intro p name heq
        obtain ⟨q, fields, rfl, hfields⟩ := r.eq_node_of_tree heq
        obtain ⟨x, rfl, -⟩ := r.eq_one_of_map hfields
        exact hident q x rfl
      · intro p x op y heq
        obtain ⟨q, fields, rfl, hfields⟩ := r.eq_node_of_tree heq
        obtain ⟨x, op, y, rfl, -⟩ := r.eq_three_of_map hfields
        exact hbinary q x op y rfl
      · intro p callee arg heq
        obtain ⟨q, fields, rfl, hfields⟩ := r.eq_node_of_tree heq
        obtain ⟨callee, args, flag, rfl, -, hargs, hflag⟩ := r.eq_three_of_map hfields
        obtain ⟨ts, rfl, hts⟩ := r.eq_tuple_of_tree hargs
        obtain ⟨arg, rfl, -⟩ := r.eq_one_of_map hts
        rw [r.tree_eq_datum.mp hflag] at hcall
        exact hcall q callee arg rfl

end Relocation

namespace Grammar

open GoCompact.Parser Comparison Comparison.Mirrors Relocation

variable {C : Comparison} {g g' : Grammar} {phase : Phase} {c : Cursor}

theorem mirrors_importName : C.Mirrors .inside C.tree importName importName c := by
  refine peek_bind ?_
  split
  · exact mirrors_ident
  · rename_i hkind
    exact advance_bind (by simp [hkind]) (pure (by simp))
  · exact pure rfl

theorem mirrors_importSpec : C.Mirrors .part C.tree importSpec importSpec c := by
  refine current_bind (before mirrors_importName fun name c => peek_bind ?_)
  split
  · rename_i hkind
    refine bind (mirrors_stringLiteral (by simp [hkind])) fun path c => ?_
    exact expectEnd_bind fun c => pure (by simp)
  · exact expected

theorem Mirrored.initialValues (hg : Mirrored C g g') :
    C.Mirrors .inside C.trees g.initialValues g'.initialValues c :=
  got_ite (by decide) (fun _ => hg.expressionList (by simp)) (pure rfl)

theorem Mirrored.constantTail (hg : Mirrored C g g') :
    C.Mirrors .inside (Prod.map C.tree C.trees) g.constantTail g'.constantTail c := by
  refine peek_bind ?_
  split
  · exact pure rfl
  · exact pure rfl
  · exact pure rfl
  · refine bind (inside (hg.typeRule? (by simp))) fun typ c => ?_
    exact bind hg.initialValues fun values c => pure (by simp)

theorem Mirrored.variableTail (hg : Mirrored C g g') :
    C.Mirrors .inside (Prod.map C.tree C.trees) g.variableTail g'.variableTail c := by
  refine peek_bind ?_
  dsimp only
  split
  · simp only [pure_bind]
    exact bind hg.initialValues fun values c => pure rfl
  · refine bind (hg.typeRule (by simp)) fun typ c => ?_
    exact bind hg.initialValues fun values c => pure rfl

theorem Mirrored.valueSpec (hg : Mirrored C g g') {keyword : Keyword} :
    C.Mirrors phase C.tree (g.valueSpec keyword) (g'.valueSpec keyword) c := by
  refine current_bind (bind (commaList mirrors_ident fun _ => mirrors_ident) fun names c => ?_)
  dsimp only
  split
  · refine bind hg.constantTail fun r c => expectEnd_bind fun c => pure ?_
    simp
  · refine bind hg.variableTail fun r c => expectEnd_bind fun c => pure ?_
    simp

theorem Mirrored.leadingExpression (hg : Mirrored C g g') :
    C.Mirrors .inside C.tree g.leadingExpression g'.leadingExpression c := by
  refine bind mirrors_ident fun name c => peek_bind ?_
  split
  · exact pure rfl
  · exact bracketed (bind hg.primaryAfter fun x c => hg.binaryAfter (Nat.le_refl 1))

theorem Mirrored.typeParametersAfter (hg : Mirrored C g g') {place name : Tree}
    {constraint : Option Tree} :
    C.Mirrors .inside C.tree (g.typeParametersAfter place name constraint)
      (g'.typeParametersAfter (C.moves.place place) (C.tree name) (C.tree? constraint)) c := by
  cases constraint with
  | none =>
      refine bind hg.entryAfterName fun first c => ?_
      exact bind hg.entriesAfter fun entries c => mirrors_listOf
  | some typ =>
      refine bind hg.completed fun first c => ?_
      exact bind hg.entriesAfter fun entries c => mirrors_listOf

theorem Mirrored.genericTail (hg : Mirrored C g g') {name params : Tree} :
    C.Mirrors phase C.tree (g.genericTail name params)
      (g'.genericTail (C.tree name) (C.tree params)) c := by
  simp only [Grammar.genericTail, discard_bind]
  refine expect_bind (by decide) fun _ c => ?_
  refine got_bind (by decide) (fun c => ?_) ?_
  · exact bind (hg.typeRule (by simp)) fun typ c => pure (by simp)
  · exact bind (hg.typeRule (by simp)) fun typ c => pure (by simp)

theorem tree_plainSpec {name typ : Tree} {isAlias : Bool} :
    C.tree (plainSpec name typ isAlias) = plainSpec (C.tree name) (C.tree typ) isAlias := by
  simp [plainSpec]

theorem Mirrored.bracketedTypeSpec (hg : Mirrored C g g') {place name : Tree} :
    C.Mirrors .inside C.tree (g.bracketedTypeSpec place name)
      (g'.bracketedTypeSpec (C.moves.place place) (C.tree name)) c := by
  refine peek_bind ?_
  split
  · refine bind hg.leadingExpression fun x c => peek_bind ?_
    have helement : C.Mirrors .inside C.tree
        (g.arrayElement place (Option.some x) >>= fun typ => Pure.pure (plainSpec name typ false))
        (g'.arrayElement (C.moves.place place) (Option.some (C.tree x)) >>= fun typ =>
          Pure.pure (plainSpec (C.tree name) typ false)) c :=
      bind hg.arrayElement fun typ c => pure tree_plainSpec
    rw [typeParameter?_tree]
    cases x.typeParameter? (c.current.kind == .op .Comma) with
    | none => exact helement
    | some r =>
        obtain ⟨parameter, constraint⟩ := r
        simp only [Option.map_some, Prod.map, Option.isSome_map]
        split
        · exact bind hg.typeParametersAfter fun params c => hg.genericTail
        · exact helement
  · exact bind hg.arrayType fun typ c => pure tree_plainSpec

theorem Mirrored.typeSpecAfter (hg : Mirrored C g g') {name : Tree} :
    C.Mirrors .inside C.tree (g.typeSpecAfter name) (g'.typeSpecAfter (C.tree name)) c := by
  refine peek_bind ?_
  split
  · rename_i hkind
    refine advance_bind (by simp [hkind]) ?_
    rw [place_token]
    exact hg.bracketedTypeSpec
  · refine got_bind (by decide) (fun c => ?_) ?_
    · exact bind (hg.typeRule (by simp)) fun typ c => pure tree_plainSpec
    · exact bind (hg.typeRule (by simp)) fun typ c => pure tree_plainSpec

theorem Mirrored.typeSpec (hg : Mirrored C g g') :
    C.Mirrors phase C.tree g.typeSpec g'.typeSpec c := by
  refine bind mirrors_ident fun name c => bind hg.typeSpecAfter fun spec c => ?_
  exact expectEnd_bind fun c => pure rfl

theorem Mirrored.spec (hg : Mirrored C g g') {keyword : Keyword} :
    C.Mirrors .part C.tree (g.spec keyword) (g'.spec keyword) c := by
  unfold Grammar.spec
  split
  · exact mirrors_importSpec
  · exact hg.typeSpec
  · exact hg.valueSpec

theorem Mirrored.genDecl (hg : Mirrored C g g') {keyword : Keyword} :
    C.Mirrors phase C.tree (g.genDecl keyword) (g'.genDecl keyword) c := by
  simp only [Grammar.genDecl, discard_bind]
  refine expect_bind (by simp) fun start c => ?_
  refine got_ite (by decide) (fun c => ?_) ?_
  · refine bind (manyWhile fun _ _ => hg.spec) fun specs c => ?_
    refine expect_bind (by decide) fun _ c => expectEnd_bind fun c => pure (by simp)
  · exact bind (inside hg.spec) fun spec c => pure (by simp)

theorem mirrors_ifNext {kind : TokenKind} {p q : Parser Tree} (h : C.Mirrors .inside C.tree p q c) :
    C.Mirrors .inside C.tree (ifNext kind p) (ifNext kind q) c := by
  refine peek_bind ?_
  split
  · exact h
  · exact pure rfl

theorem Mirrored.funcDecl (hg : Mirrored C g g') :
    C.Mirrors phase C.tree g.funcDecl g'.funcDecl c := by
  refine expect_bind (by decide) fun start c => ?_
  refine bind (mirrors_ifNext hg.parameters) fun recv c => ?_
  refine bind mirrors_ident fun name c => ?_
  refine bind (mirrors_ifNext hg.typeParameters) fun typeParams c => ?_
  refine bind hg.parameters fun params c => ?_
  refine bind hg.results fun results c => ?_
  refine bind (mirrors_ifNext (bracketed hg.block)) fun body c => ?_
  exact expectEnd_bind fun c => pure (by simp)

theorem Mirrored.declaration (hg : Mirrored C g g') :
    C.Mirrors phase C.tree g.declaration g'.declaration c := by
  refine peek_bind ?_
  split
  · exact hg.genDecl
  · exact hg.genDecl
  · exact hg.genDecl
  · exact hg.genDecl
  · exact hg.funcDecl
  · exact expected

end Grammar

end GoCompact
