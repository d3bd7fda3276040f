import GoCompact.Proofs.Grammar.Parts
import GoCompact.Proofs.Reread.Script
import GoCompact.Proofs.Reread.Whole

namespace GoCompact

open GoCompact.Tree

-- A field without a name.
def Tree.unnamed (p t : Tree) : Tree := .field p (.tuple []) t .absent

namespace Tree.Legible

variable {p q r params result args x spread : Tree}

-- A function type with one result, which is a type and stands in no parentheses.
theorem funcType_unnamed (hparams : params.Legible) (hresult : result.Legible)
    (htype : result.isType = true) (hparen : result.is .ParenExpr = false) :
    (Tree.funcType p params (.fieldList q (.tuple [unnamed r result])) .absent
      (.flag true)).Legible := by
  refine ⟨?_, ?_⟩
  · simp [Tree.plain, allPlain, isPlainNode, unnamed, lone?, htype, hparen, hparams.plain,
      hresult.plain]
  · simp [keepsClauses, keepAll, keepsNode, unnamed, hparams.keeps, hresult.keeps]

-- A call whose arguments do not go on with a type that is called.
theorem call (hx : x.Legible) (hargs : args.Legible) (hedge : x.edge (.op .LParen) = false)
    (hspread : spread.Legible) : (Tree.call p x args spread).Legible := by
  refine ⟨?_, ?_⟩
  · simp [Tree.plain, allPlain, isPlainNode, hx.plain, hargs.plain, hedge, hspread.plain]
  · simp [keepsClauses, keepAll, keepsNode, hx.keeps, hargs.keeps, hspread.keeps]

end Tree.Legible

namespace Fragment

variable {fragment : Fragment} {limit : Limit} {source : Text} {path : Option Text}
  {p q r t x params result args typeParams funcKeyword spread : Tree}

theorem rereads_of_built (h : Built fragment.category t) (hlegible : t.Legible)
    (htrails : fragment = .statement → t.trails = false) : fragment.Rereads t := by
  have hread := t.isRead h hlegible
  cases fragment with
  | file => exact hread
  | expression => exact rereads_expression (ExpressionReads.reads hread)
  | statement => exact rereads_statement (StatementEverywhere.reads hread (htrails rfl))
  | declaration => exact rereads_declaration hread

theorem readsBack_of_parse (h : fragment.parse limit source path = .ok t) (hlegible : t.Legible)
    (hapart : t.WritesApart) : fragment.ReadsBack t := by
  obtain ⟨hbuilt, htrails⟩ := built_of_parse h
  exact readsBack_of_writesApart hbuilt hapart (rereads_of_built hbuilt hlegible htrails)

-- A text whose tree is written as a text and meets a condition.
theorem exists_of_render (fragment : Fragment) (limit : Limit) (source text : Text)
    (p : Tree → Bool) (h : (fragment.parse limit source none).toOption.any
      (fun t => t.render.toOption == some text && p t) = true) :
    ∃ t, fragment.parse limit source none = .ok t ∧ t.render = .ok text ∧ p t = true := by
  obtain ⟨t, ht, hall⟩ := exists_of_any fragment limit source _ h
  obtain ⟨hrender, hp⟩ := by simpa using hall
  refine ⟨t, ht, ?_, hp⟩
  cases hrun : t.render with
  | ok w =>
      rw [hrun] at hrender
      exact congrArg Except.ok (Option.some.inj hrender)
  | error fault =>
      rw [hrun] at hrender
      cases hrender

-- A file is read from its text as it was read.
theorem parse_render_file (h : file.parse limit source path = .ok t) (hlegible : t.Legible)
    (hapart : t.WritesApart) : file.ReadsBack t :=
  readsBack_of_parse h hlegible hapart

-- A file with a lone type parameter, a loop that has only its last part and numbers of two kinds.
def methodsText : Text :=
  "package p;import . \"q\";type T[P *Q,]struct\x7ba,b P\x7d\n" ++
    "func(r*T[P])f(x ...P)(_ P,_ error)\x7bfor ;;x=g(1)\x7bswitch\x7bcase g(1.,0x1p-2):\x7d\x7d\x7d"

theorem parse_render_file_methods :
    ∃ t, file.parse (.atMost 100) methodsText none = .ok t ∧ t.Legible ∧ t.WritesApart ∧
      file.ReadsBack t := by
  obtain ⟨t, ht, hall⟩ := exists_of_any file (.atMost 100) methodsText
    (fun t => t.plain && t.keepsClauses && decide t.WritesApart) (by decide +kernel)
  obtain ⟨⟨hplain, hkeeps⟩, hapart⟩ := by simpa using hall
  exact ⟨t, ht, ⟨hplain, hkeeps⟩, hapart, parse_render_file ht ⟨hplain, hkeeps⟩ hapart⟩

-- A selection from an integer is written as a number with a name after it, and is not read again.
theorem parse_render_file_selector :
    ∃ t diagnostic, file.parse (.atMost 100) "package p;var x=1 .y" none = .ok t ∧
      t.render = .ok "package p;var x=1.y" ∧ t.Legible ∧
      file.parse (.atMost 100) "package p;var x=1.y" none = .error diagnostic ∧
      diagnostic.cause ≠ .nestingTooDeep := by
  obtain ⟨t, ht, hrender, hall⟩ := exists_of_render file (.atMost 100) "package p;var x=1 .y"
    "package p;var x=1.y" (fun t => t.plain && t.keepsClauses) rfl
  obtain ⟨hplain, hkeeps⟩ := by simpa using hall
  obtain ⟨diagnostic, hparse, hcause⟩ := exists_of_refusedFor file (.atMost 100)
    "package p;var x=1.y" (fun cause => decide (cause ≠ .nestingTooDeep)) rfl
  exact ⟨t, diagnostic, ht, hrender, ⟨hplain, hkeeps⟩, hparse, of_decide_eq_true hcause⟩

-- A function type with one result, or a call of it, is read from its text as it was read. The result
-- has no parentheses around it, and it does not end in a function type that the arguments of the call
-- would be the results of.
theorem parse_render_result (h : expression.parse limit source path = .ok t)
    (hx : x = .funcType p params (.fieldList q (.tuple [unnamed r result])) typeParams funcKeyword)
    (ht : t = x ∨ ∃ p args spread, t = .call p x args spread ∧ args.Legible ∧
      result.absorbs (.op .LParen) = false)
    (hparams : params.Legible) (hresult : result.Legible) (htype : result.isType = true)
    (hparen : result.is .ParenExpr = false) (hapart : t.WritesApart) : expression.ReadsBack t := by
  refine readsBack_of_parse h ?_ hapart
  obtain ⟨hbuilt, -⟩ := built_of_parse h
  have hlegible : ∀ {b}, Built (.expression b) x → x.Legible := by
    intro b hbuilt
    generalize hresults : Tree.fieldList q (.tuple [unnamed r result]) = results at hx
    subst hx
    cases hbuilt with
    | funcType =>
        rw [← hresults]
        exact .funcType_unnamed hparams hresult htype hparen
  rcases ht with rfl | ⟨p', args, spread, rfl, hargs, habsorbs⟩
  · exact hlegible hbuilt
  · cases hbuilt with
    | call hbuilt =>
        refine .call (hlegible hbuilt) hargs ?_ ⟨rfl, rfl⟩
        rw [hx]
        simpa [edge, unnamed, absorbs, NodeKind.family] using habsorbs

-- A call of a function type with one legible result that does not end in a function type.
def isConversion : Tree → Bool
  | .call _ (.funcType _ params (.fieldList _ (.tuple [.field _ (.tuple []) result .absent])) _ _)
      args _ =>
    [params, result, args].all (fun u => u.plain && u.keepsClauses) && result.isType &&
      !result.is .ParenExpr && !result.absorbs (.op .LParen)
  | _ => false

-- A value that is converted to a function type whose result is a function type with a result.
theorem parse_render_result_conversion :
    ∃ t p params q r result typeParams funcKeyword args spread place,
      expression.parse (.atMost 100) "func(a,b []T)(func(func()) (<-chan int))(x)" none = .ok t ∧
      t = .call place (.funcType p params (.fieldList q (.tuple [unnamed r result])) typeParams
        funcKeyword) args spread ∧
      args.Legible ∧ result.absorbs (.op .LParen) = false ∧ params.Legible ∧ result.Legible ∧
      result.isType = true ∧ result.is .ParenExpr = false ∧ t.WritesApart ∧
      expression.ReadsBack t := by
  obtain ⟨t, ht, hboth⟩ := exists_of_any expression (.atMost 100)
    "func(a,b []T)(func(func()) (<-chan int))(x)"
    (fun t => decide t.WritesApart && isConversion t) rfl
  obtain ⟨hapart, hall⟩ := Bool.and_eq_true_iff.mp hboth
  unfold isConversion at hall
  split at hall
  next place p params q r result typeParams funcKeyword args spread =>
    obtain ⟨⟨⟨⟨⟨hp, hp'⟩, ⟨hr, hr'⟩, ha, ha'⟩, htype⟩, hparen⟩, habsorbs⟩ := by simpa using hall
    have happly := parse_render_result ht rfl
      (.inr ⟨place, args, spread, rfl, ⟨ha, ha'⟩, habsorbs⟩) ⟨hp, hp'⟩ ⟨hr, hr'⟩ htype hparen
      (of_decide_eq_true hapart)
    exact ⟨_, p, params, q, r, result, typeParams, funcKeyword, args, spread, place, ht, rfl,
      ⟨ha, ha'⟩, habsorbs, ⟨hp, hp'⟩, ⟨hr, hr'⟩, htype, hparen, of_decide_eq_true hapart, happly⟩
  next => cases hall

-- A result in parentheses is read without them.
theorem parse_render_result_paren :
    ∃ t, expression.parse (.atMost 100) "func()((T))" none = .ok t ∧ t.render = .ok "func()(T)" ∧
      (∃ u, expression.parse (.atMost 100) "func()(T)" none = .ok u) ∧
      ∀ u, expression.parse (.atMost 100) "func()(T)" none = .ok u → u.same t = false := by
  obtain ⟨u, hu, hrender⟩ := exists_of_any expression (.atMost 100) "func()(T)"
    (·.render.toOption == some (Text.ofString "func()T")) rfl
  obtain ⟨t, ht, hrender, hall⟩ := exists_of_render expression (.atMost 100) "func()((T))"
    "func()(T)" (fun t => (expression.parse (.atMost 100) "func()(T)" none).toOption.any
      (fun u => !u.same t)) rfl
  refine ⟨t, ht, hrender, ⟨u, hu⟩, fun v hv => ?_⟩
  rw [hv] at hall
  simpa [Except.toOption] using hall

end Fragment

end GoCompact
