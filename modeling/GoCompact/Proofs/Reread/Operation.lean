import GoCompact.Proofs.Reread.Text

namespace GoCompact

namespace Tree

open Text

-- What may stand before a selection, an index, a slice or a call.
def isBase (t : Tree) : Bool :=
  t.is .Ident || t.is .ParenExpr || t.is .SelectorExpr || t.is .IndexExpr || t.is .SliceExpr ||
    t.is .CallExpr

-- Names, literals, operators, selections, indices, slices and calls, which group as operators bind.
inductive Operation : Tree → Prop
  | ident {p : Tree} {s : Text} (h : IsName s) : Operation (.ident p (.text s))
  | literal {p : Tree} {k : Literal} {s : Text} (h : IsLiteral k s)
      (hmark : k = .Floating → Scan.endsInMark s.toList = false) :
      Operation (.basicLit p (.token (.literal k)) (.text s))
  | paren {p x : Tree} (hx : Operation x) : Operation (.paren p x)
  | unary {p x : Tree} {o : Operator}
      (ho : o ∈ [.Add, .Sub, .Not, .Xor, .And, .Arrow, .Tilde]) (hx : Operation x)
      (hbinary : x.is .BinaryExpr = false) : Operation (.unary p (.token (.op o)) x)
  | star {p x : Tree} (hx : Operation x) (hbinary : x.is .BinaryExpr = false) :
      Operation (.star p x)
  | binary {p x y : Tree} {o : Operator} (ho : 0 < o.precedence) (hx : Operation x)
      (hy : Operation y) (hleft : o.precedence ≤ x.precedence)
      (hright : o.precedence < y.precedence) : Operation (.binary p x (.token (.op o)) y)
  | selector {p q x : Tree} {s : Text} (hx : Operation x) (hbase : x.isBase = true)
      (h : IsName s) : Operation (.selector p x (.ident q (.text s)))
  | index {p x i : Tree} (hx : Operation x) (hbase : x.isBase = true) (hi : Operation i) :
      Operation (.index p x (.tuple [i]))
  | slice {p x : Tree} {low high max : Option Tree} (hx : Operation x) (hbase : x.isBase = true)
      (hlow : ∀ t ∈ low, Operation t) (hhigh : ∀ t ∈ high, Operation t)
      (hmax : ∀ t ∈ max, Operation t) (hfull : max.isSome = true → high.isSome = true) :
      Operation (.slice p x (.ofOption low) (.ofOption high) (.ofOption max))
  | call {p x : Tree} {args : List Tree} (hx : Operation x) (hbase : x.isBase = true)
      (hargs : ∀ t ∈ args, Operation t) : Operation (.call p x (.tuple args) (.flag false))

namespace Operation

variable {t : Tree} {b : Bool}

theorem isPrimary_of_isBase (h : Operation t) (hbase : t.isBase = true) : t.isPrimary = true := by
  cases h <;> first | rfl | cases hbase

-- No type stands at the end of an operation.
theorem edge_eq (h : Operation t) (k : TokenKind) : t.edge k = false := by
  induction h <;> first | rfl | assumption

theorem takesBrace_eq (h : Operation t) : t.takesBrace = false := by
  induction h with
  | paren _ ih =>
      obtain ⟨harray, hstruct, hmap⟩ := unparen_of_takesBrace ih
      simp [takesBrace, unparen, Tree.is, kind?] at harray hstruct hmap ⊢
      exact ⟨⟨harray, hstruct⟩, hmap⟩
  | _ => first | rfl | assumption

theorem isChan (h : Operation t) : t.is .ChanType = false := by
  cases h <;> rfl

theorem isPrefix_of_mem {o : Operator}
    (h : o ∈ [Operator.Add, .Sub, .Not, .Xor, .And, .Arrow, .Tilde]) : o.isPrefix = true := by
  cases o <;> first | rfl | simp at h

theorem built (h : Operation t) : Built (.expression b) t := by
  induction h generalizing b with
  | ident h => exact .ident h.whole
  | literal h => exact .literal h.whole
  | paren _ ih => exact .paren ih
  | unary ho hx hbinary ih => exact .unary (isPrefix_of_mem ho) ih hbinary fun _ => hx.isChan
  | star _ hbinary ih => exact .star ih hbinary
  | binary ho _ _ hleft hright ihx ihy => exact .binary ho ihx ihy hleft hright
  | selector hx hbase h ih => exact .selector ih (hx.isPrimary_of_isBase hbase) (.name h.whole)
  | index hx hbase _ ihx ihi => exact .index ihx (hx.isPrimary_of_isBase hbase) ihi (by simp) (by simp)
  | slice hx hbase _ _ _ hfull ihx ihlow ihhigh ihmax =>
      exact .slice ihx (hx.isPrimary_of_isBase hbase) (fun t ht => ihlow t ht) (fun t ht => ihhigh t ht)
        (fun t ht => ihmax t ht) hfull
  | call hx hbase _ ihx ihargs =>
      exact .call ihx (hx.isPrimary_of_isBase hbase) (fun t ht => ihargs t ht) (by simp)

theorem reads (h : Operation t) : t.Reads b := by
  induction h generalizing b with
  | ident h => exact reads_ident h.whole _
  | literal h => exact reads_literal h.whole _
  | paren _ ih => exact reads_paren (c := b) ih
  | unary ho hx hbinary ih =>
      exact reads_unary (isPrefix_of_mem ho) ih hbinary fun _ => hx.isChan
  | star _ hbinary ih => exact reads_star ih hbinary
  | binary ho hx _ hleft hright ihx ihy =>
      exact reads_binary ho ihx ihy hleft hright (hx.edge_eq _)
  | selector hx hbase h ih =>
      exact reads_selector hx.built ih (hx.isPrimary_of_isBase hbase) (hx.edge_eq _) (.name h.whole)
  | index hx hbase _ ihx ihi =>
      exact reads_index hx.built ihx (hx.isPrimary_of_isBase hbase) (hx.edge_eq _) ihi (by simp)
        (by simp)
  | slice hx hbase _ _ _ hfull ihx ihlow ihhigh ihmax =>
      exact reads_slice ihx (hx.isPrimary_of_isBase hbase) (hx.edge_eq _) (fun t ht => ihlow t ht)
        (fun t ht => ihhigh t ht) (fun t ht => ihmax t ht) hfull
  | call hx hbase _ ihx ihargs =>
      exact reads_call ihx (hx.isPrimary_of_isBase hbase) (hx.edge_eq _) (fun t ht => ihargs t ht)
        (by simp)

theorem spells (h : Operation t) : (t.emittedAs .expression).Spells t.words :=
  (h.reads (b := true)).spells

-- What may stand before a point does not end in a number.
theorem last_of_isBase (h : Operation t) (hbase : t.isBase = true) :
    ∀ l ∈ t.words.getLast?, l.kind ≠ .literal .Integer := by
  cases h with
  | ident h => simp [words_of_spells (spells_ident h.whole _)]
  | paren hx => simp [words_of_spells (spells_paren hx.spells), List.getLast?_cons]
  | selector hx _ h => simp [words_of_spells (spells_selector hx.spells h.whole)]
  | @index _ _ i hx _ hi =>
      have hitems : ∀ t ∈ [i], (t.emittedAs .expression).Spells t.words := by simpa using hi.spells
      simp [words_of_spells (spells_index hx.spells hitems), List.getLast?_cons]
  | slice hx _ hlow hhigh hmax =>
      rw [words_of_spells (spells_slice (b := true) hx.spells (fun t ht => (hlow t ht).reads)
        (fun t ht => (hhigh t ht).reads) fun t ht => (hmax t ht).reads), ← List.cons_append, ← List.append_assoc]
      simp [List.getLast?_cons]
  | call hx _ hargs =>
      simp [words_of_spells (spells_call hx.spells (fun t ht => (hargs t ht).spells) false), List.getLast?_cons]
  | _ => cases hbase

theorem unclashing (h : Operation t) : Unclashing t.words := by
  induction h with
  | ident h =>
      rw [words_of_spells (spells_ident h.whole _)]
      exact Unclashing.nil.name
  | literal h hmark =>
      rw [words_of_spells (spells_literal h.whole _)]
      exact .literal hmark
  | paren hx ih =>
      rw [words_of_spells (spells_paren hx.spells)]
      exact (ih.append_operator .nil (by decide)).operator _
  | @unary p _ o ho hx hbinary ih =>
      rw [words_of_spells (spells_unary hx.spells)]
      exact ih.operator _
  | star hx hbinary ih =>
      rw [words_of_spells (spells_star hx.spells)]
      exact ih.operator _
  | @binary _ _ _ o ho hx hy hleft hright ihx ihy =>
      rw [words_of_spells (spells_binary hx.spells hy.spells)]
      refine ihx.append_operator ihy ?_
      cases o <;> first | decide | exact absurd ho (by decide)
  | selector hx hbase h ih =>
      rw [words_of_spells (spells_selector hx.spells h.whole)]
      refine ih.append (Unclashing.nil.name.operator _) fun l hl m hm hkind => ?_
      exact absurd hkind (hx.last_of_isBase hbase l hl)
  | @index _ _ i hx hbase hi ihx ihi =>
      have hitems : ∀ t ∈ [i], (t.emittedAs .expression).Spells t.words := by simpa using hi.spells
      rw [words_of_spells (spells_index hx.spells hitems)]
      refine ihx.append_operator (Unclashing.append_operator ?_ .nil (by decide)) (by decide)
      exact .listed (by simpa using ihi)
  | slice hx hbase hlow hhigh hmax hfull ihx ihlow ihhigh ihmax =>
      rw [words_of_spells (spells_slice (b := true) hx.spells (fun t ht => (hlow t ht).reads)
        (fun t ht => (hhigh t ht).reads) fun t ht => (hmax t ht).reads)]
      have hbound : ∀ {o : Option Tree}, (∀ t ∈ o, Unclashing t.words) →
          Unclashing (boundWords o) := by
        intro o ho
        cases o with
        | none => exact .nil
        | some t => exact ho t rfl
      have hmax' : ∀ {o : Option Tree}, (∀ t ∈ o, Unclashing t.words) → ∀ {ls : List Lexeme},
          Unclashing ls → Unclashing (ls ++ maxWords o) := by
        intro o ho ls hls
        cases o with
        | none => simpa [maxWords] using hls
        | some t => exact hls.append_operator (ho t rfl) (by decide)
      refine ihx.append_operator (Unclashing.append_operator ?_ .nil (by decide)) (by decide)
      exact (hbound ihlow).append_operator (hmax' ihmax (hbound ihhigh)) (by decide)
  | call hx hbase hargs ihx ihargs =>
      rw [words_of_spells (spells_call hx.spells (fun t ht => (hargs t ht).spells) false)]
      refine ihx.append_operator (Unclashing.append_operator ?_ .nil (by decide)) (by decide)
      rw [dots, if_neg (by decide), List.append_nil]
      exact .listed (by simpa using ihargs)

end Operation

-- The text of an operation is read as the operation.
theorem parse_render_operation {t : Tree} (h : Operation t) :
    ∃ text ls, t.render = .ok text ∧ Lexer.written text = .ok ls ∧
      ∀ (n : Int) (file : Option Text), 3 * (ls.length : Int) ≤ n →
        ∃ u, Fragment.expression.parse (.atMost n) text file = .ok u ∧ u.same t = true := by
  have hbuilt : Built Fragment.expression.category t := h.built
  obtain ⟨text, hrender, hwritten, hparse⟩ :=
    Fragment.parse_of_rereads hbuilt h.unclashing (Fragment.rereads_expression (h.reads (b := true)))
  refine ⟨text, _, hrender, hwritten, fun n file hn => hparse (.atMost n) file fun i hi => ?_⟩
  simp only [Limit.admits, Option.some.injEq, decide_eq_true_eq]
  omega

-- A call of a method with a difference of which the second side is negative: nine lexemes.
theorem parse_render_operation_call :
    ∃ t, Operation t ∧ t.render = .ok "x.f(a- -1)" ∧
      ∃ u, Fragment.expression.parse (.atMost 27) "x.f(a- -1)" none = .ok u ∧ u.same t = true := by
  let name (s : Text) : Tree := .ident .unknownPlace (.text s)
  have hname : ∀ s ∈ ["x", "f", "a"], IsName s := by
    simp only [List.forall_mem_cons]
    exact ⟨rfl, rfl, rfl, List.forall_mem_nil _⟩
  have hone : IsLiteral .Integer "1" := rfl
  have hminus : Operation (.unary .unknownPlace (.token (.op .Sub))
      (.basicLit .unknownPlace (.token (.literal .Integer)) (.text "1"))) :=
    .unary (by simp) (.literal hone (by simp)) rfl
  have hcall : Operation (.call .unknownPlace (.selector .unknownPlace (name "x") (name "f"))
      (.tuple [.binary .unknownPlace (name "a") (.token (.op .Sub))
        (.unary .unknownPlace (.token (.op .Sub))
          (.basicLit .unknownPlace (.token (.literal .Integer)) (.text "1")))])
      (.flag false)) := by
    refine .call (.selector (.ident (hname _ (by simp))) rfl (hname _ (by simp))) rfl ?_
    simp only [List.mem_singleton, forall_eq]
    exact .binary (by decide) (.ident (hname _ (by simp))) hminus (by decide) (by decide)
  obtain ⟨text, ls, hrender, hwritten, hparse⟩ := parse_render_operation hcall
  obtain rfl : "x.f(a- -1)" = text := Except.ok.inj hrender
  have hlength : ls.length = 9 := by
    have h : (Lexer.written "x.f(a- -1)").toOption.map List.length = some 9 := rfl
    rw [hwritten] at h
    exact Option.some.inj h
  exact ⟨_, hcall, hrender, hparse 27 none (by rw [hlength]; decide)⟩

end Tree

end GoCompact
