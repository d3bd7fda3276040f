import GoCompact.Proofs.Grammar.Sound.TypeLiteral

namespace GoCompact

namespace Tree

open Emission

-- Statements are written with fewer semicolons than there could be.
theorem emittedStatements_spec {ts : List Tree}
    (h : ∀ t ∈ ts, (t.emittedAs .statement).fault = none) :
    (emittedStatements ts).fault = none ∧
      content (emittedStatements ts).words =
        content (separated ";" (ts.map (·.emittedAs .statement))).words ∧
      groupings (emittedStatements ts).words =
        groupings (separated ";" (ts.map (·.emittedAs .statement))).words := by
  induction ts with
  | nil => exact ⟨rfl, rfl, rfl⟩
  | cons t ts ih =>
      obtain ⟨ht, hts⟩ := List.forall_mem_cons.mp h
      cases ts with
      | nil => exact ⟨ht, rfl, rfl⟩
      | cons u us =>
          obtain ⟨hfault, hcontent, hgroupings⟩ := ih hts
          have hsemicolon : (write ";").words = [.ofOperator .Semicolon] :=
            words_operator .Semicolon
          have hseparated : (separated ";" ((t :: u :: us).map (·.emittedAs .statement))).words =
              (t.emittedAs .statement).words ++ (.ofOperator .Semicolon ::
                (separated ";" ((u :: us).map (·.emittedAs .statement))).words) := by
            rw [List.map_cons, separated_cons _ _ (by simp), words_append ht,
              words_append (fault_write _), hsemicolon]
            rfl
          rw [emittedStatements, words_append ht, fault_append ht, hseparated]
          have hwhen : (when (!t.isSelfTerminated) (operator .Semicolon)).fault = none :=
            fault_when rfl
          rw [words_append hwhen, fault_append hwhen]
          refine ⟨hfault, ?_, ?_⟩
          · rw [content_append, content_append, content_append, hcontent,
              content_cons (.ofOperator .Semicolon)]
            cases t.isSelfTerminated
            · simp [when]
            · rfl
          · rw [groupings_append, groupings_append, groupings_append, hgroupings,
              groupings_cons (.ofOperator .Semicolon)]
            cases t.isSelfTerminated
            · simp [when, groupings_cons]
            · rfl

end Tree

namespace Grammar

open GoCompact.Parser GoCompact.Tree Emission

variable {g : Grammar} {s : Scope} {t : Tree} {c d c' : Cursor}

-- Statements one after another.
structure StatementsRead (ts : List Tree) (c c' : Cursor) : Prop where
  built : ∀ t ∈ ts, Built .statement t
  implicit : ∀ t ∈ ts, t.isImplicit = false
  trails : ∀ t ∈ ts.dropLast, t.trails = false
  last : ∀ t ∈ ts.getLast?, t.trails = true → c'.current.kind = .op .RBrace
  read : Spans c (emittedStatements ts) (Tree.tuple ts).loops ((Tree.tuple ts).plain = true) c'

theorem Sound.statements {ts : List Tree} (hg : g.Sound) (hs : 0 ≤ s.level) (hc : c.Fresh)
    (h : g.statements.Gives s c ts c') : StatementsRead ts c c' ∧ c'.Fresh := by
  have hitems := items_of_manyWhile h
  have hnext : ∀ {c t d}, c.Fresh → (!endsStatements c.current.kind) = true →
      g.statement.Gives s c t d → StatementRead t c d := fun hc _ h => hg.statement hs hc h
  obtain ⟨hread, hall, hfresh, htrails⟩ := Spans.items (I := Cursor.Fresh)
    (f := fun t => t.emittedAs .statement) (n := Tree.loops) (P := fun t => t.plain = true)
    (Q := fun t => Built .statement t ∧ t.isImplicit = false ∧
      (t.emittedAs .statement).fault = none)
    (R := fun t => t.trails = true) Cursor.Fresh.valid
    (fun {c t d} hc hmore h => by
      have hread := hnext hc hmore h
      refine ⟨hread.read.plain, ⟨hread.built, ?_, hread.read.fault⟩, hread.fresh, fun htrails => ?_⟩
      · cases himplicit : t.isImplicit with
        | false => rfl
        | true =>
            rw [hread.implicit himplicit] at hmore
            cases hmore
      · rw [hread.trails htrails]
        rfl) hc hitems
  obtain ⟨hfault, hcontent, hgroupings⟩ := emittedStatements_spec fun t ht => (hall t ht).2.2
  refine ⟨⟨fun t ht => (hall t ht).1, fun t ht => (hall t ht).2.1,
    fun t ht => by simpa using htrails t ht, ?_, ?_⟩, hfresh⟩
  · clear hread hall hfresh htrails hfault hcontent hgroupings h
    intro t ht htrails
    induction hitems with
    | nil => cases ht
    | @cons c d _ x xs hmore h _ ih =>
        have hread := hnext hc hmore h
        cases xs with
        | nil =>
            obtain rfl : x = t := by simpa using ht
            rename_i hs
            cases hs
            exact hread.trails htrails
        | cons y ys => exact ih hread.fresh (by simpa using ht)
  · exact (hread.replace hfault hcontent hgroupings).imp (loops_tuple ts) plain_tuple.mpr

-- Braces around statements.
theorem Sound.block (hg : g.Sound) (hs : 0 ≤ s.level) (hc : c.Valid) (h : g.block.Gives s c t c') :
    Built .block t ∧ t.is .BlockStmt = true ∧ t.ReadAs .block c True c' ∧
      t.ReadAs .statement c True c' := by
  obtain ⟨hopen, ts, d, hts, ⟨hclose, rfl⟩, rfl⟩ := by simpa [Grammar.block] using h
  have hopen' := Spans.operator hc hopen
  obtain ⟨hread, -⟩ := hg.statements hs
    (hc.fresh_advance (by simp [hopen]) (by rw [hopen]; rfl)) hts
  have hall : Spans c (emittedBraces ts) (Tree.block c.current.place (.tuple ts)).loops
      ((Tree.block c.current.place (.tuple ts)).plain = true ∧ True) d.advance := by
    refine ((hopen'.append hread.read).append (Spans.operator hread.read.valid hclose)).imp
      ((loops_of rfl).trans (by simp [loopsAll])) fun h => ⟨plain_of rfl ?_, trivial⟩
    simp [allPlain, h.1.2]
  refine ⟨.block hread.built hread.implicit hread.trails, rfl, ?_, ?_⟩
  · rw [ReadAs, emitted_block]
    exact hall
  · rw [ReadAs, emitted_blockStmt]
    exact hall

-- An operand, and what follows it and belongs to it, so far as it was read.
structure PrimaryRead (s : Scope) (t : Tree) (c c' : Cursor) : Prop where
  built : Built (.expression s.isFree) t
  read : t.ReadAs .expression c (t.edge c'.current.kind = false) c'
  isPrimary : t.isPrimary = true
  brace : t.is .FuncType = true → c'.current.kind ≠ .op .LBrace
  start : t.startsNamed = true → c.current.kind = .ident

theorem PrimaryRead.valid (h : PrimaryRead s t c c') : c'.Valid := Spans.valid h.read

theorem edge_le_absorbs {k : TokenKind} (htype : t.isType = true) (h : t.absorbs k = false) :
    t.edge k = false := by
  induction t using edge.induct with
  | case1 => cases htype
  | case2 => cases htype
  | case3 p x ih => exact ih htype h
  | case4 => simp only [edge, h, Bool.and_false]
  | case5 => simp [edge]

theorem isPrimary_of_isType (htype : t.isType = true) (hstar : t.typeStart ≠ .op .Mul)
    (harrow : t.typeStart ≠ .op .Arrow) : t.isPrimary = true := by
  have hreceiver : t.isReceiver = false := by
    cases h : t.isReceiver with
    | false => rfl
    | true => exact absurd (typeStart_of_isReceiver h) harrow
  unfold isType at htype
  split at htype
  all_goals first | rfl | (exact absurd rfl hstar) | skip
  · rename_i k _ _ _ _ _ _ _
    simp only [isPrimary, hreceiver]
    cases k <;> first | rfl | cases htype
  · cases htype

theorem typeStart_of_startsNamed {b : Bool} (hbuilt : Built (.expression b) t)
    (h : t.startsNamed = true) : t.typeStart = .ident := by
  cases hbuilt <;> first | rfl | cases h

theorem typeStart_of_is_func {b : Bool} (hbuilt : Built (.expression b) t)
    (h : t.is .FuncType = true) : t.typeStart = .word .Func := by
  cases hbuilt <;> first | rfl | cases h

theorem Sound.functionTypeOrLiteral (hg : g.Sound) (hs : -1 ≤ s.level) (hc : c.Valid)
    (h : g.functionTypeOrLiteral.Gives s c t c') : PrimaryRead s t c c' := by
  simp only [Grammar.functionTypeOrLiteral, gives_expect_bind] at h
  obtain ⟨hkind, h⟩ := h
  obtain ⟨typ, d, htyp, h⟩ := gives_bind.mp h
  simp only [gives_peek_bind, gives_ite] at h
  rcases h with ⟨-, h⟩ | ⟨hbrace, h⟩
  · obtain ⟨body, hbody, rfl⟩ := by simpa using h
    have hfunc := Spans.keyword hc hkind
    obtain ⟨params, results, rfl, hparams, hresults, hread⟩ := hg.signature hs hfunc.valid htyp
    obtain ⟨hbuilt, -, hblock, -⟩ :=
      hg.block (s := s.bracketed) (Scope.level_bracketed hs) hread.valid hbody
    refine ⟨.funcLit hparams hresults hbuilt, ?_, rfl, by simp [Tree.is, kind?], by rintro ⟨⟩⟩
    rw [ReadAs, emitted_funcLit]
    refine ((hfunc.append hread).append hblock).imp ((loops_of rfl).trans (by simp [loopsAll]))
      fun h => ⟨plain_of rfl ?_, rfl⟩
    simp [allPlain, h.1.2.1, h.2.1]
  · obtain ⟨rfl, rfl⟩ := gives_pure.mp h
    have htype := hg.funcType hs hc hkind htyp
    refine ⟨htype.built _, htype.read.imp rfl fun h => ⟨h.1, edge_le_absorbs htype.isType h.2⟩,
      isPrimary_of_isType htype.isType ?_ ?_, fun _ => hbrace,
      fun h => htype.start.trans (typeStart_of_startsNamed (htype.built true) h)⟩
    · rw [← htype.start, hkind]
      simp
    · rw [← htype.start, hkind]
      simp

theorem Sound.parenthesized (hg : g.Sound) (hs : -1 ≤ s.level) (hc : c.Valid)
    (hkind : c.current.kind = .op .LParen) (h : g.parenthesized.Gives s c t c') :
    PrimaryRead s t c c' := by
  obtain ⟨x, d, hx, ⟨hclose, rfl⟩, rfl⟩ := by simpa [Grammar.parenthesized] using h
  have hopen := Spans.operator hc hkind
  obtain ⟨hbuilt, hread⟩ := hg.bracketedExpression hs hopen.valid hx
  refine ⟨.paren hbuilt, ?_, rfl, by simp [Tree.is, kind?], by rintro ⟨⟩⟩
  rw [ReadAs, emitted_paren]
  refine ((hopen.append hread).append (Spans.operator (Spans.valid hread) hclose)).imp
    ((loops_of rfl).trans (by simp [loopsAll])) fun h => ⟨plain_of rfl ?_, rfl⟩
  simp [allPlain, h.1.2.1]

theorem basicLiteral_sound {k : Literal} (hc : c.Valid) (hkind : c.current.kind = .literal k)
    (h : basicLiteral.Gives s c t c') : PrimaryRead s t c c' := by
  simp only [basicLiteral, gives_advance_bind, gives_pure] at h
  obtain ⟨rfl, rfl⟩ := h
  have hwhole : c.current.toLexeme.Whole := hc.whole (by simp [hkind]) (by simp [hkind])
  have hspans := Spans.literal hc (by rw [hkind]; rfl) hwhole
  refine ⟨?_, hspans.imp rfl fun _ => ⟨rfl, rfl⟩, rfl, by simp [Tree.is, kind?], by rintro ⟨⟩⟩
  rw [hkind]
  refine .literal ?_
  rw [← hkind]
  exact hwhole

-- Operands, which do not begin with an operator.
theorem Sound.operand (hg : g.Sound) (hs : -1 ≤ s.level) (hc : c.Valid)
    (hstar : c.current.kind ≠ .op .Mul) (harrow : c.current.kind ≠ .op .Arrow)
    (h : g.operand.Gives s c t c') : PrimaryRead s t c c' := by
  simp only [Grammar.operand, gives_peek_bind] at h
  split at h
  · rename_i hkind
    obtain ⟨p, x, rfl, hx, -, -, hspans⟩ := ident_sound hc h
    exact ⟨.ident hx, hspans.imp rfl fun _ => ⟨rfl, rfl⟩, rfl, by simp [Tree.is, kind?],
      fun _ => hkind⟩
  · rename_i hkind
    exact basicLiteral_sound hc hkind h
  · rename_i hkind
    exact hg.parenthesized hs hc hkind h
  · exact hg.functionTypeOrLiteral hs hc h
  · rename_i hfunc
    obtain ⟨o, d, ho, h⟩ := gives_bind.mp h
    cases hg.typeRule? hs hc ho with
    | none => exact absurd h gives_expected
    | some htype =>
        obtain ⟨rfl, rfl⟩ := gives_pure.mp h
        refine ⟨htype.built _, htype.read.imp rfl fun h => ⟨h.1, edge_le_absorbs htype.isType h.2⟩,
          isPrimary_of_isType htype.isType ?_ ?_, fun hkind => ?_,
          fun h => htype.start.trans (typeStart_of_startsNamed (htype.built true) h)⟩
        · rwa [← htype.start]
        · rwa [← htype.start]
        · refine absurd (htype.start.trans ?_) hfunc
          exact typeStart_of_is_func (htype.built true) hkind

end Grammar

end GoCompact
