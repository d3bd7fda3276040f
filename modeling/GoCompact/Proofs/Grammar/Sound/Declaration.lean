import GoCompact.Proofs.Grammar.Sound.TypeSpec

namespace GoCompact

open GoCompact.Parser GoCompact.Tree Emission

-- After the end of a statement the end of a line is not read.
theorem Parser.Ends.fresh {c d : Cursor} (hc : c.Valid) (h : Ends c d) : d.Fresh := by
  cases h with
  | closing h =>
      refine hc.fresh fun hkind => ?_
      rw [hkind] at h
      cases h
  | semicolon h => exact hc.fresh_advance (by simp [h]) (by rw [h]; rfl)

namespace Grammar

variable {g : Grammar} {s : Scope} {t : Tree} {c d c' : Cursor}

-- Expressions with commas between them.
structure ExpressionsRead (s : Scope) (ts : List Tree) (c c' : Cursor) : Prop where
  ne : ts ≠ []
  built : ∀ t ∈ ts, Built (.expression s.isFree) t
  read : ListRead ts c c'
  single : ∀ t, ts = [t] → ExpressionRead s t c c'
  brace : s.isFree = false → c'.current.kind = .op .LBrace → ts.getLast?.any takesBrace = false

theorem ExpressionsRead.valid {ts : List Tree} (h : ExpressionsRead s ts c c') : c'.Valid :=
  Spans.valid h.read

theorem Sound.expressionList {ts : List Tree} (hg : g.Sound) (hs : -1 ≤ s.level) (hc : c.Valid)
    (h : g.expressionList.Gives s c ts c') : ExpressionsRead s ts c c' := by
  obtain ⟨x, xs, d, rfl, hx, hxs⟩ := gives_commaList.mp h
  have hx' := hg.expressionRule hs hc hx
  have hcommas := afterCommas_of_gives hxs
  obtain ⟨hread, hbuilt⟩ := listRead_of_commas (Q := fun t => Built (.expression s.isFree) t)
    (fun hc h => ⟨(hg.expressionRule hs hc h).read.plain, (hg.expressionRule hs hc h).built⟩)
    hx'.read.plain hcommas
  refine ⟨by simp, List.forall_mem_cons.mpr ⟨hx'.built, hbuilt⟩, hread, ?_, ?_⟩
  · rintro t heq
    obtain ⟨rfl, rfl⟩ := List.cons.inj heq
    cases hcommas with
    | nil => exact hx'
    | trailing _ hclosing => cases hclosing
  · intro hfree hkind
    clear hread hbuilt h hxs hx
    generalize hnone : (none : Option TokenKind) = closing at hcommas
    induction hcommas generalizing c x with
    | nil => exact hx'.brace hfree hkind
    | trailing _ hclosing =>
        rw [← hnone] at hclosing
        cases hclosing
    | @cons d e _ y ys hcomma h _ ih =>
        have hy := hg.expressionRule hs (hx'.valid.advance (by simp [hcomma])) h
        rw [List.getLast?_cons_cons]
        exact ih (hx'.valid.advance (by simp [hcomma])) y hy hkind

theorem ExpressionRead.list (h : ExpressionRead s t c c') : ExpressionsRead s [t] c c' where
  ne := by simp
  built := by simpa using h.built
  read := h.read.imp (by simp [loops_tuple]) fun h => plain_tuple.mpr (by simpa using h.1)
  single := by
    rintro u ⟨⟩
    exact h
  brace := h.brace

-- A list after an operator.
theorem ExpressionsRead.after {o : Operator} {y : Tree} {ys : List Tree} (hc : c.Valid)
    (hkind : c.current.kind = .op o) (h : ExpressionsRead s (y :: ys) c.advance c') :
    Spans c (emittedListAfter o y ys) (Tree.tuple (y :: ys)).loops
      ((Tree.tuple (y :: ys)).plain = true) c' := by
  have ho := Spans.operator hc hkind
  exact ((ho.append (Spans.when_blank ho.valid _)).append h.read).imp (by simp) fun h => h.2

-- A spec that was read with its end.
structure SpecRead (k : Keyword) (t : Tree) (c c' : Cursor) : Prop where
  built : Built (.spec k) t
  read : t.ReadAs .spec c True c'
  fresh : c'.Fresh

theorem importName_sound (hc : c.Valid) (h : importName.Gives s c t c') :
    ((∃ o : Option Tree, t = .ofOption o ∧ ∀ u ∈ o, Built .name u) ∨
        ∃ q, t = .ident q (.text ".")) ∧
      t.loops = 0 ∧ t.plain = true ∧ Spans c (t.emittedIf (Rule.nameOf t)) 0 True c' := by
  simp only [importName, gives_peek_bind] at h
  split at h
  · obtain ⟨p, x, rfl, hx, -, -, hspans⟩ := ident_sound hc h
    exact ⟨Or.inl ⟨some _, rfl, by rintro u ⟨⟩; exact .name hx⟩, rfl, rfl, hspans⟩
  · rename_i hpoint
    obtain ⟨rfl, rfl⟩ := by simpa using h
    exact ⟨Or.inr ⟨_, rfl⟩, rfl, rfl, Spans.operator hc hpoint⟩
  · obtain ⟨rfl, rfl⟩ := gives_pure.mp h
    exact ⟨Or.inl ⟨none, rfl, by simp⟩, rfl, rfl, Spans.nothing hc⟩

theorem importSpec_sound (hc : c.Valid) (h : importSpec.Gives s c t c') :
    SpecRead .Import t c c' := by
  simp only [importSpec, gives_current_bind] at h
  obtain ⟨name, d, hname, h⟩ := gives_bind.mp h
  simp only [gives_peek_bind] at h
  rcases gives_ite.mp h with ⟨htext, h⟩ | ⟨-, h⟩
  · obtain ⟨hkind, hloops, hplain, hspans⟩ := importName_sound hc hname
    obtain ⟨path, e, hpath, hend, rfl⟩ := by simpa using h
    obtain ⟨p, x, rfl, hx, hread⟩ := stringLiteral_sound hspans.valid htext hpath
    refine ⟨?_, ?_, hend.fresh hread.valid⟩
    · rcases hkind with ⟨o, rfl, ho⟩ | ⟨q, rfl⟩
      · exact .importSpec ho (.text hx)
      · exact .importAll (.text hx)
    · have hall := (hspans.append hread).append (Spans.ends hread.valid hend)
      rw [append_nothing] at hall
      rw [ReadAs, emitted_importSpec, literalOf_basicLit]
      exact hall.imp ((loops_of rfl).trans (by simp [loopsAll, hloops]))
        fun _ => ⟨plain_of rfl (by simp [allPlain, hplain]), trivial⟩
  · exact absurd h gives_expected

-- The values of a declaration, if there are any.
theorem Sound.initialValues {values : List Tree} (hg : g.Sound) (hs : 0 ≤ s.level) (hc : c.Valid)
    (h : g.initialValues.Gives s c values c') :
    (∀ t ∈ values, Built (.expression true) t) ∧ (c.current.kind = .op .Assign → values ≠ []) ∧
      Spans c (emittedValues values) (Tree.tuple values).loops ((Tree.tuple values).plain = true)
        c' := by
  have hfree : s.isFree = true := decide_eq_true hs
  rcases gives_got_bind.mp h with ⟨hassign, h⟩ | ⟨hassign, h⟩
  · have hread := hg.expressionList (s := s) (by omega) (hc.advance (by simp [hassign]))
      (by simpa using h)
    have hbuilt := hread.built
    rw [hfree] at hbuilt
    cases values with
    | nil => exact absurd rfl hread.ne
    | cons y ys => exact ⟨hbuilt, fun _ => by simp, hread.after hc hassign⟩
  · obtain ⟨rfl, rfl⟩ := by simpa using h
    exact ⟨by simp, fun h => absurd h hassign, (Spans.nothing hc).imp rfl fun _ => rfl⟩

-- The type and the values of a declaration.
structure TailRead (k : Keyword) (typ : Tree) (values : List Tree) (c c' : Cursor) : Prop where
  builtType : ∃ o : Option Tree, typ = .ofOption o ∧ (∀ u ∈ o, Built (.expression true) u) ∧
    (∀ u ∈ o, u.isType = true) ∧ (k = .Var → o = none → values ≠ [])
  builtValues : ∀ t ∈ values, Built (.expression true) t
  read : Spans c (typ.emittedIf (blank ++ typ.emittedAs .expression) ++ emittedValues values)
    (typ.loops + (Tree.tuple values).loops)
    (typ.plain = true ∧ (Tree.tuple values).plain = true) c'

-- The values after a type, or without one.
theorem TailRead.of_type {k : Keyword} {u : Tree} {values : List Tree} (hg : g.Sound)
    (hs : 0 ≤ s.level) (hc : c.Valid) (hu : TypeRead u c d)
    (h : g.initialValues.Gives s d values c') : TailRead k u values c c' := by
  obtain ⟨hbuilt, -, hvalues⟩ := hg.initialValues hs hu.valid h
  refine ⟨⟨some u, rfl, ?_, ?_, by simp⟩, hbuilt, ?_⟩
  · rintro _ ⟨⟩
    exact hu.built true
  · rintro _ ⟨⟩
    exact hu.isType
  · rw [emittedIf_of (hu.built true).isAbsent]
    exact (((Spans.blank hc).append hu.read).append hvalues).imp (by simp) fun h => ⟨h.1.2.1, h.2⟩

theorem TailRead.of_none {k : Keyword} {values : List Tree} (hg : g.Sound) (hs : 0 ≤ s.level)
    (hc : c.Valid) (hk : k = .Var → c.current.kind = .op .Assign)
    (h : g.initialValues.Gives s c values c') : TailRead k .absent values c c' := by
  obtain ⟨hbuilt, hne, hvalues⟩ := hg.initialValues hs hc h
  refine ⟨⟨none, rfl, by simp, by simp, fun hvar _ => hne (hk hvar)⟩, hbuilt, ?_⟩
  exact hvalues.imp (by simp) fun h => ⟨rfl, h⟩

theorem Sound.constantTail {r : Tree × List Tree} (hg : g.Sound) (hs : 0 ≤ s.level) (hc : c.Valid)
    (h : g.constantTail.Gives s c r c') : TailRead .Const r.1 r.2 c c' := by
  have hnone : TailRead .Const .absent [] c c :=
    ⟨⟨none, rfl, by simp, by simp, by simp⟩, by simp, (Spans.nothing hc).imp rfl fun _ => ⟨rfl, rfl⟩⟩
  simp only [Grammar.constantTail, gives_peek_bind] at h
  split at h
  · obtain ⟨rfl, rfl⟩ := gives_pure.mp h
    exact hnone
  · obtain ⟨rfl, rfl⟩ := gives_pure.mp h
    exact hnone
  · obtain ⟨rfl, rfl⟩ := gives_pure.mp h
    exact hnone
  · obtain ⟨o, d, ho, h⟩ := gives_bind.mp h
    obtain ⟨values, hvalues, rfl⟩ := by simpa using h
    cases hg.typeRule? (by omega) hc ho with
    | none => exact .of_none hg hs hc (by simp) hvalues
    | some hu => exact .of_type hg hs hc hu hvalues

theorem Sound.variableTail {k : Keyword} {r : Tree × List Tree} (hg : g.Sound) (hs : 0 ≤ s.level)
    (hc : c.Valid) (h : g.variableTail.Gives s c r c') : TailRead k r.1 r.2 c c' := by
  simp only [Grammar.variableTail, gives_peek_bind] at h
  rcases gives_ite.mp h with ⟨hassign, h⟩ | ⟨-, h⟩
  · obtain ⟨values, hvalues, rfl⟩ := by simpa using h
    exact .of_none hg hs hc (fun _ => hassign) hvalues
  · obtain ⟨typ, d, htyp, h⟩ := gives_bind.mp h
    obtain ⟨values, hvalues, rfl⟩ := by simpa using h
    exact .of_type hg hs hc (hg.typeRule (by omega) hc htyp) hvalues

theorem Sound.valueSpec {k : Keyword} (hg : g.Sound) (hs : 0 ≤ s.level) (hc : c.Valid)
    (hk : k = .Const ∨ k = .Var) (h : (g.valueSpec k).Gives s c t c') : SpecRead k t c c' := by
  simp only [Grammar.valueSpec, gives_current_bind] at h
  obtain ⟨names, d, hnames, h⟩ := gives_bind.mp h
  obtain ⟨name, others, e, rfl, hname, hothers⟩ := gives_commaList.mp hnames
  obtain ⟨p, x, rfl, hx, -, -, hspans⟩ := ident_sound hc hname
  obtain ⟨hbuilt, hread⟩ := names_sound (p := p) hx hspans hothers
  have htail : ∃ typ values f, TailRead k typ values d f ∧ Ends f c' ∧
      t = .valueSpec c.current.place (.tuple (.ident p (.text x) :: others)) typ (.tuple values) := by
    rcases hk with rfl | rfl
    · obtain ⟨⟨typ, values⟩, f, hr, h⟩ := gives_bind.mp h
      obtain ⟨hend, rfl⟩ := by simpa using h
      exact ⟨typ, values, f, hg.constantTail hs hread.valid hr, hend, rfl⟩
    · obtain ⟨⟨typ, values⟩, f, hr, h⟩ := gives_bind.mp h
      obtain ⟨hend, rfl⟩ := by simpa using h
      exact ⟨typ, values, f, hg.variableTail hs hread.valid hr, hend, rfl⟩
  obtain ⟨typ, values, f, htail, hend, rfl⟩ := htail
  obtain ⟨o, rfl, hobuilt, hotype, hvar⟩ := htail.builtType
  refine ⟨.valueSpec hk (by simp) hbuilt hobuilt hotype htail.builtValues hvar, ?_,
    hend.fresh htail.read.valid⟩
  rw [ReadAs, emitted_valueSpec, append_assoc]
  have hall := (hread.append htail.read).append (Spans.ends htail.read.valid hend)
  rw [append_nothing] at hall
  refine hall.imp ((loops_of rfl).trans ?_) fun h => ⟨plain_of rfl ?_, trivial⟩
  · simp [loopsAll, Gathers.loops_names hbuilt]
  · simp [allPlain, Gathers.plain_names hbuilt, h.1.2.1, h.1.2.2]

theorem Sound.typeSpec (hg : g.Sound) (hs : -1 ≤ s.level) (hc : c.Valid)
    (h : g.typeSpec.Gives s c t c') : SpecRead .Type t c c' := by
  obtain ⟨name, d, hname, h⟩ := gives_bind.mp h
  obtain ⟨p, x, rfl, hx, -, -, hspans⟩ := ident_sound hc hname
  obtain ⟨u, e, hu, h⟩ := gives_bind.mp h
  obtain ⟨hend, rfl⟩ := by simpa using h
  have hread := hg.typeSpecAfter hs hx hspans hu
  have hall := hread.read.append (Spans.ends (Spans.valid hread.read) hend)
  rw [append_nothing] at hall
  exact ⟨hread.built, hall.imp (by simp) fun h => h.1, hend.fresh (Spans.valid hread.read)⟩

theorem Sound.spec {k : Keyword} (hg : g.Sound) (hs : 0 ≤ s.level) (hc : c.Valid)
    (hk : k = .Import ∨ k = .Const ∨ k = .Type ∨ k = .Var) (h : (g.spec k).Gives s c t c') :
    SpecRead k t c c' := by
  rcases hk with rfl | rfl | rfl | rfl
  · exact importSpec_sound hc h
  · exact hg.valueSpec hs hc (Or.inl rfl) h
  · exact hg.typeSpec (by omega) hc h
  · exact hg.valueSpec hs hc (Or.inr rfl) h

-- A declaration that was read with its end.
structure DeclarationRead (t : Tree) (c c' : Cursor) : Prop where
  built : Built .declaration t
  read : t.ReadAs .declaration c True c'
  fresh : c'.Fresh
  progress : c'.upcoming.length < c.upcoming.length

theorem Sound.genDecl {k : Keyword} (hg : g.Sound) (hs : 0 ≤ s.level) (hc : c.Valid)
    (hk : k = .Import ∨ k = .Const ∨ k = .Type ∨ k = .Var) (h : (g.genDecl k).Gives s c t c') :
    DeclarationRead t c c' ∧
      ∃ p specs grouped, t = .genDecl p (.token (.word k)) specs grouped := by
  simp only [Grammar.genDecl, gives_expect_bind] at h
  obtain ⟨hkind, h⟩ := h
  have hword := Spans.keyword hc hkind
  rcases gives_got_bind.mp h with ⟨hopen, h⟩ | ⟨-, h⟩
  · obtain ⟨specs, d, hspecs, hclose, hend, rfl⟩ := by simpa using h
    have hopen' := Spans.operator hword.valid hopen
    obtain ⟨hread, hbuilt, -, -⟩ := Spans.items (I := Cursor.Valid)
      (f := fun t => t.emittedAs .spec) (n := Tree.loops) (P := fun t => t.plain = true)
      (Q := Built (.spec k)) (R := fun _ => False) id
      (fun hc _ h => by
        have hspec := hg.spec hs hc hk h
        exact ⟨hspec.read.plain, hspec.built, hspec.fresh.valid, False.elim⟩)
      hopen'.valid (items_of_manyWhile hspecs)
    have hclose' := Spans.operator hread.valid hclose
    have hrest := ((hopen'.append hread).append hclose').append (Spans.ends hclose'.valid hend)
    rw [append_nothing] at hrest
    refine ⟨⟨.genDecl hk hbuilt (by simp), ?_, hend.fresh hclose'.valid,
      Nat.lt_of_le_of_lt hrest.progress (hc.advance_lt (by simp [hkind]))⟩, _, _, _, rfl⟩
    rw [ReadAs, emitted_grouped]
    refine (hword.append hrest).imp ((loops_of rfl).trans (by simp [loopsAll, loops_tuple]))
      fun h => ⟨plain_of rfl ?_, trivial⟩
    simp [allPlain, plain_tuple.mpr h.2.1.1.2]
  · obtain ⟨spec, hspec, rfl⟩ := by simpa using h
    have hspec' := hg.spec hs hword.valid hk hspec
    refine ⟨⟨.genDecl hk (by simpa using hspec'.built) (by simp), ?_, hspec'.fresh,
      Nat.lt_of_le_of_lt (Spans.progress hspec'.read) (hc.advance_lt (by simp [hkind]))⟩,
      _, _, _, rfl⟩
    rw [ReadAs, emitted_genDecl]
    refine (hword.append ((Spans.blank hword.valid).append hspec'.read)).imp
      ((loops_of rfl).trans (by simp [loopsAll, loops_tuple])) fun h => ⟨plain_of rfl ?_, trivial⟩
    simp [allPlain, plain_tuple, h.2.2.1]

-- A part that is read if the current token is of a kind.
theorem gives_ifNext {kind : TokenKind} {p : Parser Tree} (h : (ifNext kind p).Gives s c t c') :
    (c.current.kind = kind ∧ p.Gives s c t c') ∨ (t = .absent ∧ c' = c) := by
  rcases gives_ite.mp (gives_peek_bind.mp h) with h | ⟨-, h⟩
  · exact Or.inl h
  · exact Or.inr (gives_pure.mp h)

-- The type parameters of a function.
theorem Sound.typeParameters (hg : g.Sound) (hs : -1 ≤ s.level) (hc : c.Valid)
    (h : g.typeParameters.Gives s c t c') :
    Built (.parameters true) t ∧ (∀ p, t ≠ .fieldList p (.tuple [])) ∧
      Spans c (operator .LBrack ++ t.emittedAs (.fieldList ",") ++ operator .RBrack) t.loops
        (t.plain = true) c' := by
  simp only [Grammar.typeParameters, gives_expect_bind] at h
  obtain ⟨hopen, h⟩ := h
  obtain ⟨entries, d, hentries, h⟩ := gives_bind.mp h
  obtain ⟨list, e, hlist, h⟩ := gives_bind.mp h
  rcases gives_ite.mp h with ⟨-, h⟩ | ⟨hne, h⟩
  · obtain ⟨_, _, h, -⟩ := gives_bind.mp h
    exact absurd h gives_refuse
  obtain ⟨⟨hclose, rfl⟩, rfl⟩ := by simpa using h
  have hopen' := Spans.operator hc hopen
  obtain ⟨fields, rfl, hnil, rfl, hread⟩ := hg.fields hs hopen'.valid hentries hlist
  refine ⟨hread.parameters, ?_, ?_⟩
  · rintro p heq
    simp only [node.injEq, List.cons.injEq, tuple.injEq] at heq
    exact hne (List.isEmpty_iff.mpr (hnil heq.2.2.1))
  · rw [emitted_fieldList]
    refine ((hopen'.append hread.read).append (Spans.operator hread.read.valid hclose)).imp
      ((loops_of rfl).trans (by simp [loopsAll])) fun h => plain_of rfl ?_
    simp [allPlain, h.1.2]

-- The keyword of a function and its receiver, if it has one.
theorem Sound.receiver (hg : g.Sound) (hs : -1 ≤ s.level) (hc : c.Valid)
    (hkind : c.current.kind = .word .Func)
    (h : (ifNext (.op .LParen) g.parameters).Gives s c.advance t c') :
    ∃ o : Option Tree, t = .ofOption o ∧ (∀ u ∈ o, Built (.parameters false) u) ∧
      Spans c (if t.isAbsent then spaced .Func
        else joined .Func .LParen ++ t.emittedAs (.fieldList ",") ++ operator .RParen)
        t.loops (t.plain = true) c' := by
  rcases gives_ifNext h with ⟨-, h⟩ | ⟨rfl, rfl⟩
  · have hread := hg.parameters hs (hc.advance (by simp [hkind])) h
    have hbuilt := hread.built
    refine ⟨some t, rfl, by rintro u ⟨⟩; exact hbuilt, ?_⟩
    obtain ⟨p, fields, d, e, rfl, hopen, rfl, hfields, hclose, rfl⟩ := hread.fields
    rw [if_neg (by simp [hbuilt.isAbsent]), emitted_fieldList]
    refine (((Spans.joined hc hkind hopen).append hfields.read).append
      (Spans.operator hfields.read.valid hclose)).imp ((loops_of rfl).trans (by simp [loopsAll]))
      fun h => plain_of rfl ?_
    simp [allPlain, h.1.2]
  · exact ⟨none, rfl, by simp, (Spans.spaced hc hkind).imp rfl fun _ => rfl⟩

theorem Sound.funcDecl (hg : g.Sound) (hs : -1 ≤ s.level) (hc : c.Valid)
    (h : g.funcDecl.Gives s c t c') : DeclarationRead t c c' := by
  simp only [Grammar.funcDecl, gives_expect_bind] at h
  obtain ⟨hkind, h⟩ := h
  obtain ⟨recv, c1, hrecv, h⟩ := gives_bind.mp h
  obtain ⟨name, c2, hname, h⟩ := gives_bind.mp h
  obtain ⟨typeParams, c3, htypeParams, h⟩ := gives_bind.mp h
  obtain ⟨params, c4, hparams, h⟩ := gives_bind.mp h
  obtain ⟨results, c5, hresults, h⟩ := gives_bind.mp h
  obtain ⟨body, c6, hbody, h⟩ := gives_bind.mp h
  obtain ⟨hend, rfl⟩ := by simpa using h
  obtain ⟨orecv, rfl, hrecvBuilt, hrecvRead⟩ := hg.receiver hs hc hkind hrecv
  obtain ⟨p, x, rfl, hx, hnameKind, hnameNext, hnameRead⟩ := ident_sound hrecvRead.valid hname
  obtain ⟨otypeParams, rfl, htypeParamsBuilt, htypeParamsNe, htypeParamsRead⟩ :
      ∃ o : Option Tree, typeParams = .ofOption o ∧ (∀ u ∈ o, Built (.parameters true) u) ∧
        (∀ u ∈ o, ∀ p, u ≠ .fieldList p (.tuple [])) ∧
        Spans c2 (typeParams.emittedIf
          (operator .LBrack ++ typeParams.emittedAs (.fieldList ",") ++ operator .RBrack))
          typeParams.loops (typeParams.plain = true) c3 := by
    rcases gives_ifNext htypeParams with ⟨-, h⟩ | ⟨rfl, rfl⟩
    · obtain ⟨hbuilt, hne, hread⟩ := hg.typeParameters hs hnameRead.valid h
      refine ⟨some typeParams, rfl, by rintro u ⟨⟩; exact hbuilt, by rintro u ⟨⟩; exact hne, ?_⟩
      rw [emittedIf_of hbuilt.isAbsent]
      exact hread
    · exact ⟨none, rfl, by simp, by simp, (Spans.nothing hnameRead.valid).imp rfl fun _ => rfl⟩
  have hparams' := hg.parameters hs htypeParamsRead.valid hparams
  have hparamsRead := hparams'.read htypeParamsRead.valid
  have hresults' := hg.results hs hparamsRead.valid hresults
  obtain ⟨obody, rfl, hbodyBuilt, hbodyRead⟩ :
      ∃ o : Option Tree, body = .ofOption o ∧ (∀ u ∈ o, Built .block u) ∧
        Spans c5 (body.emittedIf (body.emittedAs .block)) body.loops (body.plain = true) c6 := by
    rcases gives_ifNext hbody with ⟨-, h⟩ | ⟨rfl, rfl⟩
    · obtain ⟨hbuilt, -, hread, -⟩ :=
        hg.block (s := s.bracketed) (Scope.level_bracketed hs) hresults'.read.valid h
      refine ⟨some body, rfl, by rintro u ⟨⟩; exact hbuilt, ?_⟩
      rw [emittedIf_of hbuilt.isAbsent]
      exact hread.plain
    · exact ⟨none, rfl, by simp, (Spans.nothing hresults'.read.valid).imp rfl fun _ => rfl⟩
  have hrest := (((htypeParamsRead.append hparamsRead).append hresults'.read).append
    hbodyRead).append (Spans.ends hbodyRead.valid hend)
  have hless := hrecvRead.valid.advance_lt (by simp [hnameKind])
  rw [← hnameNext] at hless
  refine ⟨.funcDecl hrecvBuilt (.name hx) htypeParamsBuilt htypeParamsNe hparams'.built
    hresults'.built hbodyBuilt, ?_, hend.fresh hbodyRead.valid,
    Nat.lt_of_le_of_lt hrest.progress (Nat.lt_of_lt_of_le hless hrecvRead.progress)⟩
  have hall := (hrecvRead.append hnameRead).append hrest
  rw [ReadAs, emitted_funcDecl, emittedSignature, nameOf_ident]
  simp only [append_nothing, append_assoc] at hall ⊢
  refine hall.imp ((loops_of rfl).trans ?_) fun h => ⟨plain_of rfl ?_, trivial⟩
  · have hsignature : opensLoop .FuncType [params, .ofOption results, .ofOption otypeParams,
        .flag true] = false := rfl
    simp only [loopsAll, loops_of hsignature, loops_ident]
    simp
    omega
  · obtain ⟨⟨hrecvPlain, -⟩, ⟨⟨⟨htypeParamsPlain, hparamsPlain⟩, hresultsPlain, hplain⟩,
      hbodyPlain⟩, -⟩ := h
    have hsignature : (Tree.funcType c.current.place params (.ofOption results)
        (.ofOption otypeParams) (.flag true)).plain = true := by
      refine plain_of (hplain .absent _ _ _).1 ?_
      simp [allPlain, hparamsPlain, hresultsPlain, htypeParamsPlain]
    simp [allPlain, hrecvPlain, hsignature, hbodyPlain]

theorem Sound.declaration (hg : g.Sound) (hs : 0 ≤ s.level) (hc : c.Valid)
    (h : g.declaration.Gives s c t c') : DeclarationRead t c c' := by
  simp only [Grammar.declaration, gives_peek_bind] at h
  split at h
  · exact (hg.genDecl hs hc (by simp) h).1
  · exact (hg.genDecl hs hc (by simp) h).1
  · exact (hg.genDecl hs hc (by simp) h).1
  · exact (hg.genDecl hs hc (by simp) h).1
  · exact hg.funcDecl (by omega) hc h
  · exact absurd h gives_expected

end Grammar

end GoCompact
