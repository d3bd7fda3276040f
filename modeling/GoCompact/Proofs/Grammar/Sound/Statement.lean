import GoCompact.Proofs.Grammar.Sound.Header

namespace GoCompact.Grammar

open GoCompact.Parser GoCompact.Tree Emission

variable {g : Grammar} {s : Scope} {t : Tree} {c d c' : Cursor}

theorem block_kind (h : g.block.Gives s c t c') : c.current.kind = .op .LBrace := by
  obtain ⟨hopen, -⟩ := by simpa [Grammar.block] using h
  exact hopen

-- A statement after its text, with its end.
theorem StatementRead.ended (hbuilt : Built .statement t) (hread : t.ReadAs .statement c True d)
    (hend : Ends d c') (himplicit : t.isImplicit = false) (htrails : t.trails = false) :
    StatementRead t c c' := by
  have hall := hread.append (Spans.ends (Spans.valid hread) hend)
  rw [append_nothing] at hall
  exact ⟨hbuilt, hall.imp (by simp) fun h => h.1, hend.fresh (Spans.valid hread),
    by simp [himplicit], by simp [htrails]⟩

theorem eq_node_of_is {k : NodeKind} (h : t.is k = true) : ∃ p fields, t = .node k p fields := by
  cases t with
  | node kind p fields =>
      obtain rfl : kind = k := by simpa [Tree.is, kind?] using h
      exact ⟨p, fields, rfl⟩
  | _ => cases h

theorem otherwise_if (h : t.is .IfStmt = true) :
    Rule.otherwise ⟨t, t.emittedAs⟩ = spaced .Else ++ t.emittedAs .statement := by
  obtain ⟨p, fields, rfl⟩ := eq_node_of_is h
  rfl

theorem otherwise_block (h : t.is .BlockStmt = true) :
    Rule.otherwise ⟨t, t.emittedAs⟩ = keyword .Else ++ t.emittedAs .block := by
  obtain ⟨p, fields, rfl⟩ := eq_node_of_is h
  rfl

-- The other branch of an `if`, with the end of the statement.
structure ElseRead (o : Option Tree) (c c' : Cursor) : Prop where
  built : ∀ t ∈ o, Built .statement t
  kind : ∀ t ∈ o, t.is .IfStmt = true ∨ t.is .BlockStmt = true
  read : Spans c (Rule.otherwise ⟨ofOption o, (ofOption o).emittedAs⟩) (ofOption o).loops
    ((ofOption o).plain = true) c'
  fresh : c'.Fresh

theorem Sound.elseBranch (hg : g.Sound) (hs : 0 ≤ s.level) (hc : c.Valid)
    (h : g.elseBranch.Gives s c t c') : ∃ o, t = ofOption o ∧ ElseRead o c c' := by
  rcases gives_got_bind.mp h with ⟨helse, h⟩ | ⟨-, h⟩
  · simp only [if_true, gives_peek_bind] at h
    have helse' := Spans.keyword hc helse
    split at h
    · obtain ⟨hread, hkind⟩ := hg.ifStatement hs helse'.valid h
      refine ⟨some t, rfl, by rintro u ⟨⟩; exact hread.built, by rintro u ⟨⟩; exact Or.inl hkind, ?_,
        hread.fresh⟩
      change Spans c (Rule.otherwise ⟨t, t.emittedAs⟩) t.loops (t.plain = true) c'
      rw [otherwise_if hkind]
      exact ((Spans.spaced hc helse).append hread.read).imp (by simp) fun h => h.2.1
    · obtain ⟨body, d, hbody, h⟩ := gives_bind.mp h
      obtain ⟨hend, rfl⟩ := by simpa using h
      obtain ⟨hbuilt, hkind, hread, -⟩ := hg.block hs helse'.valid hbody
      refine ⟨some t, rfl, by rintro u ⟨⟩; exact .blockStmt hbuilt,
        by rintro u ⟨⟩; exact Or.inr hkind, ?_, hend.fresh (Spans.valid hread)⟩
      change Spans c (Rule.otherwise ⟨t, t.emittedAs⟩) t.loops (t.plain = true) c'
      rw [otherwise_block hkind]
      have hall := (helse'.append hread).append (Spans.ends (Spans.valid hread) hend)
      rw [append_nothing] at hall
      exact hall.imp (by simp) fun h => h.1.2.1
    · exact absurd h gives_expected
  · obtain ⟨hend, rfl⟩ := by simpa using h
    exact ⟨none, rfl, by simp, by simp, (Spans.ends hc hend).imp rfl fun _ => rfl, hend.fresh hc⟩

theorem Sound.ifRule (hg : g.Sound) (hs : 0 ≤ s.level) (hc : c.Valid) (h : g.ifRule.Gives s c t c') :
    StatementRead t c c' ∧ t.is .IfStmt = true := by
  simp only [Grammar.ifRule, gives_expect_bind] at h
  obtain ⟨hkind, h⟩ := h
  obtain ⟨⟨init, cond⟩, d, hheader, h⟩ := gives_bind.mp h
  obtain ⟨body, e, hbody, h⟩ := gives_bind.mp h
  obtain ⟨otherwise, hotherwise, rfl⟩ := by simpa using h
  have hif := Spans.spaced hc hkind
  obtain ⟨o, ho, hread⟩ := hg.ifHeader hif.valid hheader
  obtain rfl : init = ofOption o := ho
  obtain ⟨hbuilt, -, hblock, -⟩ := hg.block hs hread.read.valid hbody
  obtain ⟨r, rfl, helse⟩ := hg.elseBranch hs (Spans.valid hblock) hotherwise
  refine ⟨⟨.ifStmt hread.builtInit hread.builtCond (hread.brace (block_kind hbody)) hbuilt helse.built
    helse.kind, ?_, helse.fresh, by rintro ⟨⟩, by rintro ⟨⟩⟩, rfl⟩
  rw [ReadAs, emitted_ifStmt, append_assoc (spaced .If)]
  refine (((hif.append hread.read).append hblock).append helse.read).imp
    ((loops_of rfl).trans ?_) fun h => ⟨plain_of rfl ?_, trivial⟩
  · simp [loopsAll]
    omega
  · simp [allPlain, h.1.1.2.1, h.1.1.2.2, h.1.2.1, h.2]

-- A clause of a switch or select.
structure ClauseRead (k : Category) (t : Tree) (c c' : Cursor) : Prop where
  built : Built k t
  read : t.ReadAs .statement c True c'
  fresh : c'.Fresh
  trails : t.clauseTrails = true → c'.current.kind = .op .RBrace

-- Clauses in braces, with the end of the statement.
structure ClausesRead (k : Category) (items : List Tree) (t : Tree) (c c' : Cursor) : Prop where
  built : ∀ u ∈ items, Built k u
  trails : ∀ u ∈ items.dropLast, u.clauseTrails = false
  read : t.ReadAs .block c True c'
  fresh : c'.Fresh

theorem clauses_sound {k : Category} {p : Parser Tree}
    (hp : ∀ {c t d}, c.Fresh → p.Gives s c t d → ClauseRead k t c d) (hc : c.Valid)
    (h : (clauses p).Gives s c t c') :
    ∃ q items, t = .block q (.tuple items) ∧ ClausesRead k items t c c' := by
  obtain ⟨hopen, items, d, hitems, hclose, hend, rfl⟩ := by simpa [clauses] using h
  have hopen' := Spans.operator hc hopen
  obtain ⟨hread, hall, hfresh, htrails⟩ := Spans.items (I := Cursor.Fresh)
    (f := fun t => t.emittedAs .statement) (n := Tree.loops) (P := fun t => t.plain = true)
    (Q := fun t => Built k t ∧ (t.emittedAs .statement).fault = none)
    (R := fun t => t.clauseTrails = true) Cursor.Fresh.valid
    (fun hc _ h => by
      have hread := hp hc h
      refine ⟨hread.read.plain, ⟨hread.built, hread.read.fault⟩, hread.fresh, fun htrails => ?_⟩
      rw [hread.trails htrails]
      rfl)
    (hc.fresh_advance (by simp [hopen]) (by rw [hopen]; rfl)) (items_of_manyWhile hitems)
  obtain ⟨hfault, hcontent, hgroupings⟩ := emittedStatements_spec fun t ht => (hall t ht).2
  have hread' := hread.replace hfault hcontent hgroupings
  have hclose' := Spans.operator hread'.valid hclose
  refine ⟨_, items, rfl, fun u hu => (hall u hu).1, fun u hu => by simpa using htrails u hu, ?_,
    hend.fresh hclose'.valid⟩
  have hall := ((hopen'.append hread').append hclose').append (Spans.ends hclose'.valid hend)
  rw [append_nothing] at hall
  rw [ReadAs, emitted_block]
  refine hall.imp ((loops_of rfl).trans (by simp [loopsAll, loops_tuple]))
    fun h => ⟨plain_of rfl ?_, trivial⟩
  simp [allPlain, plain_tuple.mpr h.1.1.2]

-- The body of a clause after its colon.
theorem StatementsRead.block {p : Tree} {ts : List Tree} (h : StatementsRead ts c c') :
    Built .block (.block p (.tuple ts)) :=
  .block h.built h.implicit h.trails

theorem StatementsRead.clauseTrails {ts : List Tree} (h : StatementsRead ts c c')
    (htrails : ts.getLast?.any Tree.trails = true) : c'.current.kind = .op .RBrace := by
  cases hlast : ts.getLast? with
  | none =>
      rw [hlast] at htrails
      cases htrails
  | some t =>
      rw [hlast] at htrails
      exact h.last t hlast htrails

-- The values of a clause.
theorem Sound.caseValues {types : Bool} {values : List Tree} (hg : g.Sound) (hs : 0 ≤ s.level)
    (hc : c.Valid)
    (h : (if types then commaList g.typeRule else g.expressionList).Gives s c values c') :
    values ≠ [] ∧ (∀ t ∈ values, Built (.expression true) t) ∧
      (types = true → ∀ t ∈ values, t.isType = true) ∧ ListRead values c c' := by
  rcases gives_ite.mp h with ⟨htypes, h⟩ | ⟨htypes, h⟩
  · obtain ⟨x, xs, d, rfl, hx, hxs⟩ := gives_commaList.mp h
    have hx' := hg.typeRule (by omega) hc hx
    obtain ⟨hread, hall⟩ := listRead_of_commas
      (Q := fun t => Built (.expression true) t ∧ t.isType = true)
      (fun hc h => by
        have hread := hg.typeRule (by omega) hc h
        exact ⟨hread.read.plain, hread.built true, hread.isType⟩)
      hx'.read.plain (afterCommas_of_gives hxs)
    exact ⟨by simp, List.forall_mem_cons.mpr ⟨hx'.built true, fun t ht => (hall t ht).1⟩,
      fun _ => List.forall_mem_cons.mpr ⟨hx'.isType, fun t ht => (hall t ht).2⟩, hread⟩
  · have hread := hg.expressionList (by omega) hc h
    have hbuilt := hread.built
    rw [show s.isFree = true from decide_eq_true hs] at hbuilt
    exact ⟨hread.ne, hbuilt, fun h => absurd h htypes, hread.read⟩

theorem Sound.caseClause {types : Bool} (hg : g.Sound) (hs : 0 ≤ s.level) (hc : c.Valid)
    (h : (g.caseClause types).Gives s c t c') : ClauseRead (.caseClause types) t c c' := by
  simp only [Grammar.caseClause, gives_current_bind] at h
  rcases gives_got_bind.mp h with ⟨hcase, h⟩ | ⟨-, h⟩
  · obtain ⟨values, body, d, hvalues, hcolon, hbody, rfl⟩ : ∃ values body d,
        (if types then commaList g.typeRule else g.expressionList).Gives s c.advance values d ∧
        d.current.kind = .op .Colon ∧ g.statements.Gives s d.advance body c' ∧
        t = .caseClause c.current.place (.tuple values) (.tuple body) := by
      rcases gives_ite.mp h with ⟨-, h⟩ | ⟨htypes, h⟩
      · rcases gives_ite.mp h with ⟨htypes, h⟩ | ⟨htypes, h⟩
        · obtain ⟨values, d, hvalues, h⟩ := gives_bind.mp h
          obtain ⟨hcolon, body, hbody, rfl⟩ := by simpa using h
          exact ⟨values, body, d, by rwa [if_pos htypes], hcolon, hbody, rfl⟩
        · obtain ⟨values, d, hvalues, h⟩ := gives_bind.mp h
          obtain ⟨hcolon, body, hbody, rfl⟩ := by simpa using h
          exact ⟨values, body, d, by rwa [if_neg htypes], hcolon, hbody, rfl⟩
      · exact absurd rfl htypes
    have hcase' := Spans.spaced hc hcase
    obtain ⟨hne, hbuilt, htypes, hread⟩ := hg.caseValues hs hcase'.valid hvalues
    have hcolon' := Spans.operator (Spans.valid hread) hcolon
    obtain ⟨hstmts, hfresh⟩ := hg.statements hs
      ((Spans.valid hread).fresh_advance (by simp [hcolon]) (by rw [hcolon]; rfl)) hbody
    refine ⟨.caseClause hbuilt htypes hstmts.block, ?_, hfresh, hstmts.clauseTrails⟩
    rw [ReadAs, emitted_caseClause, if_neg (by simpa using hne)]
    refine (((hcase'.append hread).append hcolon').append hstmts.read).imp
      ((loops_of rfl).trans (by simp [loopsAll])) fun h => ⟨plain_of rfl ?_, trivial⟩
    simp [allPlain, h.1.1.2, h.2]
  · obtain ⟨hdefault, hcolon, body, hbody, rfl⟩ := by simpa using h
    have hdefault' := Spans.joined hc hdefault hcolon
    obtain ⟨hstmts, hfresh⟩ := hg.statements hs
      ((hc.advance (by simp [hdefault])).fresh_advance (by simp [hcolon]) (by rw [hcolon]; rfl)) hbody
    refine ⟨.caseClause (by simp) (by simp) hstmts.block, ?_, hfresh, hstmts.clauseTrails⟩
    rw [ReadAs, emitted_caseClause]
    refine (hdefault'.append hstmts.read).imp
      ((loops_of rfl).trans (by simp [loopsAll, loops_tuple])) fun h => ⟨plain_of rfl ?_, trivial⟩
    simp [allPlain, plain_tuple.mpr, h.2]

-- The communication of a clause.
theorem Sound.communication (hg : g.Sound) (hs : -1 ≤ s.level) (hc : c.Valid)
    (h : g.communication.Gives s c t c') : SimpleRead s t c c' ∧ t.isCommunication = true := by
  simp only [Grammar.communication, gives_current_bind] at h
  obtain ⟨lhs, d, hlhs, h⟩ := gives_bind.mp h
  have hlhs' := hg.expressionList hs hc hlhs
  simp only [gives_peek_bind] at h
  have hassign : ∀ {o : Operator}, (o = .Assign ∨ o = .Define) → d.current.kind = .op o →
      Gives (do
        if 2 < lhs.length then expected .twoExpressions
        let t ← advance
        let rhs ← g.expressionRule
        return .assign c.current.place (.tuple lhs) (.token t.kind) (.tuple [rhs])) s d t c' →
      SimpleRead s t c c' ∧ t.isCommunication = true := by
    intro o ho hkind h
    rcases gives_ite.mp h with ⟨-, h⟩ | ⟨hlength, h⟩
    · obtain ⟨_, _, h, -⟩ := gives_bind.mp h
      exact absurd h gives_expected
    obtain ⟨rhs, hrhs, rfl⟩ := by simpa using h
    have hrhs' := hg.expressionRule hs (hlhs'.valid.advance (by simp [hkind])) hrhs
    rw [hkind]
    refine ⟨.assign hlhs' hkind ?_ hrhs'.list, ?_⟩
    · rcases ho with rfl | rfl <;> rfl
    · have hlength' : lhs.length ≤ 2 := by omega
      rcases ho with rfl | rfl <;> simp [isCommunication, hlength']
  split at h
  · rename_i x harrow
    obtain ⟨value, hvalue, rfl⟩ := by simpa using h
    exact ⟨hg.send hs (hlhs'.single _ rfl) harrow hvalue, rfl⟩
  · rename_i hkind
    exact hassign (Or.inl rfl) hkind h
  · rename_i hkind
    exact hassign (Or.inr rfl) hkind h
  · obtain ⟨rfl, rfl⟩ := gives_pure.mp h
    exact ⟨.exprStmt (hlhs'.single _ rfl), rfl⟩
  · exact absurd h gives_expected

theorem Sound.commClause (hg : g.Sound) (hs : 0 ≤ s.level) (hc : c.Valid)
    (h : g.commClause.Gives s c t c') : ClauseRead .commClause t c c' := by
  simp only [Grammar.commClause, gives_current_bind] at h
  rcases gives_got_bind.mp h with ⟨hcase, h⟩ | ⟨-, h⟩
  · obtain ⟨comm, d, hcomm, hcolon, body, hbody, rfl⟩ := by simpa using h
    have hcase' := Spans.spaced hc hcase
    obtain ⟨hread, hkind⟩ := hg.communication (by omega) hcase'.valid hcomm
    have hbuilt := hread.built
    rw [show s.isFree = true from decide_eq_true hs] at hbuilt
    have hcolon' := Spans.operator hread.valid hcolon
    obtain ⟨hstmts, hfresh⟩ := hg.statements hs
      (hread.valid.fresh_advance (by simp [hcolon]) (by rw [hcolon]; rfl)) hbody
    have hcommBuilt : ∀ u ∈ some comm, Built (.simple true) u := by
      rintro u ⟨⟩
      exact hbuilt
    refine ⟨.commClause hcommBuilt (by rintro u ⟨⟩; exact hkind) hstmts.block, ?_, hfresh,
      hstmts.clauseTrails⟩
    rw [ReadAs, emitted_commClause, if_neg (by simp [hbuilt.isAbsent])]
    refine (((hcase'.append hread.read).append hcolon').append hstmts.read).imp
      ((loops_of rfl).trans (by simp [loopsAll])) fun h => ⟨plain_of rfl ?_, trivial⟩
    simp [allPlain, h.1.1.2, h.2]
  · obtain ⟨hdefault, hcolon, body, hbody, rfl⟩ := by simpa using h
    have hdefault' := Spans.joined hc hdefault hcolon
    obtain ⟨hstmts, hfresh⟩ := hg.statements hs
      ((hc.advance (by simp [hdefault])).fresh_advance (by simp [hcolon]) (by rw [hcolon]; rfl)) hbody
    have hnone : ∀ u ∈ (none : Option Tree), Built (.simple true) u := by simp
    refine ⟨.commClause hnone (by simp) hstmts.block, ?_, hfresh, hstmts.clauseTrails⟩
    rw [ReadAs, emitted_commClause]
    refine (hdefault'.append hstmts.read).imp
      ((loops_of rfl).trans (by simp [loopsAll])) fun h => ⟨plain_of rfl ?_, trivial⟩
    simp [allPlain, h.2]

theorem clauses_kind {p : Parser Tree} (h : (clauses p).Gives s c t c') :
    c.current.kind = .op .LBrace := by
  obtain ⟨hopen, -⟩ := by simpa [clauses] using h
  exact hopen

theorem isTypeGuard_of_asksType {p x : Tree} (h : x.asksType = true) :
    isTypeGuard (.exprStmt p x) = true := by
  unfold asksType at h
  split at h
  · rfl
  · cases h

-- A switch without anything in its header has no blank after its keyword.
theorem emittedSwitch_words (init tag : Tree) :
    (if init.isAbsent && tag.isAbsent then keyword .Switch
      else spaced .Switch ++ emittedInit init ++ tag.emittedIf (tag.emittedAs .expression)).fault =
        (keyword .Switch ++ (emittedInit init ++ tag.emittedIf (tag.emittedAs .expression))).fault ∧
      (if init.isAbsent && tag.isAbsent then keyword .Switch
        else spaced .Switch ++ emittedInit init ++ tag.emittedIf (tag.emittedAs .expression)).words =
        (keyword .Switch ++ (emittedInit init ++ tag.emittedIf (tag.emittedAs .expression))).words := by
  split
  · rename_i h
    simp only [Bool.and_eq_true] at h
    simp only [emittedInit, emittedIf, h.1, h.2, Bool.not_true, when, Bool.false_eq_true, if_false,
      append_nothing]
    exact ⟨trivial, trivial⟩
  · rw [append_assoc, fault_append (fault_spaced _), fault_append (fault_keyword _),
      words_append (fault_spaced _), words_append (fault_keyword _), words_spaced, words_keyword]
    exact ⟨rfl, rfl⟩

theorem Sound.switchStatement (hg : g.Sound) (hs : 0 ≤ s.level) (hc : c.Valid)
    (h : g.switchStatement.Gives s c t c') : StatementRead t c c' := by
  simp only [Grammar.switchStatement, gives_expect_bind] at h
  obtain ⟨hkind, h⟩ := h
  obtain ⟨⟨init, tag⟩, d, hheader, h⟩ := gives_bind.mp h
  have hword := Spans.spaced hc hkind
  have hread := hg.switchHeader hword.valid hheader
  rcases gives_ite.mp h with ⟨hguard, h⟩ | ⟨hguard, h⟩
  · obtain ⟨body, hbody, rfl⟩ := by simpa using h
    obtain ⟨q, items, rfl, hclauses⟩ :=
      clauses_sound (fun hc h => hg.caseClause hs hc.valid h) hread.read.valid hbody
    cases tag with
    | none => cases hguard
    | some guard =>
        have hbuilt := hread.builtTag guard rfl
        refine ⟨.typeSwitch hread.builtInit hbuilt hguard hclauses.built hclauses.trails, ?_,
          hclauses.fresh, by rintro ⟨⟩, by rintro ⟨⟩⟩
        have hheader' : Spans c.advance (emittedInit (ofOption init) ++
            guard.emittedIf (guard.emittedAs .statement)) ((ofOption init).loops + guard.loops)
            ((ofOption init).plain = true ∧ guard.plain = true) d := hread.read
        rw [emittedIf_of hbuilt.isAbsent] at hheader'
        change Spans c (Tree.emittedAs (.typeSwitch _ _ guard _) .statement) _ _ _
        rw [emitted_typeSwitch, append_assoc (spaced .Switch)]
        refine ((hword.append hheader').append hclauses.read).imp
          ((loops_of rfl).trans ?_) fun h => ⟨plain_of rfl ?_, trivial⟩
        · simp [loopsAll]
          omega
        · simp [allPlain, h.1.2.1, h.1.2.2, h.2]
  · obtain ⟨body, e, hbody, h⟩ := gives_bind.mp h
    obtain ⟨r, f, hr, h⟩ := gives_bind.mp h
    obtain ⟨rfl, rfl⟩ := gives_pure.mp h
    obtain ⟨rfl, hasks⟩ := gives_headerExpression hr
    obtain ⟨q, items, rfl, hclauses⟩ :=
      clauses_sound (fun hc h => hg.caseClause hs hc.valid h) hread.read.valid hbody
    have hbrace := hread.brace (clauses_kind hbody)
    obtain ⟨hbuilt, htakes, hasksType, hheader'⟩ :
        (∀ u ∈ r, Built (.expression false) u) ∧ (∀ u ∈ r, u.takesBrace = false) ∧
          (∀ u ∈ r, u.asksType = false) ∧
          Spans c (keyword .Switch ++ (emittedInit (ofOption init) ++
            (ofOption r).emittedIf ((ofOption r).emittedAs .expression)))
            ((ofOption init).loops + (ofOption r).loops)
            ((ofOption init).plain = true ∧ (ofOption r).plain = true) d := by
      rcases hasks with ⟨rfl, rfl⟩ | ⟨p, x, rfl, rfl⟩
      · exact ⟨by simp, by simp, by simp,
          ((Spans.keyword hc hkind).append hread.read).imp (by simp) fun h => h.2⟩
      · have hbuilt := hread.builtTag _ rfl
        cases hbuilt with
        | exprStmt hx =>
            refine ⟨by rintro u ⟨⟩; exact hx, by rintro u ⟨⟩; exact hbrace _ rfl, ?_, ?_⟩
            · rintro u ⟨⟩
              cases hasksType : x.asksType with
              | false => rfl
              | true => exact absurd (isTypeGuard_of_asksType hasksType) hguard
            · rw [ofOption_some, emittedIf_of hx.isAbsent]
              refine ((Spans.keyword hc hkind).append hread.read).imp ?_ fun h => ⟨h.2.1, ?_⟩
              · have hloop : opensLoop .ExprStmt [x] = false := rfl
                simp [loops_of hloop, loopsAll]
              · have hplain := h.2.2
                simp only [ofOption_some, Tree.plain, allPlain, Bool.and_eq_true] at hplain
                exact hplain.2.1
    refine ⟨.switchStmt hread.builtInit hbuilt htakes hasksType hclauses.built hclauses.trails, ?_,
      hclauses.fresh, by rintro ⟨⟩, by rintro ⟨⟩⟩
    obtain ⟨hfault, hwords⟩ := emittedSwitch_words (ofOption init) (ofOption r)
    have hheader'' := hheader'.replace (hfault.trans hheader'.fault) (by rw [hwords]) (by rw [hwords])
    rw [ReadAs, emitted_switchStmt]
    refine (hheader''.append hclauses.read).imp ((loops_of rfl).trans ?_)
      fun h => ⟨plain_of rfl ?_, trivial⟩
    · simp [loopsAll, Nat.add_assoc]
    · simp [allPlain, h.1.1, h.1.2, h.2]

theorem Sound.selectStatement (hg : g.Sound) (hs : 0 ≤ s.level) (hc : c.Valid)
    (h : g.selectStatement.Gives s c t c') : StatementRead t c c' := by
  obtain ⟨hkind, body, hbody, rfl⟩ := by simpa [Grammar.selectStatement] using h
  have hword := Spans.keyword hc hkind
  obtain ⟨q, items, rfl, hclauses⟩ :=
    clauses_sound (fun hc h => hg.commClause hs hc.valid h) hword.valid hbody
  refine ⟨.selectStmt hclauses.built hclauses.trails, ?_, hclauses.fresh, by rintro ⟨⟩, by rintro ⟨⟩⟩
  rw [ReadAs, emitted_selectStmt]
  refine (hword.append hclauses.read).imp ((loops_of rfl).trans (by simp [loopsAll]))
    fun h => ⟨plain_of rfl ?_, trivial⟩
  simp [allPlain, h.2]

theorem Sound.forStatement (hg : g.Sound) (hs : 0 ≤ s.level) (hc : c.Valid)
    (h : g.forStatement.Gives s c t c') : StatementRead t c c' := by
  simp only [Grammar.forStatement, gives_expect_bind] at h
  obtain ⟨hkind, h⟩ := h
  obtain ⟨header, d, hheader, h⟩ := gives_bind.mp h
  obtain ⟨body, e, hbody, h⟩ := gives_bind.mp h
  rw [gives_expectEnd_bind] at h
  obtain ⟨f, hend, h⟩ := h
  have hloop := hg.loopHeader hc hkind (block_kind hbody) hheader
  cases hloop with
  | @parts init cond post hparts =>
      obtain ⟨r, f, hr, h⟩ := gives_bind.mp h
      obtain ⟨rfl, rfl⟩ := gives_pure.mp h
      obtain ⟨rfl, hasks⟩ := gives_headerExpression hr
      have hread := hparts r hasks
      obtain ⟨hbuilt, -, hblock, -⟩ := hg.block hs hread.read.valid hbody
      refine .ended (.forStmt hread.builtInit hread.builtCond hread.builtPost hread.brace hbuilt)
        ?_ hend rfl rfl
      rw [ReadAs, emitted_forStmt]
      refine (hread.read.append hblock).imp ?_ fun h => ⟨plain_of ?_ ?_, trivial⟩
      · have hopens : opensLoop .ForStmt [ofOption init, ofOption r, ofOption post, body] =
            ((ofOption init).isAbsent && !(ofOption post).isAbsent) := rfl
        rw [Tree.loops, hopens]
        simp only [loopsAll]
        omega
      · simp [isPlainNode, h.1.1]
      · simp [allPlain, h.1.2.1, h.1.2.2.1, h.1.2.2.2, h.2.1]
  | rangeAll hx hbrace hread =>
      obtain ⟨rfl, rfl⟩ := gives_pure.mp h
      obtain ⟨hbuilt, -, hblock, -⟩ := hg.block hs hread.valid hbody
      refine .ended (.rangeAll hx hbrace hbuilt) ?_ hend rfl rfl
      rw [ReadAs, emitted_rangeAll]
      refine (hread.append hblock).imp ((loops_of rfl).trans (by simp [loopsAll]))
        fun h => ⟨plain_of rfl ?_, trivial⟩
      simp [allPlain, h.1, h.2.1]
  | @range vars o x hvars hne ho hx hbrace hread =>
      obtain ⟨hbuilt, -, hblock, -⟩ := hg.block hs hread.valid hbody
      rcases vars with _ | ⟨key, _ | ⟨value, _ | ⟨other, vars⟩⟩⟩
      · exact absurd rfl hne
      · obtain ⟨rfl, rfl⟩ := gives_pure.mp h
        have hkey := hvars key (by simp)
        have hnone : ∀ u ∈ (none : Option Tree), Built (.expression false) u := by simp
        refine .ended (.rangeStmt hkey hnone ho hx hbrace hbuilt) ?_ hend rfl rfl
        rw [ReadAs, emitted_rangeStmt _ _ _ _ _ _ hkey.isAbsent]
        change Spans c (spaced .For ++ key.emittedAs .expression ++ nothing ++ operator o ++
          spaced .Range ++ x.emittedAs .expression ++ body.emittedAs .block) _ _ _
        rw [append_nothing]
        refine (hread.append hblock).imp
          ((loops_of rfl).trans (by simp [loopsAll, loops_tuple, Nat.add_assoc]))
          fun h => ⟨plain_of rfl ?_, trivial⟩
        have hplain := plain_tuple.mp h.1.1 key (by simp)
        simp [allPlain, hplain, h.1.2, h.2.1]
      · obtain ⟨rfl, rfl⟩ := gives_pure.mp h
        have hkey := hvars key (by simp)
        have hvalue := hvars value (by simp)
        have hsome : ∀ u ∈ some value, Built (.expression false) u := by
          rintro u ⟨⟩
          exact hvalue
        refine .ended (.rangeStmt hkey hsome ho hx hbrace hbuilt) ?_ hend rfl rfl
        rw [ReadAs, emitted_rangeStmt _ _ _ _ _ _ hkey.isAbsent,
          emittedIf_of hvalue.isAbsent, append_assoc (spaced .For)]
        refine (hread.append hblock).imp
          ((loops_of rfl).trans (by simp [loopsAll, loops_tuple, Nat.add_assoc]))
          fun h => ⟨plain_of rfl ?_, trivial⟩
        have hplain := plain_tuple.mp h.1.1 key (by simp)
        have hplain' := plain_tuple.mp h.1.1 value (by simp)
        simp [allPlain, hplain, hplain', h.1.2, h.2.1]
      · exact absurd h gives_refuseAt

-- A simple statement with its end, or one with a label.
theorem Sound.endedSimple (hg : g.Sound) (hs : 0 ≤ s.level) (hc : c.Valid)
    (h : g.endedSimple.Gives s c t c') : StatementRead t c c' := by
  obtain ⟨stmt, d, hstmt, h⟩ := gives_bind.mp h
  rcases hg.simpleOrLabeled (by omega) (fun _ => hs) hc hstmt with ⟨hread, hlabel⟩ |
    ⟨-, hlabel, hread⟩
  · rw [if_neg (by simp [hlabel])] at h
    obtain ⟨hend, rfl⟩ := by simpa using h
    have hbuilt := hread.built
    rw [show s.isFree = true from decide_eq_true hs] at hbuilt
    refine .ended (.simpleStmt hbuilt) hread.read hend ?_ ?_
    · cases hbuilt <;> rfl
    · cases hbuilt <;> rfl
  · rw [if_pos hlabel] at h
    obtain ⟨rfl, rfl⟩ := gives_pure.mp h
    exact hread

theorem Sound.declarationStatement {start : Token} {k : Keyword} (hg : g.Sound) (hs : 0 ≤ s.level)
    (hc : c.Valid) (hk : k = .Const ∨ k = .Type ∨ k = .Var)
    (h : (g.declarationStatement start k).Gives s c t c') : StatementRead t c c' := by
  obtain ⟨decl, hdecl, rfl⟩ := by simpa [Grammar.declarationStatement] using h
  obtain ⟨hread, p, specs, grouped, rfl⟩ := hg.genDecl hs hc (Or.inr hk) hdecl
  refine ⟨.declStmt hread.built ?_, ?_, hread.fresh, by rintro ⟨⟩, by rintro ⟨⟩⟩
  · rcases hk with rfl | rfl | rfl <;> simp
  · rw [ReadAs, emitted_declStmt]
    refine hread.read.imp ((loops_of rfl).trans (by simp [loopsAll]))
      fun h => ⟨plain_of rfl ?_, trivial⟩
    simp [allPlain, h]

-- The call of a `go` or `defer` statement.
theorem Sound.callStatement {word : CallWord} (hg : g.Sound) (hs : 0 ≤ s.level) (hc : c.Valid)
    (h : (g.callStatement word).Gives s c t c') :
    Built (.expression true) t ∧ t.is .CallExpr = true ∧ t.ReadAs .expression c True c' := by
  obtain ⟨x, d, hx, h⟩ := gives_bind.mp h
  have hx' := hg.expressionRule (by omega) hc hx
  have hbuilt := hx'.built
  rw [show s.isFree = true from decide_eq_true hs] at hbuilt
  rcases gives_ite.mp h with ⟨-, h⟩ | ⟨-, h⟩
  · exact absurd h gives_refuse
  rcases gives_ite.mp h with ⟨hcall, h⟩ | ⟨-, h⟩
  · obtain ⟨rfl, rfl⟩ := gives_pure.mp h
    exact ⟨hbuilt, hcall, hx'.read.imp rfl fun h => ⟨h.1, trivial⟩⟩
  · exact absurd h gives_refuse

theorem Sound.goStatement {start : Token} (hg : g.Sound) (hs : 0 ≤ s.level) (hc : c.Valid)
    (hkind : c.current.kind = .word .Go) (h : (g.goStatement start).Gives s c t c') :
    StatementRead t c c' := by
  obtain ⟨call, d, hcall, hend, rfl⟩ := by simpa [Grammar.goStatement] using h
  have hword := Spans.spaced hc hkind
  obtain ⟨hbuilt, hisCall, hread⟩ := hg.callStatement hs hword.valid hcall
  refine .ended (.goStmt hbuilt hisCall) ?_ hend rfl rfl
  rw [ReadAs, emitted_goStmt]
  refine (hword.append hread).imp ((loops_of rfl).trans (by simp [loopsAll]))
    fun h => ⟨plain_of rfl ?_, trivial⟩
  simp [allPlain, h.2]

theorem Sound.deferStatement {start : Token} (hg : g.Sound) (hs : 0 ≤ s.level) (hc : c.Valid)
    (hkind : c.current.kind = .word .Defer) (h : (g.deferStatement start).Gives s c t c') :
    StatementRead t c c' := by
  obtain ⟨call, d, hcall, hend, rfl⟩ := by simpa [Grammar.deferStatement] using h
  have hword := Spans.spaced hc hkind
  obtain ⟨hbuilt, hisCall, hread⟩ := hg.callStatement hs hword.valid hcall
  refine .ended (.deferStmt hbuilt hisCall) ?_ hend rfl rfl
  rw [ReadAs, emitted_deferStmt]
  refine (hword.append hread).imp ((loops_of rfl).trans (by simp [loopsAll]))
    fun h => ⟨plain_of rfl ?_, trivial⟩
  simp [allPlain, h.2]

theorem Sound.returnStatement {start : Token} (hg : g.Sound) (hs : 0 ≤ s.level) (hc : c.Valid)
    (hkind : c.current.kind = .word .Return) (h : (g.returnStatement start).Gives s c t c') :
    StatementRead t c c' := by
  obtain ⟨results, d, hresults, hend, rfl⟩ := by simpa [Grammar.returnStatement] using h
  have hword := Spans.keyword hc hkind
  simp only [Grammar.returned, gives_peek_bind] at hresults
  have hempty : results = [] → d = c.advance →
      StatementRead (.returnStmt start.place (.tuple results)) c c' := by
    rintro rfl rfl
    refine .ended (.returnStmt (by simp)) ?_ hend rfl rfl
    rw [ReadAs, emitted_returnStmt]
    exact (hword.append (Spans.nothing hword.valid)).imp
      ((loops_of rfl).trans (by simp [loopsAll, loops_tuple])) fun _ => ⟨rfl, trivial⟩
  split at hresults
  · obtain ⟨rfl, rfl⟩ := gives_pure.mp hresults
    exact hempty rfl rfl
  · obtain ⟨rfl, rfl⟩ := gives_pure.mp hresults
    exact hempty rfl rfl
  · have hread := hg.expressionList (by omega) hword.valid hresults
    have hbuilt := hread.built
    rw [show s.isFree = true from decide_eq_true hs] at hbuilt
    refine .ended (.returnStmt hbuilt) ?_ hend rfl rfl
    have hne : (!results.isEmpty) = true := by simpa using hread.ne
    rw [ReadAs, emitted_returnStmt, hne]
    refine (hword.append ((Spans.blank hword.valid).append hread.read)).imp
      ((loops_of rfl).trans (by simp [loopsAll])) fun h => ⟨plain_of rfl ?_, trivial⟩
    simp [allPlain, h.2.2]

theorem branchStatement_sound {k : Keyword} (hc : c.Valid) (hkind : c.current.kind = .word k)
    (hk : isBranch k = true) (h : (branchStatement c.current k).Gives s c t c') :
    StatementRead t c c' := by
  obtain ⟨label, d, hlabel, hend, rfl⟩ := by simpa [branchStatement] using h
  have hword := Spans.keyword hc hkind
  rw [hkind]
  simp only [branchLabel, gives_peek_bind] at hlabel
  rcases gives_ite.mp hlabel with ⟨hcond, hlabel⟩ | ⟨-, hlabel⟩
  · obtain ⟨p, x, rfl, hx, -, -, hspans⟩ := ident_sound hword.valid hlabel
    have hsome : ∀ u ∈ some (Tree.ident p (.text x)), Built .name u := by
      rintro u ⟨⟩
      exact .name hx
    refine .ended (.branch hk hsome fun h => absurd h hcond.1) ?_ hend rfl rfl
    rw [ReadAs, emitted_branch]
    exact (hword.append ((Spans.blank hword.valid).append hspans)).imp
      ((loops_of rfl).trans (by simp [loopsAll])) fun _ => ⟨rfl, trivial⟩
  · obtain ⟨rfl, rfl⟩ := gives_pure.mp hlabel
    have hnone : ∀ u ∈ (none : Option Tree), Built .name u := by simp
    refine .ended (.branch hk hnone fun _ => rfl) ?_ hend rfl rfl
    rw [ReadAs, emitted_branch]
    exact (hword.append (Spans.nothing hword.valid)).imp
      ((loops_of rfl).trans (by simp [loopsAll])) fun _ => ⟨rfl, trivial⟩

theorem Sound.blockStatement (hg : g.Sound) (hs : 0 ≤ s.level) (hc : c.Valid)
    (h : g.blockStatement.Gives s c t c') : StatementRead t c c' := by
  obtain ⟨body, d, hbody, h⟩ := gives_bind.mp h
  obtain ⟨hend, rfl⟩ := by simpa using h
  obtain ⟨hbuilt, -, -, hread⟩ := hg.block hs hc hbody
  refine .ended (.blockStmt hbuilt) hread hend ?_ ?_
  · cases hbuilt
    rfl
  · cases hbuilt
    rfl

theorem Sound.statementHere (hg : g.Sound) (hs : 0 ≤ s.level) (hc : c.Fresh)
    (h : g.statementHere.Gives s c t c') : StatementRead t c c' := by
  have hvalid := hc.valid
  simp only [Grammar.statementHere, gives_current_bind] at h
  rcases gives_ite.mp h with ⟨-, h⟩ | ⟨-, h⟩
  · exact hg.endedSimple hs hvalid h
  split at h
  · exact hg.declarationStatement hs hvalid (by simp) h
  · exact hg.declarationStatement hs hvalid (by simp) h
  · exact hg.declarationStatement hs hvalid (by simp) h
  · exact hg.goStatement hs hvalid (by assumption) h
  · exact hg.deferStatement hs hvalid (by assumption) h
  · exact hg.returnStatement hs hvalid (by assumption) h
  · exact (hg.ifRule hs hvalid h).1
  · exact hg.switchStatement hs hvalid h
  · exact hg.selectStatement hs hvalid h
  · exact hg.forStatement hs hvalid h
  · rename_i hkind _
    rcases gives_ite.mp h with ⟨hk, h⟩ | ⟨-, h⟩
    · exact branchStatement_sound hvalid (by assumption) hk h
    · exact absurd h gives_expected
  · exact hg.blockStatement hs hvalid h
  · rename_i hkind
    obtain ⟨rfl, rfl⟩ := by simpa using h
    have htext : (c.current.text == lineEnd) = false := by
      rw [beq_eq_false_iff_ne]
      intro htext
      have hline : c.current.toLexeme = ⟨.op .Semicolon, lineEnd⟩ := by rw [← hkind, ← htext]
      exact hc.text_ne_lineEnd hline
    rw [htext]
    refine ⟨.emptyStmt, ?_, hvalid.fresh_advance (by simp [hkind]) (by rw [hkind]; rfl),
      by rintro ⟨⟩, by rintro ⟨⟩⟩
    rw [ReadAs, emitted_emptyStmt]
    exact (Spans.operator hvalid hkind).imp rfl fun _ => ⟨rfl, trivial⟩
  · rename_i hkind
    obtain ⟨rfl, rfl⟩ := gives_pure.mp h
    refine ⟨.emptyStmt, ?_, hc, fun _ => hkind, fun _ => hkind⟩
    rw [ReadAs, emitted_emptyStmt]
    exact (Spans.nothing hvalid).imp rfl fun _ => ⟨rfl, trivial⟩
  · exact absurd h gives_expected

-- Rules over sound parts are sound.
theorem Sound.extend (hg : g.Sound) : g.extend.Sound where
  binary hleast hsix hs hc h := hg.binaryRule hs hleast hsix hc h
  unary hs hc h := hg.unaryRule hs hc h
  type? hs hc h := hg.typeRule? hs hc h
  bareLiteral hs hc h := hg.bareLiteralValue hs hc h
  statement {s _ _ _} hs hc h := hg.statementHere (s := s.deeper) hs hc (gives_nested.mp h).2
  ifStatement hs hc h := hg.ifRule hs hc h

theorem sound_empty : empty.Sound where
  binary _ _ _ _ h := absurd h gives_refuse
  unary _ _ h := absurd h gives_refuse
  type? _ _ h := absurd h gives_refuse
  bareLiteral _ _ h := absurd h gives_refuse
  statement _ _ h := absurd h gives_refuse
  ifStatement _ _ h := absurd h gives_refuse

theorem sound_upTo (n : Nat) : (upTo n).Sound := by
  induction n with
  | zero => exact sound_empty
  | succ n ih => exact ih.extend

end GoCompact.Grammar
