import GoCompact.Proofs.Reread.Statement

namespace GoCompact

namespace Tree

open GoCompact.Parser GoCompact.Grammar Cursor
open Emission (Spells)

variable {n : Nat} {s : Scope} {m : Nat} {p t x cond body : Tree} {init : Option Tree}
  {P : TokenKind → Prop}

theorem statementWords_exprStmt (p x : Tree) : (Tree.exprStmt p x).statementWords = x.words := rfl

-- The simple statement that a condition or a tag is read as.
def asStatement (x : Tree) : Tree := .exprStmt .unknownPlace x

@[simp]
theorem bare_asStatement (x : Tree) : x.asStatement.bare = x.bare.asStatement := by
  simp [asStatement]

-- A brace begins the body after a simple statement in a header.
theorem SimpleStops.of_brace (h : t.endTakesBrace = false) (s : Scope) {k : TokenKind}
    (hk : k = .op .LBrace) : t.SimpleStops s.header k :=
  .body hk rfl h

-- A simple statement in a header.
theorem SimpleReads.takes_header (h : t.SimpleReads false) (hroom : Room (n + 1) s m 1)
    (hlength : t.statementWords.length ≤ m) :
    ((upTo n).simpleStatement false).Takes s.header t.statementWords t.bare
      (t.SimpleStops s.header) :=
  h.takes false (hroom.mono hlength).header nofun

-- The statement before the condition or the tag of a header, with its semicolon.
def initWords (init : Option Tree) : List Lexeme :=
  init.elim [] fun t => t.statementWords ++ [.ofOperator .Semicolon]

theorem spells_init (h : ∀ t ∈ init, t.SimpleReads false) :
    ((ofOption init).emittedIf
      ((ofOption init).emittedAs .statement ++ .operator .Semicolon)).Spells (initWords init) :=
  spells_optional (fun t => t.emittedAs .statement ++ .operator .Semicolon)
    (fun t ht => (h t ht).isAbsent) fun t ht => (h t ht).spells.append (.operator _)

theorem takes_ifFirst (h : t.SimpleReads false) (hroom : Room (n + 1) s m 1)
    (hlength : t.statementWords.length ≤ m) :
    (upTo n).ifFirst.Takes s.header t.statementWords (some t.bare) (t.SimpleStops s.header) := by
  refine takes_peek_next h.begins.next fun k hk => ?_
  split
  · cases hk
  · cases hk
  · exact (h.takes_header hroom hlength).map some

theorem takes_ifClauses (hinit : ∀ t ∈ init, t.SimpleReads false) (hcond : x.Reads false)
    (hbrace : x.takesBrace = false) (hroom : Room (n + 1) s m 1)
    (hlength : (initWords init ++ x.words).length ≤ m) :
    (upTo n).ifClauses.Takes s.header (initWords init ++ x.words) (init.map bare, some x.bare)
      (· = .op .LBrace) := by
  have hread : x.asStatement.SimpleReads false := reads_exprStmt hcond
  have hend : x.asStatement.endTakesBrace = false := hbrace
  rw [List.length_append] at hlength
  cases init with
  | none =>
      refine Takes.bind_nil ((takes_ifFirst hread hroom ?_).mono ?_) ?_
      · simp only [asStatement, statementWords_exprStmt]
        omega
      · exact fun k hk => .of_brace hend s hk
      · refine takes_peek_next (.nil fun _ h => h) ?_
        rintro k rfl
        exact takes_pure (by simp)
  | some t =>
      have ht := hinit t rfl
      simp only [initWords, Option.elim, List.length_append, List.length_singleton] at hlength
      simp only [initWords, Option.elim, List.append_assoc, List.singleton_append]
      refine (takes_ifFirst ht hroom (by omega)).bind (.cons (.ending (.inl rfl)) _) ?_
      refine takes_peek_bind ?_
      rw [if_pos (Lexeme.kind_ofOperator _)]
      refine takes_advance_bind ?_
      rw [if_neg (by decide)]
      refine Takes.bind_nil (takes_peek_next hcond.begins.next fun k hk => ?_) (takes_pure rfl)
      rw [if_neg (by rintro rfl; cases hk)]
      have hread' := hread.takes_header hroom
        (by simp only [asStatement, statementWords_exprStmt]; omega)
      refine (hread'.mono fun k hk => .of_brace hend s hk).bind_nil ?_
      exact takes_pure (by simp)

-- A header begins with a simple statement, so it does not begin with a brace.
theorem begins_header (hinit : ∀ t ∈ init, t.SimpleReads false) (hcond : x.Reads false) :
    Begins (beginsSimple · = true) (initWords init ++ x.words) := by
  cases init with
  | none => exact hcond.begins
  | some t => exact ((hinit t rfl).begins.append _).append _

theorem takes_ifHeader (hinit : ∀ t ∈ init, t.SimpleReads false) (hcond : x.Reads false)
    (hbrace : x.takesBrace = false) (hroom : Room (n + 1) s m 1)
    (hlength : (initWords init ++ x.words).length ≤ m) :
    (upTo n).ifHeader.Takes s (initWords init ++ x.words) (ofOption (init.map bare), x.bare)
      (· = .op .LBrace) := by
  have hclauses := takes_ifClauses hinit hcond hbrace hroom hlength
  refine takes_peek_next (begins_header hinit hcond).next fun k hk => ?_
  rw [if_neg (by rintro rfl; cases hk)]
  exact hclauses.inHeader.bind_nil (takes_pure rfl)

-- The other branch of an `if`.
def elseWords (otherwise : Option Tree) : List Lexeme :=
  otherwise.elim [] fun t => .ofKeyword .Else :: t.statementWords

theorem spells_otherwise {otherwise : Option Tree} (h : ∀ t ∈ otherwise, t.StatementReads)
    (hkind : ∀ t ∈ otherwise, t.is .IfStmt = true ∨ t.is .BlockStmt = true) :
    (Rule.otherwise ⟨ofOption otherwise, (ofOption otherwise).emittedAs⟩).Spells
      (elseWords otherwise) := by
  cases otherwise with
  | none => exact .nothing
  | some t =>
      have ht := h t rfl
      rcases hkind t rfl with hif | hblock
      · rw [ofOption_some, otherwise_if hif]
        exact (Spells.spaced _).append ht.spells
      · rw [ofOption_some, otherwise_block hblock]
        exact (Spells.keyword _).append (ht.blocks hblock).spells

theorem takes_elseBranch {otherwise : Option Tree} {tail : List Lexeme}
    (h : ∀ t ∈ otherwise, t.StatementReads)
    (hkind : ∀ t ∈ otherwise, t.is .IfStmt = true ∨ t.is .BlockStmt = true)
    (hroom : Room (n + 1) s m 1) (hlength : (elseWords otherwise).length < m)
    (hfree : s.isFree = true) (hending : Ending tail P) :
    (upTo n).elseBranch.Takes s (elseWords otherwise ++ tail) (ofOption otherwise).bare P := by
  cases otherwise with
  | none =>
      refine takes_not_got (hending.next.mono ?_) (hending.takes_expectEnd (takes_pure rfl))
      rintro k (hk | hk) rfl <;> cases hk
  | some t =>
      have ht := h t rfl
      simp only [elseWords, Option.elim, List.length_cons] at hlength
      refine takes_got_bind rfl ?_
      rcases hkind t rfl with hif | hblock
      · have hread := ht.ifs hif
        refine takes_peek_next (hread.begins.append tail).next ?_
        rintro k rfl
        have hroom' : Room n s t.statementWords.length 1 :=
          hroom.inner (by omega) (by decide) 1
        cases n with
        | zero => exact absurd hroom'.rules (Nat.not_le.mpr hread.begins.length_pos)
        | succ n => exact hread.takes hroom' hfree hending
      · have hread := ht.blocks hblock
        refine takes_peek_next (hread.begins.append tail).next ?_
        rintro k rfl
        refine (hread.takes (hroom.mono (by omega)) hfree).bind (fun _ _ _ => trivial) ?_
        exact hending.takes_expectEnd (takes_pure rfl)

theorem spells_ifStmt {otherwise : Option Tree} (hinit : ∀ t ∈ init, t.SimpleReads false)
    (hcond : x.Reads false) (hbody : body.BlockReads) (helse : ∀ t ∈ otherwise, t.StatementReads)
    (hkind : ∀ t ∈ otherwise, t.is .IfStmt = true ∨ t.is .BlockStmt = true) :
    ((Tree.ifStmt p (.ofOption init) x body (.ofOption otherwise)).emittedAs .statement).Spells
      (.ofKeyword .If :: (initWords init ++ x.words ++ (body.statementWords ++
        elseWords otherwise))) := by
  rw [emitted_ifStmt]
  exact (((((Spells.spaced _).append (spells_init hinit)).append hcond.spells).append
    hbody.spells).append (spells_otherwise helse hkind)).of_eq (by simp)

theorem reads_ifStmt {otherwise : Option Tree} (hinit : ∀ t ∈ init, t.SimpleReads false)
    (hcond : x.Reads false) (hbrace : x.takesBrace = false) (hbody : body.BlockReads)
    (helse : ∀ t ∈ otherwise, t.StatementReads)
    (hkind : ∀ t ∈ otherwise, t.is .IfStmt = true ∨ t.is .BlockStmt = true) :
    (Tree.ifStmt p (.ofOption init) x body (.ofOption otherwise)).StatementReads := by
  have hspells := spells_ifStmt (p := p) hinit hcond hbody helse hkind
  generalize ht : Tree.ifStmt p (.ofOption init) x body (.ofOption otherwise) = t at hspells ⊢
  have hwords : t.statementWords = _ := hspells.words
  have hread : t.IfReads := by
    refine ⟨⟨_, _, hwords, rfl⟩, ?_⟩
    intro n s tail P hroom hfree hending
    have hlength : t.statementWords.length = _ := congrArg List.length hwords
    simp only [List.length_cons, List.length_append] at hlength
    have hheader := takes_ifHeader hinit hcond hbrace hroom (by simp; omega)
    have hblock := hbody.takes (hroom.mono (by omega)) hfree
    have helse' := takes_elseBranch helse hkind hroom (by omega) hfree hending
    rw [show t.statementWords ++ tail = .ofKeyword .If :: ((initWords init ++ x.words) ++
      (body.statementWords ++ (elseWords otherwise ++ tail))) by simp [hwords]]
    refine takes_expect_bind rfl (hheader.bind (hbody.begins.append _).next ?_)
    refine hblock.bind (fun _ _ _ => trivial) (helse'.bind_nil ?_)
    exact takes_pure (by simp [← ht])
  refine .of_here (hwords ▸ hspells) ⟨_, _, hwords, rfl⟩ (by rw [← ht]; rfl) ?_ (fun _ => hread)
    (by rw [← ht]; nofun)
  intro n s tail P hroom hfree hending _
  have htakes := hread.takes hroom hfree hending
  rw [hwords] at htakes ⊢
  refine takes_current_bind ?_
  rw [if_neg (by decide)]
  exact htakes

-- A simple statement that may be left out.
def simpleWords (o : Option Tree) : List Lexeme := o.elim [] statementWords

-- The parts of a loop. Semicolons stand between them unless there is at most a condition.
def loopWords (init cond post : Option Tree) : List Lexeme :=
  if init.isNone && post.isNone then boundWords cond
  else simpleWords init ++ .ofOperator .Semicolon ::
    (boundWords cond ++ .ofOperator .Semicolon :: simpleWords post)

section Loop

variable {cond post : Option Tree}

theorem spells_simple {o : Option Tree} (h : ∀ t ∈ o, t.SimpleReads false) :
    ((ofOption o).emittedIf ((ofOption o).emittedAs .statement)).Spells (simpleWords o) :=
  spells_optional (·.emittedAs .statement) (fun t ht => (h t ht).isAbsent)
    fun t ht => (h t ht).spells

theorem spells_loop (hinit : ∀ t ∈ init, t.SimpleReads false) (hcond : ∀ t ∈ cond, t.Reads false)
    (hpost : ∀ t ∈ post, t.SimpleReads false) :
    (emittedLoop (.ofOption init) (.ofOption cond) (.ofOption post)).Spells
      (.ofKeyword .For :: loopWords init cond post) := by
  have habsent : ∀ {o : Option Tree}, (∀ t ∈ o, t.isAbsent = false) →
      (ofOption o).isAbsent = o.isNone := by
    intro o ho
    cases o with
    | none => rfl
    | some t => exact ho t rfl
  have hcond' := spells_optional (·.emittedAs .expression) (fun t ht => (hcond t ht).isAbsent)
    fun t ht => (hcond t ht).spells
  unfold emittedLoop loopWords
  rw [habsent fun t ht => (hinit t ht).isAbsent, habsent fun t ht => (hpost t ht).isAbsent,
    habsent fun t ht => (hcond t ht).isAbsent]
  split
  · cases cond with
    | none => exact .keyword _
    | some x => exact (Spells.spaced _).append (hcond x rfl).spells
  · exact (((((Spells.spaced _).append (spells_simple hinit)).append (.operator _)).append
      hcond').append (.operator _)).append (spells_simple hpost) |>.of_eq (by simp [boundWords])

-- The condition and the last part, after the first one.
theorem takes_loopAfter (hcond : ∀ t ∈ cond, t.Reads false)
    (hpost : ∀ t ∈ post, t.SimpleReads false) (hbrace : ∀ t ∈ post, t.endTakesBrace = false)
    (hroom : Room (n + 1) s m 1)
    (hlength : (boundWords cond).length + (simpleWords post).length ≤ m) (first : Option Tree) :
    ((upTo n).loopAfter first).Takes s.header
      (.ofOperator .Semicolon :: (boundWords cond ++ .ofOperator .Semicolon :: simpleWords post))
      (.parts first (cond.map fun x => x.bare.asStatement) (post.map bare)) (· = .op .LBrace) := by
  have hcond' : (upTo n).loopCondition.Takes s.header (boundWords cond)
      (cond.map fun x => x.bare.asStatement) (· = .op .Semicolon) := by
    cases cond with
    | none =>
        refine takes_peek_next (.nil fun _ h => h) ?_
        rintro k rfl
        exact takes_pure rfl
    | some x =>
        have hread : x.asStatement.SimpleReads false := reads_exprStmt (hcond x rfl)
        refine takes_peek_next hread.begins.next fun k hk => ?_
        rw [if_neg (by rintro rfl; cases hk)]
        have hread' := (hread.takes_header hroom (by
          simp only [boundWords, Option.elim] at hlength
          simp only [asStatement, statementWords_exprStmt]
          omega)).map some
        rw [bare_asStatement] at hread'
        exact hread'.mono fun k hk => .ending (.inl hk)
  have hpost' : (upTo n).loopPost.Takes s.header (simpleWords post) (post.map bare)
      (· = .op .LBrace) := by
    cases post with
    | none =>
        refine takes_peek_next (.nil fun _ h => h) ?_
        rintro k rfl
        exact takes_pure rfl
    | some t =>
        have ht := hpost t rfl
        refine takes_peek_next ht.begins.next fun k hk => ?_
        rw [if_neg (by rintro rfl; cases hk)]
        have hread := (ht.takes_header hroom (by
          simp only [simpleWords, Option.elim] at hlength
          omega)).map some
        exact hread.mono fun k hk => .of_brace (hbrace t rfl) s hk
  refine takes_got_bind rfl (hcond'.bind (.cons (by rfl) _) (takes_discard_expect rfl ?_))
  exact hpost'.bind_nil (takes_pure rfl)

theorem takes_loopHeader (hinit : ∀ t ∈ init, t.SimpleReads false)
    (hcond : ∀ t ∈ cond, t.Reads false) (hpost : ∀ t ∈ post, t.SimpleReads false)
    (hbrace : ∀ t ∈ post, t.endTakesBrace = false)
    (hlone : init = none → post = none → ∀ t ∈ cond, t.takesBrace = false)
    (hroom : Room (n + 1) s m 1) (hlength : (loopWords init cond post).length ≤ m) :
    (upTo n).loopHeader.Takes s (loopWords init cond post)
      (.parts (init.map bare) (cond.map fun x => x.bare.asStatement) (post.map bare))
      (· = .op .LBrace) := by
  unfold loopWords at hlength ⊢
  split at hlength
  next hnone =>
    simp only [Bool.and_eq_true, Option.isNone_iff_eq_none] at hnone
    obtain ⟨rfl, rfl⟩ := hnone
    rw [if_pos (by rfl)]
    cases cond with
    | none =>
        refine takes_peek_next (.nil fun _ h => h) ?_
        rintro k rfl
        exact takes_pure rfl
    | some x =>
        have hx := hcond x rfl
        have hread : x.asStatement.SimpleReads false := reads_exprStmt hx
        have hend : x.asStatement.endTakesBrace = false := hlone rfl rfl x rfl
        refine takes_peek_next hx.begins.next fun k hk => ?_
        rw [if_neg (by rintro rfl; cases hk)]
        refine Takes.inHeader (takes_peek_next hx.begins.next fun k hk => ?_)
        split
        · cases hk
        · cases hk
        · have hafter : ((upTo n).loopAfter (some x.asStatement.bare)).Takes s.header []
              (.parts none (some x.bare.asStatement) none) (· = .op .LBrace) := by
            rw [bare_asStatement]
            refine takes_not_got (.nil ?_) (takes_pure rfl)
            rintro k rfl
            decide
          have hfirst := hread.first (hroom.mono hlength).header nofun
            (.nil fun k hk => .of_brace hend s hk) hafter
          rwa [List.append_nil] at hfirst
  next hsome =>
    rw [if_neg hsome]
    simp only [List.length_append, List.length_cons] at hlength
    have hafter := takes_loopAfter hcond hpost hbrace hroom (by omega)
    cases init with
    | none =>
        refine takes_peek_bind ?_
        rw [if_neg (by decide)]
        exact Takes.inHeader (takes_peek_bind (hafter none))
    | some t =>
        have ht := hinit t rfl
        have hbegins := ht.begins.append (.ofOperator .Semicolon ::
          (boundWords cond ++ .ofOperator .Semicolon :: simpleWords post))
        refine takes_peek_next hbegins.next fun k hk => ?_
        rw [if_neg (by rintro rfl; cases hk)]
        refine Takes.inHeader (takes_peek_next hbegins.next fun k hk => ?_)
        split
        · cases hk
        · cases hk
        · simp only [simpleWords, Option.elim] at hlength
          exact ht.first (hroom.mono (by omega)).header nofun (.cons (.ending (.inl rfl)) _)
            (hafter _)

-- What a loop is read as after its header and its body.
def loopFrom (start : Token) (body : Tree) : LoopHeader → Parser Tree
  | .parts init cond post => do
    let cond ← headerExpression .loopCondition cond
    return .forStmt start.place (.ofOption init) (.ofOption cond) (.ofOption post) body
  | .range [] _ x => return .rangeStmt start.place .absent .absent .absent x body
  | .range [key] op x => return .rangeStmt start.place key .absent (.token op) x body
  | .range [key, value] op x => return .rangeStmt start.place key value (.token op) x body
  | .range _ _ _ => refuseAt .tooManyRangeVariables start

theorem forStatement_eq (g : Grammar) :
    g.forStatement = (do
      let start ← expect (.word .For)
      let header ← g.loopHeader
      let body ← g.block
      expectEnd
      loopFrom start body header) :=
  rfl

theorem takes_loop {header : LoopHeader} {ls tail : List Lexeme}
    (hheader : (upTo n).loopHeader.Takes s ls header (· = .op .LBrace)) (hbody : body.BlockReads)
    (hblock : (upTo n).block.Takes s body.statementWords body.bare fun _ => True)
    (hending : Ending tail P)
    (hloop : (loopFrom (Lexeme.ofKeyword .For).bare body.bare header).Takes s [] t P) :
    (upTo n).statementHere.Takes s (.ofKeyword .For :: (ls ++ (body.statementWords ++ tail))) t P := by
  refine takes_current_bind ?_
  rw [if_neg (by decide)]
  change ((upTo n).forStatement).Takes _ _ _ _
  rw [forStatement_eq]
  refine takes_expect_bind rfl (hheader.bind (hbody.begins.append _).next ?_)
  exact hblock.bind (fun _ _ _ => trivial) (hending.takes_expectEnd hloop)

theorem spells_forStmt (hinit : ∀ t ∈ init, t.SimpleReads false)
    (hcond : ∀ t ∈ cond, t.Reads false) (hpost : ∀ t ∈ post, t.SimpleReads false)
    (hbody : body.BlockReads) :
    ((Tree.forStmt p (.ofOption init) (.ofOption cond) (.ofOption post) body).emittedAs
      .statement).Spells (.ofKeyword .For :: (loopWords init cond post ++ body.statementWords)) := by
  rw [emitted_forStmt]
  exact (spells_loop hinit hcond hpost).append hbody.spells

theorem reads_forStmt (hinit : ∀ t ∈ init, t.SimpleReads false)
    (hcond : ∀ t ∈ cond, t.Reads false) (hpost : ∀ t ∈ post, t.SimpleReads false)
    (hbrace : ∀ t ∈ post, t.endTakesBrace = false)
    (hlone : init = none → post = none → ∀ t ∈ cond, t.takesBrace = false)
    (hbody : body.BlockReads) :
    (Tree.forStmt p (.ofOption init) (.ofOption cond) (.ofOption post) body).StatementReads := by
  have hspells := spells_forStmt (p := p) hinit hcond hpost hbody
  generalize ht : Tree.forStmt p (.ofOption init) (.ofOption cond) (.ofOption post) body = t
    at hspells ⊢
  have hwords : t.statementWords = _ := hspells.words
  refine .of_here (hwords ▸ hspells) ⟨_, _, hwords, rfl⟩ (by rw [← ht]; rfl) ?_
    (by rw [← ht]; nofun) (by rw [← ht]; nofun)
  intro n s tail P hroom hfree hending _
  rw [hwords] at hroom
  have hheader := takes_loopHeader hinit hcond hpost hbrace hlone hroom (by simp; omega)
  have hblock := hbody.takes (hroom.mono (by simp; omega)) hfree
  rw [show t.statementWords ++ tail = .ofKeyword .For :: (loopWords init cond post ++
    (body.statementWords ++ tail)) by simp [hwords]]
  refine takes_loop hheader hbody hblock hending ?_
  cases cond <;> exact takes_pure (by simp [← ht])

end Loop

section Range

-- A range after its variables.
theorem takes_rangeAfter (hx : x.Reads false) (hbrace : x.takesBrace = false)
    (hroom : Room (n + 1) s m 1) (hlength : x.words.length ≤ m) (vars : List Tree) (o : TokenKind) :
    ((upTo n).rangeAfter vars o).Takes s.header (.ofKeyword .Range :: x.words)
      (.range vars o x.bare) (· = .op .LBrace) := by
  have hread := hx.takes (n := n + 1) (hroom.mono hlength).header nofun
  have hstops : ∀ k, k = TokenKind.op .LBrace → k.precedence = 0 ∧ x.Stops s.header k :=
    fun k hk => (SimpleStops.of_brace (t := x.asStatement) hbrace s hk).stops fun h => h
  exact takes_discard_expect rfl ((hread.mono hstops).bind_nil (takes_pure rfl))

theorem spells_rangeAll (hx : (x.emittedAs .expression).Spells x.words) (hbody : body.BlockReads) :
    ((Tree.rangeStmt p .absent .absent .absent x body).emittedAs .statement).Spells
      (.ofKeyword .For :: .ofKeyword .Range :: (x.words ++ body.statementWords)) := by
  have hrange : (Emission.write "for range ").Spells [.ofKeyword .For, .ofKeyword .Range] :=
    ⟨rfl, (Emission.words_write _).trans Text.word_forRange.lexemes⟩
  rw [emitted_rangeAll]
  exact ((hrange.append hx).append hbody.spells).of_eq (by simp)

theorem reads_rangeAll (hx : x.Reads false) (hbrace : x.takesBrace = false)
    (hbody : body.BlockReads) :
    (Tree.rangeStmt p .absent .absent .absent x body).StatementReads := by
  have hspells := spells_rangeAll (p := p) hx.spells hbody
  generalize ht : Tree.rangeStmt p .absent .absent .absent x body = t at hspells ⊢
  have hwords : t.statementWords = _ := hspells.words
  refine .of_here (hwords ▸ hspells) ⟨_, _, hwords, rfl⟩ (by rw [← ht]; rfl) ?_
    (by rw [← ht]; nofun) (by rw [← ht]; nofun)
  intro n s tail P hroom hfree hending _
  rw [hwords] at hroom
  have hrange := takes_rangeAfter hx hbrace hroom (by simp; omega) [] (.op .Assign)
  have hblock := hbody.takes (hroom.mono (by simp; omega)) hfree
  have hheader : (upTo n).loopHeader.Takes s (.ofKeyword .Range :: x.words)
      (.range [] (.op .Assign) x.bare) (· = .op .LBrace) := by
    refine takes_peek_bind ?_
    rw [if_neg (by decide)]
    exact Takes.inHeader (takes_peek_bind hrange)
  rw [show t.statementWords ++ tail = .ofKeyword .For :: ((.ofKeyword .Range :: x.words) ++
    (body.statementWords ++ tail)) by simp [hwords]]
  exact takes_loop hheader hbody hblock hending (takes_pure (by simp [← ht]))

variable {key : Tree} {value : Option Tree} {o : Operator}

-- The variables of a range.
def rangeVars (key : Tree) (value : Option Tree) : List Tree := key :: value.toList

theorem spells_rangeStmt (hkey : key.Reads false) (hvalue : ∀ t ∈ value, t.Reads false)
    (hx : x.Reads false) (hbody : body.BlockReads) :
    ((Tree.rangeStmt p key (.ofOption value) (.token (.op o)) x body).emittedAs .statement).Spells
      (.ofKeyword .For :: (listed ((rangeVars key value).map words) ++ .ofOperator o ::
        .ofKeyword .Range :: (x.words ++ body.statementWords))) := by
  have hvalue' := spells_optional (fun t => .operator .Comma ++ t.emittedAs .expression)
    (fun t ht => (hvalue t ht).isAbsent)
    fun t ht => (Spells.operator .Comma).append (hvalue t ht).spells
  rw [emitted_rangeStmt p key _ x body o hkey.isAbsent]
  refine ((((((Spells.spaced _).append hkey.spells).append hvalue').append (.operator _)).append
    (.spaced _)).append hx.spells).append hbody.spells |>.of_eq ?_
  cases value <;> simp [rangeVars, listed]

theorem reads_rangeStmt (hkey : key.Reads false) (hvalue : ∀ t ∈ value, t.Reads false)
    (ho : bindsRange (.op o) = true) (hx : x.Reads false) (hbrace : x.takesBrace = false)
    (hbody : body.BlockReads) :
    (Tree.rangeStmt p key (.ofOption value) (.token (.op o)) x body).StatementReads := by
  have hspells := spells_rangeStmt (p := p) (o := o) hkey hvalue hx hbody
  generalize ht : Tree.rangeStmt p key (.ofOption value) (.token (.op o)) x body = t at hspells ⊢
  have hwords : t.statementWords = _ := hspells.words
  have hassign : o.isAssignment = true := by
    cases o <;> first | rfl | cases ho
  refine .of_here (hwords ▸ hspells) ⟨_, _, hwords, rfl⟩ (by rw [← ht]; rfl) ?_
    (by rw [← ht]; nofun) (by rw [← ht]; nofun)
  intro n s tail P hroom hfree hending _
  rw [hwords] at hroom
  have hvars : ∀ t ∈ rangeVars key value, t.Reads false := by
    simpa [rangeVars] using ⟨hkey, hvalue⟩
  have hlist : (upTo n).expressionList.Takes s.header (listed ((rangeVars key value).map words))
      ((rangeVars key value).map bare) fun k => k ≠ .op .Comma ∧ k.precedence = 0 ∧
        ∀ y ∈ (rangeVars key value).getLast?, y.Stops s.header k :=
    takes_expressions (b := false) hroom.header (by simp [rangeVars]; omega) nofun hvars
  have hrange := takes_rangeAfter hx hbrace hroom (by simp; omega)
    ((rangeVars key value).map bare) (.op o)
  have hblock := hbody.takes (hroom.mono (by simp; omega)) hfree
  have hheader : (upTo n).loopHeader.Takes s (listed ((rangeVars key value).map words) ++
      .ofOperator o :: .ofKeyword .Range :: x.words)
      (.range ((rangeVars key value).map bare) (.op o) x.bare) (· = .op .LBrace) := by
    have hbegins : Begins (beginsSimple · = true) (listed ((rangeVars key value).map words)) :=
      hkey.begins.append _
    refine takes_peek_next (hbegins.append _).next fun k hk => ?_
    rw [if_neg (by rintro rfl; cases hk)]
    refine Takes.inHeader (takes_peek_next (hbegins.append _).next fun k hk => ?_)
    split
    · cases hk
    · cases hk
    obtain ⟨l, rest, hl, -⟩ := hbegins
    rw [hl] at hlist ⊢
    refine takes_current_bind (hlist.bind (.cons ?_ _) (takes_peek_bind ?_))
    · exact ⟨(isAssignment_stops hassign x (s := s)).1, (isAssignment_stops hassign x (s := s)).2.1,
        fun z _ => (isAssignment_stops hassign z).2.2⟩
    · rw [if_pos (by exact hassign)]
      refine takes_advance_bind (takes_peek_bind ?_)
      rw [if_pos (by simpa using ho)]
      exact hrange
  rw [show t.statementWords ++ tail = .ofKeyword .For ::
    ((listed ((rangeVars key value).map words) ++ .ofOperator o :: .ofKeyword .Range :: x.words) ++
      (body.statementWords ++ tail)) by simp [hwords]]
  refine takes_loop hheader hbody hblock hending ?_
  cases value <;> exact takes_pure (by simp [← ht])

end Range

end Tree

end GoCompact
