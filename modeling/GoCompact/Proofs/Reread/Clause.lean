import GoCompact.Proofs.Grammar.Mirror.Statement
import GoCompact.Proofs.Reread.Header

namespace GoCompact

namespace Tree

open GoCompact.Parser GoCompact.Grammar Cursor
open Emission (Spells)

-- The statements of a clause.
def clauseBody : Tree → List Tree
  | .caseClause _ _ (.tuple body) => body
  | .commClause _ _ (.tuple body) => body
  | _ => []

-- Whether the last statement of a clause is its own end.
def closesItself (t : Tree) : Bool := t.clauseBody.getLast?.any isSelfTerminated

-- A clause is read with what ends its body.
structure ClauseReads (clause : Grammar → Parser Tree) (t : Tree) : Prop where
  spells : (t.emittedAs .statement).Spells t.statementWords
  begins : Begins (isClause · = true) t.statementWords
  separates : t.isSelfTerminated = t.clauseBody.isEmpty
  takes {n : Nat} {s : Scope} {tail : List Lexeme} {P : TokenKind → Prop} :
    Room (n + 1) s t.statementWords.length 1 → s.isFree = true →
    ListEnding t.clauseBody tail P → (∀ k, P k → endsStatements k = true) →
    (clause (upTo n)).Takes s (t.statementWords ++ tail) t.bare P

variable {n : Nat} {s : Scope} {m : Nat} {p q t x : Tree} {P : TokenKind → Prop}

section Clauses

variable {clause : Grammar → Parser Tree}

-- What stands between a clause and the next one ends the body of the clause.
theorem listEnding_separator (h : t.ClauseReads clause) (hclosed : t.closesItself = false) :
    ListEnding t.clauseBody t.separator (isClause · = true) := by
  have hseparates := h.separates
  unfold separator
  cases hbody : t.clauseBody with
  | nil =>
      rw [hbody] at hseparates
      rw [if_pos (by simpa using hseparates)]
      exact ⟨fun _ => rfl, nofun, nofun⟩
  | cons u us =>
      rw [hbody] at hseparates
      rw [closesItself, hbody] at hclosed
      rw [if_neg (by simp [hseparates])]
      refine ⟨nofun, fun v hv hself => ?_, fun v hv _ => ?_⟩
      · rw [Option.mem_def.mp hv, Option.any_some, hself] at hclosed
        cases hclosed
      · exact ⟨.semicolon rfl, fun _ => .cons (.inl rfl) []⟩

theorem endsStatements_of_isClause {k : TokenKind} (h : isClause k = true) :
    endsStatements k = true := by
  unfold isClause at h
  split at h <;> first | rfl | cases h

-- The last clause is read up to the brace that closes the clauses.
structure LastClauseReads (clause : Grammar → Parser Tree) (t : Tree) : Prop where
  spells : (t.emittedAs .statement).Spells t.statementWords
  begins : Begins (isClause · = true) t.statementWords
  takes {n : Nat} {s : Scope} : Room (n + 1) s t.statementWords.length 1 → s.isFree = true →
    (clause (upTo n)).Takes s t.statementWords t.bare (· = .op .RBrace)

theorem ClauseReads.last (h : t.ClauseReads clause) : t.LastClauseReads clause where
  spells := h.spells
  begins := h.begins
  takes hroom hfree := by
    have hread := h.takes hroom hfree listEnding_brace (by rintro k rfl; rfl)
    rwa [List.append_nil] at hread

-- The clauses of a statement.
structure ClausesRead (clause : Grammar → Parser Tree) (ts : List Tree) : Prop where
  init : ∀ t ∈ ts.dropLast, t.ClauseReads clause ∧ t.closesItself = false
  last : ∀ t ∈ ts.getLast?, t.LastClauseReads clause

namespace ClausesRead

variable {ts : List Tree} {u : Tree}

theorem of_clauses (h : ∀ t ∈ ts, t.ClauseReads clause)
    (hclosed : ∀ t ∈ ts.dropLast, t.closesItself = false) : ClausesRead clause ts :=
  ⟨fun t ht => ⟨h t (List.mem_of_mem_dropLast ht), hclosed t ht⟩,
    fun t ht => (h t (List.mem_of_getLast? ht)).last⟩

theorem tail (h : ClausesRead clause (t :: u :: ts)) : ClausesRead clause (u :: ts) :=
  ⟨fun v hv => h.init v (List.mem_cons_of_mem t hv), fun v hv => h.last v (by simpa using hv)⟩

theorem head (h : ClausesRead clause (t :: u :: ts)) :
    t.ClauseReads clause ∧ t.closesItself = false :=
  h.init t (List.mem_cons_self ..)

theorem spells (h : ClausesRead clause ts) :
    ∀ t ∈ ts, (t.emittedAs .statement).Spells t.statementWords := by
  induction ts with
  | nil => simp
  | cons t ts ih =>
      cases ts with
      | nil => simpa using (h.last t rfl).spells
      | cons u us => exact List.forall_mem_cons.mpr ⟨h.head.1.spells, ih h.tail⟩

theorem begins (h : ClausesRead clause (t :: ts)) :
    Begins (isClause · = true) (statementsWords (t :: ts)) := by
  cases ts with
  | nil => exact (h.last t rfl).begins
  | cons u us => exact (h.head.1.begins.append _).append _

theorem takesAll (h : ClausesRead clause ts)
    (hroom : Room (n + 1) s (statementsWords ts).length 1) (hfree : s.isFree = true) :
    TakesAll isClause (clause (upTo n)) s (statementsWords ts) (ts.map bare) (· = .op .RBrace) := by
  induction ts with
  | nil => exact takesAll_nil
  | cons t ts ih =>
      cases ts with
      | nil =>
          have ht := h.last t rfl
          have hall := TakesAll.cons takesAll_nil (ht.takes hroom hfree) ht.begins
            (.nil fun _ hk => hk)
          rwa [List.append_nil] at hall
      | cons u us =>
          rw [statementsWords, List.length_append, List.length_append] at hroom
          obtain ⟨ht, htclosed⟩ := h.head
          have hread := ht.takes (hroom.mono (by omega)) hfree (listEnding_separator ht htclosed)
            fun _ => endsStatements_of_isClause
          exact TakesAll.cons (ih h.tail (hroom.mono (by omega))) hread (ht.begins.append _)
            h.tail.begins.next

-- Clauses in their braces, with the end of the statement.
theorem takes {tail : List Lexeme} (h : ClausesRead clause ts) (hroom : Room (n + 1) s m 1)
    (hlength : (bracesWords ts).length ≤ m) (hfree : s.isFree = true) (hending : Ending tail P) :
    (clauses (clause (upTo n))).Takes s (bracesWords ts ++ tail)
      (Tree.block q (.tuple ts)).bare P := by
  simp only [bracesWords, List.length_cons, List.length_append] at hlength
  have hitems := (h.takesAll (hroom.mono (by omega)) hfree).manyWhile (by rintro k rfl; rfl)
  rw [bracesWords, List.cons_append, List.append_assoc]
  refine takes_expect_bind rfl (hitems.bind (.cons (by rfl) _) (takes_discard_expect rfl ?_))
  exact hending.takes_expectEnd (takes_pure (by simp))

end ClausesRead

end Clauses

-- The values of a clause, which has none if it is taken when no other one is.
def caseWords (values : List Tree) : List Lexeme :=
  if values.isEmpty then [.ofKeyword .Default]
  else .ofKeyword .Case :: listed (values.map words)

theorem spells_caseClause {values body : List Tree}
    (hvalues : ∀ t ∈ values, (t.emittedAs .expression).Spells t.words)
    (hbody : ∀ t ∈ body, (t.emittedAs .statement).Spells t.statementWords) :
    ((Tree.caseClause p (.tuple values) (.tuple body)).emittedAs .statement).Spells
      (caseWords values ++ .ofOperator .Colon :: statementsWords body) := by
  rw [emitted_caseClause]
  unfold caseWords
  split
  · exact (Spells.joined _ _).append (spells_statements hbody)
  · exact ((((Spells.spaced _).append (spells_list hvalues)).append (.operator _)).append
      (spells_statements hbody)).of_eq (by simp)

-- The values of a clause are types if the switch asks for a type.
theorem takes_caseValues {types : Bool} {x : Tree} {xs : List Tree}
    (hroom : Room (n + 1) s m 1) (hlength : (listed ((x :: xs).map words)).length < m)
    (hfree : s.isFree = true) (hvalues : ∀ t ∈ x :: xs, t.Reads true)
    (htypes : types = true → ∀ t ∈ x :: xs, t.isType = true) :
    (if types then commaList (upTo n).typeRule else (upTo n).expressionList).Takes s
      (listed ((x :: xs).map words)) ((x :: xs).map bare) (· = .op .Colon) := by
  cases types with
  | false =>
      refine (takes_expressions hroom hlength.le (fun _ => hfree) hvalues).mono ?_
      rintro k rfl
      exact ⟨by decide, rfl, fun z _ => stops_of_closes rfl _ _⟩
  | true =>
      have hread : ∀ t ∈ x :: xs, (upTo n).typeRule.Takes s t.words t.bare
          fun k => k = .op .Comma ∨ k = .op .Colon := by
        intro t ht
        have hle := length_le_listed (List.mem_map_of_mem (f := words) ht)
        have htype := (hvalues t ht).type (htypes rfl t ht)
        refine (htype.takes_type (n := n + 1) (hroom.smaller (by omega) (by decide) 2)).mono ?_
        rintro k (rfl | rfl) <;> exact absorbs_eq_false (by decide) rfl t
      refine takes_commaList (fun t ht => (hread t ht).mono fun _ => .inl)
        (fun t ht => (hread t (List.mem_of_getLast? ht)).mono fun _ => .inr)
        (fun t ht => (hvalues t (List.mem_cons_of_mem x ht)).begins.ne_nil) (by decide)

-- A clause is read if its statements are.
theorem takes_caseClause {types : Bool} {values body : List Tree} {tail : List Lexeme}
    (hvalues : ∀ t ∈ values, t.Reads true) (htypes : types = true → ∀ t ∈ values, t.isType = true)
    (hroom : Room (n + 1) s m 1) (hlength : (caseWords values).length < m) (hfree : s.isFree = true)
    (hstmts : (upTo n).statements.Takes s (statementsWords body ++ tail) (body.map bare) P) :
    ((upTo n).caseClause types).Takes s
      (caseWords values ++ .ofOperator .Colon :: (statementsWords body ++ tail))
      (Tree.caseClause p (.tuple values) (.tuple body)).bare P := by
  have hrest : ∀ l : Lexeme, (do
      discard (expect (.op .Colon))
      let body ← (upTo n).statements
      return .caseClause l.bare.place (.tuple (values.map bare)) (.tuple body) : Parser Tree).Takes
        s (.ofOperator .Colon :: (statementsWords body ++ tail))
        (Tree.caseClause p (.tuple values) (.tuple body)).bare P :=
    fun l => takes_discard_expect rfl (hstmts.bind_nil (takes_pure (by simp)))
  cases values with
  | nil =>
      refine takes_current_bind (takes_not_got (.cons (by decide) _) ?_)
      refine takes_discard_expect rfl ?_
      rw [pure_bind]
      exact hrest _
  | cons y ys =>
      simp only [caseWords, List.isEmpty_cons, Bool.false_eq_true, if_false,
        List.length_cons] at hlength
      have hlist := takes_caseValues hroom (by omega) hfree hvalues htypes
      refine takes_current_bind (takes_got_bind rfl ?_)
      cases types with
      | false => exact hlist.bind (.cons (by rfl) _) (hrest _)
      | true => exact hlist.bind (.cons (by rfl) _) (hrest _)

theorem begins_caseClause {values body : List Tree} :
    Begins (isClause · = true) (caseWords values ++ .ofOperator .Colon :: statementsWords body) := by
  unfold caseWords
  split
  · exact .cons (by rfl) _
  · exact .cons (by rfl) _

theorem reads_clauseOf {types : Bool} {values body : List Tree} (hvalues : ∀ t ∈ values, t.Reads true)
    (htypes : types = true → ∀ t ∈ values, t.isType = true) (hbody : ∀ t ∈ body, t.StatementReads) :
    (Tree.caseClause p (.tuple values) (.tuple body)).ClauseReads (·.caseClause types) := by
  have hspells := spells_caseClause (p := p) (fun t ht => (hvalues t ht).spells)
    fun t ht => (hbody t ht).spells
  have hwords := statementWords_of_spells hspells
  refine ⟨hwords ▸ hspells, hwords ▸ begins_caseClause, ?_, ?_⟩
  · cases body <;> rfl
  · intro n s tail P hroom hfree hending hP
    rw [hwords] at hroom ⊢
    have hstmts := takes_statements hbody (hroom.inner (by simp; omega) (by decide) 0) hfree hending
      hP
    rw [List.append_assoc, List.cons_append]
    exact takes_caseClause hvalues htypes hroom (by simp) hfree hstmts

theorem reads_caseClause {values body : List Tree} (hvalues : ∀ t ∈ values, t.Reads true)
    (hbody : ∀ t ∈ body, t.StatementReads) :
    (Tree.caseClause p (.tuple values) (.tuple body)).ClauseReads (·.caseClause false) :=
  reads_clauseOf hvalues nofun hbody

-- The body of the last clause may end in a label without a statement.
theorem reads_lastCaseClause {types : Bool} {values body : List Tree}
    (hvalues : ∀ t ∈ values, t.Reads true) (htypes : types = true → ∀ t ∈ values, t.isType = true)
    (hbody : BodyReads body) :
    (Tree.caseClause p (.tuple values) (.tuple body)).LastClauseReads (·.caseClause types) := by
  have hspells := spells_caseClause (p := p) (fun t ht => (hvalues t ht).spells) hbody.spells
  have hwords := statementWords_of_spells hspells
  refine ⟨hwords ▸ hspells, hwords ▸ begins_caseClause, fun {n s} hroom hfree => ?_⟩
  rw [hwords] at hroom ⊢
  have hstmts := hbody.takes (hroom.inner (by simp; omega) (by decide) 0) hfree
  rw [← List.append_nil (statementsWords body)] at hstmts
  have hread := takes_caseClause (p := p) hvalues htypes hroom (by simp) hfree hstmts
  rwa [List.append_nil] at hread

-- The communication of a clause is read up to the colon.
structure CommReads (t : Tree) : Prop where
  simple : t.SimpleReads true
  takes {n : Nat} {s : Scope} : Room (n + 1) s t.statementWords.length 1 → s.isFree = true →
    (upTo n).communication.Takes s t.statementWords t.bare (· = .op .Colon)

theorem comm_exprStmt (hx : x.Reads true) : (Tree.exprStmt p x).CommReads := by
  refine ⟨reads_exprStmt hx, ?_⟩
  intro n s hroom hfree
  rw [statementWords_exprStmt] at hroom ⊢
  have hread := takes_oneExpression hroom (Nat.le_refl _) (fun _ => hfree) hx
  obtain ⟨l, rest, hl, -⟩ := hx.begins
  rw [hl] at hread ⊢
  refine takes_current_bind ((hread.mono ?_).bind_nil ?_)
  · rintro k rfl
    exact ⟨by decide, rfl, stops_of_closes rfl _ _⟩
  · refine takes_peek_next (.nil fun _ h => h) ?_
    rintro k rfl
    exact takes_pure (by simp)

-- What a clause waits for, which is nothing if it is taken when no other one is.
def commWords (comm : Option Tree) : List Lexeme :=
  comm.elim [.ofKeyword .Default] fun t => .ofKeyword .Case :: t.statementWords

theorem spells_commClause {comm : Option Tree} {body : List Tree}
    (hcomm : ∀ t ∈ comm, t.SimpleReads true)
    (hbody : ∀ t ∈ body, (t.emittedAs .statement).Spells t.statementWords) :
    ((Tree.commClause p (.ofOption comm) (.tuple body)).emittedAs .statement).Spells
      (commWords comm ++ .ofOperator .Colon :: statementsWords body) := by
  rw [emitted_commClause]
  cases comm with
  | none => exact (Spells.joined _ _).append (spells_statements hbody)
  | some t =>
      have ht := hcomm t rfl
      rw [ofOption_some, if_neg (by simp [ht.isAbsent])]
      exact ((((Spells.spaced _).append ht.spells).append (.operator _)).append
        (spells_statements hbody)).of_eq (by simp [commWords])

-- A send, and an assignment of one expression to one or two.
theorem comm_send {y : Tree} (hx : x.Reads true) (hy : y.Reads true)
    (hedge : x.edge (.op .Arrow) = false) : (Tree.send p x y).CommReads := by
  refine ⟨reads_send hx hy hedge, ?_⟩
  intro n s hroom hfree
  have hwords := statementWords_of_spells (spells_send (p := p) hx.spells hy.spells)
  rw [hwords] at hroom ⊢
  have hread := takes_oneExpression hroom (by simp) (fun _ => hfree) hx
  have hvalue := hy.takes (n := n + 1) (hroom.mono (by simp; omega)) fun _ => hfree
  obtain ⟨l, rest, hl, -⟩ := hx.begins
  rw [hl] at hread ⊢
  refine takes_current_bind (hread.bind (.cons ?_ _) (takes_peek_bind ?_))
  · exact ⟨by decide, rfl, rfl, nofun, hedge⟩
  refine takes_discard_advance ((hvalue.mono ?_).bind_nil (takes_pure (by simp)))
  rintro k rfl
  exact ⟨rfl, stops_of_closes rfl _ _⟩

theorem comm_assign {lhs : List Tree} {y : Tree} {o : Operator} (hlne : lhs ≠ [])
    (hlhs : ∀ t ∈ lhs, t.Reads true) (ho : o = .Assign ∨ o = .Define) (hlength : lhs.length ≤ 2)
    (hy : y.Reads true) :
    (Tree.assign p (.tuple lhs) (.token (.op o)) (.tuple [y])).CommReads := by
  have hassign : o.isAssignment = true := by rcases ho with rfl | rfl <;> rfl
  have hrhs : ∀ t ∈ [y], t.Reads true := by simpa using hy
  refine ⟨reads_assign hlne hlhs hassign (by simp) hrhs, ?_⟩
  intro n s hroom hfree
  have hspells : ((Tree.assign p (.tuple lhs) (.token (.op o)) (.tuple [y])).emittedAs
      .statement).Spells _ :=
    spells_assign (by simp) (fun t ht => (hlhs t ht).spells) fun t ht => (hrhs t ht).spells
  have hwords := statementWords_of_spells hspells
  rw [show listed ([y].map words) = y.words by simp [listed]] at hwords
  rw [hwords] at hroom ⊢
  obtain ⟨x, xs, rfl⟩ := List.exists_cons_of_ne_nil hlne
  have hread := takes_expressions hroom (by simp) (fun _ => hfree) hlhs
  have hvalue := hy.takes (n := n + 1) (hroom.mono (by simp; omega)) fun _ => hfree
  have hbegins : Begins (beginsSimple · = true) (listed ((x :: xs).map words)) :=
    (hlhs x (by simp)).begins.append _
  obtain ⟨l, rest, hl, -⟩ := hbegins
  rw [hl] at hread ⊢
  refine takes_current_bind (hread.bind (.cons ?_ _) (takes_peek_bind ?_))
  · exact ⟨(isAssignment_stops hassign x (s := s)).1, (isAssignment_stops hassign x (s := s)).2.1,
      fun z _ => (isAssignment_stops hassign z).2.2⟩
  have hfew : ¬2 < ((x :: xs).map bare).length := by simpa using hlength
  have hrest : (advance >>= fun t => (upTo n).expressionRule >>= fun rhs =>
      pure (.assign l.bare.place (.tuple ((x :: xs).map bare)) (.token t.kind) (.tuple [rhs]))).Takes s
      (.ofOperator o :: y.words)
      (Tree.assign p (.tuple (x :: xs)) (.token (.op o)) (.tuple [y])).bare (· = .op .Colon) := by
    refine takes_advance_bind ((hvalue.mono ?_).bind_nil (takes_pure (by simp)))
    rintro k rfl
    exact ⟨rfl, stops_of_closes rfl _ _⟩
  rcases ho with rfl | rfl
  · change (if 2 < ((x :: xs).map bare).length then _ else _ : Parser Tree).Takes _ _ _ _
    rw [if_neg hfew]
    exact hrest
  · change (if 2 < ((x :: xs).map bare).length then _ else _ : Parser Tree).Takes _ _ _ _
    rw [if_neg hfew]
    exact hrest

-- A clause is read if its statements are.
theorem takes_commClause {comm : Option Tree} {body : List Tree} {tail : List Lexeme}
    (hcomm : ∀ t ∈ comm, t.CommReads) (hroom : Room (n + 1) s m 1)
    (hlength : (commWords comm).length ≤ m) (hfree : s.isFree = true)
    (hstmts : (upTo n).statements.Takes s (statementsWords body ++ tail) (body.map bare) P) :
    (upTo n).commClause.Takes s
      (commWords comm ++ .ofOperator .Colon :: (statementsWords body ++ tail))
      (Tree.commClause p (.ofOption comm) (.tuple body)).bare P := by
  have hrest : ∀ l : Lexeme, (do
      discard (expect (.op .Colon))
      let body ← (upTo n).statements
      return .commClause l.bare.place (ofOption comm).bare (.tuple body) : Parser Tree).Takes
        s (.ofOperator .Colon :: (statementsWords body ++ tail))
        (Tree.commClause p (.ofOption comm) (.tuple body)).bare P :=
    fun l => takes_discard_expect rfl (hstmts.bind_nil (takes_pure (by simp)))
  cases comm with
  | none =>
      refine takes_current_bind (takes_not_got (.cons (by decide) _) ?_)
      refine takes_discard_expect rfl ?_
      rw [pure_bind]
      exact hrest _
  | some u =>
      simp only [commWords, Option.elim, List.length_cons] at hlength
      refine takes_current_bind (takes_got_bind rfl ?_)
      have hread := (hcomm u rfl).takes (hroom.mono (by omega)) hfree
      exact hread.bind (.cons (by rfl) _) (hrest _)

theorem begins_commClause {comm : Option Tree} {body : List Tree} :
    Begins (isClause · = true) (commWords comm ++ .ofOperator .Colon :: statementsWords body) := by
  cases comm with
  | none => exact .cons (by rfl) _
  | some t => exact .cons (by rfl) _

theorem reads_commClause {comm : Option Tree} {body : List Tree}
    (hcomm : ∀ t ∈ comm, t.CommReads) (hbody : ∀ t ∈ body, t.StatementReads) :
    (Tree.commClause p (.ofOption comm) (.tuple body)).ClauseReads (·.commClause) := by
  have hspells := spells_commClause (p := p) (fun t ht => (hcomm t ht).simple)
    fun t ht => (hbody t ht).spells
  have hwords := statementWords_of_spells hspells
  refine ⟨hwords ▸ hspells, hwords ▸ begins_commClause, ?_, ?_⟩
  · cases body <;> rfl
  · intro n s tail P hroom hfree hending hP
    rw [hwords] at hroom ⊢
    have hstmts := takes_statements hbody (hroom.inner (by simp; omega) (by decide) 0) hfree hending
      hP
    rw [List.append_assoc, List.cons_append]
    exact takes_commClause hcomm hroom (by simp) hfree hstmts

theorem reads_lastCommClause {comm : Option Tree} {body : List Tree}
    (hcomm : ∀ t ∈ comm, t.CommReads) (hbody : BodyReads body) :
    (Tree.commClause p (.ofOption comm) (.tuple body)).LastClauseReads (·.commClause) := by
  have hspells := spells_commClause (p := p) (fun t ht => (hcomm t ht).simple) hbody.spells
  have hwords := statementWords_of_spells hspells
  refine ⟨hwords ▸ hspells, hwords ▸ begins_commClause, fun {n s} hroom hfree => ?_⟩
  rw [hwords] at hroom ⊢
  have hstmts := hbody.takes (hroom.inner (by simp; omega) (by decide) 0) hfree
  rw [← List.append_nil (statementsWords body)] at hstmts
  have hread := takes_commClause (p := p) hcomm hroom (by simp) hfree hstmts
  rwa [List.append_nil] at hread

section Switch

variable {init tag : Option Tree}

-- The header of a switch, whose tag is read as a statement.
theorem takes_switchGuard {guard : Option Tree} (hinit : ∀ t ∈ init, t.SimpleReads false)
    (hguard : ∀ t ∈ guard, t.SimpleReads false) (hbrace : ∀ t ∈ guard, t.endTakesBrace = false)
    (hroom : Room (n + 1) s m 1) (hlength : (initWords init ++ simpleWords guard).length ≤ m) :
    (upTo n).switchHeader.Takes s (initWords init ++ simpleWords guard)
      (init.map bare, guard.map bare) (· = .op .LBrace) := by
  have hfirst : ∀ {t : Tree}, t.SimpleReads false →
      t.statementWords.length ≤ m → (upTo n).switchFirst.Takes s.header t.statementWords
        (some t.bare) (t.SimpleStops s.header) := by
    intro t ht hle
    refine takes_peek_next ht.begins.next fun k hk => ?_
    rw [if_neg (by rintro rfl; cases hk)]
    exact (ht.takes_header hroom hle).map some
  rw [List.length_append] at hlength
  cases init with
  | none =>
      cases guard with
      | none =>
          refine takes_peek_next (.nil fun _ h => h) ?_
          rintro k rfl
          exact takes_pure rfl
      | some x =>
          have hx := hguard x rfl
          refine takes_peek_next hx.begins.next fun k hk => ?_
          rw [if_neg (by rintro rfl; cases hk)]
          refine Takes.inHeader (Takes.bind_nil ((hfirst hx ?_).mono ?_) ?_)
          · simp only [simpleWords, Option.elim] at hlength
            omega
          · exact fun k hk => .of_brace (hbrace x rfl) s hk
          · refine takes_not_got (.nil ?_) (takes_pure rfl)
            rintro k rfl
            decide
  | some t =>
      have ht := hinit t rfl
      simp only [initWords, Option.elim, List.length_append, List.length_singleton] at hlength
      simp only [initWords, Option.elim, List.append_assoc, List.singleton_append]
      refine takes_peek_next (ht.begins.append _).next fun k hk => ?_
      rw [if_neg (by rintro rfl; cases hk)]
      refine Takes.inHeader ((hfirst ht (by omega)).bind
        (.cons (.ending (.inl rfl)) _) (takes_got_bind rfl ?_))
      cases guard with
      | none =>
          refine takes_peek_next (.nil fun _ h => h) ?_
          rintro k rfl
          exact takes_pure rfl
      | some x =>
          have hx := hguard x rfl
          refine takes_peek_next hx.begins.next fun k hk => ?_
          rw [if_neg (by rintro rfl; cases hk)]
          have hread := hx.takes_header hroom (by
            simp only [simpleWords, Option.elim] at hlength
            omega)
          exact (hread.mono fun k hk => .of_brace (hbrace x rfl) s hk).bind_nil (takes_pure rfl)

theorem takes_switchHeader (hinit : ∀ t ∈ init, t.SimpleReads false)
    (htag : ∀ t ∈ tag, t.Reads false) (hbrace : ∀ t ∈ tag, t.takesBrace = false)
    (hroom : Room (n + 1) s m 1) (hlength : (initWords init ++ boundWords tag).length ≤ m) :
    (upTo n).switchHeader.Takes s (initWords init ++ boundWords tag)
      (init.map bare, tag.map fun x => x.bare.asStatement) (· = .op .LBrace) := by
  cases tag with
  | none => exact @takes_switchGuard _ _ _ _ none hinit nofun nofun hroom hlength
  | some x =>
      have hguard : ∀ t ∈ some x.asStatement, t.SimpleReads false := by
        rintro t ⟨⟩
        exact reads_exprStmt (htag x rfl)
      have hread := takes_switchGuard hinit hguard (by rintro t ⟨⟩; exact hbrace x rfl) hroom hlength
      rw [Option.map_some, bare_asStatement] at hread
      exact hread

theorem spells_switchStmt {clauses : List Tree} (hinit : ∀ t ∈ init, t.SimpleReads false)
    (htag : ∀ t ∈ tag, t.Reads false)
    (hclauses : ∀ t ∈ clauses, (t.emittedAs .statement).Spells t.statementWords) :
    ((Tree.switchStmt p (.ofOption init) (.ofOption tag) (.block q (.tuple clauses))).emittedAs
      .statement).Spells
      (.ofKeyword .Switch :: (initWords init ++ boundWords tag ++ bracesWords clauses)) := by
  have htag' := spells_optional (·.emittedAs .expression) (fun t ht => (htag t ht).isAbsent)
    fun t ht => (htag t ht).spells
  rw [emitted_switchStmt, emitted_block]
  rw [← List.cons_append]
  refine Spells.append ?_ (spells_braces hclauses)
  split
  next hnone =>
    cases init with
    | some t => simp [(hinit t rfl).isAbsent] at hnone
    | none =>
        cases tag with
        | some x => simp [(htag x rfl).isAbsent] at hnone
        | none => exact .keyword _
  next =>
    exact (((Spells.spaced _).append (spells_init hinit)).append htag').of_eq (by simp [boundWords])

theorem isTypeGuard_asStatement (h : x.asksType = false) :
    isTypeGuard x.bare.asStatement = false := by
  rw [← bare_asStatement, Relocation.isTypeGuard_tree]
  unfold asStatement isTypeGuard
  split
  next heq =>
    cases heq
    cases h
  next heq => cases heq
  next => rfl

theorem ClausesRead.switchStmt {clauses : List Tree}
    (hclauses : ClausesRead (·.caseClause false) clauses) (hinit : ∀ t ∈ init, t.SimpleReads false)
    (htag : ∀ t ∈ tag, t.Reads false) (hbrace : ∀ t ∈ tag, t.takesBrace = false)
    (hguard : ∀ t ∈ tag, t.asksType = false) :
    (Tree.switchStmt p (.ofOption init) (.ofOption tag)
      (.block q (.tuple clauses))).StatementReads := by
  have hspells := spells_switchStmt (p := p) (q := q) hinit htag hclauses.spells
  generalize ht : Tree.switchStmt p (.ofOption init) (.ofOption tag) (.block q (.tuple clauses)) = t
    at hspells ⊢
  have hwords : t.statementWords = _ := hspells.words
  refine .of_here (hwords ▸ hspells) ⟨_, _, hwords, rfl⟩ (by rw [← ht]; rfl) ?_
    (by rw [← ht]; nofun) (by rw [← ht]; nofun)
  intro n s tail P hroom hfree hending _
  rw [hwords] at hroom
  have hheader := takes_switchHeader hinit htag hbrace hroom (by simp; omega)
  have hbody := hclauses.takes (q := q) hroom (by simp; omega) hfree hending
  rw [show t.statementWords ++ tail = .ofKeyword .Switch :: ((initWords init ++ boundWords tag) ++
    (bracesWords clauses ++ tail)) by simp [hwords]]
  refine takes_current_bind ?_
  rw [if_neg (by decide)]
  refine takes_expect_bind rfl (hheader.bind (.cons (by rfl) _) ?_)
  have hany : (tag.map fun x => x.bare.asStatement).any isTypeGuard = false := by
    cases tag with
    | none => rfl
    | some x => exact isTypeGuard_asStatement (hguard x rfl)
  dsimp only
  rw [if_neg (by simp [hany])]
  refine hbody.bind_nil ?_
  cases tag <;> exact takes_pure (by simp [← ht])

theorem reads_switchStmt {clauses : List Tree} (hinit : ∀ t ∈ init, t.SimpleReads false)
    (htag : ∀ t ∈ tag, t.Reads false) (hbrace : ∀ t ∈ tag, t.takesBrace = false)
    (hguard : ∀ t ∈ tag, t.asksType = false)
    (hclauses : ∀ t ∈ clauses, t.ClauseReads (·.caseClause false))
    (hclosed : ∀ t ∈ clauses.dropLast, t.closesItself = false) :
    (Tree.switchStmt p (.ofOption init) (.ofOption tag)
      (.block q (.tuple clauses))).StatementReads :=
  (ClausesRead.of_clauses hclauses hclosed).switchStmt hinit htag hbrace hguard

-- A switch on types. No brace goes on with what asks for the type.
theorem endTakesBrace_of_isTypeGuard (h : isTypeGuard t = true) : t.endTakesBrace = false := by
  unfold isTypeGuard at h
  split at h
  · rfl
  · rfl
  · cases h

theorem spells_typeSwitch {guard : Tree} {clauses : List Tree}
    (hinit : ∀ t ∈ init, t.SimpleReads false) (hguard : guard.SimpleReads false)
    (hclauses : ∀ t ∈ clauses, (t.emittedAs .statement).Spells t.statementWords) :
    ((Tree.typeSwitch p (.ofOption init) guard (.block q (.tuple clauses))).emittedAs
      .statement).Spells
      (.ofKeyword .Switch :: (initWords init ++ guard.statementWords ++ bracesWords clauses)) := by
  rw [emitted_typeSwitch, emitted_block]
  exact ((((Spells.spaced _).append (spells_init hinit)).append hguard.spells).append
    (spells_braces hclauses)).of_eq (by simp)

theorem ClausesRead.typeSwitch {guard : Tree} {clauses : List Tree}
    (hclauses : ClausesRead (·.caseClause true) clauses) (hinit : ∀ t ∈ init, t.SimpleReads false)
    (hguard : guard.SimpleReads false) (hasks : isTypeGuard guard = true) :
    (Tree.typeSwitch p (.ofOption init) guard (.block q (.tuple clauses))).StatementReads := by
  have hspells := spells_typeSwitch (p := p) (q := q) hinit hguard hclauses.spells
  generalize ht : Tree.typeSwitch p (.ofOption init) guard (.block q (.tuple clauses)) = t
    at hspells ⊢
  have hwords : t.statementWords = _ := hspells.words
  refine .of_here (hwords ▸ hspells) ⟨_, _, hwords, rfl⟩ (by rw [← ht]; rfl) ?_
    (by rw [← ht]; nofun) (by rw [← ht]; nofun)
  intro n s tail P hroom hfree hending _
  rw [hwords] at hroom
  have hguards : ∀ t ∈ some guard, t.SimpleReads false := by
    rintro t ⟨⟩
    exact hguard
  have hheader := takes_switchGuard hinit hguards
    (by rintro t ⟨⟩; exact endTakesBrace_of_isTypeGuard hasks) hroom (by simp [simpleWords]; omega)
  have hbody := hclauses.takes (q := q) hroom (by simp; omega) hfree hending
  rw [show t.statementWords ++ tail = .ofKeyword .Switch ::
    ((initWords init ++ simpleWords (some guard)) ++ (bracesWords clauses ++ tail)) by
      simp [hwords, simpleWords]]
  refine takes_current_bind ?_
  rw [if_neg (by decide)]
  refine takes_expect_bind rfl (hheader.bind (.cons (by rfl) _) ?_)
  have hany : ((some guard).map bare).any isTypeGuard = true := by
    rw [Option.map_some, Option.any_some, Relocation.isTypeGuard_tree, hasks]
  dsimp only
  rw [if_pos hany]
  exact hbody.bind_nil (takes_pure (by simp [← ht]))

end Switch

theorem spells_selectStmt {clauses : List Tree}
    (h : ∀ t ∈ clauses, (t.emittedAs .statement).Spells t.statementWords) :
    ((Tree.selectStmt p (.block q (.tuple clauses))).emittedAs .statement).Spells
      (.ofKeyword .Select :: bracesWords clauses) := by
  rw [emitted_selectStmt, emitted_block]
  exact (Spells.keyword _).append (spells_braces h)

theorem ClausesRead.selectStmt {clauses : List Tree}
    (h : ClausesRead (·.commClause) clauses) :
    (Tree.selectStmt p (.block q (.tuple clauses))).StatementReads := by
  have hspells := spells_selectStmt (p := p) (q := q) h.spells
  generalize ht : Tree.selectStmt p (.block q (.tuple clauses)) = t at hspells ⊢
  have hwords : t.statementWords = _ := hspells.words
  refine .of_here (hwords ▸ hspells) ⟨_, _, hwords, rfl⟩ (by rw [← ht]; rfl) ?_
    (by rw [← ht]; nofun) (by rw [← ht]; nofun)
  intro n s tail P hroom hfree hending _
  rw [hwords] at hroom ⊢
  have hbody := h.takes (q := q) hroom (by simp) hfree hending
  refine takes_current_bind ?_
  rw [if_neg (by decide)]
  exact takes_expect_bind rfl (hbody.bind_nil (takes_pure (by simp [← ht])))

theorem reads_selectStmt {clauses : List Tree} (h : ∀ t ∈ clauses, t.ClauseReads (·.commClause))
    (hclosed : ∀ t ∈ clauses.dropLast, t.closesItself = false) :
    (Tree.selectStmt p (.block q (.tuple clauses))).StatementReads :=
  (ClausesRead.of_clauses h hclosed).selectStmt

end Tree

end GoCompact
