import GoCompact.Proofs.Grammar.Guard.Declaration

namespace GoCompact.Grammar

open GoCompact.Parser GoCompact.Tree

variable {g : Grammar} {s : Scope} {n : Nat} {w : Passed}

theorem Shallow.assignmentAfter {start op : Token} {lhs : List Tree} (hg : g.Shallow) (w : Passed)
    (hs : s.Leaves n) (hlhs : ∀ t ∈ lhs, t.levels w ≤ n) :
    (g.assignmentAfter start op lhs).Yields s (·.levels w ≤ n) :=
  (hg.expressionList w hs).bind fun rhs hrhs => .pure (by simpa using ⟨hlhs, hrhs⟩)

theorem Shallow.simpleAfter {labels : Bool} {start : Token} {lhs : List Tree} (hg : g.Shallow)
    (w : Passed) (hs : s.Leaves n) (hlhs : ∀ t ∈ lhs, t.levels w ≤ n) :
    (g.simpleAfter labels start lhs).Yields s (·.levels w ≤ n) := by
  unfold Grammar.simpleAfter
  split
  · rename_i x
    have hx : x.levels w ≤ n := by simpa using hlhs
    refine .skip fun _ => ?_
    split
    · refine .ite (fun _ => .skip fun _ => ?_) fun _ => .pure (by simpa)
      exact (hg.statement w hs).bind fun stmt hstmt => .pure (by simp [hx, hstmt])
    · exact .skip fun _ => (hg.expressionRule w hs).bind fun value hvalue =>
        .pure (by simp [hx, hvalue])
    · exact .skip fun _ => .pure (by simpa)
    · exact .skip fun _ => .pure (by simpa)
    · exact .pure (by simpa)
  · exact .expected

theorem Shallow.simpleStatement {labels : Bool} (hg : g.Shallow) (w : Passed) (hs : s.Leaves n) :
    (g.simpleStatement labels).Yields s (·.levels w ≤ n) :=
  .skip fun _ => (hg.expressionList w hs).bind fun _ hlhs => .skip fun _ =>
    .ite (fun _ => .skip fun _ => hg.assignmentAfter w hs hlhs) fun _ => hg.simpleAfter w hs hlhs

theorem Shallow.callStatement {word : CallWord} (hg : g.Shallow) (w : Passed) (hs : s.Leaves n) :
    (g.callStatement word).Yields s (·.levels w ≤ n) :=
  (hg.expressionRule w hs).bind fun _ hx => .ite (fun _ => .refuse)
    fun _ => .ite (fun _ => .pure hx) fun _ => .refuse

-- A part that may be missing.
def Optional (w : Passed) (n : Nat) (o : Option Tree) : Prop := ∀ t ∈ o, t.levels w ≤ n

theorem optional_none : Optional w n none := by simp [Optional]

theorem optional_map {p : Parser Tree} (hp : p.Yields s (·.levels w ≤ n)) :
    (some <$> p).Yields s (Optional w n) :=
  .map (hp.imp fun t ht => by simpa [Optional])

theorem headerExpression_levels {part : HeaderPart} {stmt : Option Tree} (h : Optional w n stmt) :
    (headerExpression part stmt).Yields s (Optional w n) := by
  unfold headerExpression
  split
  · exact .pure optional_none
  · exact .pure (by simpa [Optional] using h)
  · exact .refuse

theorem Shallow.ifFirst (hg : g.Shallow) (w : Passed) (hs : s.Leaves n) :
    g.ifFirst.Yields s (Optional w n) := by
  refine .skip fun _ => ?_
  split
  · exact .pure optional_none
  · exact .refuse
  · exact optional_map (hg.simpleStatement w hs)

theorem Shallow.ifCondition (hg : g.Shallow) (w : Passed) (hs : s.Leaves n) :
    g.ifCondition.Yields s (Optional w n) :=
  .skip fun _ => .ite (fun _ => .pure optional_none) fun _ => (hg.simpleStatement w hs).bind
    fun _ hstmt => headerExpression_levels (by simpa [Optional])

-- Two parts that may be missing.
def Optionals (w : Passed) (n : Nat) (r : Option Tree × Option Tree) : Prop :=
  Optional w n r.1 ∧ Optional w n r.2

theorem Shallow.ifClauses (hg : g.Shallow) (w : Passed) (hs : s.Leaves n) :
    g.ifClauses.Yields s (Optionals w n) := by
  refine (hg.ifFirst w hs).bind fun first hfirst => .skip fun _ => .ite (fun _ => ?_) fun _ => ?_
  · exact .skip fun _ => .ite (fun _ => .refuseAt) fun _ => (hg.ifCondition w hs).bind
      fun cond hcond => .pure ⟨hfirst, hcond⟩
  · exact (headerExpression_levels hfirst).bind fun cond hcond => .pure ⟨optional_none, hcond⟩

theorem Shallow.ifHeader (hg : g.Shallow) (w : Passed) (hs : s.Leaves n) :
    g.ifHeader.Yields s fun r => r.1.levels w ≤ n ∧ r.2.levels w ≤ n := by
  refine .skip fun _ => .ite (fun _ => .refuse) fun _ => ?_
  refine (Yields.inHeader (hg.ifClauses w hs.header)).bind ?_
  rintro ⟨init, cond⟩ ⟨hinit, hcond⟩
  cases cond with
  | none => exact .refuse
  | some cond => exact .pure ⟨levels_ofOption.mpr hinit, hcond cond rfl⟩

theorem Shallow.elseBranch (hg : g.Shallow) (w : Passed) (hs : s.Leaves n) :
    g.elseBranch.Yields s (·.levels w ≤ n) := by
  refine .skip fun _ => .ite (fun _ => .skip fun _ => ?_) fun _ => .skip fun _ => .pure (by simp)
  split
  · exact hg.ifStatement w hs
  · exact (hg.block w hs).bind fun body hbody => .skip fun _ => .pure hbody
  · exact .expected

theorem Shallow.ifRule (hg : g.Shallow) (w : Passed) (hs : s.Leaves n) :
    g.ifRule.Yields s (·.levels w ≤ n) := by
  refine .skip fun _ => (hg.ifHeader w hs).bind ?_
  rintro ⟨init, cond⟩ ⟨hinit, hcond⟩
  exact (hg.block w hs).bind fun body hbody => (hg.elseBranch w hs).bind fun otherwise hotherwise =>
    .pure (by simp [hinit, hcond, hbody, hotherwise])

theorem Shallow.caseClause {types : Bool} (hg : g.Shallow) (w : Passed) (hs : s.Leaves n) :
    (g.caseClause types).Yields s (·.levels w ≤ n) := by
  have hbody : ∀ (start : Token) (values : List Tree), (∀ t ∈ values, t.levels w ≤ n) → (do
      discard (expect (.op .Colon))
      let body ← g.statements
      return Tree.caseClause start.place (.tuple values) (.tuple body) : Parser Tree).Yields s
        (·.levels w ≤ n) :=
    fun _ _ hvalues => .skip fun _ => (hg.statements w hs).bind fun body hbody =>
      .pure (by simpa using ⟨hvalues, hbody⟩)
  refine .skip fun start => .skip fun _ => .ite (fun _ => .ite (fun _ => ?_) fun _ => ?_) fun _ => ?_
  · exact (hg.typeRule_le w hs).commaList.bind (hbody start)
  · exact (hg.expressionList w hs).bind (hbody start)
  · exact .skip fun _ => hbody start [] (by simp)

theorem Shallow.switchHeader (hg : g.Shallow) (w : Passed) (hs : s.Leaves n) :
    g.switchHeader.Yields s (Optionals w n) := by
  have hfirst : g.switchFirst.Yields s.header (Optional w n) :=
    .skip fun _ => .ite (fun _ => .pure optional_none)
      fun _ => optional_map (hg.simpleStatement w hs.header)
  refine .skip fun _ => .ite (fun _ => .pure ⟨optional_none, optional_none⟩) fun _ => .inHeader ?_
  refine hfirst.bind fun first hfirst => .skip fun _ => .ite (fun _ => .skip fun _ => ?_)
    fun _ => .pure ⟨optional_none, hfirst⟩
  exact .ite (fun _ => .pure ⟨hfirst, optional_none⟩) fun _ => (hg.simpleStatement w hs.header).bind
    fun tag htag => .pure ⟨hfirst, by simpa [Optional]⟩

theorem clauses_levels {clause : Parser Tree} (h : clause.Yields s (·.levels w ≤ n)) :
    (clauses clause).Yields s (·.levels w ≤ n) :=
  .skip fun _ => h.manyWhile.bind fun items hitems => .skip fun _ => .skip fun _ =>
    .pure (by simpa using hitems)

theorem Shallow.switchStatement (hg : g.Shallow) (w : Passed) (hs : s.Leaves n) :
    g.switchStatement.Yields s (·.levels w ≤ n) := by
  refine .skip fun _ => (hg.switchHeader w hs).bind ?_
  rintro ⟨init, tag⟩ ⟨hinit, htag⟩
  refine .ite (fun _ => ?_) fun _ => ?_
  · exact (clauses_levels (hg.caseClause w hs)).bind fun body hbody =>
      .pure (by simpa [hbody] using ⟨hinit, htag⟩)
  · exact (clauses_levels (hg.caseClause w hs)).bind fun body hbody =>
      (headerExpression_levels htag).bind fun tag htag =>
        .pure (by simpa [hbody] using ⟨hinit, htag⟩)

theorem Shallow.communication (hg : g.Shallow) (w : Passed) (hs : s.Leaves n) :
    g.communication.Yields s (·.levels w ≤ n) := by
  have hassign : ∀ (start : Token) (lhs : List Tree), (∀ t ∈ lhs, t.levels w ≤ n) → (do
      let t ← advance
      let rhs ← g.expressionRule
      return Tree.assign start.place (.tuple lhs) (.token t.kind) (.tuple [rhs]) : Parser Tree).Yields
        s (·.levels w ≤ n) :=
    fun _ _ hlhs => .skip fun _ => (hg.expressionRule w hs).bind fun rhs hrhs =>
      .pure (by simpa [hrhs] using hlhs)
  have hmany : ∀ (start : Token) (lhs : List Tree), (∀ t ∈ lhs, t.levels w ≤ n) → (do
      if 2 < lhs.length then expected .twoExpressions
      let t ← advance
      let rhs ← g.expressionRule
      return Tree.assign start.place (.tuple lhs) (.token t.kind) (.tuple [rhs]) : Parser Tree).Yields
        s (·.levels w ≤ n) :=
    fun start lhs hlhs => .ite (fun _ => .skip fun _ => hassign start lhs hlhs)
      fun _ => hassign start lhs hlhs
  refine .skip fun start => (hg.expressionList w hs).bind fun lhs hlhs => .skip fun _ => ?_
  split
  · rename_i x
    exact .skip fun _ => (hg.expressionRule w hs).bind fun value hvalue =>
      .pure (by simpa [hvalue] using hlhs)
  · exact hmany start lhs hlhs
  · exact hmany start lhs hlhs
  · exact .pure (by simpa using hlhs)
  · exact .expected

theorem Shallow.commClause (hg : g.Shallow) (w : Passed) (hs : s.Leaves n) :
    g.commClause.Yields s (·.levels w ≤ n) := by
  have hbody : ∀ (start : Token) (comm : Tree), comm.levels w ≤ n → (do
      discard (expect (.op .Colon))
      let body ← g.statements
      return Tree.commClause start.place comm (.tuple body) : Parser Tree).Yields s
        (·.levels w ≤ n) :=
    fun _ _ hcomm => .skip fun _ => (hg.statements w hs).bind fun body hbody =>
      .pure (by simpa [hcomm] using hbody)
  refine .skip fun start => .skip fun _ => .ite (fun _ => ?_) fun _ => .skip fun _ => ?_
  · exact (hg.communication w hs).bind (hbody start)
  · exact hbody start .absent (by simp)

theorem Shallow.selectStatement (hg : g.Shallow) (w : Passed) (hs : s.Leaves n) :
    g.selectStatement.Yields s (·.levels w ≤ n) :=
  .skip fun _ => (clauses_levels (hg.commClause w hs)).bind fun body hbody => .pure (by simpa)

def LoopHeader.Within (w : Passed) (n : Nat) : LoopHeader → Prop
  | .parts init cond post => Optional w n init ∧ Optional w n cond ∧ Optional w n post
  | .range vars _ x => (∀ t ∈ vars, t.levels w ≤ n) ∧ x.levels w ≤ n

theorem Shallow.loopAfter {first : Option Tree} (hg : g.Shallow) (w : Passed) (hs : s.Leaves n)
    (hfirst : Optional w n first) : (g.loopAfter first).Yields s (LoopHeader.Within w n) := by
  have hcond : g.loopCondition.Yields s (Optional w n) :=
    .skip fun _ => .ite (fun _ => .pure optional_none) fun _ => optional_map (hg.simpleStatement w hs)
  have hpost : g.loopPost.Yields s (Optional w n) :=
    .skip fun _ => .ite (fun _ => .pure optional_none) fun _ => optional_map (hg.simpleStatement w hs)
  refine .skip fun _ => .ite (fun _ => ?_) fun _ => .pure ⟨optional_none, hfirst, optional_none⟩
  exact hcond.bind fun cond hcond => .skip fun _ => hpost.bind fun post hpost =>
    .pure ⟨hfirst, hcond, hpost⟩

theorem Shallow.rangeAfter {vars : List Tree} {op : TokenKind} (hg : g.Shallow) (w : Passed)
    (hs : s.Leaves n) (hvars : ∀ t ∈ vars, t.levels w ≤ n) : (g.rangeAfter vars op).Yields s (LoopHeader.Within w n) :=
  .skip fun _ => (hg.expressionRule w hs).bind fun _ hx => .pure ⟨hvars, hx⟩

theorem Shallow.loopFirst (hg : g.Shallow) (w : Passed) (hs : s.Leaves n) :
    g.loopFirst.Yields s (LoopHeader.Within w n) := by
  have hsome : ∀ first : Tree, first.levels w ≤ n →
      (g.loopAfter (some first)).Yields s (LoopHeader.Within w n) :=
    fun first hfirst => hg.loopAfter w hs (by simpa [Optional])
  refine .skip fun _ => (hg.expressionList w hs).bind fun lhs hlhs => .skip fun _ =>
    .ite (fun _ => .skip fun _ => .skip fun _ => .ite (fun _ => ?_) fun _ => ?_) fun _ => ?_
  · exact hg.rangeAfter w hs hlhs
  · exact (hg.assignmentAfter w hs hlhs).bind hsome
  · exact (hg.simpleAfter w hs hlhs).bind hsome

theorem Shallow.loopHeader (hg : g.Shallow) (w : Passed) (hs : s.Leaves n) :
    g.loopHeader.Yields s (LoopHeader.Within w n) := by
  refine .skip fun _ => .ite (fun _ => ?_) fun _ => .inHeader (.skip fun _ => ?_)
  · exact .pure ⟨optional_none, optional_none, optional_none⟩
  split
  · exact hg.loopAfter w hs.header optional_none
  · exact hg.rangeAfter w hs.header (by simp)
  · exact hg.loopFirst w hs.header

theorem Shallow.forStatement (hg : g.Shallow) (w : Passed) (hs : s.Leaves n) :
    g.forStatement.Yields s (·.levels w ≤ n) := by
  refine .skip fun _ => (hg.loopHeader w hs).bind fun header hheader => ?_
  refine (hg.block w hs).bind fun body hbody => .skip fun _ => ?_
  split
  · obtain ⟨hinit, hcond, hpost⟩ := hheader
    exact (headerExpression_levels hcond).bind fun cond hcond =>
      .pure (by simpa [hbody] using ⟨hinit, hcond, hpost⟩)
  · exact .pure (by simp [hheader.2, hbody])
  · exact .pure (by simpa [hheader.2, hbody] using hheader.1)
  · exact .pure (by simpa [hheader.2, hbody] using hheader.1)
  · exact .refuseAt

theorem Shallow.endedSimple (hg : g.Shallow) (w : Passed) (hs : s.Leaves n) :
    g.endedSimple.Yields s (·.levels w ≤ n) :=
  (hg.simpleStatement w hs).bind fun _ hstmt => .ite (fun _ => .pure hstmt)
    fun _ => .skip fun _ => .pure hstmt

theorem Shallow.returnStatement {t : Token} (hg : g.Shallow) (w : Passed) (hs : s.Leaves n) :
    (g.returnStatement t).Yields s (·.levels w ≤ n) := by
  have hreturned : g.returned.Yields s fun ts => ∀ t ∈ ts, t.levels w ≤ n := by
    refine .skip fun _ => ?_
    split
    · exact .pure (by simp)
    · exact .pure (by simp)
    · exact hg.expressionList w hs
  exact .skip fun _ => hreturned.bind fun results hresults => .skip fun _ =>
    .pure (by simpa using hresults)

theorem branchStatement_levels {t : Token} {k : Keyword} :
    (branchStatement t k).Yields s (·.levels w ≤ n) := by
  have hlabel : (branchLabel k).Yields s (·.levels w ≤ n) :=
    .skip fun _ => .ite (fun _ => ident_levels) fun _ => .pure (by simp)
  exact .skip fun _ => hlabel.bind fun label hlabel => .skip fun _ => .pure (by simpa)

theorem Shallow.statementHere (hg : g.Shallow) (w : Passed) (hs : s.Leaves n) :
    g.statementHere.Yields s (·.levels w ≤ n) := by
  have hdecl : ∀ t keyword, (g.declarationStatement t keyword).Yields s (·.levels w ≤ n) :=
    fun t keyword => (hg.genDecl w hs).bind fun decl hdecl => .pure (by simpa)
  refine .skip fun t => .ite (fun _ => hg.endedSimple w hs) fun _ => ?_
  split
  · exact hdecl t _
  · exact hdecl t _
  · exact hdecl t _
  · exact .skip fun _ => (hg.callStatement w hs).bind fun call hcall => .skip fun _ => .pure (by simpa)
  · exact .skip fun _ => (hg.callStatement w hs).bind fun call hcall => .skip fun _ => .pure (by simpa)
  · exact hg.returnStatement w hs
  · exact hg.ifRule w hs
  · exact hg.switchStatement w hs
  · exact hg.selectStatement w hs
  · exact hg.forStatement w hs
  · exact .ite (fun _ => branchStatement_levels) fun _ => .expected
  · exact (hg.block w hs).bind fun body hbody => .skip fun _ => .pure hbody
  · exact .skip fun _ => .pure (by simp)
  · exact .pure (by simp)
  · exact .expected

theorem Shallow.statementRule (hg : g.Shallow) (w : Passed) (hs : s.Leaves n) :
    g.statementRule.Yields s (·.levels w ≤ n) :=
  .nested fun hlimit => by
    obtain ⟨m, rfl, hm⟩ := hs.deeper hlimit
    exact (hg.statementHere w hm).imp fun t ht => Nat.le_succ_of_le ht

-- What rules keep is kept when they are applied to each other.
theorem Shallow.extend (hg : g.Shallow) : g.extend.Shallow where
  binary := hg.binaryRule
  unary := hg.unaryRule
  type? := hg.typeRule?
  bareLiteral := hg.bareLiteralRule
  statement := hg.statementRule
  ifStatement := hg.ifRule

end GoCompact.Grammar
