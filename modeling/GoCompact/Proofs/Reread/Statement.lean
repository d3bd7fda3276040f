import GoCompact.Proofs.Grammar.Sound.Statement
import GoCompact.Proofs.Reread.Expression

namespace GoCompact

namespace Tree

open GoCompact.Parser GoCompact.Grammar Cursor
open Emission (Spells)

-- The lexemes of a statement.
def statementWords (t : Tree) : List Lexeme := (t.emittedAs .statement).words

theorem statementWords_of_spells {t : Tree} {ls : List Lexeme}
    (h : (t.emittedAs .statement).Spells ls) : t.statementWords = ls :=
  h.words

-- A token of this kind after a simple statement does not go on with it.
inductive SimpleStops (s : Scope) (t : Tree) (k : TokenKind) : Prop
  | ending (h : k = .op .Semicolon ∨ closesStatement k = true)
  | body (hk : k = .op .LBrace) (hfree : s.isFree = false) (hbrace : t.endTakesBrace = false)

namespace SimpleStops

variable {s : Scope} {t : Tree} {k : TokenKind}

theorem cases (h : t.SimpleStops s k) :
    k = .op .Semicolon ∨ k = .op .RParen ∨ k = .op .RBrace ∨ k = .eof ∨ k = .op .LBrace := by
  rcases h with (rfl | h) | ⟨rfl, -, -⟩
  · simp
  · unfold closesStatement at h
    split at h <;> simp_all
  · simp

-- Nor does it go on with the expression at the end of the statement.
theorem stops {x : Tree} (h : t.SimpleStops s k)
    (hx : t.endTakesBrace = false → x.takesBrace = false) : k.precedence = 0 ∧ x.Stops s k := by
  have hkind := h.cases
  refine ⟨?_, ?_, fun hbrace => ?_, ?_⟩
  · rcases hkind with rfl | rfl | rfl | rfl | rfl <;> rfl
  · rcases hkind with rfl | rfl | rfl | rfl | rfl <;> rfl
  · subst hbrace
    rcases h with (h | h) | ⟨-, hfree, hbrace⟩
    · cases h
    · cases h
    · exact ⟨hfree, hx hbrace⟩
  · refine edge_eq_false ?_ ?_ x
    · rcases hkind with rfl | rfl | rfl | rfl | rfl <;> decide
    · rcases hkind with rfl | rfl | rfl | rfl | rfl <;> rfl

end SimpleStops

-- Statements of expressions.
def isSimple (t : Tree) : Bool :=
  t.is .ExprStmt || t.is .AssignStmt || t.is .SendStmt || t.is .IncDecStmt

theorem is_labeled_of_isSimple {t : Tree} (h : t.isSimple = true) : t.is .LabeledStmt = false := by
  simp only [isSimple, Tree.is, Bool.or_eq_true, beq_iff_eq] at h
  rcases h with ((h | h) | h) | h <;> simp [Tree.is, h]

theorem isSelfTerminated_of_isSimple {t : Tree} (h : t.isSimple = true) :
    t.isSelfTerminated = false := by
  unfold isSelfTerminated
  split <;> first | rfl | cases h

-- A simple statement is read without its end, also as the first part of a loop.
structure SimpleReads (b : Bool) (t : Tree) : Prop where
  simple : t.isSimple = true
  spells : (t.emittedAs .statement).Spells t.statementWords
  begins : Begins (beginsSimple · = true) t.statementWords
  takes {n : Nat} {s : Scope} (labels : Bool) : Room (n + 1) s t.statementWords.length 1 →
    (b = true → s.isFree = true) →
    ((upTo n).simpleStatement labels).Takes s t.statementWords t.bare (t.SimpleStops s)
  first {n : Nat} {s : Scope} {header : LoopHeader} {ms : List Lexeme} {P : TokenKind → Prop} :
    Room (n + 1) s t.statementWords.length 1 → (b = true → s.isFree = true) →
    Next (t.SimpleStops s) ms P → ((upTo n).loopAfter (some t.bare)).Takes s ms header P →
    (upTo n).loopFirst.Takes s (t.statementWords ++ ms) header P

theorem SimpleReads.isAbsent {b : Bool} {t : Tree} (h : t.SimpleReads b) : t.isAbsent = false := by
  unfold Tree.isAbsent
  split
  · cases h.spells.fault
  · rfl

section

variable {b : Bool} {n : Nat} {s : Scope}

-- Expressions with commas between them.
theorem takes_expressions {m : Nat} {x : Tree} {xs : List Tree} (hroom : Room (n + 1) s m 1)
    (hlength : (listed ((x :: xs).map words)).length ≤ m) (hfree : b = true → s.isFree = true)
    (hreads : ∀ y ∈ x :: xs, y.Reads b) :
    (upTo n).expressionList.Takes s (listed ((x :: xs).map words)) ((x :: xs).map bare)
      fun k => k ≠ .op .Comma ∧ k.precedence = 0 ∧ ∀ y ∈ (x :: xs).getLast?, y.Stops s k := by
  have hread : ∀ y ∈ x :: xs, (upTo n).expressionRule.Takes s y.words y.bare
      fun k => k.precedence = 0 ∧ y.Stops s k := by
    intro y hy
    have hle := length_le_listed (List.mem_map_of_mem (f := words) hy)
    exact (hreads y hy).takes (n := n + 1) (hroom.mono (hle.trans hlength)) hfree
  refine takes_commaList (fun y hy => ?_) (fun y hy => ?_) (fun y hy => ?_) (by simp)
  · refine (hread y hy).mono ?_
    rintro k rfl
    exact ⟨rfl, stops_of_closes rfl _ _⟩
  · refine (hread y (List.mem_of_getLast? hy)).mono fun k hk => ?_
    exact ⟨hk.2.1, hk.2.2 y hy⟩
  · exact (hreads y (List.mem_cons_of_mem x hy)).begins.ne_nil

-- A single expression is a list of them.
theorem takes_oneExpression {m : Nat} {x : Tree} (hroom : Room (n + 1) s m 1)
    (hlength : x.words.length ≤ m) (hfree : b = true → s.isFree = true) (hx : x.Reads b) :
    (upTo n).expressionList.Takes s x.words [x.bare]
      fun k => k ≠ .op .Comma ∧ k.precedence = 0 ∧ x.Stops s k := by
  have hreads : ∀ y ∈ [x], y.Reads b := by simpa using hx
  have hlist := takes_expressions hroom (by simpa [listed] using hlength) hfree hreads
  simpa [listed] using hlist

variable {p t x : Tree}

-- A statement that begins with a single expression and is no assignment.
theorem SimpleReads.of_after (ls : List Lexeme) (hx : x.Reads b) (hsimple : t.isSimple = true)
    (hspells : (t.emittedAs .statement).Spells (x.words ++ ls))
    (hnext : ∀ s : Scope, Next (fun k => k ≠ .op .Comma ∧ k.isAssignment = false ∧
      k.precedence = 0 ∧ x.Stops s k) ls (t.SimpleStops s))
    (hafter : ∀ ⦃n : Nat⦄ ⦃s : Scope⦄ (labels : Bool) (l : Lexeme),
      Room (n + 1) s (x.words ++ ls).length 1 → (b = true → s.isFree = true) →
      ((upTo n).simpleAfter labels l.bare [x.bare]).Takes s ls t.bare (t.SimpleStops s)) :
    t.SimpleReads b := by
  have hwords : t.statementWords = x.words ++ ls := hspells.words
  have hlist : ∀ {n : Nat} {s : Scope}, Room (n + 1) s t.statementWords.length 1 →
      (b = true → s.isFree = true) → (upTo n).expressionList.Takes s x.words [x.bare] fun k =>
        k ≠ .op .Comma ∧ k.precedence = 0 ∧ x.Stops s k :=
    fun hroom hfree => takes_oneExpression hroom (by simp [hwords]) hfree hx
  obtain ⟨l, rest, hl, -⟩ := hx.begins
  refine ⟨hsimple, hwords ▸ hspells, hwords ▸ hx.begins.append ls, ?_, ?_⟩
  · intro n s labels hroom hfree
    have hread := hlist hroom hfree
    rw [hwords] at hroom ⊢
    have hread' := hafter labels l hroom hfree
    rw [hl] at hread ⊢
    refine takes_current_bind (hread.bind ((hnext s).mono fun k hk => ⟨hk.1, hk.2.2⟩) ?_)
    refine takes_peek_next (hnext s) fun k hk => ?_
    rw [if_neg (by simp [hk.2.1])]
    exact hread'
  · intro n s header ms P hroom hfree hstops hloop
    have hread := hlist hroom hfree
    rw [hwords] at hroom ⊢
    have hread' := hafter false l hroom hfree
    have hnext' : Next (fun k => k ≠ .op .Comma ∧ k.isAssignment = false ∧
        k.precedence = 0 ∧ x.Stops s k) (ls ++ ms) P := (hnext s).append hstops
    rw [hl] at hread ⊢
    rw [List.append_assoc]
    refine takes_current_bind (hread.bind (hnext'.mono fun k hk => ⟨hk.1, hk.2.2⟩) ?_)
    refine takes_peek_next hnext' fun k hk => ?_
    rw [if_neg (by simp [hk.2.1])]
    exact hread'.bind hstops hloop

theorem SimpleStops.not_assigns {k : TokenKind} (h : t.SimpleStops s k) :
    k ≠ .op .Comma ∧ k.isAssignment = false := by
  rcases h.cases with rfl | rfl | rfl | rfl | rfl <;> exact ⟨by decide, rfl⟩

theorem reads_exprStmt (hx : x.Reads b) : (Tree.exprStmt p x).SimpleReads b := by
  refine .of_after [] hx rfl ?_ (fun s => .nil ?_) ?_
  · rw [emitted_exprStmt, List.append_nil]
    exact hx.spells
  · intro k hk
    exact ⟨hk.not_assigns.1, hk.not_assigns.2, hk.stops fun h => h⟩
  · intro n s labels l hroom hfree
    refine takes_peek_next (.nil fun k hk => hk.cases) ?_
    rintro k (rfl | rfl | rfl | rfl | rfl) <;> exact takes_pure (by simp)

theorem spells_incDec {o : Operator} (hx : (x.emittedAs .expression).Spells x.words) :
    ((Tree.incDec p x (.token (.op o))).emittedAs .statement).Spells
      (x.words ++ [.ofOperator o]) := by
  rw [emitted_incDec]
  exact hx.append (.operator o)

theorem reads_incDec {o : Operator} (hx : x.Reads b) (ho : o = .Inc ∨ o = .Dec) :
    (Tree.incDec p x (.token (.op o))).SimpleReads b := by
  refine .of_after [.ofOperator o] hx rfl (spells_incDec hx.spells)
    (fun s => .cons ?_ []) ?_
  · rcases ho with rfl | rfl <;>
      exact ⟨by decide, rfl, rfl, stops_of_closes rfl _ _⟩
  · intro n s labels l hroom hfree
    refine takes_peek_bind ?_
    rcases ho with rfl | rfl <;> exact takes_advance_bind (takes_pure (by simp))

theorem spells_send {y : Tree} (hx : (x.emittedAs .expression).Spells x.words)
    (hy : (y.emittedAs .expression).Spells y.words) :
    ((Tree.send p x y).emittedAs .statement).Spells (x.words ++ .ofOperator .Arrow :: y.words) := by
  rw [emitted_send]
  exact hx.append (spells_after hy .Arrow)

theorem reads_send {y : Tree} (hx : x.Reads b) (hy : y.Reads b)
    (hedge : x.edge (.op .Arrow) = false) : (Tree.send p x y).SimpleReads b := by
  refine .of_after (.ofOperator .Arrow :: y.words) hx rfl (spells_send hx.spells hy.spells)
    (fun s => .cons ?_ _) ?_
  · exact ⟨by decide, rfl, rfl, rfl, nofun, hedge⟩
  · intro n s labels l hroom hfree
    have hvalue := hy.takes (n := n + 1) (hroom.mono (by simp; omega)) hfree
    refine takes_peek_bind (takes_discard_advance ?_)
    refine (hvalue.mono fun k hk => ?_).bind_nil (takes_pure (by simp))
    exact hk.stops fun h => h

theorem isAssignment_stops {o : Operator} (ho : o.isAssignment = true) (x : Tree) :
    TokenKind.op o ≠ .op .Comma ∧ (TokenKind.op o).precedence = 0 ∧ x.Stops s (.op o) := by
  have hcloses : (TokenKind.op o).closes = true := by
    cases o <;> first | rfl | cases ho
  refine ⟨?_, precedence_of_closes hcloses, stops_of_closes hcloses s x⟩
  rintro ⟨⟩
  cases ho

theorem spells_assign {lhs rhs : List Tree} {o : Operator} (hrne : rhs ≠ [])
    (hlhs : ∀ t ∈ lhs, (t.emittedAs .expression).Spells t.words)
    (hrhs : ∀ t ∈ rhs, (t.emittedAs .expression).Spells t.words) :
    ((Tree.assign p (.tuple lhs) (.token (.op o)) (.tuple rhs)).emittedAs .statement).Spells
      (listed (lhs.map words) ++ .ofOperator o :: listed (rhs.map words)) := by
  obtain ⟨y, ys, rfl⟩ := List.exists_cons_of_ne_nil hrne
  rw [emitted_assign]
  refine (spells_list hlhs).append ?_
  exact ((Spells.operator o).append (.blank _)).append (spells_list hrhs)

theorem reads_assign {lhs rhs : List Tree} {o : Operator} (hlne : lhs ≠ [])
    (hlhs : ∀ t ∈ lhs, t.Reads b) (ho : o.isAssignment = true) (hrne : rhs ≠ [])
    (hrhs : ∀ t ∈ rhs, t.Reads b) :
    (Tree.assign p (.tuple lhs) (.token (.op o)) (.tuple rhs)).SimpleReads b := by
  have hspells := spells_assign (p := p) (o := o) hrne (fun t ht => (hlhs t ht).spells)
    fun t ht => (hrhs t ht).spells
  obtain ⟨x, xs, rfl⟩ := List.exists_cons_of_ne_nil hlne
  obtain ⟨y, ys, rfl⟩ := List.exists_cons_of_ne_nil hrne
  generalize ht : Tree.assign p (.tuple (x :: xs)) (.token (.op o)) (.tuple (y :: ys)) = t
    at hspells ⊢
  have hwords : t.statementWords = _ := hspells.words
  -- The right side up to what ends the statement.
  have hright : ∀ {n : Nat} {s : Scope} (l : Lexeme), Room (n + 1) s t.statementWords.length 1 →
      (b = true → s.isFree = true) →
      ((upTo n).assignmentAfter l.bare (Lexeme.ofOperator o).bare ((x :: xs).map bare)).Takes s
        (listed ((y :: ys).map words)) t.bare (t.SimpleStops s) := by
    intro n s l hroom hfree
    have hlist := takes_expressions hroom (by simp [hwords]; omega) hfree hrhs
    refine (hlist.mono fun k hk => ?_).bind_nil (takes_pure (by simp [← ht]))
    have hstops : ∀ z ∈ (y :: ys).getLast?, k.precedence = 0 ∧ z.Stops s k := by
      intro z hz
      refine hk.stops fun h => ?_
      rw [← ht, endTakesBrace, Option.mem_def.mp hz] at h
      exact h
    exact ⟨hk.not_assigns.1, (hstops _ (List.getLast?_eq_some_getLast (by simp))).1,
      fun z hz => (hstops z hz).2⟩
  -- The left side up to the operator.
  have hleft : ∀ {n : Nat} {s : Scope}, Room (n + 1) s t.statementWords.length 1 →
      (b = true → s.isFree = true) →
      (upTo n).expressionList.Takes s (listed ((x :: xs).map words)) ((x :: xs).map bare)
        (· = .op o) := by
    intro n s hroom hfree
    refine (takes_expressions hroom (by simp [hwords]) hfree hlhs).mono ?_
    rintro k rfl
    exact ⟨(isAssignment_stops ho x (s := s)).1, (isAssignment_stops ho x (s := s)).2.1,
      fun z _ => (isAssignment_stops ho z).2.2⟩
  have hbegins : ∀ {z : Tree} (zs : List Tree), z.Reads b →
      Begins (beginsSimple · = true) (listed ((z :: zs).map words)) :=
    fun _ hz => hz.begins.append _
  obtain ⟨l, rest, hl, -⟩ := hbegins xs (hlhs x (by simp))
  refine ⟨?_, hwords ▸ hspells, ?_, ?_, ?_⟩
  · rw [← ht]
    rfl
  · rw [hwords]
    exact (hbegins xs (hlhs x (by simp))).append _
  · intro n s labels hroom hfree
    have hread := hleft hroom hfree
    have hread' := hright l hroom hfree
    rw [hwords]
    rw [hl] at hread ⊢
    refine takes_current_bind (hread.bind (.cons (by rfl) _) (takes_peek_bind ?_))
    rw [if_pos (by exact ho)]
    exact takes_advance_bind hread'
  · intro n s header ms P hroom hfree hstops hloop
    have hread := hleft hroom hfree
    have hread' := hright l hroom hfree
    rw [hwords, List.append_assoc]
    rw [hl] at hread ⊢
    refine takes_current_bind (hread.bind (.cons (by rfl) _) (takes_peek_bind ?_))
    rw [if_pos (by exact ho)]
    refine takes_advance_bind ?_
    refine takes_peek_next ((hbegins ys (hrhs y (by simp))).append _).next fun k hk => ?_
    rw [if_neg]
    · exact hread'.bind hstops hloop
    · simp only [Bool.and_eq_true, beq_iff_eq, not_and]
      rintro - rfl
      cases hk

end

-- Braces around statements are read as a block.
structure BlockReads (t : Tree) : Prop where
  spells : (t.emittedAs .block).Spells t.statementWords
  begins : Begins (· = .op .LBrace) t.statementWords
  takes {n : Nat} {s : Scope} : Room (n + 1) s t.statementWords.length 1 → s.isFree = true →
    (upTo n).block.Takes s t.statementWords t.bare fun _ => True

-- An `if` is read with its end.
structure IfReads (t : Tree) : Prop where
  begins : Begins (· = .word .If) t.statementWords
  takes {n : Nat} {s : Scope} {tail : List Lexeme} {P : TokenKind → Prop} :
    Room (n + 1) s t.statementWords.length 1 → s.isFree = true → Ending tail P →
    (upTo n).ifRule.Takes s (t.statementWords ++ tail) t.bare P

-- A `return` without results is read only before a semicolon or a brace.
def ReturnsBefore (t : Tree) (tail : List Lexeme) (P : TokenKind → Prop) : Prop :=
  t.statementWords.getLast? = some (.ofKeyword .Return) →
    Next (fun k => k = .op .Semicolon ∨ k = .op .RBrace) tail P

-- A statement is read with its end, if it needs one.
structure StatementReads (t : Tree) : Prop where
  spells : (t.emittedAs .statement).Spells t.statementWords
  begins : Begins (endsStatements · = false) t.statementWords
  closed {n : Nat} {s : Scope} : t.isSelfTerminated = true →
    Room n s t.statementWords.length 0 → s.isFree = true →
    (upTo n).statement.Takes s t.statementWords t.bare fun _ => True
  ended {n : Nat} {s : Scope} {tail : List Lexeme} {P : TokenKind → Prop} :
    t.isSelfTerminated = false → Room n s t.statementWords.length 0 → s.isFree = true →
    Ending tail P → t.ReturnsBefore tail P →
    (upTo n).statement.Takes s (t.statementWords ++ tail) t.bare P
  ifs : t.is .IfStmt = true → t.IfReads
  blocks : t.is .BlockStmt = true → t.BlockReads

section

variable {n : Nat} {s : Scope} {p t x : Tree} {ls : List Lexeme} {P : TokenKind → Prop}

-- A statement is read one level deeper.
theorem takes_statement {m : Nat} (hm : 0 < m) (hroom : Room n s m 0) (hfree : s.isFree = true)
    (h : ∀ ⦃n : Nat⦄ ⦃s : Scope⦄, Room (n + 1) s m 1 → s.isFree = true →
      (upTo n).statementHere.Takes s ls t P) : (upTo n).statement.Takes s ls t P := by
  cases n with
  | zero => exact absurd hroom.rules (by omega)
  | succ n => exact (h (hroom.deeper hm (by decide)) hfree).nested (hroom.admits hm (by decide))

-- A statement that needs an end.
theorem StatementReads.of_here (hspells : (t.emittedAs .statement).Spells t.statementWords)
    (hbegins : Begins (endsStatements · = false) t.statementWords)
    (hself : t.isSelfTerminated = false)
    (h : ∀ ⦃n : Nat⦄ ⦃s : Scope⦄ ⦃tail : List Lexeme⦄ ⦃P : TokenKind → Prop⦄,
      Room (n + 1) s t.statementWords.length 1 → s.isFree = true → Ending tail P →
      t.ReturnsBefore tail P →
      (upTo n).statementHere.Takes s (t.statementWords ++ tail) t.bare P)
    (hifs : t.is .IfStmt = true → t.IfReads) (hblocks : t.is .BlockStmt = true → t.BlockReads) :
    t.StatementReads where
  spells := hspells
  begins := hbegins
  closed hself' := by simp [hself] at hself'
  ended _ hroom hfree hending hreturn :=
    takes_statement hbegins.length_pos hroom hfree fun _ _ hroom hfree =>
      h hroom hfree hending hreturn
  ifs := hifs
  blocks := hblocks

theorem endsStatements_of_beginsSimple {k : TokenKind} (h : beginsSimple k = true) :
    endsStatements k = false := by
  unfold endsStatements
  split <;> first | rfl | cases h

theorem takes_endedSimple {g : Grammar} {l : Lexeme} (hl : beginsSimple l.kind = true)
    (h : g.endedSimple.Takes s (l :: ls) t P) : g.statementHere.Takes s (l :: ls) t P := by
  refine takes_current_bind ?_
  rw [if_pos (show beginsSimple l.bare.kind = true from hl)]
  exact h

-- A simple statement with its end.
theorem SimpleReads.statement (h : t.SimpleReads true) : t.StatementReads := by
  refine .of_here h.spells (h.begins.mono fun _ => endsStatements_of_beginsSimple)
    (isSelfTerminated_of_isSimple h.simple) ?_ ?_ ?_
  · intro n s tail P hroom hfree hending _
    have hread := h.takes true hroom fun _ => hfree
    obtain ⟨l, rest, hl, hbegins⟩ := h.begins
    rw [hl] at hread ⊢
    refine takes_endedSimple hbegins (hread.bind (hending.next.mono fun k hk => .ending hk) ?_)
    rw [if_neg (by simp [is_labeled_of_isSimple h.simple])]
    exact hending.takes_expectEnd (takes_pure rfl)
  · have hsimple := h.simple
    intro hif
    simp [isSimple, Tree.is] at hsimple hif
    simp [hif] at hsimple
  · have hsimple := h.simple
    intro hblock
    simp [isSimple, Tree.is] at hsimple hblock
    simp [hblock] at hsimple

-- A label is read with the statement after it and the end of that.
theorem takes_labeled {l : Text} {q : Tree} {m : Nat} (hl : (⟨.ident, l⟩ : Lexeme).Whole)
    (hroom : Room (n + 1) s (m + 2) 1) (hfree : s.isFree = true)
    (h : (upTo n).statement.Takes s ls t.bare P) :
    (upTo n).statementHere.Takes s (⟨.ident, l⟩ :: .ofOperator .Colon :: ls)
      (Tree.labeled p (.ident q (.text l)) t).bare P := by
  have hident := reads_ident (b := true) hl q
  have hwords := words_of_spells (spells_ident hl q)
  have hlabel := takes_oneExpression hroom (by simp [hwords]) (fun _ => hfree) hident
  rw [hwords] at hlabel
  have hnext : Next (fun k => k ≠ .op .Comma ∧ k.precedence = 0 ∧
      (Tree.ident q (.text l)).Stops s k) (.ofOperator .Colon :: ls) P :=
    .cons ⟨by decide, rfl, stops_of_closes rfl _ _⟩ _
  refine takes_endedSimple rfl
    (Takes.bind_nil (a := (Tree.labeled p (.ident q (.text l)) t).bare) ?_ ?_)
  · refine takes_current_bind (hlabel.bind hnext (takes_peek_bind ?_))
    rw [if_neg (by decide)]
    refine takes_peek_bind (takes_discard_advance ?_)
    exact h.bind_nil (takes_pure (by simp))
  · rw [if_pos (by simp [Tree.is, kind?])]
    exact takes_pure rfl

theorem spells_labeled {l : Text} {q : Tree} (hl : (⟨.ident, l⟩ : Lexeme).Whole)
    (h : (t.emittedAs .statement).Spells t.statementWords) :
    ((Tree.labeled p (.ident q (.text l)) t).emittedAs .statement).Spells
      (⟨.ident, l⟩ :: .ofOperator .Colon :: t.statementWords) := by
  rw [emitted_labeled, nameOf_ident]
  exact ((Spells.write hl).append (.operator _)).append h

theorem reads_labeled {l : Text} {q : Tree} (hl : (⟨.ident, l⟩ : Lexeme).Whole)
    (h : t.StatementReads) : (Tree.labeled p (.ident q (.text l)) t).StatementReads := by
  have hspells := spells_labeled (p := p) (q := q) hl h.spells
  have hwords : (Tree.labeled p (.ident q (.text l)) t).statementWords = _ := hspells.words
  have hpos := h.begins.length_pos
  refine ⟨hwords ▸ hspells, ⟨_, _, hwords, rfl⟩, ?_, ?_, nofun, nofun⟩
  · intro n s hself hroom hfree
    rw [hwords] at hroom ⊢
    refine takes_statement (by simp) hroom hfree fun n s hroom hfree => ?_
    exact takes_labeled hl hroom hfree
      (h.closed hself (hroom.inner (by simp) (by decide) 0) hfree)
  · intro n s tail P hself hroom hfree hending hreturn
    rw [hwords] at hroom ⊢
    refine takes_statement (by simp) hroom hfree fun n s hroom hfree => ?_
    refine takes_labeled hl hroom hfree (h.ended hself
      (hroom.inner (by simp) (by decide) 0) hfree hending fun hlast => hreturn ?_)
    obtain ⟨l, rest, hl, -⟩ := h.begins
    rw [hwords, hl]
    rw [hl] at hlast
    exact hlast

-- A semicolon by itself.
theorem spells_emptyStmt :
    ((Tree.emptyStmt p (.flag false)).emittedAs .statement).Spells [.ofOperator .Semicolon] :=
  Spells.operator .Semicolon

theorem reads_emptyStmt : (Tree.emptyStmt p (.flag false)).StatementReads := by
  have hspells := spells_emptyStmt (p := p)
  have hwords : (Tree.emptyStmt p (.flag false)).statementWords = _ := hspells.words
  refine ⟨hwords ▸ hspells, ⟨_, _, hwords, rfl⟩, ?_, nofun, nofun, nofun⟩
  intro n s _ hroom hfree
  rw [hwords] at hroom ⊢
  refine takes_statement (by simp) hroom hfree fun n s hroom hfree => ?_
  refine takes_current_bind ?_
  rw [if_neg (by decide)]
  exact takes_discard_advance (takes_pure rfl)

-- What follows a statement ends the expressions in it.
theorem stops_of_ending {k : TokenKind} (h : k = .op .Semicolon ∨ closesStatement k = true)
    (s : Scope) (x : Tree) : k ≠ .op .Comma ∧ k.precedence = 0 ∧ x.Stops s k := by
  have hstops : (Tree.exprStmt .absent x).SimpleStops s k := .ending h
  exact ⟨hstops.not_assigns.1, hstops.stops fun h => h⟩

-- The call of a `go` or `defer` statement.
theorem takes_callStatement {w : CallWord} {m : Nat} (hx : x.Reads true)
    (hcall : x.is .CallExpr = true) (hroom : Room (n + 1) s m 1) (hlength : x.words.length ≤ m)
    (hfree : s.isFree = true) :
    ((upTo n).callStatement w).Takes s x.words x.bare
      fun k => k = .op .Semicolon ∨ closesStatement k = true := by
  have hread := hx.takes (n := n + 1) (hroom.mono hlength) fun _ => hfree
  have hparen : x.is .ParenExpr = false := by
    simp only [Tree.is, beq_iff_eq] at hcall
    simp [Tree.is, hcall]
  refine (hread.mono fun k hk => (stops_of_ending hk s x).2).bind_nil ?_
  rw [if_neg (by simp [hparen]), if_pos (by simpa using hcall)]
  exact takes_pure rfl

theorem spells_goStmt (hx : (x.emittedAs .expression).Spells x.words) :
    ((Tree.goStmt p x).emittedAs .statement).Spells (.ofKeyword .Go :: x.words) := by
  rw [emitted_goStmt]
  exact (Spells.spaced _).append hx

theorem spells_deferStmt (hx : (x.emittedAs .expression).Spells x.words) :
    ((Tree.deferStmt p x).emittedAs .statement).Spells (.ofKeyword .Defer :: x.words) := by
  rw [emitted_deferStmt]
  exact (Spells.spaced _).append hx

theorem reads_goStmt (hx : x.Reads true) (hcall : x.is .CallExpr = true) :
    (Tree.goStmt p x).StatementReads := by
  have hspells := spells_goStmt (p := p) hx.spells
  have hwords : (Tree.goStmt p x).statementWords = _ := hspells.words
  refine .of_here (hwords ▸ hspells) ⟨_, _, hwords, rfl⟩ rfl ?_ nofun nofun
  intro n s tail P hroom hfree hending _
  rw [hwords] at hroom ⊢
  have hread := takes_callStatement (w := .go) hx hcall hroom (by simp) hfree
  refine takes_current_bind ?_
  rw [if_neg (by decide)]
  refine takes_discard_advance (hread.bind hending.next ?_)
  exact hending.takes_expectEnd (takes_pure (by simp))

theorem reads_deferStmt (hx : x.Reads true) (hcall : x.is .CallExpr = true) :
    (Tree.deferStmt p x).StatementReads := by
  have hspells := spells_deferStmt (p := p) hx.spells
  have hwords : (Tree.deferStmt p x).statementWords = _ := hspells.words
  refine .of_here (hwords ▸ hspells) ⟨_, _, hwords, rfl⟩ rfl ?_ nofun nofun
  intro n s tail P hroom hfree hending _
  rw [hwords] at hroom ⊢
  have hread := takes_callStatement (w := .defer) hx hcall hroom (by simp) hfree
  refine takes_current_bind ?_
  rw [if_neg (by decide)]
  refine takes_discard_advance (hread.bind hending.next ?_)
  exact hending.takes_expectEnd (takes_pure (by simp))

theorem spells_returnStmt {results : List Tree}
    (h : ∀ t ∈ results, (t.emittedAs .expression).Spells t.words) :
    ((Tree.returnStmt p (.tuple results)).emittedAs .statement).Spells
      (.ofKeyword .Return :: listed (results.map words)) := by
  rw [emitted_returnStmt]
  cases results with
  | nil => exact (Spells.keyword _).append .nothing
  | cons x xs => exact (Spells.keyword _).append ((Spells.blank true).append (spells_list h))

theorem takes_returned {results : List Tree} {tail : List Lexeme} {m : Nat}
    (h : ∀ t ∈ results, t.Reads true) (hroom : Room (n + 1) s m 1)
    (hlength : (listed (results.map words)).length ≤ m) (hfree : s.isFree = true)
    (hending : Ending tail P) (hreturn : results = [] →
      Next (fun k => k = .op .Semicolon ∨ k = .op .RBrace) tail P) {f : List Tree → Parser Tree}
    (hf : (f (results.map bare)).Takes s tail t P) :
    ((upTo n).returned >>= f).Takes s (listed (results.map words) ++ tail) t P := by
  cases results with
  | nil =>
      refine Takes.bind (P := fun k => k = .op .Semicolon ∨ k = .op .RBrace) ?_ (hreturn rfl) hf
      refine takes_peek_next (.nil fun _ h => h) ?_
      rintro k (rfl | rfl) <;> exact takes_pure rfl
  | cons x xs =>
      have hlist := takes_expressions hroom hlength (fun _ => hfree) h
      have hbegins : Begins (beginsSimple · = true) (listed ((x :: xs).map words)) :=
        (h x (by simp)).begins.append _
      refine Takes.bind (P := fun k => k = .op .Semicolon ∨ closesStatement k = true) ?_
        hending.next hf
      refine takes_peek_next hbegins.next fun k hk => ?_
      split
      · cases hk
      · cases hk
      · refine hlist.mono fun k hk => ?_
        have hstops := stops_of_ending hk s
        exact ⟨(hstops x).1, (hstops x).2.1, fun y _ => (hstops y).2.2⟩

theorem reads_returnStmt {results : List Tree} (h : ∀ t ∈ results, t.Reads true) :
    (Tree.returnStmt p (.tuple results)).StatementReads := by
  have hspells := spells_returnStmt (p := p) fun t ht => (h t ht).spells
  have hwords : (Tree.returnStmt p (.tuple results)).statementWords = _ := hspells.words
  refine .of_here (hwords ▸ hspells) ⟨_, _, hwords, rfl⟩ rfl ?_ nofun nofun
  intro n s tail P hroom hfree hending hreturn
  rw [ReturnsBefore, hwords] at hreturn
  rw [hwords] at hroom ⊢
  refine takes_current_bind ?_
  rw [if_neg (by decide)]
  refine takes_discard_advance
    (takes_returned h hroom (by simp) hfree hending (by rintro rfl; exact hreturn rfl) ?_)
  exact hending.takes_expectEnd (takes_pure (by simp))

-- A branch with a label or without one.
def labelWords (label : Option Text) : List Lexeme := label.elim [] fun x => [⟨.ident, x⟩]

def labelTree (q : Tree) (label : Option Text) : Tree :=
  .ofOption (label.map fun x => .ident q (.text x))

theorem spells_branch {k : Keyword} {q : Tree} {label : Option Text}
    (hlabel : ∀ x ∈ label, (⟨.ident, x⟩ : Lexeme).Whole) :
    ((Tree.branch p (.token (.word k)) (labelTree q label)).emittedAs .statement).Spells
      (.ofKeyword k :: labelWords label) := by
  rw [emitted_branch]
  cases label with
  | none => exact (Spells.keyword _).append .nothing
  | some x => exact (Spells.keyword _).append ((Spells.blank true).append (.write (hlabel x rfl)))

theorem reads_branch {k : Keyword} {q : Tree} {label : Option Text} (hk : isBranch k = true)
    (hlabel : ∀ x ∈ label, (⟨.ident, x⟩ : Lexeme).Whole) (hfall : k = .Fallthrough → label = none) :
    (Tree.branch p (.token (.word k)) (labelTree q label)).StatementReads := by
  have hspells := spells_branch (p := p) (q := q) (k := k) hlabel
  have hwords : (Tree.branch p (.token (.word k)) (labelTree q label)).statementWords = _ :=
    hspells.words
  have hbegins : beginsSimple (.word k) = false ∧ endsStatements (.word k) = false := by
    cases k <;> first | exact ⟨rfl, rfl⟩ | cases hk
  refine .of_here (hwords ▸ hspells) ⟨_, _, hwords, hbegins.2⟩ rfl ?_ nofun nofun
  intro n s tail P hroom hfree hending _
  rw [hwords] at hroom ⊢
  have hbranch : (branchStatement (Lexeme.ofKeyword k).bare k).Takes s
      (.ofKeyword k :: (labelWords label ++ tail))
      (Tree.branch p (.token (.word k)) (labelTree q label)).bare P := by
    refine takes_discard_advance ?_
    refine Takes.bind (a := (labelTree q label).bare)
      (P := fun k => k = .op .Semicolon ∨ closesStatement k = true) ?_ hending.next ?_
    · cases label with
      | none =>
          refine takes_peek_next (.nil fun _ h => h) fun k hk => ?_
          rw [if_neg]
          · exact takes_pure rfl
          · rintro ⟨-, rfl⟩
            rcases hk with hk | hk <;> cases hk
      | some x =>
          refine takes_peek_bind ?_
          rw [if_pos ⟨fun h => (nomatch hfall h), rfl⟩]
          exact takes_ident
    · exact hending.takes_expectEnd (takes_pure (by simp))
  refine takes_current_bind ?_
  rw [if_neg (by simpa using hbegins.1)]
  cases k <;> first | exact hbranch | cases hk

-- What stands between a statement and the next one.
def separator (t : Tree) : List Lexeme :=
  if t.isSelfTerminated then [] else [.ofOperator .Semicolon]

-- The lexemes of statements one after another.
def statementsWords : List Tree → List Lexeme
  | [] => []
  | [t] => t.statementWords
  | t :: u :: ts => t.statementWords ++ t.separator ++ statementsWords (u :: ts)

theorem spells_statements {ts : List Tree}
    (h : ∀ t ∈ ts, (t.emittedAs .statement).Spells t.statementWords) :
    (emittedStatements ts).Spells (statementsWords ts) := by
  induction ts with
  | nil => exact .nothing
  | cons t ts ih =>
      obtain ⟨ht, hts⟩ := List.forall_mem_cons.mp h
      cases ts with
      | nil => exact ht
      | cons u ts =>
          have hseparator : (Emission.when (!t.isSelfTerminated) (.operator .Semicolon)).Spells
              t.separator := by
            unfold separator
            cases t.isSelfTerminated with
            | true => exact .nothing
            | false => exact .operator _
          exact (ht.append (hseparator.append (ih hts))).of_eq (by simp [statementsWords])

theorem StatementReads.takes_separated (h : t.StatementReads)
    (hroom : Room n s t.statementWords.length 0) (hfree : s.isFree = true) :
    (upTo n).statement.Takes s (t.statementWords ++ t.separator) t.bare fun _ => True := by
  by_cases hself : t.isSelfTerminated = true
  · rw [separator, if_pos hself, List.append_nil]
    exact h.closed hself hroom hfree
  · rw [separator, if_neg hself]
    exact h.ended (by simpa using hself) hroom hfree (.semicolon rfl) fun _ => .cons (.inl rfl) []

-- What ends the last of some statements. One that needs no end has none.
structure ListEnding (ts : List Tree) (tail : List Lexeme) (P : TokenKind → Prop) : Prop where
  nil : ts = [] → tail = []
  closed : ∀ t ∈ ts.getLast?, t.isSelfTerminated = true → tail = []
  ended : ∀ t ∈ ts.getLast?, t.isSelfTerminated = false →
    Ending tail P ∧ t.ReturnsBefore tail P

-- Nothing stands between the last statement and a closing brace.
theorem listEnding_brace {ts : List Tree} : ListEnding ts [] (· = .op .RBrace) where
  nil _ := rfl
  closed _ _ _ := rfl
  ended _ _ _ := by
    refine ⟨.closing ?_, fun _ => .nil fun _ => .inr⟩
    rintro k rfl
    rfl

theorem takes_statements {ts : List Tree} {tail : List Lexeme} (h : ∀ t ∈ ts, t.StatementReads)
    (hroom : Room n s (statementsWords ts).length 0) (hfree : s.isFree = true)
    (hending : ListEnding ts tail P) (hP : ∀ k, P k → endsStatements k = true) :
    (upTo n).statements.Takes s (statementsWords ts ++ tail) (ts.map bare) P := by
  refine TakesAll.manyWhile ?_ fun k hk => by simp [hP k hk]
  have hmore : ∀ {t : Tree} (ms : List Lexeme), t.StatementReads →
      Begins (fun k => (!endsStatements k) = true) (t.statementWords ++ ms) :=
    fun ms ht => (ht.begins.append ms).mono fun k hk => by simp [hk]
  induction ts with
  | nil =>
      rw [hending.nil rfl]
      exact takesAll_nil
  | cons t ts ih =>
      obtain ⟨ht, hts⟩ := List.forall_mem_cons.mp h
      cases ts with
      | nil =>
          have hread : (upTo n).statement.Takes s (t.statementWords ++ tail) t.bare P := by
            by_cases hself : t.isSelfTerminated = true
            · rw [hending.closed t rfl hself, List.append_nil]
              exact (ht.closed hself hroom hfree).mono fun _ _ => trivial
            · have hself' : t.isSelfTerminated = false := by simpa using hself
              obtain ⟨hend, hreturn⟩ := hending.ended t rfl hself'
              exact ht.ended hself' hroom hfree hend hreturn
          have hall := TakesAll.cons takesAll_nil hread (hmore _ ht) (.nil fun _ hk => hk)
          rwa [List.append_nil] at hall
      | cons u us =>
          rw [statementsWords, List.append_assoc]
          rw [statementsWords, List.length_append, List.length_append] at hroom
          have hothers := ih hts (hroom.mono (by omega)) ⟨nofun,
            fun v hv => hending.closed v (by simpa using hv),
            fun v hv => hending.ended v (by simpa using hv)⟩
          have hread := ht.takes_separated (hroom.mono (by omega)) hfree
          exact TakesAll.cons hothers hread (hmore _ ht) fun _ _ _ => trivial

-- The lexemes of a block.
def bracesWords (ts : List Tree) : List Lexeme :=
  .ofOperator .LBrace :: (statementsWords ts ++ [.ofOperator .RBrace])

theorem spells_braces {ts : List Tree}
    (h : ∀ t ∈ ts, (t.emittedAs .statement).Spells t.statementWords) :
    (emittedBraces ts).Spells (bracesWords ts) :=
  ((Spells.operator _).append (spells_statements h)).append (.operator _)

theorem statementWords_block {ts : List Tree}
    (h : ∀ t ∈ ts, (t.emittedAs .statement).Spells t.statementWords) :
    (Tree.block p (.tuple ts)).statementWords = bracesWords ts := by
  rw [statementWords, emitted_blockStmt]
  exact (spells_braces h).words

-- A statement as it is read before a closing brace.
structure LastReads (t : Tree) : Prop where
  spells : (t.emittedAs .statement).Spells t.statementWords
  begins : Begins (endsStatements · = false) t.statementWords
  takes {n : Nat} {s : Scope} : Room n s t.statementWords.length 0 → s.isFree = true →
    (upTo n).statement.Takes s t.statementWords t.bare (· = .op .RBrace)

theorem StatementReads.last (h : t.StatementReads) : t.LastReads where
  spells := h.spells
  begins := h.begins
  takes hroom hfree := by
    by_cases hself : t.isSelfTerminated = true
    · exact (h.closed hself hroom hfree).mono fun _ _ => trivial
    · have hend : Ending [] (· = .op .RBrace) := .closing (by rintro k rfl; rfl)
      have hread := h.ended (by simpa using hself) hroom hfree hend fun _ => .nil fun _ => .inr
      rwa [List.append_nil] at hread

-- Statements in braces. Before the closing brace a label may stand without a statement.
structure BodyReads (ts : List Tree) : Prop where
  init : ∀ t ∈ ts.dropLast, t.StatementReads
  last : ∀ t ∈ ts.getLast?, t.LastReads

namespace BodyReads

variable {ts : List Tree}

theorem of_statements (h : ∀ t ∈ ts, t.StatementReads) : BodyReads ts :=
  ⟨fun t ht => h t (List.mem_of_mem_dropLast ht), fun t ht => (h t (List.mem_of_getLast? ht)).last⟩

theorem tail {u : Tree} (h : BodyReads (t :: u :: ts)) : BodyReads (u :: ts) :=
  ⟨fun v hv => h.init v (List.mem_cons_of_mem t hv), fun v hv => h.last v (by simpa using hv)⟩

theorem head {u : Tree} (h : BodyReads (t :: u :: ts)) : t.StatementReads :=
  h.init t (List.mem_cons_self ..)

theorem spells (h : BodyReads ts) :
    ∀ t ∈ ts, (t.emittedAs .statement).Spells t.statementWords := by
  induction ts with
  | nil => simp
  | cons t ts ih =>
      cases ts with
      | nil => simpa using (h.last t rfl).spells
      | cons u us => exact List.forall_mem_cons.mpr ⟨h.head.spells, ih h.tail⟩

theorem takes (h : BodyReads ts) (hroom : Room n s (statementsWords ts).length 0)
    (hfree : s.isFree = true) :
    (upTo n).statements.Takes s (statementsWords ts) (ts.map bare) (· = .op .RBrace) := by
  have hmore : ∀ {ls : List Lexeme}, Begins (endsStatements · = false) ls →
      Begins (fun k => (!endsStatements k) = true) ls :=
    fun hls => hls.mono fun k hk => by simp [hk]
  refine TakesAll.manyWhile ?_ (by rintro k rfl; rfl)
  induction ts with
  | nil => exact takesAll_nil
  | cons t ts ih =>
      cases ts with
      | nil =>
          have ht := h.last t rfl
          have hall := TakesAll.cons takesAll_nil (ht.takes hroom hfree) (hmore ht.begins)
            (.nil fun _ hk => hk)
          rwa [List.append_nil] at hall
      | cons u us =>
          rw [statementsWords, List.length_append, List.length_append] at hroom
          rw [statementsWords]
          have hread := h.head.takes_separated (hroom.mono (by omega)) hfree
          exact TakesAll.cons (ih h.tail (hroom.mono (by omega))) hread
            (hmore (h.head.begins.append _)) fun _ _ _ => trivial

theorem block (h : BodyReads ts) : (Tree.block p (.tuple ts)).BlockReads := by
  have hspells := spells_braces h.spells
  have hwords := statementWords_block (p := p) h.spells
  refine ⟨?_, ⟨_, _, hwords, rfl⟩, ?_⟩
  · rw [emitted_block, hwords]
    exact hspells
  · intro n s hroom hfree
    rw [hwords, bracesWords] at hroom ⊢
    have hread := h.takes (hroom.inner (by simp) (by decide) 0) hfree
    refine takes_expect_bind rfl (hread.bind (.cons (by rfl) []) ?_)
    exact takes_discard_expect rfl (takes_pure (by simp))

end BodyReads

theorem reads_block {ts : List Tree} (h : ∀ t ∈ ts, t.StatementReads) :
    (Tree.block p (.tuple ts)).BlockReads :=
  (BodyReads.of_statements h).block

-- A block that is a statement is read with the end of the statement.
theorem BlockReads.statement {ts : List Tree} (h : (Tree.block p (.tuple ts)).BlockReads) :
    (Tree.block p (.tuple ts)).StatementReads := by
  refine .of_here ?_ (h.begins.mono ?_) rfl ?_ nofun fun _ => h
  · rw [emitted_blockStmt, ← emitted_block p]
    exact h.spells
  · rintro k rfl
    rfl
  · intro n s tail P hroom hfree hending _
    have hread := h.takes hroom hfree
    obtain ⟨l, rest, hl, hbrace⟩ := h.begins
    rw [hl] at hread ⊢
    refine takes_current_bind ?_
    rw [if_neg (by simp [hbrace, beginsSimple])]
    simp only [Lexeme.toLexeme_bare, hbrace]
    exact hread.bind (fun _ _ _ => trivial) (hending.takes_expectEnd (takes_pure rfl))

theorem reads_blockStmt {ts : List Tree} (h : ∀ t ∈ ts, t.StatementReads) :
    (Tree.block p (.tuple ts)).StatementReads :=
  (reads_block h).statement

-- What stands without text is read where a closing brace comes next.
structure TrailReads (t : Tree) : Prop where
  spells : (t.emittedAs .statement).Spells t.statementWords
  takes {n : Nat} {s : Scope} : Room n s (t.statementWords.length + 1) 0 → s.isFree = true →
    (upTo n).statement.Takes s t.statementWords t.bare (· = .op .RBrace)

theorem LastReads.trail (h : t.LastReads) : t.TrailReads :=
  ⟨h.spells, fun hroom hfree => h.takes (hroom.mono (by omega)) hfree⟩

theorem trailReads_emptyStmt : (Tree.emptyStmt p (.flag true)).TrailReads := by
  have hspells : ((Tree.emptyStmt p (.flag true)).emittedAs .statement).Spells [] := .nothing
  have hwords : (Tree.emptyStmt p (.flag true)).statementWords = _ := hspells.words
  refine ⟨hwords ▸ hspells, fun {n s} hroom hfree => ?_⟩
  rw [hwords] at hroom ⊢
  refine takes_statement (Nat.zero_lt_one) hroom hfree fun n s hroom hfree => ?_
  rintro l rest hl
  refine gives_current_bind.mpr ?_
  rw [List.nil_append, current_before, Lexeme.toLexeme_bare, hl]
  exact gives_pure.mpr ⟨by simp, rfl⟩

-- Before it at least a label stands.
theorem reads_trailLabeled {l : Text} {q : Tree} (hl : (⟨.ident, l⟩ : Lexeme).Whole)
    (h : t.TrailReads) : (Tree.labeled p (.ident q (.text l)) t).LastReads := by
  have hspells := spells_labeled (p := p) (q := q) hl h.spells
  have hwords : (Tree.labeled p (.ident q (.text l)) t).statementWords = _ := hspells.words
  refine ⟨hwords ▸ hspells, ⟨_, _, hwords, rfl⟩, fun {n s} hroom hfree => ?_⟩
  rw [hwords] at hroom ⊢
  refine takes_statement (by simp) hroom hfree fun n s hroom hfree => ?_
  exact takes_labeled hl hroom hfree (h.takes (hroom.inner (by simp) (by decide) 0) hfree)

end

end Tree

end GoCompact
