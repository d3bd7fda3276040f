import GoCompact.Proofs.Grammar.Sound.Declaration

namespace GoCompact.Grammar

open GoCompact.Parser GoCompact.Tree Emission

variable {g : Grammar} {s : Scope} {t : Tree} {c d c' : Cursor}

-- A simple statement without its end.
structure SimpleRead (s : Scope) (t : Tree) (c c' : Cursor) : Prop where
  built : Built (.simple s.isFree) t
  read : t.ReadAs .statement c True c'
  brace : s.isFree = false → c'.current.kind = .op .LBrace → t.endTakesBrace = false

theorem SimpleRead.valid (h : SimpleRead s t c c') : c'.Valid := Spans.valid h.read

theorem isAssignment_cases {k : TokenKind} (h : k.isAssignment = true) :
    ∃ o : Operator, k = .op o ∧ o.isAssignment = true := by
  cases k with
  | op o => exact ⟨o, rfl, h⟩
  | _ => cases h

theorem SimpleRead.assign {p : Tree} {lhs rhs : List Tree} {o : Operator}
    (hlhs : ExpressionsRead s lhs c d) (ho : d.current.kind = .op o) (hassign : o.isAssignment = true)
    (hrhs : ExpressionsRead s rhs d.advance c') :
    SimpleRead s (.assign p (.tuple lhs) (.token (.op o)) (.tuple rhs)) c c' := by
  refine ⟨.assign hlhs.ne hlhs.built hassign hrhs.ne hrhs.built, ?_, hrhs.brace⟩
  cases rhs with
  | nil => exact absurd rfl hrhs.ne
  | cons y ys =>
      rw [ReadAs, emitted_assign]
      refine (Spans.append hlhs.read (hrhs.after hlhs.valid ho)).imp
        ((loops_of rfl).trans (by simp [loopsAll])) fun h => ⟨plain_of rfl ?_, trivial⟩
      simp [allPlain, h.1, h.2]

theorem Sound.assignmentAfter {start : Token} {lhs : List Tree} (hg : g.Sound) (hs : -1 ≤ s.level)
    (hlhs : ExpressionsRead s lhs c d) (hassign : d.current.kind.isAssignment = true)
    (h : (g.assignmentAfter start d.current lhs).Gives s d.advance t c') : SimpleRead s t c c' := by
  obtain ⟨o, ho, hisAssign⟩ := isAssignment_cases hassign
  obtain ⟨rhs, hrhs, rfl⟩ := by simpa [Grammar.assignmentAfter] using h
  rw [ho]
  exact .assign hlhs ho hisAssign (hg.expressionList hs (hlhs.valid.advance (by simp [ho])) hrhs)

-- A statement of one expression.
theorem SimpleRead.exprStmt {p x : Tree} (h : ExpressionRead s x c c') :
    SimpleRead s (.exprStmt p x) c c' := by
  refine ⟨.exprStmt h.built, ?_, h.brace⟩
  rw [ReadAs, emitted_exprStmt]
  exact h.read.imp ((loops_of rfl).trans (by simp [loopsAll]))
    fun h => ⟨plain_of rfl (by simp [allPlain, h.1]), trivial⟩

theorem Sound.send {p x value : Tree} (hg : g.Sound) (hs : -1 ≤ s.level)
    (hx : ExpressionRead s x c d) (harrow : d.current.kind = .op .Arrow)
    (h : g.expressionRule.Gives s d.advance value c') : SimpleRead s (.send p x value) c c' := by
  have hvalue := hg.expressionRule hs (hx.valid.advance (by simp [harrow])) h
  refine ⟨.send hx.built hvalue.built, ?_, hvalue.brace⟩
  rw [ReadAs, emitted_send]
  refine (hx.read.append (Spans.after hx.valid harrow hvalue.read)).imp
    ((loops_of rfl).trans (by simp [loopsAll])) fun h => ⟨plain_of ?_ ?_, trivial⟩
  · have hedge := h.1.2
    rw [harrow] at hedge
    exact congrArg not hedge
  · simp [allPlain, h.1.1, h.2.1]

theorem SimpleRead.incDec {p x : Tree} {o : Operator} (hx : ExpressionRead s x c d)
    (hkind : d.current.kind = .op o) (ho : o = .Inc ∨ o = .Dec) :
    SimpleRead s (.incDec p x (.token (.op o))) c d.advance := by
  refine ⟨.incDec hx.built ho, ?_, fun _ _ => rfl⟩
  rw [ReadAs, emitted_incDec]
  refine (hx.read.append (Spans.operator hx.valid hkind)).imp
    ((loops_of rfl).trans (by simp [loopsAll])) fun h => ⟨plain_of rfl ?_, trivial⟩
  simp [allPlain, h.1.1]

-- A simple statement, or a statement with a label, where labels are allowed.
theorem Sound.simpleAfter {labels : Bool} {start : Token} {lhs : List Tree} (hg : g.Sound)
    (hs : -1 ≤ s.level) (hlabels : labels = true → 0 ≤ s.level) (hlhs : ExpressionsRead s lhs c d)
    (h : (g.simpleAfter labels start lhs).Gives s d t c') :
    (SimpleRead s t c c' ∧ t.is .LabeledStmt = false) ∨
      (labels = true ∧ t.is .LabeledStmt = true ∧ StatementRead t c c') := by
  unfold Grammar.simpleAfter at h
  split at h
  · rename_i x
    have hx := hlhs.single x rfl
    simp only [gives_peek_bind] at h
    split at h
    · rename_i hcolon
      rcases gives_ite.mp h with ⟨hcond, h⟩ | ⟨-, h⟩
      · simp only [Bool.and_eq_true] at hcond
        obtain ⟨stmt, hstmt, rfl⟩ := by simpa using h
        obtain ⟨q, n, rfl, hn⟩ : ∃ q n, x = .ident q (.text n) ∧ (⟨.ident, n⟩ : Lexeme).Whole := by
          have hbuilt := hx.built
          cases hbuilt with
          | ident hn => exact ⟨_, _, rfl, hn⟩
          | _ => cases hcond.2
        have hstmt' := hg.statement (hlabels hcond.1)
          (hx.valid.fresh_advance (by simp [hcolon]) (by rw [hcolon]; rfl)) hstmt
        refine Or.inr ⟨hcond.1, rfl, .labeled (.name hn) hstmt'.built, ?_, hstmt'.fresh, by rintro ⟨⟩,
          hstmt'.trails⟩
        rw [ReadAs, emitted_labeled, nameOf_ident]
        refine ((hx.read.append (Spans.operator hx.valid hcolon)).append hstmt'.read).imp
          ((loops_of rfl).trans (by simp [loopsAll])) fun h => ⟨plain_of rfl ?_, trivial⟩
        simp [allPlain, h.2.1]
      · obtain ⟨rfl, rfl⟩ := gives_pure.mp h
        exact Or.inl ⟨.exprStmt hx, rfl⟩
    · rename_i harrow
      obtain ⟨value, hvalue, rfl⟩ := by simpa using h
      exact Or.inl ⟨hg.send hs hx harrow hvalue, rfl⟩
    · rename_i hinc
      obtain ⟨rfl, rfl⟩ := by simpa using h
      rw [hinc]
      exact Or.inl ⟨.incDec hx hinc (Or.inl rfl), rfl⟩
    · rename_i hdec
      obtain ⟨rfl, rfl⟩ := by simpa using h
      rw [hdec]
      exact Or.inl ⟨.incDec hx hdec (Or.inr rfl), rfl⟩
    · obtain ⟨rfl, rfl⟩ := gives_pure.mp h
      exact Or.inl ⟨.exprStmt hx, rfl⟩
  · exact absurd h gives_expected

theorem Sound.simpleOrLabeled {labels : Bool} (hg : g.Sound) (hs : -1 ≤ s.level)
    (hlabels : labels = true → 0 ≤ s.level) (hc : c.Valid)
    (h : (g.simpleStatement labels).Gives s c t c') :
    (SimpleRead s t c c' ∧ t.is .LabeledStmt = false) ∨
      (labels = true ∧ t.is .LabeledStmt = true ∧ StatementRead t c c') := by
  simp only [Grammar.simpleStatement, gives_current_bind] at h
  obtain ⟨lhs, d, hlhs, h⟩ := gives_bind.mp h
  have hlhs' := hg.expressionList hs hc hlhs
  simp only [gives_peek_bind] at h
  rcases gives_ite.mp h with ⟨hassign, h⟩ | ⟨-, h⟩
  · refine Or.inl ⟨hg.assignmentAfter hs hlhs' hassign (gives_advance_bind.mp h), ?_⟩
    obtain ⟨rhs, -, rfl⟩ := by simpa [Grammar.assignmentAfter] using h
    rfl
  · exact hg.simpleAfter hs hlabels hlhs' h

-- Where labels are not allowed, there is only the simple statement.
theorem Sound.simpleStatement (hg : g.Sound) (hs : -1 ≤ s.level) (hc : c.Valid)
    (h : (g.simpleStatement false).Gives s c t c') : SimpleRead s t c c' := by
  rcases hg.simpleOrLabeled hs (by simp) hc h with ⟨hread, -⟩ | ⟨hfalse, -⟩
  · exact hread
  · cases hfalse

-- The expression in a header, if it is a statement that is nothing else.
def Asks (o r : Option Tree) : Prop :=
  (o = none ∧ r = none) ∨ ∃ p x, o = some (.exprStmt p x) ∧ r = some x

theorem gives_headerExpression {part : HeaderPart} {o r : Option Tree}
    (h : (headerExpression part o).Gives s c r c') :
    c' = c ∧ Asks o r := by
  unfold headerExpression at h
  split at h
  · obtain ⟨rfl, rfl⟩ := gives_pure.mp h
    exact ⟨rfl, Or.inl ⟨rfl, rfl⟩⟩
  · obtain ⟨rfl, rfl⟩ := gives_pure.mp h
    exact ⟨rfl, Or.inr ⟨_, _, rfl, rfl⟩⟩
  · exact absurd h gives_refuse

-- The expression of a statement that is nothing else.
theorem SimpleRead.expression {p x : Tree} (h : SimpleRead s (.exprStmt p x) c c') :
    Built (.expression s.isFree) x ∧
      (s.isFree = false → c'.current.kind = .op .LBrace → x.takesBrace = false) ∧
      Spans c (x.emittedAs .expression) x.loops (x.plain = true) c' := by
  refine ⟨?_, h.brace, ?_⟩
  · have hbuilt := h.built
    cases hbuilt with
    | exprStmt hx => exact hx
  · refine Spans.imp h.read ?_ fun h => ?_
    · rw [loops_of rfl]
      simp [loopsAll]
    · have hplain := h.1
      simp only [Tree.plain, allPlain, Bool.and_eq_true] at hplain
      exact hplain.2.1

theorem Scope.level_header : -1 ≤ s.header.level := Int.le_refl _

-- A statement in a header that is left out before a kind of token.
inductive MaybeSimple (s : Scope) (kind : TokenKind) (c : Cursor) : Option Tree → Cursor → Prop
  | none (h : c.current.kind = kind) : MaybeSimple s kind c none c
  | some {t : Tree} {c' : Cursor} (h : SimpleRead s.header t c c') : MaybeSimple s kind c (some t) c'

theorem gives_maybeSimple {kind : TokenKind} {o : Option Tree} (hg : g.Sound) (hc : c.Valid)
    (h : Gives (do if (← peek) = kind then return none else some <$> g.simpleStatement false)
      s.header c o c') : MaybeSimple s kind c o c' := by
  rcases gives_ite.mp (gives_peek_bind.mp h) with ⟨hkind, h⟩ | ⟨-, h⟩
  · obtain ⟨rfl, rfl⟩ := gives_pure.mp h
    exact .none hkind
  · obtain ⟨u, hu, rfl⟩ := gives_map.mp h
    exact .some (hg.simpleStatement Scope.level_header hc hu)

-- The statement before a semicolon in a header, if there is one.
def emittedInit (init : Tree) : Emission :=
  init.emittedIf (init.emittedAs .statement ++ operator .Semicolon)

structure InitRead (o : Option Tree) (c c' : Cursor) : Prop where
  built : ∀ t ∈ o, Built (.simple false) t
  read : Spans c (emittedInit (ofOption o)) (ofOption o).loops ((ofOption o).plain = true) c'

theorem InitRead.none (hc : c.Valid) : InitRead none c c :=
  ⟨by simp, (Spans.nothing hc).imp rfl fun _ => rfl⟩

-- A semicolon with nothing before it is not written.
theorem MaybeSimple.init {o : Option Tree} (hc : c.Valid) (h : MaybeSimple s (.op .Semicolon) c o d)
    (hkind : d.current.kind = .op .Semicolon) : InitRead o c d.advance := by
  cases h with
  | none => exact ⟨by simp, (Spans.dropped hc hkind rfl).imp rfl fun _ => rfl⟩
  | @some t _ h =>
      have hbuilt : Built (.simple false) t := h.built
      refine ⟨by rintro u ⟨⟩; exact hbuilt, ?_⟩
      change Spans c (t.emittedIf (t.emittedAs .statement ++ operator .Semicolon)) _ _ _
      rw [emittedIf_of hbuilt.isAbsent]
      exact (h.read.append (Spans.operator h.valid hkind)).imp rfl fun h => h.1.1

-- The header of an `if`.
structure IfHeaderRead (init : Option Tree) (cond : Tree) (c c' : Cursor) : Prop where
  builtInit : ∀ t ∈ init, Built (.simple false) t
  builtCond : Built (.expression false) cond
  brace : c'.current.kind = .op .LBrace → cond.takesBrace = false
  read : Spans c (emittedInit (ofOption init) ++ cond.emittedAs .expression)
    ((ofOption init).loops + cond.loops) ((ofOption init).plain = true ∧ cond.plain = true) c'

theorem IfHeaderRead.of_init {o : Option Tree} {p x : Tree} (hinit : InitRead o c d)
    (hx : SimpleRead s.header (.exprStmt p x) d c') : IfHeaderRead o x c c' := by
  obtain ⟨hbuilt, hbrace, hread⟩ := hx.expression
  exact ⟨hinit.built, hbuilt, hbrace rfl, hinit.read.append hread⟩

theorem Sound.ifHeader {r : Tree × Tree} (hg : g.Sound) (hc : c.Valid)
    (h : g.ifHeader.Gives s c r c') :
    ∃ o : Option Tree, r.1 = .ofOption o ∧ IfHeaderRead o r.2 c c' := by
  simp only [Grammar.ifHeader, gives_peek_bind] at h
  rcases gives_ite.mp h with ⟨-, h⟩ | ⟨-, h⟩
  · exact absurd h gives_refuse
  obtain ⟨⟨init, cond⟩, d, hclauses, h⟩ := gives_bind.mp h
  cases cond with
  | none => exact absurd h gives_refuse
  | some cond =>
      obtain ⟨rfl, rfl⟩ := gives_pure.mp h
      refine ⟨init, rfl, ?_⟩
      rw [gives_inHeader] at hclauses
      obtain ⟨first, d, hfirst, h⟩ := gives_bind.mp hclauses
      simp only [gives_peek_bind] at h
      have hfirst' : MaybeSimple s (.op .Semicolon) c first d := by
        simp only [Grammar.ifFirst, gives_peek_bind] at hfirst
        split at hfirst
        · obtain ⟨rfl, rfl⟩ := gives_pure.mp hfirst
          exact .none (by assumption)
        · exact absurd hfirst gives_refuse
        · obtain ⟨u, hu, rfl⟩ := gives_map.mp hfirst
          exact .some (hg.simpleStatement Scope.level_header hc hu)
      rcases gives_ite.mp h with ⟨hsemicolon, h⟩ | ⟨hsemicolon, h⟩
      · rw [gives_advance_bind] at h
        rcases gives_ite.mp h with ⟨-, h⟩ | ⟨-, h⟩
        · exact absurd h gives_refuseAt
        obtain ⟨r, e, hr, h⟩ := gives_bind.mp h
        obtain ⟨heq, rfl⟩ := gives_pure.mp h
        obtain ⟨rfl, rfl⟩ := Prod.mk.inj heq
        have hinit := hfirst'.init hc hsemicolon
        simp only [Grammar.ifCondition, gives_peek_bind] at hr
        rcases gives_ite.mp hr with ⟨-, hr⟩ | ⟨-, hr⟩
        · simp at hr
        obtain ⟨stmt, f, hstmt, hr⟩ := gives_bind.mp hr
        obtain ⟨rfl, ⟨hnone, -⟩ | ⟨p, x, hstmt', hx⟩⟩ := gives_headerExpression hr
        · cases hnone
        · obtain rfl := Option.some.inj hstmt'
          obtain rfl := Option.some.inj hx
          exact .of_init hinit (hg.simpleStatement Scope.level_header hinit.read.valid hstmt)
      · obtain ⟨r, e, hr, h⟩ := gives_bind.mp h
        obtain ⟨heq, rfl⟩ := gives_pure.mp h
        obtain ⟨rfl, rfl⟩ := Prod.mk.inj heq
        obtain ⟨rfl, ⟨-, hnone⟩ | ⟨p, x, rfl, hx⟩⟩ := gives_headerExpression hr
        · cases hnone
        · obtain rfl := Option.some.inj hx
          cases hfirst' with
          | some hread => exact .of_init (.none hc) hread

-- The header of a switch.
structure SwitchHeaderRead (init tag : Option Tree) (c c' : Cursor) : Prop where
  builtInit : ∀ t ∈ init, Built (.simple false) t
  builtTag : ∀ t ∈ tag, Built (.simple false) t
  brace : c'.current.kind = .op .LBrace → ∀ t ∈ tag, t.endTakesBrace = false
  read : Spans c (emittedInit (ofOption init) ++
      (ofOption tag).emittedIf ((ofOption tag).emittedAs .statement))
    ((ofOption init).loops + (ofOption tag).loops)
    ((ofOption init).plain = true ∧ (ofOption tag).plain = true) c'

theorem SwitchHeaderRead.of_init {o : Option Tree} (hinit : InitRead o c c') :
    SwitchHeaderRead o none c c' :=
  ⟨hinit.built, by simp, by simp, (hinit.read.append (Spans.nothing hinit.read.valid)).imp rfl
    fun h => ⟨h.1, rfl⟩⟩

theorem SwitchHeaderRead.of_tag {o : Option Tree} (hinit : InitRead o c d)
    (htag : SimpleRead s.header t d c') : SwitchHeaderRead o (some t) c c' := by
  have hbuilt : Built (.simple false) t := htag.built
  refine ⟨hinit.built, by rintro u ⟨⟩; exact hbuilt, fun hkind => ?_, ?_⟩
  · rintro u ⟨⟩
    exact htag.brace rfl hkind
  · change Spans c (_ ++ t.emittedIf (t.emittedAs .statement)) _ _ _
    rw [emittedIf_of hbuilt.isAbsent]
    exact (hinit.read.append htag.read).imp rfl fun h => ⟨h.1, h.2.1⟩

theorem Sound.switchHeader {r : Option Tree × Option Tree} (hg : g.Sound) (hc : c.Valid)
    (h : g.switchHeader.Gives s c r c') : SwitchHeaderRead r.1 r.2 c c' := by
  simp only [Grammar.switchHeader, gives_peek_bind] at h
  rcases gives_ite.mp h with ⟨-, h⟩ | ⟨-, h⟩
  · obtain ⟨rfl, rfl⟩ := gives_pure.mp h
    exact .of_init (.none hc)
  rw [gives_inHeader] at h
  obtain ⟨o, d, ho, h⟩ := gives_bind.mp h
  have ho' := gives_maybeSimple hg hc ho
  rcases gives_got_bind.mp h with ⟨hsemicolon, h⟩ | ⟨hsemicolon, h⟩
  · have hinit := ho'.init hc hsemicolon
    simp only [if_true, gives_peek_bind] at h
    rcases gives_ite.mp h with ⟨-, h⟩ | ⟨-, h⟩
    · obtain ⟨rfl, rfl⟩ := gives_pure.mp h
      exact .of_init hinit
    · obtain ⟨tag, htag, rfl⟩ := by simpa using h
      exact .of_tag hinit (hg.simpleStatement Scope.level_header hinit.read.valid htag)
  · obtain ⟨rfl, rfl⟩ := by simpa using h
    cases ho' with
    | none hkind => exact absurd hkind hsemicolon
    | some hu => exact .of_tag (.none hc) hu

-- The three parts of a loop header, from the keyword on.
structure PartsRead (init cond post : Option Tree) (c c' : Cursor) : Prop where
  builtInit : ∀ t ∈ init, Built (.simple false) t
  builtCond : ∀ t ∈ cond, Built (.expression false) t
  builtPost : ∀ t ∈ post, Built (.simple false) t
  brace : ∀ t ∈ post, t.endTakesBrace = false
  read : Spans c (emittedLoop (ofOption init) (ofOption cond) (ofOption post))
    ((if (ofOption init).isAbsent && !(ofOption post).isAbsent then 1 else 0) +
      ((ofOption init).loops + (ofOption cond).loops + (ofOption post).loops))
    (((ofOption init).isAbsent && (ofOption post).isAbsent && (ofOption cond).takesBrace) = false ∧
      (ofOption init).plain = true ∧ (ofOption cond).plain = true ∧ (ofOption post).plain = true) c'

-- The header of a loop, from the keyword on.
inductive LoopRead (c c' : Cursor) : LoopHeader → Prop
  | parts {init cond post : Option Tree} (h : ∀ r, Asks cond r → PartsRead init r post c c') :
      LoopRead c c' (.parts init cond post)
  | rangeAll {op : TokenKind} {x : Tree} (hx : Built (.expression false) x)
      (hbrace : x.takesBrace = false)
      (hread : Spans c (write "for range " ++ x.emittedAs .expression) x.loops (x.plain = true) c') :
      LoopRead c c' (.range [] op x)
  | range {vars : List Tree} {o : Operator} {x : Tree}
      (hvars : ∀ t ∈ vars, Built (.expression false) t) (hne : vars ≠ [])
      (ho : bindsRange (.op o) = true) (hx : Built (.expression false) x)
      (hbrace : x.takesBrace = false)
      (hread : Spans c (spaced .For ++ emittedList vars ++ operator o ++ spaced .Range ++
        x.emittedAs .expression) ((Tree.tuple vars).loops + x.loops)
        ((Tree.tuple vars).plain = true ∧ x.plain = true) c') :
      LoopRead c c' (.range vars (.op o) x)

-- A condition in a header, if there is one.
theorem MaybeSimple.condition {kind : TokenKind} {o r : Option Tree} (hc : c.Valid)
    (ho : MaybeSimple s kind c o c') (h : Asks o r) :
    (∀ t ∈ r, Built (.expression false) t) ∧ MaybeRead .expression r c c' := by
  rcases h with ⟨rfl, rfl⟩ | ⟨p, x, rfl, rfl⟩
  · cases ho
    exact ⟨by simp, .none _ hc⟩
  · cases ho with
    | some h =>
        obtain ⟨hbuilt, -, hx⟩ := h.expression
        exact ⟨by rintro t ⟨⟩; exact hbuilt, (maybeRead_some hbuilt.isAbsent).mpr hx⟩

-- A statement in a header, if there is one.
theorem MaybeSimple.statement {kind : TokenKind} {o : Option Tree} (hc : c.Valid)
    (h : MaybeSimple s kind c o c') :
    (∀ t ∈ o, Built (.simple false) t) ∧ MaybeRead .statement o c c' := by
  cases h with
  | none => exact ⟨by simp, .none _ hc⟩
  | some h =>
      have hbuilt : Built (.simple false) _ := h.built
      exact ⟨by rintro t ⟨⟩; exact hbuilt, .some h.read hbuilt.isAbsent⟩

theorem MaybeSimple.endTakesBrace {kind : TokenKind} {o : Option Tree}
    (h : MaybeSimple s kind c o c') (hbrace : c'.current.kind = .op .LBrace) :
    ∀ t ∈ o, t.endTakesBrace = false := by
  cases h with
  | none => simp
  | some h =>
      rintro t ⟨⟩
      exact h.brace rfl hbrace

-- At most a condition is written without semicolons.
theorem emittedLoop_short {x : Option Tree} (hx : ∀ t ∈ x, t.isAbsent = false) :
    (emittedLoop (ofOption none) (ofOption x) (ofOption none)).fault =
        (keyword .For ++ (ofOption x).emittedIf ((ofOption x).emittedAs .expression)).fault ∧
      (emittedLoop (ofOption none) (ofOption x) (ofOption none)).words =
        (keyword .For ++ (ofOption x).emittedIf ((ofOption x).emittedAs .expression)).words := by
  cases x with
  | none => exact ⟨rfl, rfl⟩
  | some x =>
      have hemitted : emittedLoop (ofOption none) (ofOption (some x)) (ofOption none) =
          spaced .For ++ x.emittedAs .expression := by
        change (if x.isAbsent then keyword .For else spaced .For ++ x.emittedAs .expression) = _
        rw [hx x rfl]
        rfl
      rw [hemitted]
      change _ = (keyword .For ++ x.emittedIf (x.emittedAs .expression)).fault ∧
        _ = (keyword .For ++ x.emittedIf (x.emittedAs .expression)).words
      rw [emittedIf_of (hx x rfl), fault_append rfl, fault_append rfl, words_append rfl,
        words_append rfl, words_spaced, words_keyword]
      exact ⟨rfl, rfl⟩

-- The parts after the keyword, of which the first is at most a condition.
theorem PartsRead.short {x : Tree} (hc : c.Valid) (hkind : c.current.kind = .word .For)
    (hx : Built (.expression false) x) (hbrace : x.takesBrace = false)
    (hread : Spans c.advance (x.emittedAs .expression) x.loops (x.plain = true) c') :
    PartsRead none (some x) none c c' := by
  refine ⟨by simp, by rintro t ⟨⟩; exact hx, by simp, by simp, ?_⟩
  have hall := (Spans.keyword hc hkind).append ((maybeRead_some hx.isAbsent).mpr hread)
  have hwords := emittedLoop_short (x := some x) (by rintro t ⟨⟩; exact hx.isAbsent)
  refine (hall.replace (hwords.1.trans hall.fault) (by rw [hwords.2]) (by rw [hwords.2])).imp ?_
    fun h => ⟨hbrace, rfl, h.2, rfl⟩
  simp [ofOption, isAbsent]

theorem Sound.loopAfter {o : Option Tree} {r : LoopHeader} (hg : g.Sound) (hc : c.Valid)
    (hkind : c.current.kind = .word .For) (ho : MaybeSimple s (.op .Semicolon) c.advance o d)
    (hbrace : c'.current.kind = .op .LBrace) (h : (g.loopAfter o).Gives s.header d r c') :
    LoopRead c c' r := by
  have hc' := hc.advance (by simp [hkind])
  rcases gives_got_bind.mp h with ⟨hfirst, h⟩ | ⟨hfirst, h⟩
  · obtain ⟨hobuilt, horead⟩ := ho.statement hc'
    have hfirst' := Spans.operator (Spans.valid horead) hfirst
    obtain ⟨cond, e, hcond, hsecond, post, hpost, rfl⟩ := by simpa using h
    have hcond' := gives_maybeSimple hg hfirst'.valid hcond
    refine .parts fun x hx => ?_
    obtain ⟨hcondBuilt, hcondRead⟩ := hcond'.condition hfirst'.valid hx
    have hsecond' := Spans.operator (Spans.valid hcondRead) hsecond
    have hpost' := gives_maybeSimple hg hsecond'.valid hpost
    obtain ⟨hpostBuilt, hpostRead⟩ := hpost'.statement hsecond'.valid
    refine ⟨hobuilt, hcondBuilt, hpostBuilt, hpost'.endTakesBrace hbrace, ?_⟩
    cases ho with
    | none =>
        cases hpost' with
        | none =>
            -- Semicolons are read and not written, so that the text costs more.
            have hall := (Spans.keyword hc hkind).append
              ((Spans.dropped hc' hfirst rfl).append
                (Spans.append hcondRead (Spans.dropped (Spans.valid hcondRead) hsecond rfl)))
            rw [nothing_append, append_nothing] at hall
            have hwords := emittedLoop_short (x := x) fun t ht => (hcondBuilt t ht).isAbsent
            refine (hall.replace (hwords.1.trans hall.fault) (by rw [hwords.2]) (by rw [hwords.2])).imp
              ?_ fun h => absurd hfirst (h.1 rfl)
            simp [ofOption, isAbsent]
        | @some u _ hu =>
            have hu' : u.isAbsent = false := (hpostBuilt u rfl).isAbsent
            have hall := ((((Spans.openLoop hc hkind hfirst).append
              (Spans.operator hc' hfirst)).append hcondRead).append hsecond').append hpostRead
            have hemitted : emittedLoop (ofOption none) (ofOption x) (ofOption (some u)) =
                spaced .For ++ operator .Semicolon ++
                  (ofOption x).emittedIf ((ofOption x).emittedAs .expression) ++
                  operator .Semicolon ++ u.emittedIf (u.emittedAs .statement) := by
              change (if true && u.isAbsent then _ else _) = _
              rw [hu']
              rfl
            rw [hemitted]
            refine hall.imp ?_ fun h => ⟨?_, rfl, h.1.1.2, h.2⟩
            · have hopens : ((ofOption none).isAbsent && !(ofOption (some u)).isAbsent) = true := by
                change (true && !u.isAbsent) = true
                rw [hu']
                rfl
              rw [if_pos hopens]
              simp [ofOption]
              omega
            · change (true && u.isAbsent && _) = false
              rw [hu']
              rfl
    | @some u _ hu =>
        have hu' : u.isAbsent = false := (hobuilt u rfl).isAbsent
        have hall := (((((Spans.spaced hc hkind).append horead).append hfirst').append
          hcondRead).append hsecond').append hpostRead
        have hemitted : emittedLoop (ofOption (some u)) (ofOption x) (ofOption post) =
            spaced .For ++ u.emittedIf (u.emittedAs .statement) ++ operator .Semicolon ++
              (ofOption x).emittedIf ((ofOption x).emittedAs .expression) ++
              operator .Semicolon ++
              (ofOption post).emittedIf ((ofOption post).emittedAs .statement) := by
          change (if u.isAbsent && _ then _ else _) = _
          rw [hu']
          rfl
        rw [hemitted]
        refine hall.imp ?_ fun h => ⟨?_, h.1.1.1.1.2, h.1.1.2, h.2⟩
        · simp [ofOption, hu']
        · change (u.isAbsent && _ && _) = false
          rw [hu']
          rfl
  · obtain ⟨rfl, rfl⟩ := by simpa using h
    cases ho with
    | none hnone => exact absurd hnone hfirst
    | @some u _ hu =>
        refine .parts fun r hr => ?_
        rcases hr with ⟨hnone, -⟩ | ⟨p, x, hx, rfl⟩
        · cases hnone
        · obtain rfl := Option.some.inj hx
          obtain ⟨hbuilt, hbrace', hread⟩ := hu.expression
          exact .short hc hkind hbuilt (hbrace' rfl hbrace) hread

theorem bindsRange_cases {k : TokenKind} (h : bindsRange k = true) :
    ∃ o : Operator, k = .op o ∧ bindsRange (.op o) = true := by
  cases k with
  | op o => exact ⟨o, rfl, h⟩
  | _ => cases h

-- A range with its variables, which were read up to `d`.
theorem Sound.rangeVars {vars : List Tree} {r : LoopHeader} (hg : g.Sound) (hc : c.Valid)
    (hkind : c.current.kind = .word .For) (hvars : ExpressionsRead s.header vars c.advance d)
    (hbinds : bindsRange d.current.kind = true) (hbrace : c'.current.kind = .op .LBrace)
    (h : (g.rangeAfter vars d.current.kind).Gives s.header d.advance r c') : LoopRead c c' r := by
  obtain ⟨o, ho, hbinds⟩ := bindsRange_cases hbinds
  obtain ⟨hrange, x, hx, rfl⟩ := by simpa [Grammar.rangeAfter] using h
  have ho' := Spans.operator hvars.valid ho
  have hrange' := Spans.spaced ho'.valid hrange
  have hx' := hg.expressionRule Scope.level_header hrange'.valid hx
  rw [ho]
  refine .range hvars.built hvars.ne hbinds hx'.built (hx'.brace rfl hbrace) ?_
  exact (((((Spans.spaced hc hkind).append hvars.read).append ho').append hrange').append
    hx'.read).imp (by simp) fun h => ⟨h.1.1.1.2, h.2.1⟩

-- A range without variables.
theorem Sound.rangeAll {op : TokenKind} {r : LoopHeader} (hg : g.Sound) (hc : c.Valid)
    (hkind : c.current.kind = .word .For) (hbrace : c'.current.kind = .op .LBrace)
    (h : (g.rangeAfter [] op).Gives s.header c.advance r c') : LoopRead c c' r := by
  obtain ⟨hrange, x, hx, rfl⟩ := by simpa [Grammar.rangeAfter] using h
  have hfor := Spans.keyword hc hkind
  have hrange' := Spans.keyword hfor.valid hrange
  have hx' := hg.expressionRule Scope.level_header hrange'.valid hx
  refine .rangeAll hx'.built (hx'.brace rfl hbrace) ?_
  have hboth : Spans c (write "for range ") 0 True c.advance.advance := by
    refine ((hfor.append hrange').replace rfl ?_ ?_).imp rfl fun _ => trivial
    · rw [words_write, Text.word_forRange.lexemes, words_append hfor.fault, words_keyword,
        words_keyword]
      rfl
    · rw [words_write, Text.word_forRange.lexemes, words_append hfor.fault, words_keyword,
        words_keyword]
      rfl
  exact (hboth.append hx'.read).imp (by simp) fun h => h.2.1

theorem Sound.loopFirst {r : LoopHeader} (hg : g.Sound) (hc : c.Valid)
    (hkind : c.current.kind = .word .For) (hbrace : c'.current.kind = .op .LBrace)
    (h : g.loopFirst.Gives s.header c.advance r c') : LoopRead c c' r := by
  have hc' := hc.advance (by simp [hkind])
  simp only [Grammar.loopFirst, gives_current_bind] at h
  obtain ⟨lhs, d, hlhs, h⟩ := gives_bind.mp h
  have hlhs' := hg.expressionList Scope.level_header hc' hlhs
  simp only [gives_peek_bind] at h
  rcases gives_ite.mp h with ⟨hassign, h⟩ | ⟨-, h⟩
  · simp only [gives_advance_bind, gives_peek_bind] at h
    rcases gives_ite.mp h with ⟨hrange, h⟩ | ⟨-, h⟩
    · simp only [Bool.and_eq_true] at hrange
      exact hg.rangeVars hc hkind hlhs' hrange.1 hbrace h
    · obtain ⟨u, e, hu, h⟩ := gives_bind.mp h
      exact hg.loopAfter hc hkind (.some (hg.assignmentAfter Scope.level_header hlhs' hassign hu))
        hbrace h
  · obtain ⟨u, e, hu, h⟩ := gives_bind.mp h
    rcases hg.simpleAfter Scope.level_header (by simp) hlhs' hu with ⟨hu', -⟩ | ⟨hfalse, -⟩
    · exact hg.loopAfter hc hkind (.some hu') hbrace h
    · cases hfalse

theorem Sound.loopHeader {r : LoopHeader} (hg : g.Sound) (hc : c.Valid)
    (hkind : c.current.kind = .word .For) (hbrace : c'.current.kind = .op .LBrace)
    (h : g.loopHeader.Gives s c.advance r c') : LoopRead c c' r := by
  simp only [Grammar.loopHeader, gives_peek_bind] at h
  rcases gives_ite.mp h with ⟨-, h⟩ | ⟨-, h⟩
  · obtain ⟨rfl, rfl⟩ := gives_pure.mp h
    refine .parts fun x hx => ?_
    rcases hx with ⟨-, rfl⟩ | ⟨p, y, hnone, -⟩
    · exact ⟨by simp, by simp, by simp, by simp,
        (Spans.keyword hc hkind).imp rfl fun _ => ⟨rfl, rfl, rfl, rfl⟩⟩
    · cases hnone
  · simp only [gives_inHeader, Grammar.loopClauses, gives_peek_bind] at h
    split at h
    · rename_i hsemicolon
      exact hg.loopAfter hc hkind (.none hsemicolon) hbrace h
    · exact hg.rangeAll hc hkind hbrace h
    · exact hg.loopFirst hc hkind hbrace h

end GoCompact.Grammar
