import GoCompact.Proofs.Grammar.Sound.Primary

namespace GoCompact

theorem TokenKind.precedence_le (k : TokenKind) : k.precedence ≤ 5 := by
  cases k with
  | op o => cases o <;> decide
  | _ => exact Nat.zero_le 5

namespace Grammar

open GoCompact.Parser GoCompact.Tree Emission

variable {g : Grammar} {s : Scope} {t : Tree} {c d c' : Cursor}

theorem unparen_of_is_paren (h : t.is .ParenExpr = false) : t.unparen = t := by
  unfold unparen
  split
  · cases h
  · rfl

-- A brace after a tree begins a literal of that type, or it does not.
theorem gives_isLiteralType {b : Bool} (h : (isLiteralType t).Gives s c b c') :
    c' = c ∧ (b = true → t.takesBraces s.isFree = true) ∧
      (b = false → (t.unparen.is .ArrayType || t.unparen.is .StructType ||
        t.unparen.is .MapType) = false) := by
  simp only [isLiteralType, gives_read_bind, gives_ite] at h
  rcases h with ⟨hcond, h⟩ | ⟨hcond, h⟩
  · rcases h with ⟨-, h⟩ | ⟨hparen, h⟩
    · exact absurd h gives_refuse
    · obtain ⟨rfl, rfl⟩ := gives_pure.mp h
      rw [unparen_of_is_paren (by simpa using hparen)] at hcond
      refine ⟨rfl, fun _ => ?_, by simp⟩
      simp only [takesBraces, Scope.isFree]
      simp only [Bool.or_eq_true, Bool.and_eq_true] at hcond ⊢
      rcases hcond with h | ⟨h, hlevel⟩
      · exact Or.inl h
      · exact Or.inr ⟨hlevel, h⟩
  · obtain ⟨rfl, rfl⟩ := gives_pure.mp h
    simp only [Bool.not_eq_true, Bool.or_eq_false_iff] at hcond
    exact ⟨rfl, by simp, fun _ => by simpa using hcond.1⟩

theorem takesBrace_of_isPrimary (h : t.isPrimary = true) :
    t.takesBrace = (t.is .FuncType || t.unparen.is .ArrayType || t.unparen.is .StructType ||
      t.unparen.is .MapType) := by
  unfold takesBrace
  split
  · cases h
  · cases h
  · cases h
  · rfl

-- More of an operand, or the end of it.
theorem Sound.primaryStep {x u : Tree} (hg : g.Sound) (hs : -1 ≤ s.level)
    (hx : PrimaryRead s x c d) (h : (g.primaryStep x).Gives s d (some u) c') :
    PrimaryRead s u c c' ∧ c'.upcoming.length < d.upcoming.length := by
  simp only [Grammar.primaryStep, gives_peek_bind] at h
  split at h
  · exact hg.selectorOrAssertion hs hx (by simpa using h)
  · exact hg.indexOrSlice hs hx (by simpa using h)
  · exact hg.call hs hx (by simpa using h)
  · obtain ⟨b, e, hb, h⟩ := gives_bind.mp h
    obtain ⟨rfl, htrue, -⟩ := gives_isLiteralType hb
    cases b with
    | false => simp at h
    | true => exact hg.literalValue hs hx (htrue rfl) (by simpa using h)
  · simp at h

theorem primaryStep_none {x : Tree} (hx : PrimaryRead s x c d)
    (h : (g.primaryStep x).Gives s d none c') :
    c' = d ∧ d.current.kind.continues = false ∧
      (d.current.kind = .op .LBrace → x.takesBrace = false) := by
  simp only [Grammar.primaryStep, gives_peek_bind] at h
  split at h
  · simp at h
  · simp at h
  · simp at h
  · rename_i hbrace
    obtain ⟨b, e, hb, h⟩ := gives_bind.mp h
    obtain ⟨rfl, -, hfalse⟩ := gives_isLiteralType hb
    cases b with
    | true => simp at h
    | false =>
        obtain rfl := by simpa using h
        refine ⟨rfl, by rw [hbrace]; rfl, fun _ => ?_⟩
        have hfunc : x.is .FuncType = false := by
          cases hkind : x.is .FuncType with
          | false => rfl
          | true => exact absurd hbrace (hx.brace hkind)
        rw [takesBrace_of_isPrimary hx.isPrimary, Bool.or_assoc, Bool.or_assoc, hfunc,
          Bool.false_or, ← Bool.or_assoc]
        exact hfalse rfl
  · rename_i hpoint hbracket hparen hbrace
    obtain rfl := by simpa using h
    have hcontinues : c'.current.kind.continues = false := by
      simp only [TokenKind.continues, Bool.or_eq_false_iff, beq_eq_false_iff_ne]
      exact ⟨⟨hpoint, hbracket⟩, hparen⟩
    exact ⟨rfl, hcontinues, fun h => absurd h hbrace⟩

-- At the end of the text there are no more tokens.
theorem kind_of_upcoming (hc : c.Valid) (h : c.upcoming = []) : c.current.kind = .eof := by
  by_cases hkind : c.current.kind = .eof
  · exact hkind
  · have hless := hc.advance_lt hkind
    simp [h] at hless

-- What each step keeps besides is kept while an operand grows.
theorem Sound.primaryAfter {I : Tree → Cursor → Prop} {x : Tree} (hg : g.Sound)
    (hs : -1 ≤ s.level)
    (hstep : ∀ {x d u e}, I x d → (g.primaryStep x).Gives s d (some u) e → I u e)
    (hI : I x d) (hx : PrimaryRead s x c d) (h : (g.primaryAfter x).Gives s d t c') :
    ExpressionRead s t c c' ∧ t.isPrimary = true ∧ c'.current.kind.continues = false ∧ I t c' := by
  obtain ⟨e, -, ⟨ht, hI⟩, hend⟩ := grows_of_grow (I := fun x d => PrimaryRead s x c d ∧ I x d)
    (fun hx h => by
      obtain ⟨hx, hI⟩ := hx
      obtain ⟨hu, hless⟩ := hg.primaryStep hs hx h
      exact ⟨⟨hu, hstep hI h⟩, hless⟩) ⟨hx, hI⟩ h
  rcases hend with hend | ⟨hend, rfl⟩
  · obtain ⟨rfl, hkind, hbrace⟩ := primaryStep_none ht hend
    exact ⟨⟨ht.built, ht.read, fun _ => hbrace, ht.start⟩, ht.isPrimary, hkind, hI⟩
  · have heof := kind_of_upcoming ht.valid hend
    refine ⟨⟨ht.built, ht.read, fun _ hkind => ?_, ht.start⟩, ht.isPrimary, by rw [heof]; rfl, hI⟩
    rw [heof] at hkind
    cases hkind

theorem is_binary_of_isPrimary (h : t.isPrimary = true) : t.is .BinaryExpr = false := by
  simp only [isPrimary, Bool.and_eq_true, Bool.not_eq_true'] at h
  exact h.1.1.2

-- An arrow before a channel type makes it one to receive from.
inductive Received : Tree → Tree → Prop
  | both {p value : Tree} :
      Received (.chanType p (.direction .both) value) (.chanType p (.direction .receive) value)
  | send {p value result : Tree} (h : Received value result) :
      Received (.chanType p (.direction .send) value) (.chanType p (.direction .receive) result)

theorem received_of_receiving {b : Bool} {x : Tree} (hx : Built (.expression b) x)
    (hchan : x.is .ChanType = true) (h : (receiving x).Gives s c t c') :
    Received x t ∧ c' = c := by
  generalize hn : sizeOf x = n
  induction n using Nat.strongRecOn generalizing b x t with
  | ind n ih =>
      cases hx with
      | @chanType _ p value dir hdir hvalue =>
          cases dir with
          | neither => exact absurd rfl hdir
          | both =>
              obtain ⟨rfl, rfl⟩ := gives_pure.mp h
              exact ⟨.both, rfl⟩
          | receive => exact absurd h gives_refuse
          | send =>
              rcases gives_ite.mp h with ⟨hvalueChan, h⟩ | ⟨-, h⟩
              · obtain ⟨result, d, hresult, h⟩ := gives_bind.mp h
                obtain ⟨rfl, rfl⟩ := gives_pure.mp h
                have hless : sizeOf value < n := by
                  subst hn
                  simp
                  omega
                obtain ⟨hreceived, rfl⟩ := ih _ hless hvalue hvalueChan hresult rfl
                exact ⟨.send hreceived, rfl⟩
              · exact absurd h gives_expected
      | _ => cases hchan

namespace Received

variable {x : Tree}

theorem words (h : Received x t) : (t.emittedAs .expression).fault = (x.emittedAs .expression).fault ∧
    (t.emittedAs .expression).words = .ofOperator .Arrow :: (x.emittedAs .expression).words := by
  induction h with
  | both =>
      rw [emitted_chanType, emitted_chanType, fault_append rfl, fault_append rfl,
        words_append rfl, words_append rfl, words_channelMark, words_channelMark]
      exact ⟨rfl, rfl⟩
  | send _ ih =>
      rw [emitted_chanType, emitted_chanType, fault_append rfl, fault_append rfl,
        words_append rfl, words_append rfl, words_channelMark, words_channelMark, ih.2]
      exact ⟨ih.1, rfl⟩

theorem built {b : Bool} (h : Received x t) (hx : Built (.expression b) x) :
    Built (.expression b) t ∧ t.isType = true := by
  induction h generalizing b with
  | both =>
      cases hx with
      | chanType _ hvalue htype _ => exact ⟨.chanType (by simp) hvalue htype (by simp), rfl⟩
  | send _ ih =>
      cases hx with
      | chanType _ hvalue _ _ =>
          obtain ⟨hvalue, htype⟩ := ih hvalue
          exact ⟨.chanType (by simp) hvalue htype (by simp), rfl⟩

theorem kind (h : Received x t) : t.is .ChanType = true ∧ t.takesBrace = false := by
  cases h <;> exact ⟨rfl, rfl⟩

theorem plain_eq (h : Received x t) : t.plain = x.plain := by
  induction h with
  | both => rfl
  | @send p value result _ ih =>
      change (true && (true && (result.plain && true))) = (true && (true && (value.plain && true)))
      rw [ih]

theorem loops_eq (h : Received x t) : t.loops = x.loops := by
  induction h with
  | both => rfl
  | send _ ih =>
      rw [loops_of rfl, loops_of rfl]
      simp [loopsAll, ih]

theorem absorbs_eq (h : Received x t) (k : TokenKind) : t.absorbs k = x.absorbs k := by
  induction h with
  | both => rfl
  | send _ ih => exact ih

theorem edge_eq (h : Received x t) (k : TokenKind) : t.edge k = x.edge k := by
  cases h with
  | both => rfl
  | send h => exact congrArg (true && ·) (h.absorbs_eq k)

end Received

theorem Sound.unaryHere (hg : g.Sound) (hs : -1 ≤ s.level) (hc : c.Valid)
    (h : g.unaryHere.Gives s c t c') : ExpressionRead s t c c' ∧ t.is .BinaryExpr = false := by
  simp only [Grammar.unaryHere, gives_current_bind] at h
  rcases gives_ite.mp h with ⟨hunary, h⟩ | ⟨hunary, h⟩
  · obtain ⟨o, ho⟩ : ∃ o, c.current.kind = .op o := by
      cases hkind : c.current.kind <;> rw [hkind] at hunary <;> first | cases hunary | exact ⟨_, rfl⟩
    obtain ⟨x, hx, rfl⟩ := by simpa using h
    obtain ⟨hx', hbinary⟩ := hg.unary hs (hc.advance (by simp [ho])) hx
    rw [ho] at hunary ⊢
    refine ⟨⟨.unary ?_ hx'.built hbinary ?_, ?_, hx'.brace, by rintro ⟨⟩⟩, rfl⟩
    · simp [Operator.isPrefix, hunary]
    · rintro rfl
      cases hunary
    · rw [ReadAs, emitted_unary]
      refine (Spans.after hc ho hx'.read).imp ((loops_of rfl).trans (by simp [loopsAll]))
        fun h => ⟨plain_of rfl ?_, h.2⟩
      simp [allPlain, h.1]
  · split at h
    · rename_i harrow
      simp only [discard_bind, gives_advance_bind] at h
      obtain ⟨x, d, hx, h⟩ := gives_bind.mp h
      obtain ⟨hx', hbinary⟩ := hg.unary hs (hc.advance (by simp [harrow])) hx
      rcases gives_ite.mp h with ⟨hchan, h⟩ | ⟨hchan, h⟩
      · obtain ⟨hreceived, rfl⟩ := received_of_receiving hx'.built hchan h
        have hall := (Spans.operator hc harrow).append hx'.read
        refine ⟨⟨(hreceived.built hx'.built).1, ?_, fun _ _ => hreceived.kind.2, ?_⟩, ?_⟩
        · refine (hall.replace ?_ ?_ ?_).imp (by simp [hreceived.loops_eq]) fun h => ?_
          · rw [hreceived.words.1, hx'.read.fault]
          · rw [hreceived.words.2, words_append rfl, words_operator]
            rfl
          · rw [hreceived.words.2, words_append rfl, words_operator]
            rfl
          · exact ⟨hreceived.plain_eq.trans h.2.1, (hreceived.edge_eq _).trans h.2.2⟩
        · cases hreceived <;> rintro ⟨⟩
        · cases hreceived <;> rfl
      · obtain ⟨rfl, rfl⟩ := gives_pure.mp h
        refine ⟨⟨.unary rfl hx'.built hbinary fun _ => by simpa using hchan, ?_, hx'.brace,
          by rintro ⟨⟩⟩, rfl⟩
        rw [ReadAs, emitted_unary]
        refine (Spans.after hc harrow hx'.read).imp ((loops_of rfl).trans (by simp [loopsAll]))
          fun h => ⟨plain_of rfl ?_, h.2⟩
        simp [allPlain, h.1]
    · rename_i hstar
      obtain ⟨x, hx, rfl⟩ := by simpa using h
      obtain ⟨hx', hbinary⟩ := hg.unary hs (hc.advance (by simp [hstar])) hx
      refine ⟨⟨.star hx'.built hbinary, ?_, hx'.brace, by rintro ⟨⟩⟩, rfl⟩
      rw [ReadAs, emitted_star]
      refine (Spans.after hc hstar hx'.read).imp ((loops_of rfl).trans (by simp [loopsAll]))
        fun h => ⟨plain_of rfl ?_, h.2⟩
      simp [allPlain, h.1]
    · rename_i harrow hstar
      obtain ⟨x, d, hx, h⟩ := gives_bind.mp h
      obtain ⟨hread, hprimary, -⟩ := hg.primaryAfter (I := fun _ _ => True) hs
        (fun _ _ => trivial) trivial (hg.operand hs hc hstar harrow hx) h
      exact ⟨hread, is_binary_of_isPrimary hprimary⟩

theorem Sound.unaryRule (hg : g.Sound) (hs : -1 ≤ s.level) (hc : c.Valid)
    (h : g.unaryRule.Gives s c t c') : ExpressionRead s t c c' ∧ t.is .BinaryExpr = false := by
  obtain ⟨hread, hbinary⟩ := hg.unaryHere (s := s.deeper) hs hc (gives_nested.mp h).2
  exact ⟨⟨hread.built, hread.read, hread.brace, hread.start⟩, hbinary⟩

-- What was read so far on the left of operators: an operator that stands next binds no more tightly.
structure LeftRead (least : Nat) (s : Scope) (t : Tree) (c c' : Cursor) : Prop
    extends ExpressionRead s t c c' where
  least_le : least ≤ t.precedence
  next_le : c'.current.kind.precedence ≤ t.precedence

theorem Sound.binaryStep {least : Nat} {x u : Tree} (hg : g.Sound) (hs : -1 ≤ s.level)
    (hleast : 1 ≤ least) (hx : LeftRead least s x c d)
    (h : (g.binaryStep least x).Gives s d (some u) c') :
    LeftRead least s u c c' ∧ c'.upcoming.length < d.upcoming.length := by
  simp only [Grammar.binaryStep, gives_peek_bind] at h
  rcases gives_ite.mp h with ⟨-, h⟩ | ⟨hprecedence, h⟩
  · simp at h
  obtain ⟨o, ho⟩ : ∃ o, d.current.kind = .op o := by
    cases hkind : d.current.kind with
    | op o => exact ⟨o, rfl⟩
    | _ =>
        rw [hkind] at hprecedence
        exact absurd (show 0 < least by omega) hprecedence
  rw [ho] at hprecedence
  obtain ⟨y, hy, rfl⟩ := by simpa using h
  rw [ho] at hy
  have hfive := (TokenKind.op o).precedence_le
  have hy' := hg.binary (by omega) (by omega) hs (hx.valid.advance (by simp [ho])) hy
  have hafter := hy'.after
  have hleast_le := hy'.least_le
  have hless := hx.valid.advance_lt (by simp [ho])
  have hprogress := Spans.progress hy'.read
  have hnext := hx.next_le
  rw [ho] at hnext
  have hop : (TokenKind.op o).precedence = o.precedence := rfl
  rw [hop] at hprecedence hafter hleast_le hnext
  refine ⟨⟨⟨?_, ?_, hy'.brace, hx.start⟩, ?_, ?_⟩, by omega⟩
  · rw [ho]
    exact .binary (by omega) hx.built hy'.built hnext (by omega)
  · rw [ho, ReadAs, emitted_binary]
    refine (hx.read.append (Spans.after hx.valid ho hy'.read)).imp
      ((loops_of rfl).trans (by simp [loopsAll])) fun h => ⟨plain_of ?_ ?_, h.2.2⟩
    · have hedge := h.1.2
      rw [ho] at hedge
      exact congrArg not hedge
    · simp [allPlain, h.1.1, h.2.1]
  · rw [ho]
    change least ≤ o.precedence
    omega
  · rw [ho]
    change _ ≤ o.precedence
    omega

theorem binaryStep_none {least : Nat} {x : Tree} (h : (g.binaryStep least x).Gives s c none c') :
    c' = c ∧ c.current.kind.precedence < least := by
  rcases gives_ite.mp (gives_peek_bind.mp h) with ⟨hprecedence, h⟩ | ⟨-, h⟩
  · obtain ⟨-, rfl⟩ := gives_pure.mp h
    exact ⟨rfl, hprecedence⟩
  · simp at h

-- What each operator keeps besides is kept while an expression grows.
theorem Sound.binaryAfter {I : Tree → Cursor → Prop} {least : Nat} {x : Tree} (hg : g.Sound)
    (hs : -1 ≤ s.level) (hleast : 1 ≤ least)
    (hstep : ∀ {x y p : Tree} {o d e}, I x d → I (.binary p x (.token o) y) e)
    (hI : I x d) (hx : LeftRead least s x c d) (h : (g.binaryAfter least x).Gives s d t c') :
    BinaryRead least s t c c' ∧ I t c' := by
  obtain ⟨e, -, ⟨ht, hI⟩, hend⟩ := grows_of_grow (I := fun x d => LeftRead least s x c d ∧ I x d)
    (fun {x d u e} hx h => by
      obtain ⟨hx, hI⟩ := hx
      obtain ⟨hu, hless⟩ := hg.binaryStep hs hleast hx h
      refine ⟨⟨hu, ?_⟩, hless⟩
      rcases gives_ite.mp (gives_peek_bind.mp h) with ⟨-, h⟩ | ⟨-, h⟩
      · simp at h
      · obtain ⟨_, -, rfl⟩ := by simpa using h
        exact hstep hI) ⟨hx, hI⟩ h
  rcases hend with hend | ⟨hend, rfl⟩
  · obtain ⟨rfl, hprecedence⟩ := binaryStep_none hend
    exact ⟨⟨ht.toExpressionRead, ht.least_le, hprecedence⟩, hI⟩
  · refine ⟨⟨ht.toExpressionRead, ht.least_le, ?_⟩, hI⟩
    rw [kind_of_upcoming ht.valid hend]
    exact hleast

theorem LeftRead.of_unary {least : Nat} (hleast : least ≤ 6) (h : ExpressionRead s t c c')
    (hbinary : t.is .BinaryExpr = false) : LeftRead least s t c c' := by
  have hsix := precedence_of_is_binary hbinary
  have hfive := c'.current.kind.precedence_le
  exact ⟨h, by omega, by omega⟩

theorem Sound.binaryRule {least : Nat} (hg : g.Sound) (hs : -1 ≤ s.level) (hleast : 1 ≤ least)
    (hsix : least ≤ 6) (hc : c.Valid) (h : (g.binaryRule least).Gives s c t c') :
    BinaryRead least s t c c' := by
  obtain ⟨x, d, hx, h⟩ := gives_bind.mp h
  obtain ⟨hx', hbinary⟩ := hg.unaryRule hs hc hx
  exact (hg.binaryAfter (I := fun _ _ => True) hs hleast (fun _ => trivial) trivial
    (.of_unary hsix hx' hbinary) h).1

theorem Sound.expressionRule (hg : g.Sound) (hs : -1 ≤ s.level) (hc : c.Valid)
    (h : g.expressionRule.Gives s c t c') : ExpressionRead s t c c' :=
  (hg.binaryRule hs (Nat.le_refl 1) (by decide) hc h).toExpressionRead

end Grammar

end GoCompact
