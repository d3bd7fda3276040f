import GoCompact.Proofs.Grammar.Sound.Basic

namespace GoCompact.Grammar

open GoCompact.Parser GoCompact.Tree Emission

variable {g : Grammar} {s : Scope} {t : Tree} {c d c' : Cursor}

-- A name, or the selection of one from a package.
theorem qualified_sound {p : Tree} {x : Text} (hx : (⟨.ident, x⟩ : Lexeme).Whole)
    (hname : Spans c (write x) 0 True d)
    (h : (qualified (.ident p (.text x))).Gives s d t c') :
    t.isTypeName = true ∧ (∀ b, Built (.expression b) t) ∧
      t.ReadAs .expression c (c'.current.kind = .op .Period → t.is .Ident = false) c' := by
  simp only [qualified, gives_got_bind] at h
  rcases h with ⟨hpoint, h⟩ | ⟨hpoint, h⟩
  · simp only [if_true, gives_bind, gives_pure] at h
    obtain ⟨sel, e, hsel, rfl, rfl⟩ := h
    have hdot := Spans.operator hname.valid hpoint
    obtain ⟨q, y, rfl, hy, -, -, hspans⟩ := ident_sound hdot.valid hsel
    refine ⟨rfl, fun b => .selector (.ident hx) rfl (.name hy), ?_⟩
    exact ((hname.append hdot).append hspans).imp rfl fun _ => ⟨rfl, fun _ => rfl⟩
  · obtain ⟨rfl, rfl⟩ := gives_pure.mp h
    refine ⟨rfl, fun b => .ident hx, hname.imp rfl fun _ => ⟨rfl, fun hkind => ?_⟩⟩
    exact absurd hkind hpoint


-- Types after commas.
theorem Sound.types {closing : Option TokenKind} {ts : List Tree} (hg : g.Sound)
    (hs : -1 ≤ s.level) (ht : Spans c (t.emittedAs .expression) t.loops (t.plain = true) d)
    (h : (afterCommas closing g.type).Gives s d ts c') :
    ListRead (t :: ts) c c' ∧ (∀ u ∈ ts, ∀ b, Built (.expression b) u) ∧
      ∀ u ∈ ts, u.isType = true := by
  obtain ⟨hread, htypes⟩ := listRead_of_commas
    (Q := fun u => (∀ b, Built (.expression b) u) ∧ u.isType = true)
    (fun hc h => ⟨(hg.type hs hc h).read.plain, (hg.type hs hc h).built,
      (hg.type hs hc h).isType⟩) ht (afterCommas_of_gives h)
  exact ⟨hread, fun u hu => (htypes u hu).1, fun u hu => (htypes u hu).2⟩

theorem areTypes_iff {ts : List Tree} : areTypes ts = true ↔ ∀ t ∈ ts, t.isType = true := by
  induction ts with
  | nil => simp [areTypes]
  | cons t ts ih => simp [areTypes, ih]

theorem isPrimary_of_isTypeName (h : t.isTypeName = true) : t.isPrimary = true := by
  unfold isTypeName at h
  split at h <;> first | rfl | cases h

theorem edge_of_isTypeName (h : t.isTypeName = true) (k : TokenKind) : t.edge k = false := by
  unfold isTypeName at h
  split at h <;> first | rfl | cases h

theorem Sound.typeArguments {x : Tree} {P : Prop} (hg : g.Sound) (hs : -1 ≤ s.level)
    (hkind : c.current.kind = .ident) (hname : x.isTypeName = true) (hx : ∀ b, Built (.expression b) x)
    (hread : x.ReadAs .expression c P d) (h : (g.typeArguments x).Gives s d t c') :
    TypeRead t c c' ∧ t.is .IndexExpr = true := by
  simp only [Grammar.typeArguments, discard_bind, gives_expect_bind] at h
  obtain ⟨hopen, h⟩ := h
  obtain ⟨first, d₁, hfirst, h⟩ := gives_bind.mp h
  obtain ⟨others, d₂, hothers, h⟩ := gives_bind.mp h
  simp only [gives_expect_bind, gives_pure] at h
  obtain ⟨hclose, rfl, rfl⟩ := h
  have hbracket := Spans.operator (Spans.valid hread) hopen
  have hf := hg.type hs hbracket.valid hfirst
  obtain ⟨hlist, hbuilt, htypes⟩ := hg.types hs hf.read.plain hothers
  refine ⟨⟨fun b => ?_, ?_, ?_, hkind⟩, rfl⟩
  · exact .index (hx b) (isPrimary_of_isTypeName hname) (hf.built true)
      (fun u hu => hbuilt u hu true) htypes
  · simp [Tree.isType, hname, areTypes, hf.isType, areTypes_iff.mpr htypes]
  · rw [ReadAs, emitted_index]
    have hall := ((hread.append hbracket).append hlist).append (Spans.operator hlist.valid hclose)
    refine hall.imp ((loops_of rfl).trans (by simp [loopsAll])) fun h => ⟨plain_of ?_ ?_, rfl⟩
    · exact congrArg not (edge_of_isTypeName hname _)
    · simp [allPlain, h.1.1.1.1, h.1.2]

theorem absorbs_of_isTypeName {k : TokenKind} (h : t.isTypeName = true)
    (hpoint : k = .op .Period → t.is .Ident = false) (hbracket : k ≠ .op .LBrack) :
    t.absorbs k = false := by
  unfold isTypeName at h
  split at h
  · have hk : k ≠ .op .Period := fun hk => absurd (hpoint hk) (by simp [Tree.is, kind?])
    simp [absorbs, hk, hbracket]
  · simp [absorbs, hbracket]
  · cases h

theorem isType_of_isTypeName (h : t.isTypeName = true) : t.isType = true := by
  unfold isTypeName at h
  split at h <;> first | rfl | cases h

theorem typeStart_of_isTypeName (h : t.isTypeName = true) : t.typeStart = .ident := by
  unfold isTypeName at h
  split at h <;> first | rfl | cases h

-- A type name with its type arguments, of which the first name was read already.
theorem Sound.namedType {p : Tree} {x : Text} (hg : g.Sound) (hs : -1 ≤ s.level)
    (hx : (⟨.ident, x⟩ : Lexeme).Whole) (hkind : c.current.kind = .ident)
    (hname : Spans c (write x) 0 True d) (h : (g.namedType (.ident p (.text x))).Gives s d t c') :
    TypeRead t c c' ∧ (t.isTypeName = true ∨ t.is .IndexExpr = true) := by
  obtain ⟨u, e, hqualified, h⟩ := gives_bind.mp h
  obtain ⟨hu, hbuilt, hread⟩ := qualified_sound hx hname hqualified
  simp only [instantiated, gives_peek_bind, gives_ite] at h
  rcases h with ⟨-, h⟩ | ⟨hbracket, h⟩
  · obtain ⟨htype, hindex⟩ := hg.typeArguments hs hkind hu hbuilt hread h
    exact ⟨htype, Or.inr hindex⟩
  · obtain ⟨rfl, rfl⟩ := gives_pure.mp h
    refine ⟨⟨hbuilt, isType_of_isTypeName hu, ?_, ?_⟩, Or.inl hu⟩
    · exact hread.imp rfl fun h =>
        ⟨h.1, absorbs_of_isTypeName hu h.2 hbracket⟩
    · rw [hkind, typeStart_of_isTypeName hu]

-- Three dots that stand for a length.
theorem openLength_sound (hc : c.Valid) (hdots : c.current.kind = .op .Ellipsis)
    (h : openLength.Gives s c t c') :
    (∃ p, t = .ellipsis p .absent) ∧ t.ReadAs .expression c True c' := by
  simp only [openLength, gives_advance_bind, gives_pure] at h
  obtain ⟨rfl, rfl⟩ := h
  refine ⟨⟨_, rfl⟩, ?_⟩
  rw [ReadAs, emitted_ellipsis]
  exact ((Spans.operator hc hdots).append (.nothing (hc.advance (by simp [hdots])))).imp rfl
    fun _ => ⟨rfl, trivial⟩

-- An expression in brackets.
theorem Sound.bracketedExpression (hg : g.Sound) (hs : -1 ≤ s.level) (hc : c.Valid)
    (h : g.expression.Gives s.bracketed c t c') :
    Built (.expression true) t ∧ t.ReadAs .expression c True c' := by
  have hlevel := Scope.level_bracketed hs
  have hread := hg.expression (by omega) hc h
  have hbuilt := hread.built
  rw [Scope.isFree_bracketed hs] at hbuilt
  exact ⟨hbuilt, hread.read.imp rfl fun h => ⟨h.1, trivial⟩⟩

-- The length of an array.
theorem Sound.arrayLength {o : Option Tree} (hg : g.Sound) (hs : -1 ≤ s.level) (hc : c.Valid)
    (h : g.arrayLength.Gives s c o c') :
    (∀ t ∈ o, Built .length t) ∧ MaybeRead .expression o c c' ∧
      ∀ t ∈ o, t.startsNamed = true → c.current.kind = .ident := by
  simp only [Grammar.arrayLength, gives_bracketed, gives_peek_bind] at h
  split at h
  · rename_i hdots
    obtain ⟨t, ht, rfl⟩ := gives_map.mp h
    obtain ⟨⟨p, rfl⟩, hread⟩ := openLength_sound hc hdots ht
    refine ⟨?_, .some hread rfl, ?_⟩
    · rintro t ⟨⟩
      exact .openLength
    · rintro t ⟨⟩ hnamed
      cases hnamed
  · obtain ⟨rfl, rfl⟩ := gives_pure.mp h
    exact ⟨by simp, .none _ hc, by simp⟩
  · obtain ⟨t, ht, rfl⟩ := gives_map.mp h
    have hlevel := Scope.level_bracketed hs
    obtain ⟨hbuilt, hread⟩ := hg.bracketedExpression hs hc ht
    refine ⟨?_, .some hread hbuilt.isAbsent, ?_⟩
    · rintro u ⟨⟩
      exact .length hbuilt
    · rintro u ⟨⟩
      exact (hg.expression (by omega) hc ht).start

theorem TypeRead.array {p elt : Tree} {o : Option Tree} {e f : Cursor}
    (hkind : c.current.kind = .op .LBrack) (hopen : Spans c (operator .LBrack) 0 True d) (hbuilt : ∀ t ∈ o, Built .length t)
    (hlen : MaybeRead .expression o d e) (hclose : Spans e (operator .RBrack) 0 True f)
    (helt : TypeRead elt f c') : TypeRead (.arrayType p (.ofOption o) elt) c c' := by
  refine ⟨fun b => .arrayType hbuilt (helt.built true) helt.isType, rfl, ?_, hkind⟩
  rw [ReadAs, emitted_arrayType]
  refine (((hopen.append hlen).append hclose).append helt.read).imp
    ((loops_of rfl).trans (by simp [loopsAll])) fun h => ⟨plain_of rfl ?_, h.2.2⟩
  simp [allPlain, h.1.1.2, h.2.1]

-- An array type after its opening bracket and its length.
theorem Sound.arrayElement {p : Tree} {o : Option Tree} {e : Cursor} (hg : g.Sound)
    (hs : -1 ≤ s.level) (hkind : c.current.kind = .op .LBrack)
    (hopen : Spans c (operator .LBrack) 0 True d) (hbuilt : ∀ t ∈ o, Built .length t) (hlen : MaybeRead .expression o d e)
    (h : (g.arrayElement p o).Gives s e t c') :
    TypeRead t c c' ∧ ∃ elt, t = .arrayType p (.ofOption o) elt := by
  obtain ⟨hclose, elt, helt, rfl⟩ := by simpa [Grammar.arrayElement] using h
  have hclose' := Spans.operator (Spans.valid hlen) hclose
  exact ⟨.array hkind hopen hbuilt hlen hclose' (hg.type hs hclose'.valid helt), elt, rfl⟩

theorem Sound.mapType (hg : g.Sound) (hs : -1 ≤ s.level) (hc : c.Valid)
    (h : g.mapType.Gives s c t c') : TypeRead t c c' := by
  obtain ⟨hmap, hopen, key, d, hkey, hclose, value, hvalue, rfl⟩ := by
    simpa [Grammar.mapType] using h
  have hstart := Spans.joined hc hmap hopen
  have hkey' := hg.type hs hstart.valid hkey
  have hclose' := Spans.operator hkey'.valid hclose
  have hvalue' := hg.type hs hclose'.valid hvalue
  refine ⟨fun b => .mapType (hkey'.built true) hkey'.isType (hvalue'.built true) hvalue'.isType,
    rfl, ?_, hmap⟩
  rw [ReadAs, emitted_mapType]
  refine (((hstart.append hkey'.read).append hclose').append hvalue'.read).imp
    ((loops_of rfl).trans (by simp [loopsAll])) fun h => ⟨plain_of rfl ?_, h.2.2⟩
  simp [allPlain, h.1.1.2.1, h.2.1]

theorem typeStart_of_isReceiver (h : t.isReceiver = true) : t.typeStart = .op .Arrow := by
  unfold isReceiver at h
  split at h
  · rfl
  · cases h

-- A channel type with its mark.
theorem TypeRead.chan {p value : Tree} {dir : Direction} (hdir : dir ≠ .neither)
    (hmark : Spans c (Rule.channelMark ⟨.direction dir, (Tree.direction dir).emittedAs⟩) 0 True d)
    (hvalue : TypeRead value d c') (hboth : dir = .both → value.isReceiver = false)
    (hstart : c.current.kind = (Tree.chanType p (.direction dir) value).typeStart) :
    TypeRead (.chanType p (.direction dir) value) c c' := by
  refine ⟨fun b => .chanType hdir (hvalue.built true) hvalue.isType hboth, rfl, ?_,
    hstart⟩
  rw [ReadAs, emitted_chanType]
  refine (hmark.append hvalue.read).imp ((loops_of rfl).trans (by simp [loopsAll]))
    fun h => ⟨plain_of rfl ?_, h.2.2⟩
  simp [allPlain, h.2.1]

theorem spans_sender (hc : c.Valid) (hchan : c.current.kind = .word .Chan)
    (harrow : c.advance.current.kind = .op .Arrow) (f : Role → Emission) :
    Spans c (Rule.channelMark ⟨.direction .send, f⟩) 0 True c.advance.advance := by
  refine (Spans.joined hc hchan harrow).replace rfl ?_ ?_ <;> rw [words_channelMark, words_joined]
  · rfl
  · rfl

theorem spans_receiver (hc : c.Valid) (harrow : c.current.kind = .op .Arrow)
    (hchan : c.advance.current.kind = .word .Chan) (f : Role → Emission) :
    Spans c (Rule.channelMark ⟨.direction .receive, f⟩) 0 True c.advance.advance := by
  have hoperator := Spans.operator hc harrow
  refine ((hoperator.append (Spans.keyword hoperator.valid hchan)).replace rfl ?_ ?_).imp rfl
    fun _ => trivial
  · rw [words_channelMark, words_append rfl, words_operator, words_keyword]
    rfl
  · rw [words_channelMark, words_append rfl, words_operator, words_keyword]
    rfl

theorem Sound.chanType (hg : g.Sound) (hs : -1 ≤ s.level) (hc : c.Valid)
    (h : g.chanType.Gives s c t c') : TypeRead t c c' := by
  obtain ⟨hchan, h⟩ | ⟨-, harrow, hchan, value, hvalue, rfl⟩ := by
    simpa [Grammar.chanType, chanDirection] using h
  · rcases h with ⟨harrow, value, hvalue, rfl⟩ | ⟨harrow, value, hvalue, rfl⟩
    · have hmark := spans_sender hc hchan harrow (Tree.direction .send).emittedAs
      exact .chan (by simp) hmark (hg.type hs hmark.valid hvalue) (by simp) hchan
    · have hmark := Spans.spaced hc hchan
      have hvalue' := hg.type hs hmark.valid hvalue
      refine .chan (by simp) (hmark.imp rfl fun _ => trivial) hvalue' (fun _ => ?_) hchan
      cases hreceiver : value.isReceiver with
      | false => rfl
      | true => exact absurd (hvalue'.start.trans (typeStart_of_isReceiver hreceiver)) harrow
  · have hmark := spans_receiver hc harrow hchan (Tree.direction .receive).emittedAs
    exact .chan (by simp) hmark (hg.type hs hmark.valid hvalue) (by simp) harrow

theorem is_binary_of_isType (h : t.isType = true) : t.is .BinaryExpr = false := by
  unfold isType at h
  split at h <;> first | rfl | (rename_i k _ _ _ _ _ _ _; cases k <;> first | rfl | cases h) | cases h

theorem precedence_of_is_binary (h : t.is .BinaryExpr = false) : t.precedence = 6 := by
  unfold Tree.precedence
  split
  · cases h
  · rfl

-- A term of a union.
structure TermRead (t : Tree) (c c' : Cursor) : Prop where
  built : Built (.expression true) t
  isTerm : t.isTerm = true
  notBinary : t.is .BinaryExpr = false
  read : t.ReadAs .expression c True c'

theorem TermRead.of_type (h : TypeRead t c c') : TermRead t c c' where
  built := h.built true
  isTerm := by
    have htype := h.isType
    unfold Tree.isTerm
    split
    · cases htype
    · exact htype
  notBinary := is_binary_of_isType h.isType
  read := h.read.imp rfl fun h => ⟨h.1, trivial⟩

-- What follows an operator may have a blank before it.
theorem Spans.after {o : Operator} {x : Tree} {n : Nat} {P : Prop} (hc : c.Valid)
    (hkind : c.current.kind = .op o) (hx : Spans c.advance (x.emittedAs .expression) n P c') :
    Spans c (x.emittedAfter o) n P c' := by
  have ho := Spans.operator hc hkind
  exact ((ho.append (Spans.when_blank ho.valid _)).append hx).imp (by simp) fun h => h.2

theorem Sound.constraintTerm (hg : g.Sound) (hs : -1 ≤ s.level) (hc : c.Valid)
    (h : g.constraintTerm.Gives s c t c') : TermRead t c c' := by
  obtain ⟨htilde, x, hx, rfl⟩ | ⟨-, h⟩ := by simpa [Grammar.constraintTerm] using h
  · have hx' := hg.type hs (hc.advance (by simp [htilde])) hx
    refine ⟨.unary rfl (hx'.built true) (is_binary_of_isType hx'.isType) (by simp), hx'.isType,
      rfl, ?_⟩
    rw [ReadAs, emitted_unary]
    refine (Spans.after hc htilde hx'.read).imp ((loops_of rfl).trans (by simp [loopsAll]))
      fun h => ⟨plain_of rfl ?_, trivial⟩
    simp [allPlain, h.1]
  · exact .of_type (hg.type hs hc h)

-- A union of terms keeps what a first term and each term after it have.
theorem Sound.union {I : Tree → Prop} {x : Tree} {P : Prop} (hg : g.Sound) (hs : -1 ≤ s.level)
    (hstep : ∀ {x y p : Tree}, I x → Built (.expression true) y → y.isTerm = true →
      y.is .BinaryExpr = false → I (.binary p x (.token (.op .Or)) y))
    (hx : I x) (hread : x.ReadAs .expression c P d) (h : (g.union x).Gives s d t c') :
    I t ∧ t.ReadAs .expression c True c' := by
  have hgives : ∀ {x u : Tree} {d e : Cursor}, d.Valid → (g.unionStep x).Gives s d (some u) e →
      ∃ y, d.current.kind = .op .Or ∧ TermRead y d.advance e ∧
        u = .binary x.placeOf x (.token (.op .Or)) y := by
    intro x u d e hd h
    obtain ⟨hor, y, hy, rfl⟩ := by simpa [unionStep] using h
    exact ⟨y, hor, hg.constraintTerm hs (hd.advance (by simp [hor])) hy, rfl⟩
  obtain ⟨e, -, ⟨hI, hread⟩, hend⟩ := grows_of_grow
    (I := fun x d => I x ∧ x.ReadAs .expression c True d) (fun hI h => by
      obtain ⟨hx, hread⟩ := hI
      obtain ⟨y, hor, hy, rfl⟩ := hgives (Spans.valid hread) h
      have hless := (Spans.valid hread).advance_lt (by simp [hor])
      have hprogress := Spans.progress hy.read
      refine ⟨⟨hstep hx hy.built hy.isTerm hy.notBinary, ?_⟩, by omega⟩
      rw [ReadAs, emitted_binary]
      refine (hread.append (Spans.after (Spans.valid hread) hor hy.read)).imp
        ((loops_of rfl).trans (by simp [loopsAll])) fun h => ⟨plain_of ?_ ?_, trivial⟩
      · exact congrArg not (edge_eq_false (by simp) rfl _)
      · simp [allPlain, h.1.1, h.2.1])
    ⟨hx, hread.imp rfl fun h => ⟨h.1, trivial⟩⟩ h
  obtain rfl : c' = e := by
    rcases hend with hend | ⟨-, rfl⟩
    · obtain ⟨-, rfl⟩ := by simpa [unionStep] using hend
      rfl
    · rfl
  exact ⟨hI, hread⟩

end GoCompact.Grammar
