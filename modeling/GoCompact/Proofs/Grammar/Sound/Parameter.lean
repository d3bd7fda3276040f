import GoCompact.Proofs.Grammar.Sound.Type

namespace GoCompact.Grammar

open GoCompact.Parser GoCompact.Tree Emission

namespace Entry

def emitted : Entry → Emission
  | ⟨some name, some typ⟩ => Rule.nameOf name ++ blank ++ typ.emittedAs .expression
  | ⟨some name, none⟩ => Rule.nameOf name
  | ⟨none, some typ⟩ => typ.emittedAs .expression
  | ⟨none, none⟩ => nothing

def loops (e : Entry) : Nat := (ofOption e.type).loops

def plain (e : Entry) : Bool := (ofOption e.type).plain

end Entry

-- Entries of a list of parameters, or of type parameters if there are constraints.
inductive EntryBuilt (constraints : Bool) : Entry → Prop
  | name {n : Tree} (h : Built .name n) : EntryBuilt constraints ⟨some n, none⟩
  | type {t : Tree} (h : Built .fieldType t) (hfits : t.fitsUnnamed constraints = true) :
      EntryBuilt constraints ⟨none, some t⟩
  | both {n t : Tree} (hn : Built .name n) (h : Built .fieldType t)
      (hfits : t.fitsNamed constraints = true) : EntryBuilt constraints ⟨some n, some t⟩

structure EntryRead (constraints : Bool) (e : Entry) (c c' : Cursor) : Prop where
  built : EntryBuilt constraints e
  read : Spans c e.emitted e.loops (e.plain = true) c'

-- A name with brackets after it.
structure IndexRead (t : Tree) (c c' : Cursor) : Prop where
  built : Built .fieldType t
  isIndexed : t.isIndexed = true
  read : t.ReadAs .expression c True c'

variable {g : Grammar} {s : Scope} {t : Tree} {c d c' : Cursor}

-- What stands in the brackets after a name.
theorem Sound.bracketItems {ts : List Tree} (hg : g.Sound) (hs : -1 ≤ s.level) (hc : c.Valid)
    (h : g.bracketItems.Gives s c ts c') :
    (ts = [] ∧ c' = c) ∨ ∃ first others, ts = first :: others ∧ Built .length first ∧
      (∀ u ∈ others, Built (.expression true) u) ∧ (∀ u ∈ others, u.isType = true) ∧
      ListRead (first :: others) c c' := by
  have hlevel := Scope.level_bracketed hs
  simp only [Grammar.bracketItems, gives_peek_bind, gives_ite, gives_pure, gives_bracketed] at h
  rcases h with ⟨-, rfl, rfl⟩ | ⟨-, ⟨hdots, h⟩ | ⟨-, h⟩⟩
  · exact Or.inl ⟨rfl, rfl⟩
  · obtain ⟨first, e, hfirst, h⟩ := gives_bind.mp h
    obtain ⟨others, e, hothers, h⟩ := gives_bind.mp h
    obtain ⟨rfl, rfl⟩ := gives_pure.mp h
    obtain ⟨⟨p, rfl⟩, hread⟩ := openLength_sound hc hdots hfirst
    obtain ⟨hlist, hbuilt, htypes⟩ := hg.types (by omega) hread.plain hothers
    exact Or.inr ⟨_, _, rfl, .openLength, fun u hu => hbuilt u hu true, htypes, hlist⟩
  · obtain ⟨first, e, hfirst, h⟩ := gives_bind.mp h
    obtain ⟨others, e, hothers, h⟩ := gives_bind.mp h
    obtain ⟨rfl, rfl⟩ := gives_pure.mp h
    obtain ⟨hfirst, hread⟩ := hg.bracketedExpression hs hc hfirst
    obtain ⟨hlist, hbuilt, htypes⟩ := hg.types (by omega) hread.plain hothers
    exact Or.inr ⟨_, _, rfl, .length hfirst, fun u hu => hbuilt u hu true, htypes, hlist⟩

-- A name with items in brackets.
theorem IndexRead.of_items {p q first : Tree} {x : Text} {others : List Tree} {e f : Cursor}
    (hx : (⟨.ident, x⟩ : Lexeme).Whole) (hname : Spans c (write x) 0 True d)
    (hopen : Spans d (operator .LBrack) 0 True e) (hfirst : Built .length first)
    (hothers : ∀ u ∈ others, Built (.expression true) u) (htypes : ∀ u ∈ others, u.isType = true)
    (hlist : ListRead (first :: others) e f) (hclose : Spans f (operator .RBrack) 0 True c') :
    IndexRead (.index q (.ident p (.text x)) (.tuple (first :: others))) c c' := by
  refine ⟨?_, rfl, ?_⟩
  · cases hfirst with
    | openLength => exact .openIndex (.name hx) hothers htypes
    | length hfirst => exact .fieldType (.index (.ident hx) rfl hfirst hothers htypes)
  · rw [ReadAs, emitted_index]
    refine (((hname.append hopen).append hlist).append hclose).imp
      ((loops_of rfl).trans (by simp [loopsAll])) fun h => ⟨plain_of rfl ?_, trivial⟩
    simp [allPlain, h.1.2]

-- After a name a bracket begins an array type, or the arguments of a generic type of that name.
theorem Sound.arrayOrInstance {p : Tree} {x : Text} {r : Option Tree × Tree} (hg : g.Sound)
    (hs : -1 ≤ s.level) (hx : (⟨.ident, x⟩ : Lexeme).Whole) (hname : Spans c (write x) 0 True d)
    (h : (g.arrayOrInstance (.ident p (.text x))).Gives s d r c') :
    (∃ typ, r = (some (.ident p (.text x)), typ) ∧ TypeRead typ d c') ∨
      ∃ typ, r = (none, typ) ∧ IndexRead typ c c' := by
  simp only [Grammar.arrayOrInstance, discard_bind, gives_expect_bind] at h
  obtain ⟨hopen, h⟩ := h
  obtain ⟨ts, e, hts, h⟩ := gives_bind.mp h
  obtain ⟨hclose, h⟩ := gives_expect_bind.mp h
  have hopen' := Spans.operator hname.valid hopen
  rcases hg.bracketItems hs hopen'.valid hts with
    ⟨rfl, rfl⟩ | ⟨first, others, rfl, hfirst, hothers, htypes, hlist⟩
  · obtain ⟨elt, helt, rfl⟩ := by simpa using h
    have hclose' := Spans.operator hopen'.valid hclose
    refine Or.inl ⟨_, rfl, ?_⟩
    exact .array (o := none) hopen hopen' (by simp) (.none _ hopen'.valid) hclose'
      (hg.type hs hclose'.valid helt)
  · have hclose' := Spans.operator hlist.valid hclose
    have hindex := IndexRead.of_items (p := p) (q := p) hx hname hopen' hfirst hothers htypes
      hlist hclose'
    cases others with
    | cons u us =>
        obtain ⟨rfl, rfl⟩ := gives_pure.mp h
        exact Or.inr ⟨_, rfl, hindex⟩
    | nil =>
        obtain ⟨o, f, ho, h⟩ := gives_bind.mp h
        cases hg.type? hs hclose'.valid ho with
        | none =>
            obtain ⟨rfl, rfl⟩ := gives_pure.mp h
            exact Or.inr ⟨_, rfl, hindex⟩
        | some helt =>
            obtain ⟨rfl, rfl⟩ := gives_pure.mp h
            refine Or.inl ⟨_, rfl, .array (o := some first) hopen hopen' ?_ ?_ hclose' helt⟩
            · rintro u ⟨⟩
              exact hfirst
            · refine .some (P := True) (Spans.imp hlist ?_ ?_) hfirst.isAbsent
              · simp [loops_tuple]
              · intro h
                exact ⟨plain_tuple.mp h _ (by simp), trivial⟩

-- The rest of a constraint, if there is one.
theorem Sound.completed {I : Tree → Prop} {b : Bool} {name : Option Tree} {typ : Tree} {e : Entry}
    {P : Prop} (hg : g.Sound) (hs : -1 ≤ s.level)
    (hstep : ∀ {x y p : Tree}, I x → Built (.expression true) y → y.isTerm = true →
      y.is .BinaryExpr = false → I (.binary p x (.token (.op .Or)) y))
    (htyp : I typ) (hread : typ.ReadAs .expression c P d)
    (h : (g.completed b ⟨name, some typ⟩).Gives s d e c') :
    ∃ t, e = ⟨name, some t⟩ ∧ t.ReadAs .expression c True c' ∧ (t = typ ∨ (b = true ∧ I t)) := by
  simp only [Grammar.completed, gives_peek_bind, gives_ite] at h
  rcases h with ⟨hb, h⟩ | ⟨-, h⟩
  · obtain ⟨t, e, ht, h⟩ := gives_bind.mp h
    obtain ⟨rfl, rfl⟩ := gives_pure.mp h
    obtain ⟨hI, hread⟩ := hg.union hs hstep htyp hread ht
    simp only [Bool.and_eq_true] at hb
    exact ⟨t, rfl, hread, Or.inr ⟨hb.1, hI⟩⟩
  · obtain ⟨rfl, rfl⟩ := gives_pure.mp h
    exact ⟨typ, rfl, hread.imp rfl fun h => ⟨h.1, trivial⟩, Or.inl rfl⟩

theorem isUnion_of_isTerm (h : t.isTerm = true) (hbinary : t.is .BinaryExpr = false) :
    t.isUnion = true := by
  unfold isUnion
  split
  · cases hbinary
  · exact h

-- Unions of terms.
structure UnionBuilt (t : Tree) : Prop where
  built : Built (.expression true) t
  isUnion : t.isUnion = true
  precedence : 4 ≤ t.precedence

theorem UnionBuilt.of_term (h : TermRead t c c') : UnionBuilt t where
  built := h.built
  isUnion := isUnion_of_isTerm h.isTerm h.notBinary
  precedence := by rw [precedence_of_is_binary h.notBinary]; decide

theorem UnionBuilt.binary {x y p : Tree} (hx : UnionBuilt x) (hy : Built (.expression true) y)
    (hterm : y.isTerm = true) (hbinary : y.is .BinaryExpr = false) :
    UnionBuilt (.binary p x (.token (.op .Or)) y) where
  built := .binary (by decide) hx.built hy hx.precedence
    (by rw [precedence_of_is_binary hbinary]; decide)
  isUnion := by simp [Tree.isUnion, hx.isUnion, hterm]
  precedence := Nat.le_refl 4

-- Unions that begin with a name with brackets after it.
theorem openUnion {x y p : Tree} (hx : Built .fieldType x ∧ x.leadsIndexed = true)
    (hy : Built (.expression true) y) (hterm : y.isTerm = true) :
    Built .fieldType (.binary p x (.token (.op .Or)) y) ∧
      (Tree.binary p x (.token (.op .Or)) y).leadsIndexed = true :=
  ⟨.openUnion hx.1 hx.2 hy hterm, by simp [leadsIndexed, hx.2, hterm]⟩

-- An entry that begins with a name, which was read up to `d`. Only a type that begins with a star or a
-- parenthesis is read together with the name elsewhere.
structure AfterNameRead (b : Bool) (e : Entry) (c d c' : Cursor) : Prop
    extends EntryRead b e c c' where
  alone : e.type = none → c' = d
  apart : e.name.isSome = true → ∀ t ∈ e.type, t.combinesWithName = true →
    d.current.kind = .op .Mul ∨ d.current.kind = .op .LParen
  leads : e.name = none → ∀ t ∈ e.type, t.leadsIndexed = true ∨ d.current.kind = .op .Period ∨
    d.current.kind = .op .Or

theorem typeStart_of_combinesWithName {b : Bool} (hbuilt : Built (.expression b) t)
    (hbinary : t.is .BinaryExpr = false) (h : t.combinesWithName = true) :
    t.typeStart = .op .Mul ∨ t.typeStart = .op .LParen := by
  cases hbuilt with
  | star => exact Or.inl rfl
  | paren => exact Or.inr rfl
  | binary => cases hbinary
  | _ => cases h

-- An entry with a name, whose type was read in part.
theorem AfterNameRead.named {b : Bool} {p typ : Tree} {x : Text} {e : Entry} {f : Cursor}
    (hg : g.Sound) (hs : -1 ≤ s.level) (hx : (⟨.ident, x⟩ : Lexeme).Whole)
    (hname : Spans c (write x) 0 True d) (htyp : TermRead typ d f)
    (htype : typ.isType = true ∨ b = true)
    (hstart : typ.combinesWithName = true →
      d.current.kind = .op .Mul ∨ d.current.kind = .op .LParen)
    (h : (g.completed b ⟨some (.ident p (.text x)), some typ⟩).Gives s f e c') :
    AfterNameRead b e c d c' := by
  obtain ⟨t, rfl, hread, ht⟩ := hg.completed
    (I := fun t => UnionBuilt t ∧ (t.combinesWithName = true → typ.combinesWithName = true)) hs
    (fun hx hy hterm hbinary => ⟨hx.1.binary hy hterm hbinary, fun h => hx.2 (by
      simp only [combinesWithName, Bool.and_eq_true] at h
      exact h.1)⟩)
    ⟨.of_term htyp, id⟩ htyp.read h
  refine ⟨⟨.both (.name hx) (.fieldType ?_) ?_, ?_⟩, by simp, ?_, by simp⟩
  · rcases ht with rfl | ⟨-, ht, -⟩
    · exact htyp.built
    · exact ht.built
  · rcases ht with rfl | ⟨rfl, ht, -⟩
    · have hunion := (UnionBuilt.of_term htyp).isUnion
      rcases htype with htype | rfl
      · simp [fitsNamed, htype]
      · simp [fitsNamed, hunion]
    · simp [fitsNamed, ht.isUnion]
  · exact ((hname.append (Spans.blank hname.valid)).append hread).imp (by simp [Entry.loops, ofOption])
      fun h => h.2.1
  · rintro - u ⟨⟩ hcombines
    rcases ht with rfl | ⟨-, -, ht⟩
    · exact hstart hcombines
    · exact hstart (ht hcombines)

-- An entry with a name and a type.
theorem AfterNameRead.typed {b : Bool} {p typ : Tree} {x : Text} {e : Entry} {f : Cursor}
    (hg : g.Sound) (hs : -1 ≤ s.level) (hx : (⟨.ident, x⟩ : Lexeme).Whole)
    (hname : Spans c (write x) 0 True d) (htyp : TypeRead typ d f)
    (h : (g.completed b ⟨some (.ident p (.text x)), some typ⟩).Gives s f e c') :
    AfterNameRead b e c d c' := by
  refine .named hg hs hx hname (.of_type htyp) (Or.inl htyp.isType) (fun hcombines => ?_) h
  rw [htyp.start]
  exact typeStart_of_combinesWithName (htyp.built true) (is_binary_of_isType htyp.isType) hcombines

-- An entry without a name.
theorem EntryRead.unnamed {b : Bool} {typ : Tree} {e : Entry} (hg : g.Sound) (hs : -1 ≤ s.level)
    (htyp : TermRead typ c d) (htype : typ.isType = true ∨ b = true)
    (h : (g.completed b ⟨none, some typ⟩).Gives s d e c') :
    EntryRead b e c c' ∧ e.name = none ∧ e.type ≠ none := by
  obtain ⟨t, rfl, hread, ht⟩ := hg.completed (I := UnionBuilt) hs UnionBuilt.binary
    (.of_term htyp) htyp.read h
  refine ⟨⟨.type (.fieldType ?_) ?_, hread.plain⟩, rfl, by simp⟩
  · rcases ht with rfl | ⟨-, ht⟩
    · exact htyp.built
    · exact ht.built
  · rcases ht with rfl | ⟨rfl, ht⟩
    · have hunion := (UnionBuilt.of_term htyp).isUnion
      rcases htype with htype | rfl
      · simp [fitsUnnamed, htype]
      · simp [fitsUnnamed, hunion]
    · simp [fitsUnnamed, ht.isUnion]

theorem leadsIndexed_of_isIndexed (h : t.isIndexed = true) : t.leadsIndexed = true := by
  unfold leadsIndexed
  split
  · cases h
  · exact h

theorem AfterNameRead.indexed {b : Bool} {typ : Tree} {e : Entry} {f : Cursor} (hg : g.Sound)
    (hs : -1 ≤ s.level) (htyp : IndexRead typ c f)
    (h : (g.completed b ⟨none, some typ⟩).Gives s f e c') : AfterNameRead b e c d c' := by
  obtain ⟨t, rfl, hread, ht⟩ := hg.completed
    (I := fun t => Built .fieldType t ∧ t.leadsIndexed = true) hs
    (fun hx hy hterm _ => openUnion hx hy hterm)
    ⟨htyp.built, leadsIndexed_of_isIndexed htyp.isIndexed⟩ htyp.read h
  refine ⟨⟨.type ?_ ?_, hread.plain⟩, by simp, by simp, ?_⟩
  · rcases ht with rfl | ⟨-, ht⟩
    · exact htyp.built
    · exact ht.1
  · rcases ht with rfl | ⟨rfl, ht⟩
    · simp [fitsUnnamed, htyp.isIndexed]
    · simp [fitsUnnamed, ht.2]
  · rintro - u ⟨⟩
    rcases ht with rfl | ⟨-, ht⟩
    · exact Or.inl (leadsIndexed_of_isIndexed htyp.isIndexed)
    · exact Or.inl ht.2

-- The type of the last parameter of a variadic function.
theorem Sound.variadicType (hg : g.Sound) (hs : -1 ≤ s.level) (hc : c.Valid)
    (h : g.variadicType.Gives s c t c') :
    (∃ p elt, t = .ellipsis p elt) ∧ Built .fieldType t ∧ t.ReadAs .expression c True c' := by
  obtain ⟨hdots, elt, helt, rfl⟩ := by simpa [Grammar.variadicType] using h
  have hdots' := Spans.operator hc hdots
  have helt' := hg.type hs hdots'.valid helt
  refine ⟨⟨_, _, rfl⟩, .variadic (helt'.built true) helt'.isType, ?_⟩
  rw [ReadAs, emitted_ellipsis, emittedIf, (helt'.built true).isAbsent]
  refine (hdots'.append helt'.read).imp ((loops_of rfl).trans (by simp [loopsAll]))
    fun h => ⟨plain_of rfl ?_, trivial⟩
  simp [allPlain, h.2.1]

-- An entry after its name.
theorem Sound.entryAfterName {b : Bool} {p : Tree} {x : Text} {e : Entry} (hg : g.Sound)
    (hs : -1 ≤ s.level) (hx : (⟨.ident, x⟩ : Lexeme).Whole) (hkind : c.current.kind = .ident)
    (hname : Spans c (write x) 0 True d)
    (h : (g.entryAfterName b (.ident p (.text x))).Gives s d e c') : AfterNameRead b e c d c' := by
  have hd := hname.valid
  have halone : AfterNameRead b ⟨some (.ident p (.text x)), none⟩ c d d :=
    ⟨⟨.name (.name hx), hname.imp rfl fun _ => rfl⟩, fun _ => rfl, by simp, by simp⟩
  simp only [Grammar.entryAfterName, gives_peek_bind, gives_ite] at h
  rcases h with ⟨-, h⟩ | ⟨-, h⟩
  · obtain ⟨typ, f, htyp, h⟩ := gives_bind.mp h
    exact .typed hg hs hx hname (hg.type hs hd htyp) h
  · split at h
    · obtain ⟨r, f, hr, h⟩ := gives_bind.mp h
      rcases hg.arrayOrInstance hs hx hname hr with ⟨typ, rfl, htyp⟩ | ⟨typ, rfl, htyp⟩
      · exact .typed hg hs hx hname htyp h
      · exact .indexed hg hs htyp h
    · obtain ⟨typ, f, htyp, h⟩ := gives_bind.mp h
      obtain ⟨rfl, rfl⟩ := gives_pure.mp h
      obtain ⟨⟨q, elt, rfl⟩, hbuilt, hread⟩ := hg.variadicType hs hd htyp
      refine ⟨⟨.both (.name hx) hbuilt rfl, ?_⟩, by simp, ?_, by simp⟩
      · exact ((hname.append (Spans.blank hd)).append hread).imp
          (by simp [Entry.loops, ofOption]) fun h => h.2.1
      · rintro - u ⟨⟩ ⟨⟩
    · rename_i hpoint
      obtain ⟨typ, f, htyp, h⟩ := gives_bind.mp h
      obtain ⟨htyp', -⟩ := hg.namedType hs hx hkind hname htyp
      obtain ⟨hread, hnone, hne⟩ := EntryRead.unnamed hg hs (.of_type htyp') (Or.inl htyp'.isType) h
      exact ⟨hread, fun h => absurd h hne, by simp [hnone], fun _ _ _ => Or.inr (Or.inl hpoint)⟩
    · rename_i htilde
      rcases gives_ite.mp h with ⟨hb, h⟩ | ⟨-, h⟩
      · obtain ⟨typ, f, htyp, h⟩ := gives_bind.mp h
        refine .named hg hs hx hname (hg.constraintTerm hs hd htyp) (Or.inr hb) ?_ h
        obtain ⟨y, -, rfl⟩ := by simpa [Grammar.constraintTerm, htilde] using htyp
        simp [combinesWithName]
      · obtain ⟨rfl, rfl⟩ := gives_pure.mp h
        exact halone
    · rename_i hor
      rcases gives_ite.mp h with ⟨hb, h⟩ | ⟨-, h⟩
      · obtain ⟨hread, hnone, hne⟩ := EntryRead.unnamed hg hs ⟨.ident hx, rfl, rfl,
          hname.imp rfl fun _ => ⟨rfl, trivial⟩⟩ (Or.inr hb) h
        exact ⟨hread, fun h => absurd h hne, by simp [hnone], fun _ _ _ => Or.inr (Or.inr hor)⟩
      · obtain ⟨rfl, rfl⟩ := gives_pure.mp h
        exact halone
    · obtain ⟨rfl, rfl⟩ := gives_pure.mp h
      exact halone

-- One entry of a list.
theorem Sound.entry {b : Bool} {e : Entry} (hg : g.Sound) (hs : -1 ≤ s.level) (hc : c.Valid)
    (h : (g.entry b).Gives s c e c') : EntryRead b e c c' := by
  simp only [Grammar.entry, gives_peek_bind] at h
  split at h
  · obtain ⟨name, d, hname, h⟩ := gives_bind.mp h
    obtain ⟨p, x, rfl, hx, hkind, -, hspans⟩ := ident_sound hc hname
    exact (hg.entryAfterName hs hx hkind hspans h).toEntryRead
  · obtain ⟨typ, d, htyp, h⟩ := gives_bind.mp h
    obtain ⟨rfl, rfl⟩ := gives_pure.mp h
    obtain ⟨⟨p, elt, rfl⟩, hbuilt, hread⟩ := hg.variadicType hs hc htyp
    exact ⟨.type hbuilt rfl, hread.plain⟩
  · cases b with
    | true =>
        obtain ⟨typ, d, htyp, h⟩ := gives_bind.mp h
        exact (EntryRead.unnamed hg hs (hg.constraintTerm hs hc htyp) (Or.inr rfl) h).1
    | false =>
        obtain ⟨typ, d, htyp, h⟩ := gives_bind.mp h
        have htyp' := hg.type hs hc htyp
        exact (EntryRead.unnamed hg hs (.of_type htyp') (Or.inl htyp'.isType) h).1
  · obtain ⟨typ, d, htyp, h⟩ := gives_bind.mp h
    have htyp' := hg.type hs hc htyp
    exact (EntryRead.unnamed hg hs (.of_type htyp') (Or.inl htyp'.isType) h).1

-- Entries that are put together to fields with names. Names without a type wait for the next type.
inductive Gathers : List Tree → List Entry → List Tree → Prop
  | nil : Gathers [] [] []
  | name {names : List Tree} {n : Tree} {rest : List Entry} {fields : List Tree}
      (h : Gathers (names ++ [n]) rest fields) : Gathers names (⟨some n, none⟩ :: rest) fields
  | both {names : List Tree} {n t : Tree} {rest : List Entry} {fields : List Tree}
      (h : Gathers [] rest fields) :
      Gathers names (⟨some n, some t⟩ :: rest) (namedField (names ++ [n]) t :: fields)

theorem gathers_of_namedFields {names fields : List Tree} {entries : List Entry}
    (h : namedFields names entries = .ok fields) : Gathers names entries fields := by
  induction entries generalizing names fields with
  | nil =>
      cases names with
      | nil =>
          obtain rfl := Except.ok.inj h
          exact .nil
      | cons n names => cases h
  | cons e rest ih =>
      match e, h with
      | ⟨none, _⟩, h => cases names <;> cases h
      | ⟨some n, none⟩, h => exact .name (ih (by cases names <;> exact h))
      | ⟨some n, some t⟩, h =>
          have hbind : (namedFields [] rest >>= fun fields =>
              pure (namedField (names ++ [n]) t :: fields)) = .ok fields := by
            cases names <;> exact h
          cases hrest : namedFields [] rest with
          | error cause =>
              rw [hrest] at hbind
              cases hbind
          | ok others =>
              rw [hrest] at hbind
              obtain rfl := Except.ok.inj hbind
              exact .both (ih hrest)

theorem namedFields_of_gathers {names fields : List Tree} {entries : List Entry}
    (h : Gathers names entries fields) : namedFields names entries = .ok fields := by
  induction h with
  | nil => rfl
  | @name names _ _ _ _ ih =>
      rw [← ih]
      cases names <;> rfl
  | @both names n t rest fields _ ih =>
      have hbind : namedFields names (⟨some n, some t⟩ :: rest) = (namedFields [] rest >>=
          fun fields => pure (namedField (names ++ [n]) t :: fields)) := by
        cases names <;> rfl
      rw [hbind, ih]
      rfl

namespace Gathers

variable {names fields : List Tree} {entries : List Entry}

theorem eq_nil_iff (h : Gathers [] entries fields) : fields = [] ↔ entries = [] := by
  have main : ∀ {names fields : List Tree} {entries : List Entry},
      Gathers names entries fields → fields = [] → names = [] ∧ entries = [] := by
    intro names fields entries h hfields
    induction h with
    | nil => exact ⟨rfl, rfl⟩
    | name _ ih => exact absurd (ih hfields).1 (by simp)
    | both => cases hfields
  refine ⟨fun hfields => (main h hfields).2, ?_⟩
  rintro rfl
  cases h
  rfl

theorem emitted (h : Gathers names entries fields) :
    emittedFields "," fields =
      separated "," (names.map Rule.nameOf ++ entries.map Entry.emitted) := by
  induction h with
  | nil => rfl
  | name _ ih => simpa [Entry.emitted] using ih
  | @both names n t rest fields h ih =>
      have hfield : (namedField (names ++ [n]) t).emittedAs .field =
          separated "," (names.map Rule.nameOf ++
            [Rule.nameOf n ++ blank ++ t.emittedAs .expression]) := by
        rw [separated_append_right, separated_append_right, namedField, emitted_field]
        simp [emittedNames, emittedIf, when, isAbsent]
      cases rest with
      | nil =>
          obtain rfl := h.eq_nil_iff.mpr rfl
          simpa [emittedFields, separated, Entry.emitted] using hfield
      | cons e rest =>
          have hne : fields ≠ [] := fun hnil => by simpa using h.eq_nil_iff.mp hnil
          have hsplit : emittedFields "," (namedField (names ++ [n]) t :: fields) =
              (namedField (names ++ [n]) t).emittedAs .field ++
                (write "," ++ emittedFields "," fields) :=
            separated_cons "," _ (by simpa using hne)
          rw [hsplit, ih, hfield, ← separated_append "," (by simp) (by simp)]
          simp [Entry.emitted]

theorem loops_names (hnames : ∀ n ∈ names, Built .name n) : (Tree.tuple names).loops = 0 := by
  induction names with
  | nil => rfl
  | cons n names ih =>
      obtain ⟨hn, hrest⟩ := List.forall_mem_cons.mp hnames
      cases hn with
      | name => rw [loops_tuple, List.map_cons, List.sum_cons, ← loops_tuple, ih hrest, loops_ident]

theorem plain_names (hnames : ∀ n ∈ names, Built .name n) : (Tree.tuple names).plain = true := by
  rw [plain_tuple]
  intro n hn
  cases hnames n hn with
  | name => rfl

theorem forall_mem_snoc {P : Tree → Prop} {n : Tree} (hn : P n) (hnames : ∀ n ∈ names, P n) :
    ∀ m ∈ names ++ [n], P m := by
  simpa [or_imp, forall_and] using ⟨hnames, hn⟩

theorem loops (h : Gathers names entries fields) (hnames : ∀ n ∈ names, Built .name n)
    (hentries : ∀ e ∈ entries, ∀ n ∈ e.name, Built .name n) :
    (Tree.tuple fields).loops = (entries.map Entry.loops).sum := by
  induction h with
  | nil => rfl
  | name _ ih =>
      obtain ⟨hn, hrest⟩ := List.forall_mem_cons.mp hentries
      rw [ih (forall_mem_snoc (hn _ rfl) hnames) hrest]
      simp [Entry.loops, ofOption]
  | @both names n t rest fields _ ih =>
      obtain ⟨hn, hrest⟩ := List.forall_mem_cons.mp hentries
      have hfield : (namedField (names ++ [n]) t).loops = t.loops := by
        rw [namedField, loops_of rfl]
        simp [loopsAll, loops_names (forall_mem_snoc (hn _ rfl) hnames)]
      have ih := ih (by simp) hrest
      rw [loops_tuple] at ih ⊢
      simp [hfield, ih, Entry.loops, ofOption]

theorem plain (h : Gathers names entries fields) (hnames : ∀ n ∈ names, Built .name n)
    (hentries : ∀ e ∈ entries, ∀ n ∈ e.name, Built .name n)
    (hplain : ∀ e ∈ entries, e.plain = true) : (Tree.tuple fields).plain = true := by
  induction h with
  | nil => rfl
  | name _ ih =>
      obtain ⟨hn, hrest⟩ := List.forall_mem_cons.mp hentries
      exact ih (forall_mem_snoc (hn _ rfl) hnames) hrest (List.forall_mem_cons.mp hplain).2
  | @both names n t rest fields _ ih =>
      obtain ⟨hn, hrest⟩ := List.forall_mem_cons.mp hentries
      obtain ⟨ht, hplain⟩ := List.forall_mem_cons.mp hplain
      have hfields := ih (by simp) hrest hplain
      rw [plain_tuple] at hfields ⊢
      refine List.forall_mem_cons.mpr ⟨plain_of rfl ?_, hfields⟩
      have ht' : t.plain = true := ht
      simp [allPlain, plain_names (forall_mem_snoc (hn _ rfl) hnames), ht']

theorem built {b : Bool} (h : Gathers names entries fields) (hnames : ∀ n ∈ names, Built .name n)
    (hentries : ∀ e ∈ entries, EntryBuilt b e) : ∀ t ∈ fields, Built (.named b) t := by
  induction h with
  | nil => simp
  | name _ ih =>
      obtain ⟨hn, hrest⟩ := List.forall_mem_cons.mp hentries
      cases hn with
      | name hn => exact ih (forall_mem_snoc hn hnames) hrest
  | both _ ih =>
      obtain ⟨hn, hrest⟩ := List.forall_mem_cons.mp hentries
      cases hn with
      | both hn ht hfits =>
          refine List.forall_mem_cons.mpr ⟨?_, ih (by simp) hrest⟩
          exact .namedField (by simp) (forall_mem_snoc hn hnames) ht hfits

end Gathers

theorem EntryBuilt.names {b : Bool} {e : Entry} (h : EntryBuilt b e) :
    ∀ n ∈ e.name, Built .name n := by
  cases h with
  | name h =>
      rintro n ⟨⟩
      exact h
  | type => simp
  | both hn =>
      rintro n ⟨⟩
      exact hn

-- The field of an entry without a name, or with a name that stands for a type.
theorem unnamedFields_cons {b : Bool} {e : Entry} (rest : List Entry) (h : EntryBuilt b e)
    (hcomplete : e.isComplete = false) :
    ∃ t, unnamedFields (e :: rest) = .field t.placeOf (.tuple []) t .absent :: unnamedFields rest ∧
      Built .fieldType t ∧ t.fitsUnnamed b = true ∧ e.emitted = t.emittedAs .expression ∧
      e.loops = t.loops ∧ (e.plain = true → t.plain = true) := by
  cases h with
  | name h =>
      cases h with
      | name h => exact ⟨_, rfl, .fieldType (.ident h), rfl, rfl, rfl, fun _ => rfl⟩
  | type h hfits => exact ⟨_, rfl, h, hfits, rfl, rfl, fun h => h⟩
  | both => cases hcomplete

theorem unnamedFields_spec {b : Bool} {entries : List Entry}
    (hentries : ∀ e ∈ entries, EntryBuilt b e) (hnone : entries.any Entry.isComplete = false) :
    (∀ t ∈ unnamedFields entries, Built (.unnamed b) t) ∧
      emittedFields "," (unnamedFields entries) = separated "," (entries.map Entry.emitted) ∧
      (Tree.tuple (unnamedFields entries)).loops = (entries.map Entry.loops).sum ∧
      ((∀ e ∈ entries, e.plain = true) → (Tree.tuple (unnamedFields entries)).plain = true) := by
  induction entries with
  | nil => exact ⟨by simp [unnamedFields], rfl, rfl, fun _ => rfl⟩
  | cons e rest ih =>
      obtain ⟨he, hrest⟩ := List.forall_mem_cons.mp hentries
      rw [List.any_cons, Bool.or_eq_false_iff] at hnone
      obtain ⟨hbuilt, hemitted, hloops, hplain⟩ := ih hrest hnone.2
      obtain ⟨t, ht, htbuilt, hfits, htemitted, htloops, htplain⟩ :=
        unnamedFields_cons rest he hnone.1
      have hfield : (Tree.field t.placeOf (.tuple []) t .absent).emittedAs .field = e.emitted := by
        rw [emitted_field, htemitted]
        simp [emittedIf, when, isAbsent]
      rw [ht]
      refine ⟨List.forall_mem_cons.mpr ⟨.unnamedField htbuilt hfits, hbuilt⟩, ?_, ?_, ?_⟩
      · cases rest with
        | nil =>
            simp only [emittedFields, unnamedFields, List.filterMap_nil, List.map_cons,
              List.map_nil, hfield]
        | cons f rest =>
            have hne : unnamedFields (f :: rest) ≠ [] := by
              obtain ⟨hf, -⟩ := List.forall_mem_cons.mp hrest
              rw [List.any_cons, Bool.or_eq_false_iff] at hnone
              obtain ⟨u, hu, -⟩ := unnamedFields_cons rest hf hnone.2.1
              simp [hu]
            have hsplit : emittedFields "," (.field t.placeOf (.tuple []) t .absent ::
                unnamedFields (f :: rest)) = e.emitted ++
                  (write "," ++ emittedFields "," (unnamedFields (f :: rest))) := by
              rw [← hfield]
              exact separated_cons "," _ (by simpa using hne)
            rw [hsplit, hemitted]
            rfl
      · rw [loops_tuple] at hloops ⊢
        rw [List.map_cons, List.sum_cons, hloops, loops_of rfl, List.map_cons, List.sum_cons,
          htloops]
        simp [loopsAll, loops_tuple]
      · intro h
        obtain ⟨he, hrest⟩ := List.forall_mem_cons.mp h
        have hfields := hplain hrest
        rw [plain_tuple] at hfields ⊢
        refine List.forall_mem_cons.mpr ⟨plain_of rfl ?_, hfields⟩
        simp [allPlain, htplain he, plain_tuple]

-- The fields of a list are written as its entries.
theorem fieldsOf_spec {b : Bool} {entries : List Entry} {fields : List Tree}
    (hentries : ∀ e ∈ entries, EntryBuilt b e) (h : fieldsOf entries = .ok fields) :
    ((∀ t ∈ fields, Built (.unnamed b) t) ∨ ∀ t ∈ fields, Built (.named b) t) ∧
      emittedFields "," fields = separated "," (entries.map Entry.emitted) ∧
      (Tree.tuple fields).loops = (entries.map Entry.loops).sum ∧
      ((∀ e ∈ entries, e.plain = true) → (Tree.tuple fields).plain = true) := by
  unfold fieldsOf at h
  split at h
  · have hg := gathers_of_namedFields h
    have hnames := fun e he => (hentries e he).names
    exact ⟨Or.inr (hg.built (by simp) hentries), hg.emitted, hg.loops (by simp) hnames,
      hg.plain (by simp) hnames⟩
  · rename_i hnone
    obtain rfl := Except.ok.inj h
    obtain ⟨hbuilt, hrest⟩ := unnamedFields_spec hentries (by simpa using hnone)
    exact ⟨Or.inl hbuilt, hrest⟩

theorem eq_nil_of_fieldsOf {b : Bool} {entries : List Entry}
    (hentries : ∀ e ∈ entries, EntryBuilt b e) (h : fieldsOf entries = .ok []) : entries = [] := by
  unfold fieldsOf at h
  split at h
  · exact (gathers_of_namedFields h).eq_nil_iff.mp rfl
  · rename_i hnone
    cases entries with
    | nil => rfl
    | cons e rest =>
        simp only [List.any_cons, Bool.or_eq_true, not_or, Bool.not_eq_true] at hnone
        obtain ⟨t, ht, -⟩ := unnamedFields_cons rest (hentries e (by simp)) hnone.1
        rw [ht] at h
        cases h

-- A list of parameters without its brackets.
structure FieldsRead (b : Bool) (fields : List Tree) (c c' : Cursor) : Prop where
  built : (∀ t ∈ fields, Built (.unnamed b) t) ∨ ∀ t ∈ fields, Built (.named b) t
  read : Spans c (emittedFields "," fields) (Tree.tuple fields).loops
    ((Tree.tuple fields).plain = true) c'

theorem FieldsRead.parameters {b : Bool} {p : Tree} {fields : List Tree}
    (h : FieldsRead b fields c c') : Built (.parameters b) (.fieldList p (.tuple fields)) := by
  rcases h.built with h | h
  · exact .unnamedList h
  · exact .namedList h

theorem Sound.fields {b : Bool} {closing : TokenKind} {p : Tree} {entries : List Entry}
    (hg : g.Sound) (hs : -1 ≤ s.level) (hc : c.Valid)
    (hentries : (itemsUntil closing (g.entry b)).Gives s c entries d)
    (h : (listOf p entries).Gives s d t c') :
    ∃ fields, t = .fieldList p (.tuple fields) ∧ (fields = [] → entries = []) ∧ c' = d ∧
      FieldsRead b fields c c' := by
  obtain ⟨hread, hbuilt⟩ := Spans.listed (P := fun e => e.plain = true)
    (fun hc h => ⟨(hg.entry hs hc h).read, (hg.entry hs hc h).built⟩) hc
    (listed_of_itemsUntil hentries)
  unfold listOf at h
  split at h
  · rename_i fields hfields
    obtain ⟨rfl, rfl⟩ := gives_pure.mp h
    obtain ⟨hall, hemitted, hloops, hplain⟩ := fieldsOf_spec hbuilt hfields
    refine ⟨fields, rfl, ?_, rfl, hall, ?_⟩
    · rintro rfl
      exact eq_nil_of_fieldsOf hbuilt hfields
    rw [hemitted]
    exact hread.imp hloops hplain
  · exact absurd h gives_refuse

-- A list of parameters in parentheses.
structure ParametersRead (t : Tree) (c c' : Cursor) : Prop where
  fields : ∃ p fields d e, t = .fieldList p (.tuple fields) ∧ c.current.kind = .op .LParen ∧
    d = c.advance ∧ FieldsRead false fields d e ∧ e.current.kind = .op .RParen ∧ c' = e.advance

theorem Sound.parameters (hg : g.Sound) (hs : -1 ≤ s.level) (hc : c.Valid)
    (h : g.parameters.Gives s c t c') : ParametersRead t c c' := by
  simp only [Grammar.parameters, gives_expect_bind] at h
  obtain ⟨hopen, h⟩ := h
  obtain ⟨entries, d, hentries, h⟩ := gives_bind.mp h
  obtain ⟨list, e, hlist, h⟩ := gives_bind.mp h
  obtain ⟨⟨hclose, rfl⟩, rfl⟩ := by simpa using h
  obtain ⟨fields, rfl, -, rfl, hread⟩ :=
    hg.fields hs (hc.advance (by simp [hopen])) hentries hlist
  exact ⟨_, fields, _, _, rfl, hopen, rfl, hread, hclose, rfl⟩

theorem ParametersRead.built (h : ParametersRead t c c') : Built (.parameters false) t := by
  obtain ⟨p, fields, d, e, rfl, -, -, hread, -⟩ := h.fields
  exact hread.parameters

theorem ParametersRead.read (hc : c.Valid) (h : ParametersRead t c c') :
    Spans c (operator .LParen ++ t.emittedAs (.fieldList ",") ++ operator .RParen) t.loops
      (t.plain = true) c' := by
  obtain ⟨p, fields, _, e, rfl, hopen, rfl, hread, hclose, rfl⟩ := h.fields
  rw [emitted_fieldList]
  refine (((Spans.operator hc hopen).append hread.read).append
    (Spans.operator hread.read.valid hclose)).imp ((loops_of rfl).trans (by simp [loopsAll]))
    fun h => plain_of rfl ?_
  simp [allPlain, h.1.2]

-- The results of a function, and what is known of a function type with them.
structure ResultsRead (o : Option Tree) (c c' : Cursor) : Prop where
  built : ∀ t ∈ o, Built (.parameters false) t
  read : Spans c ((ofOption o).emittedIf ((ofOption o).emittedAs .results)) (ofOption o).loops
    ((ofOption o).plain = true ∧ ∀ p params typeParams funcKeyword,
      isPlainNode .FuncType [params, ofOption o, typeParams, funcKeyword] = true ∧
        (Tree.funcType p params (ofOption o) typeParams funcKeyword).absorbs c'.current.kind =
          false) c'

theorem built_field {b : Bool} {fields : List Tree} (h : FieldsRead b fields c c') :
    ∀ t ∈ fields, ∃ q names typ, t = .field q (.tuple names) typ .absent := by
  intro t ht
  rcases h.built with h | h
  · cases h t ht with
    | unnamedField => exact ⟨_, _, _, rfl⟩
  · cases h t ht with
    | namedField => exact ⟨_, _, _, rfl⟩

theorem ParametersRead.results (hc : c.Valid) (h : ParametersRead t c c') :
    ResultsRead (some t) c c' := by
  refine ⟨by rintro u ⟨⟩; exact h.built, ?_⟩
  obtain ⟨p, fields, _, e, rfl, hopen, rfl, hread, hclose, rfl⟩ := h.fields
  have hopen' := hc.advance (by simp [hopen])
  change Spans c ((Tree.fieldList p (.tuple fields)).emittedAs .results) _ _ _
  by_cases hlone : ∃ q typ, fields = [.field q (.tuple []) typ .absent]
  · -- The parentheses around a single type are not written.
    obtain ⟨q, typ, rfl⟩ := hlone
    have hfield : emittedFields "," [.field q (.tuple []) typ .absent] =
        typ.emittedAs .expression := by
      change Tree.emittedAs _ .field = _
      rw [emitted_field]
      simp [emittedIf, when, isAbsent]
    have hread' := hread.read
    rw [hfield] at hread'
    rw [emitted_lone]
    have hall := ((Spans.dropped hc hopen rfl).append hread').append
      (Spans.dropped hread'.valid hclose rfl)
    rw [nothing_append, append_nothing] at hall
    refine hall.imp ((loops_of rfl).trans (by simp [loopsAll])) fun h => ?_
    exact absurd h.1.1 (by decide)
  · have hnone : (Tree.fieldList p (.tuple fields)).lone? = none := by
      unfold lone?
      split
      · rename_i heq
        simp only [node.injEq, List.cons.injEq, tuple.injEq] at heq
        obtain ⟨-, -, rfl, -⟩ := heq
        obtain ⟨q, names, typ, hfield⟩ := built_field hread _ (List.mem_singleton.mpr rfl)
        simp only [node.injEq, List.cons.injEq, tuple.injEq] at hfield
        obtain ⟨-, rfl, -, rfl, rfl, -⟩ := hfield
        exact absurd ⟨_, _, rfl⟩ hlone
      · rfl
    rw [emitted_results p fields
      (fun q typ tag heq => by rw [heq] at hnone; cases hnone)
      (fun t ht => by
        obtain ⟨q, names, typ, rfl⟩ := built_field hread t ht
        exact ⟨q, names, typ, _, rfl⟩)]
    refine (((Spans.operator hc hopen).append hread.read).append
      (Spans.operator hread.read.valid hclose)).imp ((loops_of rfl).trans (by simp [loopsAll]))
      fun h => ⟨plain_of rfl (by simp [allPlain, h.1.2]), fun q params typeParams funcKeyword => ?_⟩
    refine ⟨?_, absorbs_funcType hnone rfl _ _ _ _ _⟩
    change Option.all _ (Tree.fieldList p (.tuple fields)).lone? = true
    rw [hnone]
    rfl

theorem typeStart_of_is_paren (htype : t.isType = true) (h : t.is .ParenExpr = true) :
    t.typeStart = .op .LParen := by
  unfold isType at htype
  split at htype
  all_goals first | rfl | cases h | skip
  · rename_i k _ _ _ _ _ _ _
    cases k <;> first | (cases htype; done) | cases h
  · cases htype

-- The results of a function: a list in parentheses, one type, or nothing.
theorem Sound.results {o : Option Tree} (hg : g.Sound) (hs : -1 ≤ s.level) (hc : c.Valid)
    (h : g.results.Gives s c o c') : ResultsRead o c c' := by
  simp only [Grammar.results, gives_peek_bind, gives_ite] at h
  rcases h with ⟨-, h⟩ | ⟨hparen, h⟩
  · obtain ⟨t, ht, rfl⟩ := gives_map.mp h
    exact (hg.parameters hs hc ht).results hc
  · obtain ⟨r, d, hr, h⟩ := gives_bind.mp h
    cases hg.type? hs hc hr with
    | none hkind =>
        obtain ⟨rfl, rfl⟩ := gives_pure.mp h
        refine ⟨by simp, (Spans.nothing hc).imp rfl fun _ => ⟨rfl, fun _ _ _ _ => ⟨rfl, hkind⟩⟩⟩
    | @some t _ ht =>
        obtain ⟨rfl, rfl⟩ := gives_pure.mp h
        have hnot : t.is .ParenExpr = false := by
          cases h : t.is .ParenExpr with
          | false => rfl
          | true => exact absurd (ht.start.trans (typeStart_of_is_paren ht.isType h)) hparen
        refine ⟨?_, ?_⟩
        · rintro u ⟨⟩
          exact .unnamedList fun u hu => by
            rw [List.mem_singleton.mp hu]
            exact .unnamedField (.fieldType (ht.built true)) (by simp [fitsUnnamed, ht.isType])
        · refine ht.read.imp ?_ fun h => ⟨?_, fun _ _ _ _ => ⟨?_, h.2⟩⟩
          · simp [ofOption, loops, loopsAll, opensLoop]
          · exact plain_of rfl (by simp [allPlain, plain_tuple, plain_of (k := .Field) rfl, h.1])
          · change (t.isType && !t.is .ParenExpr) = true
            simp [ht.isType, hnot]

-- Parameters and results.
theorem Sound.signature {p : Tree} {funcKeyword : Bool} (hg : g.Sound) (hs : -1 ≤ s.level)
    (hc : c.Valid) (h : (g.signature p funcKeyword).Gives s c t c') :
    ∃ params results, t = .funcType p params (.ofOption results) .absent (.flag funcKeyword) ∧
      Built (.parameters false) params ∧ (∀ u ∈ results, Built (.parameters false) u) ∧
      Spans c (emittedSignature params (.ofOption results) .absent) t.loops
        (t.plain = true ∧ t.absorbs c'.current.kind = false) c' := by
  obtain ⟨params, d, hparams, h⟩ := gives_bind.mp h
  obtain ⟨results, e, hresults, h⟩ := gives_bind.mp h
  obtain ⟨rfl, rfl⟩ := gives_pure.mp h
  have hparams' := hg.parameters hs hc hparams
  have hread := hparams'.read hc
  have hresults' := hg.results hs hread.valid hresults
  refine ⟨params, results, rfl, hparams'.built, hresults'.built, ?_⟩
  refine (hread.append hresults'.read).imp ((loops_of rfl).trans (by simp [loopsAll])) fun h => ?_
  obtain ⟨hplain, habsorbs⟩ := h.2.2 p params .absent (.flag funcKeyword)
  exact ⟨plain_of hplain (by simp [allPlain, h.1, h.2.1]), habsorbs⟩

-- A function type after its keyword.
theorem Sound.funcType {p : Tree} (hg : g.Sound) (hs : -1 ≤ s.level) (hc : c.Valid)
    (hkind : c.current.kind = .word .Func) (h : (g.signature p true).Gives s c.advance t c') :
    TypeRead t c c' := by
  have hfunc := Spans.keyword hc hkind
  obtain ⟨params, results, rfl, hparams, hresults, hread⟩ := hg.signature hs hfunc.valid h
  refine ⟨fun b => .funcType hparams hresults, rfl, ?_, hkind⟩
  rw [ReadAs, emitted_funcType]
  exact (hfunc.append hread).imp (by simp) fun h => h.2

end GoCompact.Grammar
