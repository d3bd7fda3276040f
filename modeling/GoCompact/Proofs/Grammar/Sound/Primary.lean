import GoCompact.Proofs.Grammar.Sound.Operand

namespace GoCompact

theorem Built.is_keyValue {b : Bool} {t : Tree} (h : Built (.expression b) t) :
    t.is .KeyValueExpr = false := by
  cases h <;> rfl

namespace Grammar

open GoCompact.Parser GoCompact.Tree Emission

variable {g : Grammar} {s : Scope} {t : Tree} {c d c' : Cursor}

-- A key or a value, and an element of a literal.
structure ElementRead (t : Tree) (c c' : Cursor) : Prop where
  built : Built .element t
  read : t.ReadAs .expression c True c'

theorem Sound.elementPart (hg : g.Sound) (hs : 0 ≤ s.level) (hc : c.Valid)
    (h : g.elementPart.Gives s c t c') : ElementRead t c c' ∧ t.is .KeyValueExpr = false := by
  simp only [Grammar.elementPart, gives_peek_bind, gives_ite] at h
  rcases h with ⟨-, h⟩ | ⟨-, h⟩
  · obtain ⟨hbuilt, hkind, hread⟩ := hg.bareLiteral (by omega) hc h
    exact ⟨⟨hbuilt, hread⟩, hkind⟩
  · have hread := hg.expression (by omega) hc h
    have hbuilt := hread.built
    rw [show s.isFree = true from decide_eq_true hs] at hbuilt
    exact ⟨⟨.element hbuilt, hread.read.imp rfl fun h => ⟨h.1, trivial⟩⟩, hbuilt.is_keyValue⟩

theorem Sound.element (hg : g.Sound) (hs : 0 ≤ s.level) (hc : c.Valid)
    (h : g.element.Gives s c t c') : ElementRead t c c' := by
  obtain ⟨x, d, hx, h⟩ := gives_bind.mp h
  obtain ⟨hx', hxkind⟩ := hg.elementPart hs hc hx
  rcases gives_got_bind.mp h with ⟨hcolon, h⟩ | ⟨-, h⟩
  · obtain ⟨value, hvalue, rfl⟩ := by simpa using h
    have hcolon' := Spans.operator (Spans.valid hx'.read) hcolon
    obtain ⟨hvalue', hvaluekind⟩ := hg.elementPart hs hcolon'.valid hvalue
    refine ⟨.keyValue hx'.built hxkind hvalue'.built hvaluekind, ?_⟩
    rw [ReadAs, emitted_keyValue]
    refine ((hx'.read.append hcolon').append hvalue'.read).imp
      ((loops_of rfl).trans (by simp [loopsAll])) fun h => ⟨plain_of rfl ?_, trivial⟩
    simp [allPlain, h.1.1.1, h.2.1]
  · obtain ⟨rfl, rfl⟩ := by simpa using h
    exact hx'

-- The braces of a literal.
theorem Sound.literalBraces (hg : g.Sound) (hs : -1 ≤ s.level) (hc : c.Valid) {ts : List Tree}
    (hopen : c.current.kind = .op .LBrace)
    (h : (itemsUntil (.op .RBrace) g.element).Gives s.bracketed c.advance ts d)
    (hclose : d.current.kind = .op .RBrace) :
    (∀ t ∈ ts, Built .element t) ∧
      Spans c (operator .LBrace ++ emittedList ts ++ operator .RBrace) (Tree.tuple ts).loops
        ((Tree.tuple ts).plain = true) d.advance ∧
      d.advance.upcoming.length < c.upcoming.length := by
  have hopen' := Spans.operator hc hopen
  have hless := hc.advance_lt (by simp [hopen])
  obtain ⟨hlist, hbuilt⟩ := listRead_of_listed (Q := Built .element)
    (fun hc h => ⟨(hg.element (Scope.level_bracketed hs) hc h).read.plain,
      (hg.element (Scope.level_bracketed hs) hc h).built⟩) hopen'.valid (listed_of_itemsUntil h)
  have hclose' := Spans.operator (Spans.valid hlist) hclose
  have hprogress := Spans.progress hlist
  have hprogress' := hclose'.progress
  exact ⟨hbuilt, ((hopen'.append hlist).append hclose').imp (by simp) fun h => h.1.2, by omega⟩

theorem Sound.bareLiteralValue (hg : g.Sound) (hs : -1 ≤ s.level) (hc : c.Valid)
    (h : (g.literalValue none).Gives s c t c') :
    Built .element t ∧ t.is .KeyValueExpr = false ∧ t.ReadAs .expression c True c' := by
  obtain ⟨hopen, ts, d, hts, ⟨hclose, rfl⟩, rfl⟩ := by simpa [Grammar.literalValue] using h
  obtain ⟨hbuilt, hbraces, -⟩ := hg.literalBraces hs hc hopen hts hclose
  refine ⟨.bareLiteral hbuilt, rfl, ?_⟩
  rw [ReadAs, emitted_compositeLit]
  exact hbraces.imp ((loops_of rfl).trans (by simp [loopsAll])) fun h =>
    ⟨plain_of rfl (by simp [allPlain, h]), trivial⟩

theorem Sound.literalValue {x : Tree} (hg : g.Sound) (hs : -1 ≤ s.level)
    (hx : PrimaryRead s x c d) (hbraces : x.takesBraces s.isFree = true)
    (h : (g.literalValue (some x)).Gives s d t c') :
    PrimaryRead s t c c' ∧ c'.upcoming.length < d.upcoming.length := by
  obtain ⟨hopen, ts, e, hts, ⟨hclose, rfl⟩, rfl⟩ := by simpa [Grammar.literalValue] using h
  obtain ⟨hbuilt, hspans, hless⟩ := hg.literalBraces hs hx.valid hopen hts hclose
  refine ⟨⟨.compositeLit hx.built hbraces hbuilt, ?_, rfl, by simp [Tree.is, kind?], hx.start⟩, hless⟩
  rw [ReadAs, emitted_compositeLit, emittedIf_of hx.built.isAbsent, append_assoc, append_assoc,
    ← append_assoc (operator .LBrace)]
  exact (hx.read.append hspans).imp ((loops_of rfl).trans (by simp [loopsAll])) fun h =>
    ⟨plain_of rfl (by simp [allPlain, h.1.1, h.2]), rfl⟩

-- A bound of a slice, if there is one.
theorem Sound.sliceBound {o : Option Tree} (hg : g.Sound) (hs : -1 ≤ s.level) (hc : c.Valid)
    (h : g.sliceBound.Gives s.bracketed c o c') :
    (∀ t ∈ o, Built (.expression true) t) ∧ MaybeRead .expression o c c' := by
  simp only [Grammar.sliceBound, gives_peek_bind] at h
  split at h
  · obtain ⟨rfl, rfl⟩ := gives_pure.mp h
    exact ⟨by simp, .none _ hc⟩
  · obtain ⟨rfl, rfl⟩ := gives_pure.mp h
    exact ⟨by simp, .none _ hc⟩
  · obtain ⟨rfl, rfl⟩ := gives_pure.mp h
    exact ⟨by simp, .none _ hc⟩
  · obtain ⟨t, ht, rfl⟩ := gives_map.mp h
    obtain ⟨hbuilt, hread⟩ := hg.bracketedExpression hs hc ht
    exact ⟨by rintro u ⟨⟩; exact hbuilt, .some hread hbuilt.isAbsent⟩

-- A bound that may be left out.
def emittedBound (o : Option Tree) : Emission :=
  (ofOption o).emittedIf ((ofOption o).emittedAs .expression)

-- What stands in the brackets after an operand.
inductive BracketsRead (c c' : Cursor) : Brackets → Prop
  | indices {first : Tree} {others : List Tree} (hfirst : Built (.expression true) first)
      (hothers : ∀ t ∈ others, Built (.expression true) t)
      (htypes : ∀ t ∈ others, t.isType = true) (h : ListRead (first :: others) c c') :
      BracketsRead c c' (.indices (first :: others))
  | slice {low high : Option Tree} (hlow : ∀ t ∈ low, Built (.expression true) t)
      (hhigh : ∀ t ∈ high, Built (.expression true) t)
      (h : Spans c (emittedBound low ++ operator .Colon ++ emittedBound high)
        ((ofOption low).loops + (ofOption high).loops)
        ((ofOption low).plain = true ∧ (ofOption high).plain = true) c') :
      BracketsRead c c' (.slice low high)
  | fullSlice {low high max : Option Tree} (hlow : ∀ t ∈ low, Built (.expression true) t)
      (hhigh : ∀ t ∈ high, Built (.expression true) t)
      (hmax : ∀ t ∈ max, Built (.expression true) t)
      (h : Spans c (emittedBound low ++ operator .Colon ++ emittedBound high ++
          (operator .Colon ++ emittedBound max))
        ((ofOption low).loops + (ofOption high).loops + (ofOption max).loops)
        (((ofOption low).plain = true ∧ (ofOption high).plain = true) ∧
          (ofOption max).plain = true) c') :
      BracketsRead c c' (.fullSlice low high max)

theorem Sound.bracketsAfter {low : Option Tree} {r : Brackets} (hg : g.Sound) (hs : -1 ≤ s.level)
    (hlow : ∀ t ∈ low, Built (.expression true) t) (hread : MaybeRead .expression low c d)
    (hcolon : low = none → d.current.kind = .op .Colon)
    (h : (g.bracketsAfter low).Gives s.bracketed d r c') : BracketsRead c c' r := by
  rcases gives_got_bind.mp h with ⟨hkind, h⟩ | ⟨hkind, h⟩
  · have hfirst := hread.append (Spans.operator (Spans.valid hread) hkind)
    obtain ⟨high, e, hhigh, h⟩ := gives_bind.mp (by simpa only [if_true] using h)
    obtain ⟨hhighBuilt, hhighRead⟩ := hg.sliceBound hs hfirst.valid hhigh
    have hslice := (hfirst.append hhighRead).imp
      (m := (ofOption low).loops + (ofOption high).loops) (by simp) fun h => And.intro h.1.1 h.2
    rcases gives_got_bind.mp h with ⟨hkind, h⟩ | ⟨-, h⟩
    · have hsecond := Spans.operator hslice.valid hkind
      obtain ⟨max, f, hmax, h⟩ := gives_bind.mp (by simpa only [if_true] using h)
      obtain ⟨rfl, rfl⟩ := gives_pure.mp h
      obtain ⟨hmaxBuilt, hmaxRead⟩ := hg.sliceBound hs hsecond.valid hmax
      exact .fullSlice hlow hhighBuilt hmaxBuilt
        ((hslice.append (hsecond.append hmaxRead)).imp (by simp) fun h => ⟨h.1, h.2.2⟩)
    · obtain ⟨rfl, rfl⟩ := by simpa using h
      exact .slice hlow hhighBuilt hslice
  · cases low with
    | none => exact absurd (hcolon rfl) hkind
    | some first =>
        have hlevel := Scope.level_bracketed hs
        obtain ⟨others, hothers, rfl⟩ := by simpa using h
        have hfirst := hlow first rfl
        obtain ⟨hlist, hbuilt, htypes⟩ := hg.types (by omega)
          ((maybeRead_some hfirst.isAbsent).mp hread) hothers
        exact .indices hfirst (fun t ht => hbuilt t ht true) htypes hlist

theorem BracketsRead.progress {r : Brackets} (h : BracketsRead c c' r) :
    c'.Valid ∧ c'.upcoming.length ≤ c.upcoming.length := by
  cases h with
  | indices _ _ _ h => exact ⟨Spans.valid h, Spans.progress h⟩
  | slice _ _ h => exact ⟨h.valid, h.progress⟩
  | fullSlice _ _ _ h => exact ⟨h.valid, h.progress⟩

theorem Sound.bracketContents {r : Brackets} (hg : g.Sound) (hs : -1 ≤ s.level) (hc : c.Valid)
    (h : g.bracketContents.Gives s c r c') : BracketsRead c c' r := by
  simp only [Grammar.bracketContents, gives_bracketed, gives_peek_bind, gives_ite] at h
  rcases h with ⟨hcolon, h⟩ | ⟨-, h⟩
  · exact hg.bracketsAfter hs (by simp) (.none _ hc) (fun _ => hcolon) h
  · obtain ⟨first, d, hfirst, h⟩ := gives_bind.mp h
    obtain ⟨hbuilt, hread⟩ := hg.bracketedExpression hs hc hfirst
    exact hg.bracketsAfter hs (by rintro t ⟨⟩; exact hbuilt) (.some hread hbuilt.isAbsent) (by simp) h

-- An index, several type arguments, or a slice.
theorem Sound.indexOrSlice {x : Tree} (hg : g.Sound) (hs : -1 ≤ s.level)
    (hx : PrimaryRead s x c d) (h : (g.indexOrSlice x).Gives s d t c') :
    PrimaryRead s t c c' ∧ c'.upcoming.length < d.upcoming.length := by
  simp only [Grammar.indexOrSlice, discard_bind, gives_expect_bind, gives_peek_bind] at h
  obtain ⟨hopen, h⟩ := h
  rcases gives_ite.mp h with ⟨-, h⟩ | ⟨-, h⟩
  · obtain ⟨_, _, h, -⟩ := gives_bind.mp h
    exact absurd h gives_expected
  obtain ⟨r, e, hr, h⟩ := gives_bind.mp h
  obtain ⟨hclose, h⟩ := gives_expect_bind.mp h
  have hopen' := Spans.operator hx.valid hopen
  have hcontents := hg.bracketContents hs hopen'.valid hr
  have hless : e.advance.upcoming.length < d.upcoming.length := by
    have hless := hx.valid.advance_lt (by simp [hopen])
    obtain ⟨hvalid, hprogress⟩ := hcontents.progress
    have hprogress' := (Spans.operator hvalid hclose).progress
    omega
  have hedge : x.edge d.current.kind = false → (!x.edge (.op .LBrack)) = true := by
    rw [hopen]
    intro h
    rw [h]
    rfl
  cases hcontents with
  | indices hfirst hothers htypes hlist =>
      obtain ⟨rfl, rfl⟩ := gives_pure.mp h
      refine ⟨⟨.index hx.built hx.isPrimary hfirst hothers htypes, ?_, rfl,
        by simp [Tree.is, kind?], hx.start⟩, hless⟩
      rw [ReadAs, emitted_index]
      refine (((hx.read.append hopen').append hlist).append
        (Spans.operator (Spans.valid hlist) hclose)).imp ((loops_of rfl).trans (by simp [loopsAll]))
        fun h => ⟨plain_of (hedge h.1.1.1.2) ?_, rfl⟩
      simp [allPlain, h.1.1.1.1, h.1.2]
  | @slice low high hlow hhigh hread =>
      obtain ⟨rfl, rfl⟩ := gives_pure.mp h
      have hbuilt : Built (.expression s.isFree)
          (.slice x.placeOf x (ofOption low) (ofOption high) (ofOption none)) :=
        .slice hx.built hx.isPrimary hlow hhigh (by simp) (by simp)
      refine ⟨⟨hbuilt, ?_, rfl, by simp [Tree.is, kind?], hx.start⟩, hless⟩
      have hemitted : (Tree.slice x.placeOf x (ofOption low) (ofOption high) .absent).emittedAs
          .expression = x.emittedAs .expression ++ operator .LBrack ++
            (emittedBound low ++ operator .Colon ++ emittedBound high) ++ operator .RBrack := by
        rw [emitted_slice]
        simp only [append_assoc]
        rfl
      rw [ReadAs, hemitted]
      refine (((hx.read.append hopen').append hread).append
        (Spans.operator hread.valid hclose)).imp
        ((loops_of rfl).trans (by simp [loopsAll]))
        fun h => ⟨plain_of (hedge h.1.1.1.2) ?_, rfl⟩
      simp [allPlain, h.1.1.1.1, h.1.2.1, h.1.2.2]
  | @fullSlice low high max hlow hhigh hmax hread =>
      rcases gives_ite.mp h with ⟨-, h⟩ | ⟨hfull, h⟩
      · exact absurd h gives_refuse
      obtain ⟨rfl, rfl⟩ := gives_pure.mp h
      simp only [Bool.or_eq_true, Option.isNone_iff_eq_none, not_or] at hfull
      obtain ⟨hhighSome, hmaxSome⟩ := hfull
      refine ⟨⟨.slice hx.built hx.isPrimary hlow hhigh hmax
        (fun _ => Option.isSome_iff_ne_none.mpr hhighSome), ?_, rfl, by simp [Tree.is, kind?], hx.start⟩, hless⟩
      obtain ⟨u, rfl⟩ := Option.ne_none_iff_exists'.mp hmaxSome
      have hu := (hmax u rfl).isAbsent
      have hemitted : (Tree.slice x.placeOf x (ofOption low) (ofOption high)
          (ofOption (some u))).emittedAs .expression =
            x.emittedAs .expression ++ operator .LBrack ++
              (emittedBound low ++ operator .Colon ++ emittedBound high ++
                (operator .Colon ++ emittedBound (some u))) ++ operator .RBrack := by
        rw [emitted_slice, emittedIf_of (t := ofOption (some u)) hu, emittedBound, emittedBound,
          emittedBound, emittedIf_of (t := ofOption (some u)) hu]
        simp only [append_assoc]
      rw [ReadAs, hemitted]
      refine (((hx.read.append hopen').append hread).append
        (Spans.operator hread.valid hclose)).imp
        ((loops_of rfl).trans (by simp [loopsAll, Nat.add_assoc]))
        fun h => ⟨plain_of (hedge h.1.1.1.2) ?_, rfl⟩
      have hmaxPlain : u.plain = true := h.1.2.2
      simp [allPlain, h.1.1.1.1, h.1.2.1.1, h.1.2.1.2, hmaxPlain]

-- The arguments of a call, of which the last may be spread. A comma after the last is not written.
theorem Sound.argumentsWithin {rounds : List Token} {r : List Tree × Bool} (hg : g.Sound)
    (hs : -1 ≤ s.level) (hc : c.Valid)
    (h : (g.argumentsWithin rounds).Gives s.bracketed c r c') :
    (∀ t ∈ r.1, Built (.expression true) t) ∧ (r.2 = true → r.1 ≠ []) ∧
      Spans c (emittedList r.1 ++ when r.2 (operator .Ellipsis)) (Tree.tuple r.1).loops
        ((Tree.tuple r.1).plain = true) c' := by
  have hnone : ∀ {c : Cursor}, c.Valid → (∀ t ∈ ([] : List Tree), Built (.expression true) t) ∧
      (false = true → ([] : List Tree) ≠ []) ∧
      Spans c (emittedList [] ++ when false (operator .Ellipsis)) (Tree.tuple []).loops
        ((Tree.tuple []).plain = true) c :=
    fun hc => ⟨by simp, by simp, (Spans.nothing hc).imp rfl fun _ => rfl⟩
  induction rounds generalizing c r with
  | nil =>
      obtain ⟨rfl, rfl⟩ := gives_pure.mp h
      exact hnone hc
  | cons _ rounds ih =>
      simp only [Grammar.argumentsWithin, gives_peek_bind] at h
      split at h
      · obtain ⟨rfl, rfl⟩ := gives_pure.mp h
        exact hnone hc
      · obtain ⟨rfl, rfl⟩ := gives_pure.mp h
        exact hnone hc
      obtain ⟨x, d, hx, h⟩ := gives_bind.mp h
      obtain ⟨hbuilt, hread⟩ := hg.bracketedExpression hs hc hx
      have hx' : ∀ t ∈ [x], Built (.expression true) t := by simpa using hbuilt
      have hone : Spans c (emittedList [x]) (Tree.tuple [x]).loops ((Tree.tuple [x]).plain = true)
          d := hread.imp (by simp [loops_tuple]) fun h => by simpa [plain_tuple] using h.1
      rcases gives_got_bind.mp h with ⟨hdots, h⟩ | ⟨-, h⟩
      · have hspread := hone.append (Spans.operator (Spans.valid hread) hdots)
        rcases gives_got_bind.mp h with ⟨hcomma, h⟩ | ⟨-, h⟩
        · obtain ⟨rfl, rfl⟩ := by simpa using h
          have hall := hspread.append (Spans.comma hspread.valid hcomma)
          rw [append_nothing] at hall
          exact ⟨hx', by simp, hall.imp rfl fun h => h.2.elim⟩
        · obtain ⟨rfl, rfl⟩ := by simpa using h
          exact ⟨hx', by simp, hspread.imp rfl fun h => h.1⟩
      · rcases gives_got_bind.mp h with ⟨hcomma, h⟩ | ⟨-, h⟩
        · obtain ⟨⟨ts, b⟩, e, hts, h⟩ := gives_bind.mp ((gives_ite.mp h).resolve_right (by simp)).2
          obtain ⟨rfl, rfl⟩ := gives_pure.mp h
          have hcomma' := Spans.operator (Spans.valid hread) hcomma
          obtain ⟨hrest, hne, hspans⟩ := ih hcomma'.valid hts
          refine ⟨List.forall_mem_cons.mpr ⟨hbuilt, hrest⟩, by simp, ?_⟩
          cases ts with
          | nil =>
              have hfalse : b = false := by
                cases b with
                | false => rfl
                | true => exact absurd rfl (hne rfl)
              subst hfalse
              have hall : Spans c (emittedList [x] ++ nothing) _ _ c' :=
                hone.append ((Spans.comma hone.valid hcomma).append hspans)
              change Spans c (emittedList [x] ++ nothing) (Tree.tuple [x]).loops _ c'
              exact hall.imp (by simp [loops_tuple]) fun h => h.2.1.elim
          | cons y ys =>
              have hall := (hread.append (hcomma'.append hspans)).imp (Q := (Tree.tuple (x :: y ::
                ys)).plain = true) (m := (Tree.tuple (x :: y :: ys)).loops)
                (by simp [loops_tuple]) fun h =>
                  plain_tuple.mpr (List.forall_mem_cons.mpr ⟨h.1.1, plain_tuple.mp h.2.2⟩)
              have hlist : emittedList (x :: y :: ys) = x.emittedAs .expression ++
                  (operator .Comma ++ emittedList (y :: ys)) := rfl
              rw [hlist, append_assoc, append_assoc]
              exact hall
        · obtain ⟨rfl, rfl⟩ := by simpa using h
          refine ⟨hx', by simp, ?_⟩
          change Spans c (emittedList [x] ++ nothing) _ _ _
          rw [append_nothing]
          exact hone

theorem Sound.call {x : Tree} (hg : g.Sound) (hs : -1 ≤ s.level) (hx : PrimaryRead s x c d)
    (h : (g.call x).Gives s d t c') :
    PrimaryRead s t c c' ∧ c'.upcoming.length < d.upcoming.length := by
  simp only [Grammar.call, discard_bind, gives_expect_bind] at h
  obtain ⟨hopen, h⟩ := h
  obtain ⟨⟨args, spread⟩, e, hargs, h⟩ := gives_bind.mp h
  obtain ⟨hclose, h⟩ := gives_expect_bind.mp h
  obtain ⟨rfl, rfl⟩ := gives_pure.mp h
  rw [gives_bracketed, gives_ahead_bind] at hargs
  have hopen' := Spans.operator hx.valid hopen
  obtain ⟨hbuilt, hspread, hread⟩ := hg.argumentsWithin hs hopen'.valid hargs
  have hclose' := Spans.operator hread.valid hclose
  have hless : e.advance.upcoming.length < d.upcoming.length := by
    have hless := hx.valid.advance_lt (by simp [hopen])
    have hprogress := hread.progress
    have hprogress' := hclose'.progress
    omega
  refine ⟨⟨.call hx.built hx.isPrimary hbuilt hspread, ?_, rfl, by simp [Tree.is, kind?], hx.start⟩, hless⟩
  rw [ReadAs, emitted_call, append_assoc (_ ++ operator .LParen)]
  refine (((hx.read.append hopen').append hread).append hclose').imp
    ((loops_of rfl).trans (by simp [loopsAll])) fun h => ⟨plain_of ?_ ?_, rfl⟩
  · have hedge := h.1.1.1.2
    rw [hopen] at hedge
    exact congrArg not hedge
  · simp [allPlain, h.1.1.1.1, h.1.2]

theorem Sound.selectorOrAssertion {x : Tree} (hg : g.Sound) (hs : -1 ≤ s.level)
    (hx : PrimaryRead s x c d) (h : (g.selectorOrAssertion x).Gives s d t c') :
    PrimaryRead s t c c' ∧ c'.upcoming.length < d.upcoming.length := by
  simp only [Grammar.selectorOrAssertion, discard_bind, gives_expect_bind, gives_peek_bind] at h
  obtain ⟨hpoint, h⟩ := h
  have hless := hx.valid.advance_lt (by simp [hpoint])
  have hedge : x.edge d.current.kind = false → (!x.edge (.op .Period)) = true := by
    rw [hpoint]
    intro h
    rw [h]
    rfl
  rcases gives_ite.mp h with ⟨-, h⟩ | ⟨-, h⟩
  · obtain ⟨sel, hsel, rfl⟩ := by simpa using h
    have hpoint' := Spans.operator hx.valid hpoint
    obtain ⟨p, y, rfl, hy, -, -, hspans⟩ := ident_sound hpoint'.valid hsel
    have hprogress := hspans.progress
    refine ⟨⟨.selector hx.built hx.isPrimary (.name hy), ?_, rfl, by simp [Tree.is, kind?], hx.start⟩, by omega⟩
    rw [ReadAs, emitted_selector]
    refine ((hx.read.append hpoint').append hspans).imp ((loops_of rfl).trans (by simp [loopsAll]))
      fun h => ⟨plain_of (hedge h.1.1.2) ?_, rfl⟩
    simp [allPlain, h.1.1.1]
  · rcases gives_got_bind.mp h with ⟨hopen, h⟩ | ⟨-, h⟩
    · obtain ⟨typ, e, htyp, ⟨hclose, rfl⟩, rfl⟩ := by simpa using h
      have hopen' := Spans.assertion hx.valid hpoint hopen
      have hless' := (hx.valid.advance (by simp [hpoint])).advance_lt (by simp [hopen])
      rcases gives_got_bind.mp htyp with ⟨hword, htyp⟩ | ⟨-, htyp⟩
      · obtain ⟨rfl, rfl⟩ := by simpa using htyp
        have hword' := Spans.keyword hopen'.valid hword
        have hclose' := Spans.operator hword'.valid hclose
        have hprogress := hword'.progress
        have hprogress' := hclose'.progress
        refine ⟨⟨.typeAssert hx.built hx.isPrimary (by simp) (by simp), ?_, rfl,
          by simp [Tree.is, kind?], hx.start⟩, by omega⟩
        rw [ReadAs, emitted_typeAssert]
        refine (((hx.read.append hopen').append hword').append hclose').imp ((loops_of rfl).trans (by simp [loopsAll, ofOption]))
          fun h => ⟨plain_of (hedge h.1.1.1.2) ?_, rfl⟩
        simp [allPlain, h.1.1.1.1, ofOption]
      · obtain ⟨u, hu, rfl⟩ := by simpa using htyp
        have hu' := hg.type hs hopen'.valid hu
        have hclose' := Spans.operator hu'.valid hclose
        have hprogress := Spans.progress hu'.read
        have hprogress' := hclose'.progress
        refine ⟨⟨.typeAssert hx.built hx.isPrimary (by rintro v ⟨⟩; exact hu'.built true)
          (by rintro v ⟨⟩; exact hu'.isType), ?_, rfl, by simp [Tree.is, kind?], hx.start⟩, by omega⟩
        rw [ReadAs, emitted_typeAssert, if_neg (by simp [ofOption, (hu'.built true).isAbsent])]
        refine (((hx.read.append hopen').append hu'.read).append hclose').imp ((loops_of rfl).trans (by simp [loopsAll, ofOption]))
          fun h => ⟨plain_of (hedge h.1.1.1.2) ?_, rfl⟩
        simp [allPlain, h.1.1.1.1, h.1.2.1, ofOption]
    · simp at h

end Grammar

end GoCompact
