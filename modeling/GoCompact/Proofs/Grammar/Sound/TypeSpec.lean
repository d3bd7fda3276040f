import GoCompact.Proofs.Grammar.Sound.Expression

namespace GoCompact.Grammar

open GoCompact.Parser GoCompact.Tree Emission

variable {g : Grammar} {s : Scope} {t : Tree} {c d c' : Cursor}

-- An expression that is taken apart into a name and a constraint.
inductive TakesApart (name : Tree) : Tree → Tree → Prop
  | star {p y : Tree} : TakesApart name (.binary p name (.token (.op .Mul)) y) (.star p y)
  | union {p x lhs y : Tree} (h : TakesApart name x lhs) :
      TakesApart name (.binary p x (.token (.op .Or)) y) (.binary p lhs (.token (.op .Or)) y)
  | call {p arg : Tree} :
      TakesApart name (.call p name (.tuple [arg]) (.flag false)) (.paren arg.placeOf arg)

theorem typeParameter?_ident {force : Bool} {x name : Tree}
    (h : x.typeParameter? force = some (name, none)) : x = name ∧ x.is .Ident = true := by
  unfold typeParameter? at h
  split at h
  · simp only [Option.some.injEq, Prod.mk.injEq] at h
    exact ⟨h.1, rfl⟩
  · split at h
    · split at h <;> simp at h
    · split at h <;> simp at h
    · cases h
  · split at h <;> simp at h
  · cases h

-- Unless a comma follows, only what can be nothing but a constraint is taken for one.
theorem takesApart_of_typeParameter? {force : Bool} {x name typ : Tree}
    (h : x.typeParameter? force = some (name, some typ)) :
    TakesApart name x typ ∧ name.is .Ident = true ∧
      (typ.combinesWithName = true → force = true) := by
  fun_induction typeParameter? force x generalizing typ with
  | case2 force p x y hcond =>
      simp only [Bool.and_eq_true, Bool.or_eq_true] at hcond
      simp only [Option.some.injEq, Prod.mk.injEq] at h
      obtain ⟨rfl, rfl⟩ := h
      refine ⟨.star, hcond.1, fun hcombines => hcond.2.resolve_right fun hy => ?_⟩
      simp [combinesWithName, hy] at hcombines
  | case4 force p x y name' lhs hx ih =>
      simp only [Option.some.injEq, Prod.mk.injEq] at h
      obtain ⟨rfl, rfl⟩ := h
      obtain ⟨hapart, hname, hforce⟩ := ih hx
      refine ⟨.union hapart, hname, fun hcombines => ?_⟩
      simp only [combinesWithName, Bool.and_eq_true, Bool.not_eq_true'] at hcombines
      simpa [hcombines.2] using hforce hcombines.1
  | case7 force p callee arg hcond =>
      simp only [Bool.and_eq_true, Bool.or_eq_true] at hcond
      simp only [Option.some.injEq, Prod.mk.injEq] at h
      obtain ⟨rfl, rfl⟩ := h
      refine ⟨.call, hcond.1, fun hcombines => hcond.2.resolve_right fun harg => ?_⟩
      simp [combinesWithName, harg] at hcombines
  | _ => cases h

theorem is_binary_of_precedence {b : Bool} (ht : Built (.expression b) t)
    (h : 5 < t.precedence) : t.is .BinaryExpr = false := by
  cases ht with
  | @binary _ _ _ _ o =>
      have hfive := (TokenKind.op o).precedence_le
      exact absurd h (Nat.not_lt.mpr hfive)
  | _ => rfl

namespace TakesApart

variable {name x typ : Tree}

theorem emitted (h : TakesApart name x typ) :
    x.emittedAs .expression = name.emittedAs .expression ++ typ.emittedAs .expression := by
  induction h with
  | star => rw [emitted_binary, emitted_star]
  | union _ ih => rw [emitted_binary, emitted_binary, ih, append_assoc]
  | call =>
      rw [emitted_call, emitted_paren]
      simp [emittedList, separated, when, append_assoc]

theorem loops_eq (h : TakesApart name x typ) : x.loops = name.loops + typ.loops := by
  induction h with
  | star =>
      rw [loops_of rfl, loops_of rfl]
      simp [loopsAll]
  | union _ ih =>
      rw [loops_of rfl, loops_of rfl]
      simp [loopsAll, ih, Nat.add_assoc]
  | call =>
      rw [loops_of rfl, loops_of rfl]
      simp [loopsAll, loops_tuple]

theorem edge_eq (h : TakesApart name x typ) (k : TokenKind) : x.edge k = typ.edge k := by
  cases h <;> rfl

theorem plain (h : TakesApart name x typ) (hx : x.plain = true) : typ.plain = true := by
  induction h with
  | star =>
      simp only [Tree.plain, isPlainNode, allPlain, Bool.and_eq_true] at hx
      exact plain_of rfl (by simp [allPlain, hx.2.2.2.1])
  | @union p x lhs y h ih =>
      simp only [Tree.plain, isPlainNode, allPlain, Bool.and_eq_true] at hx
      refine plain_of ?_ (by simp [allPlain, ih hx.2.1, hx.2.2.2.1])
      simpa only [isPlainNode, h.edge_eq] using hx.1
  | call =>
      simp only [Tree.plain, isPlainNode, allPlain, Bool.and_eq_true] at hx
      exact plain_of rfl (by simp [allPlain, hx.2.2.1.1])

theorem built (h : TakesApart name x typ) (hx : Built (.expression true) x) :
    Built (.expression true) name ∧ Built (.expression true) typ ∧ typ.isTakenApart = true ∧
      4 ≤ typ.precedence := by
  induction h with
  | @star p y =>
      cases hx with
      | binary _ hname hy _ hright =>
          have hbinary : y.is .BinaryExpr = false := is_binary_of_precedence hy hright
          exact ⟨hname, .star hy hbinary, by simp [isTakenApart, hbinary], show 4 ≤ 6 by decide⟩
  | @union p x lhs y h ih =>
      cases hx with
      | binary ho hx hy _ hright =>
          obtain ⟨hname, hlhs, hapart, hprecedence⟩ := ih hx
          refine ⟨hname, .binary ho hlhs hy hprecedence hright, ?_, Nat.le_refl 4⟩
          have hright' : 4 < y.precedence := hright
          simp [isTakenApart, hapart, hright']
  | call =>
      cases hx with
      | call hname _ hargs _ => exact ⟨hname, .paren (hargs _ (by simp)), rfl, show 4 ≤ 6 by decide⟩

-- Before a comma it is taken apart in any case, and elsewhere if the constraint stands by itself.
theorem typeParameter?_eq (h : TakesApart name x typ) (hname : name.is .Ident = true)
    (force : Bool) :
    x.typeParameter? force =
      if force || !typ.combinesWithName then some (name, some typ) else none := by
  induction h generalizing force with
  | star => simp [typeParameter?, combinesWithName, hname]
  | @union p x lhs y _ ih =>
      simp only [typeParameter?, ih, combinesWithName, Bool.not_and, Bool.not_not]
      rw [Bool.or_assoc, Bool.or_comm y.isTypeElement]
      generalize (force || (!lhs.combinesWithName || y.isTypeElement)) = b
      cases b <;> rfl
  | call => simp [typeParameter?, combinesWithName, hname]

end TakesApart

-- Only directly after a name does a bracket make an expression one that begins with a name and a
-- bracket.
theorem startsIndexed_of_primaryStep {x u : Tree} (hx : x.startsIndexed = false)
    (hname : x.is .Ident = true → c.current.kind ≠ .op .LBrack)
    (h : (g.primaryStep x).Gives s c (some u) c') :
    u.startsIndexed = false ∧ u.is .Ident = false := by
  simp only [Grammar.primaryStep, gives_peek_bind] at h
  split at h
  · simp only [Grammar.selectorOrAssertion, gives_map, discard_bind, gives_expect_bind,
      gives_peek_bind, Option.some.injEq] at h
    obtain ⟨_, ⟨-, h⟩, rfl⟩ := h
    rcases gives_ite.mp h with ⟨-, h⟩ | ⟨-, h⟩
    · obtain ⟨_, -, rfl⟩ := by simpa using h
      exact ⟨hx, rfl⟩
    · rcases gives_got_bind.mp h with ⟨-, h⟩ | ⟨-, h⟩
      · obtain ⟨_, _, -, -, rfl⟩ := by simpa using h
        exact ⟨hx, rfl⟩
      · simp at h
  · rename_i hkind
    have hident : x.is .Ident = false := by
      cases h : x.is .Ident with
      | false => rfl
      | true => exact absurd hkind (hname h)
    simp only [Grammar.indexOrSlice, gives_map, discard_bind, gives_expect_bind,
      gives_peek_bind, Option.some.injEq] at h
    obtain ⟨_, ⟨-, h⟩, rfl⟩ := h
    rcases gives_ite.mp h with ⟨-, h⟩ | ⟨-, h⟩
    · obtain ⟨_, _, h, -⟩ := gives_bind.mp h
      exact absurd h gives_expected
    obtain ⟨r, e, -, h⟩ := gives_bind.mp h
    obtain ⟨-, h⟩ := gives_expect_bind.mp h
    cases r with
    | indices =>
        obtain ⟨rfl, -⟩ := gives_pure.mp h
        exact ⟨by simp [startsIndexed, hident, hx], rfl⟩
    | slice =>
        obtain ⟨rfl, -⟩ := gives_pure.mp h
        exact ⟨by simp [startsIndexed, hident, hx], rfl⟩
    | fullSlice =>
        rcases gives_ite.mp h with ⟨-, h⟩ | ⟨-, h⟩
        · exact absurd h gives_refuse
        · obtain ⟨rfl, -⟩ := gives_pure.mp h
          exact ⟨by simp [startsIndexed, hident, hx], rfl⟩
  · simp only [Grammar.call, gives_map, discard_bind, gives_expect_bind, Option.some.injEq] at h
    obtain ⟨_, ⟨-, h⟩, rfl⟩ := h
    obtain ⟨⟨args, spread⟩, e, -, h⟩ := gives_bind.mp h
    obtain ⟨rfl, -⟩ := gives_pure.mp (gives_expect_bind.mp h).2
    exact ⟨hx, rfl⟩
  · obtain ⟨b, e, -, h⟩ := gives_bind.mp h
    cases b with
    | false => simp at h
    | true =>
        obtain ⟨-, _, _, -, -, rfl⟩ := by simpa [Grammar.literalValue] using h
        exact ⟨hx, rfl⟩
  · simp at h

-- The expression after the opening bracket of a declaration: a name before another bracket, or all
-- that can be read as an expression.
inductive LeadingRead (s : Scope) (c : Cursor) : Tree → Cursor → Prop
  | name {p : Tree} {x : Text} {c' : Cursor} (hx : (⟨.ident, x⟩ : Lexeme).Whole)
      (hkind : c.current.kind = .ident) (hread : Spans c (write x) 0 True c') (hbracket : c'.current.kind = .op .LBrack) :
      LeadingRead s c (.ident p (.text x)) c'
  | expression {t : Tree} {c' : Cursor} (h : BinaryRead 1 s.bracketed t c c')
      (hindexed : t.startsIndexed = false)
      (hname : t.is .Ident = true → c'.current.kind.continues = false) : LeadingRead s c t c'

theorem Sound.leadingExpression (hg : g.Sound) (hs : -1 ≤ s.level) (hc : c.Valid)
    (h : g.leadingExpression.Gives s c t c') : LeadingRead s c t c' := by
  obtain ⟨name, d, hname, h⟩ := gives_bind.mp h
  obtain ⟨p, x, rfl, hx, hkind, -, hspans⟩ := ident_sound hc hname
  simp only [gives_peek_bind, gives_ite, gives_bracketed] at h
  rcases h with ⟨hbracket, h⟩ | ⟨hbracket, h⟩
  · obtain ⟨rfl, rfl⟩ := gives_pure.mp h
    exact .name hx hkind hspans hbracket
  have hlevel := Scope.level_bracketed hs
  have hlevel' : -1 ≤ s.bracketed.level := by omega
  obtain ⟨y, e, hy, h⟩ := gives_bind.mp h
  have hprimary : PrimaryRead s.bracketed (.ident p (.text x)) c d :=
    ⟨.ident hx, hspans.imp rfl fun _ => ⟨rfl, rfl⟩, rfl, by simp [Tree.is, kind?], fun _ => hkind⟩
  obtain ⟨hread, hisPrimary, hcontinues, hindexed, -⟩ := hg.primaryAfter
    (I := fun x d => x.startsIndexed = false ∧ (x.is .Ident = true → d.current.kind ≠ .op .LBrack))
    hlevel' (fun hI h => by
      obtain ⟨hindexed, hident⟩ := startsIndexed_of_primaryStep hI.1 hI.2 h
      exact ⟨hindexed, by simp [hident]⟩) ⟨rfl, fun _ => hbracket⟩ hprimary hy
  obtain ⟨hbinary, hindexed, hcontinues⟩ := hg.binaryAfter
    (I := fun x d => x.startsIndexed = false ∧
      (x.is .Ident = true → d.current.kind.continues = false))
    hlevel' (Nat.le_refl 1) (fun hI => ⟨hI.1, by rintro ⟨⟩⟩) ⟨hindexed, fun _ => hcontinues⟩
    (.of_unary (by decide) hread (is_binary_of_isPrimary hisPrimary)) h
  exact .expression hbinary hindexed hcontinues

-- The rest of the entries after the first one. A comma after a single one is written if `r` holds.
theorem Sound.entriesAfter {first : Entry} {entries : List Entry} (hg : g.Sound) (hs : -1 ≤ s.level)
    (hfirst : Spans c first.emitted first.loops (first.plain = true) d)
    (h : (g.entriesAfter (.op .RBrack) true first).Gives s d entries c') :
    ∃ others, entries = first :: others ∧ (∀ e ∈ others, EntryBuilt true e) ∧
      ∀ r : Bool, (r = true → others = [] ∧ d.current.kind = .op .Comma) →
        Spans c (separated "," (entries.map Entry.emitted) ++ when r (operator .Comma))
          (entries.map Entry.loops).sum
          ((∀ e ∈ entries, e.plain = true) ∧ (others = [] → r = false → c' = d)) c' := by
  rcases gives_got_bind.mp h with ⟨hcomma, h⟩ | ⟨hcomma, h⟩
  · obtain ⟨others, hothers, rfl⟩ := by simpa using h
    have hcomma' := Spans.operator hfirst.valid hcomma
    obtain ⟨hread, hbuilt⟩ := Spans.listed (P := fun e => e.plain = true)
      (fun hc h => ⟨(hg.entry hs hc h).read, (hg.entry hs hc h).built⟩) hcomma'.valid
      (listed_of_itemsUntil hothers)
    refine ⟨others, rfl, hbuilt, fun r hr => ?_⟩
    cases others with
    | nil =>
        cases r with
        | true =>
            exact (hfirst.append (hcomma'.append hread)).imp (by simp) fun h => by simpa using h.1
        | false =>
            exact (hfirst.append ((Spans.comma hfirst.valid hcomma).append hread)).imp (by simp)
              fun h => h.2.1.elim
    | cons e es =>
        have hfalse : r = false := by
          cases r with
          | false => rfl
          | true => cases (hr rfl).1
        subst hfalse
        change Spans c (first.emitted ++ (write "," ++ _) ++ nothing) _ _ _
        rw [append_nothing]
        exact (hfirst.append (hcomma'.append hread)).imp (by simp)
          fun h => ⟨List.forall_mem_cons.mpr ⟨h.1, h.2.2⟩, by rintro ⟨⟩⟩
  · obtain ⟨rfl, rfl⟩ := by simpa using h
    refine ⟨[], rfl, by simp, fun r hr => ?_⟩
    have hfalse : r = false := by
      cases r with
      | false => rfl
      | true => exact absurd (hr rfl).2 hcomma
    subst hfalse
    change Spans c (first.emitted ++ nothing) _ _ _
    rw [append_nothing]
    exact hfirst.imp (by simp) fun h => ⟨by simpa using h, fun _ _ => rfl⟩

-- Whether a list has one field with one name, whose type would be read together with the name.
def loneCombines : List Tree → Bool
  | [.field _ (.tuple [_]) typ _] => typ.combinesWithName
  | _ => false

theorem readsAsLength_fieldList (p : Tree) (fields : List Tree) :
    (Tree.fieldList p (.tuple fields)).readsAsLength = loneCombines fields := by
  have hfield : (Tree.fieldList p (.tuple fields)).field? "fields" = some (.tuple fields) := rfl
  unfold readsAsLength
  rw [hfield]
  split
  · rename_i heq
    obtain ⟨rfl⟩ := heq
    rfl
  · rename_i heq
    unfold loneCombines
    split
    · rename_i hfields
      exact absurd rfl (heq _ _ _ _)
    · rfl

-- A list of type parameters without its brackets.
structure TypeParametersRead (params : Tree) (c c' : Cursor) : Prop where
  built : Built .typeParameters params
  read : Spans c (params.emittedAs (.fieldList ",") ++ when params.readsAsLength (operator .Comma))
    params.loops (params.plain = true ∧ (c'.current.kind = .op .RBrack →
      params.lone?.any (·.is .Ident) = false)) c'

theorem TypeParametersRead.of_entries {p : Tree} {fields : List Tree} {entries : List Entry}
    {P : Prop} (hbuilt : Built .typeParameters (.fieldList p (.tuple fields)))
    (hemitted : emittedFields "," fields = separated "," (entries.map Entry.emitted))
    (hloops : (Tree.tuple fields).loops = (entries.map Entry.loops).sum)
    (hplain : (∀ e ∈ entries, e.plain = true) → (Tree.tuple fields).plain = true)
    (hread : Spans c (separated "," (entries.map Entry.emitted) ++
      when (Tree.fieldList p (.tuple fields)).readsAsLength (operator .Comma))
      (entries.map Entry.loops).sum ((∀ e ∈ entries, e.plain = true) ∧ P) c')
    (hlone : P → c'.current.kind = .op .RBrack →
      (Tree.fieldList p (.tuple fields)).lone?.any (·.is .Ident) = false) :
    TypeParametersRead (.fieldList p (.tuple fields)) c c' := by
  refine ⟨hbuilt, ?_⟩
  rw [emitted_fieldList, hemitted]
  refine hread.imp ((loops_of rfl).trans (by simp [loopsAll, hloops])) fun h => ⟨?_, hlone h.2⟩
  exact plain_of rfl (by simp [allPlain, hplain h.1])

-- Names that wait for a type are among those of the next field.
theorem Gathers.length_lt {names fields : List Tree} {entries : List Entry}
    (h : Gathers names entries fields) :
    ∀ f ∈ fields.head?, ∃ ns t, f = namedField ns t ∧ names.length < ns.length := by
  induction h with
  | nil => simp
  | name _ ih =>
      intro f hf
      obtain ⟨ns, t, rfl, hless⟩ := ih f hf
      simp only [List.length_append, List.length_singleton] at hless
      exact ⟨ns, t, rfl, by omega⟩
  | both _ _ =>
      rintro f ⟨⟩
      exact ⟨_, _, rfl, by simp⟩

theorem lone?_of_named {b : Bool} {p : Tree} {fields : List Tree}
    (h : ∀ t ∈ fields, Built (.named b) t) :
    (Tree.fieldList p (.tuple fields)).lone? = none := by
  unfold lone?
  split
  · rename_i heq
    simp only [node.injEq, List.cons.injEq, tuple.injEq] at heq
    obtain ⟨-, -, rfl, -⟩ := heq
    cases h _ (List.mem_singleton.mpr rfl) with
    | namedField hne => exact absurd rfl hne
  · rfl

theorem readsAsLength_of_unnamed {b : Bool} {p : Tree} {fields : List Tree}
    (h : ∀ t ∈ fields, Built (.unnamed b) t) :
    (Tree.fieldList p (.tuple fields)).readsAsLength = false := by
  rw [readsAsLength_fieldList]
  unfold loneCombines
  split
  · cases h _ (List.mem_singleton.mpr rfl)
  · rfl

theorem leadsTypeParameters_of_leadsIndexed (h : t.leadsIndexed = true) :
    t.leadsTypeParameters = true := by
  unfold leadsTypeParameters
  split
  · rfl
  · exact h

theorem leadsTypeParameters_of_is_ident (ht : Built .fieldType t) (h : t.is .Ident = true) :
    t.leadsTypeParameters = true := by
  cases ht with
  | fieldType ht => cases ht <;> first | rfl | cases h
  | _ => cases h

theorem is_ident_of_leadsIndexed (h : t.leadsIndexed = true) : t.is .Ident = false := by
  unfold leadsIndexed at h
  split at h
  · rfl
  · unfold isIndexed at h
    split at h
    · rfl
    · cases h

-- The type parameters, of which the first was read with its name and taken apart.
theorem Sound.parametersApart {p x typ name : Tree} {entries : List Entry}
    (hg : g.Sound) (hs : -1 ≤ s.level) (hx : BinaryRead 1 s.bracketed x c d)
    (hapart : TakesApart name x typ) (hident : name.is .Ident = true)
    (hforce : typ.combinesWithName = true → d.current.kind = .op .Comma)
    (hentries : (g.entriesAfter (.op .RBrack) true ⟨some name, some typ⟩).Gives s d entries c')
    {fields : List Tree} (hfields : fieldsOf entries = .ok fields) :
    TypeParametersRead (.fieldList p (.tuple fields)) c c' := by
  have hbuilt := hx.built
  rw [Scope.isFree_bracketed hs] at hbuilt
  obtain ⟨hname, htyp, hisApart, -⟩ := hapart.built hbuilt
  obtain ⟨q, n, rfl, hname⟩ : ∃ q n, name = .ident q (.text n) ∧ Built .name name := by
    cases hname with
    | ident h => exact ⟨_, _, rfl, .name h⟩
    | _ => cases hident
  have hfirst : Spans c (Entry.mk (some (.ident q (.text n))) (some typ)).emitted typ.loops
      (typ.plain = true) d := by
    have hread := hx.read
    rw [ReadAs, hapart.emitted, emitted_ident] at hread
    exact hread.insert_blank.imp (by simp [hapart.loops_eq]) fun h => hapart.plain h.1
  obtain ⟨others, rfl, hothers, hspans⟩ := hg.entriesAfter hs hfirst hentries
  have hgathers : Gathers [] (⟨some (.ident q (.text n)), some typ⟩ :: others) fields :=
    gathers_of_namedFields (by simpa [fieldsOf, Entry.isComplete] using hfields)
  have hnames : ∀ e ∈ (Entry.mk (some (.ident q (.text n))) (some typ)) :: others,
      ∀ m ∈ e.name, Built .name m := by
    refine List.forall_mem_cons.mpr ⟨?_, fun e he => (hothers e he).names⟩
    rintro m ⟨⟩
    exact hname
  have hemitted := hgathers.emitted
  have hloops := hgathers.loops (by simp) hnames
  have hplain := hgathers.plain (by simp) hnames
  cases hgathers with
  | @both _ _ _ _ rest hrest =>
      refine .of_entries (.takenApart hname htyp hisApart (hrest.built (by simp) hothers)) hemitted
        hloops hplain (hspans _ fun hlength => ?_) fun _ _ => by cases rest <;> rfl
      rw [readsAsLength_fieldList] at hlength
      cases rest with
      | nil => exact ⟨hrest.eq_nil_iff.mp rfl, hforce hlength⟩
      | cons => cases hlength

-- The type parameters, of which the first begins with a name that was read up to `d`.
theorem Sound.parametersAfter {p : Tree} {first : Entry} {entries : List Entry}
    {fields : List Tree} {e : Cursor} (hg : g.Sound) (hs : -1 ≤ s.level)
    (hfirst : AfterNameRead true first c d e) (hclose : d.current.kind ≠ .op .RBrack)
    (hprecedence : d.current.kind.precedence = 0) (hparen : d.current.kind ≠ .op .LParen)
    (hpoint : d.current.kind ≠ .op .Period)
    (hentries : (g.entriesAfter (.op .RBrack) true first).Gives s e entries c')
    (hfields : fieldsOf entries = .ok fields) :
    TypeParametersRead (.fieldList p (.tuple fields)) c c' := by
  obtain ⟨others, rfl, hothers, hspans⟩ := hg.entriesAfter hs hfirst.read hentries
  have hbuilt : ∀ e ∈ first :: others, EntryBuilt true e :=
    List.forall_mem_cons.mpr ⟨hfirst.built, hothers⟩
  obtain ⟨-, hemitted, hloops, hplain⟩ := fieldsOf_spec hbuilt hfields
  have hcombines : ∀ n t, first = ⟨some n, some t⟩ → t.combinesWithName = false := by
    rintro n t rfl
    cases h : t.combinesWithName with
    | false => rfl
    | true =>
        rcases hfirst.apart rfl t rfl h with h | h
        · rw [h] at hprecedence
          cases hprecedence
        · exact absurd h hparen
  have hleads : ∀ t, first = ⟨none, some t⟩ → t.leadsIndexed = true := by
    rintro t rfl
    rcases hfirst.leads rfl t rfl with h | h | h
    · exact h
    · exact absurd h hpoint
    · rw [h] at hprecedence
      cases hprecedence
  unfold fieldsOf at hfields
  split at hfields
  · have hgathers := gathers_of_namedFields hfields
    have hnamed := hgathers.built (by simp) hbuilt
    have hne : fields ≠ [] := fun hnil => by simpa using hgathers.eq_nil_iff.mp hnil
    have hlength : (Tree.fieldList p (.tuple fields)).readsAsLength = false := by
      rw [readsAsLength_fieldList]
      unfold loneCombines
      cases hgathers with
      | name h =>
          split
          · obtain ⟨ns, t, hfield, hless⟩ := h.length_lt _ rfl
            simp only [namedField, node.injEq, List.cons.injEq, tuple.injEq] at hfield
            rw [← hfield.2.2.1] at hless
            simp at hless
          · rfl
      | @both _ n t =>
          split
          · rename_i heq
            simp only [namedField, List.cons.injEq, node.injEq] at heq
            rw [← heq.1.2.2.2.1]
            exact hcombines n t rfl
          · rfl
    refine .of_entries (.namedTypeParameters hne hnamed) hemitted hloops hplain
      (hspans _ (by simp [hlength])) fun _ _ => ?_
    rw [lone?_of_named hnamed]
    rfl
  · rename_i hnone
    obtain rfl := Except.ok.inj hfields
    have hnone : (first :: others).any Entry.isComplete = false := by simpa using hnone
    obtain ⟨hfieldsBuilt, -⟩ := unnamedFields_spec hbuilt hnone
    rw [List.any_cons, Bool.or_eq_false_iff] at hnone
    obtain ⟨t, hcons, htbuilt, -⟩ := unnamedFields_cons others hfirst.built hnone.1
    have hlength := readsAsLength_of_unnamed (p := p) hfieldsBuilt
    rw [hcons] at hfieldsBuilt hemitted hloops hplain hlength ⊢
    have hcases : (first.type = none ∧ t.is .Ident = true) ∨ t.leadsIndexed = true := by
      have hthis := hfirst.built
      cases hthis with
      | name hm =>
          cases hm with
          | name =>
              simp only [unnamedFields, List.filterMap_cons, Option.none_or, Option.map_some,
                List.cons.injEq, node.injEq] at hcons
              exact Or.inl ⟨rfl, by rw [← hcons.1.2.2.2.1]; rfl⟩
      | @type u =>
          simp only [unnamedFields, List.filterMap_cons, Option.some_or, Option.map_some,
            List.cons.injEq, node.injEq] at hcons
          exact Or.inr (hcons.1.2.2.2.1 ▸ hleads u rfl)
      | both => cases hnone.1
    refine .of_entries (.unnamedTypeParameters htbuilt ?_ fun u hu =>
      hfieldsBuilt u (List.mem_cons_of_mem _ hu)) hemitted hloops hplain
      (hspans _ (by simp [hlength])) fun htight hkind => ?_
    · rcases hcases with ⟨-, hident⟩ | hindexed
      · exact leadsTypeParameters_of_is_ident htbuilt hident
      · exact leadsTypeParameters_of_leadsIndexed hindexed
    · rcases hcases with ⟨halone, -⟩ | hcases
      · cases others with
        | nil =>
            rw [htight rfl hlength, hfirst.alone halone] at hkind
            exact absurd hkind hclose
        | cons f rest =>
            have hnext : f.isComplete = false := (Bool.or_eq_false_iff.mp hnone.2).1
            obtain ⟨u, hu, -⟩ := unnamedFields_cons rest (hothers f (by simp)) hnext
            rw [hu]
            rfl
      · cases unnamedFields others with
        | nil => exact is_ident_of_leadsIndexed hcases
        | cons => rfl

-- A declaration of a type without its end.
structure TypeSpecRead (t : Tree) (c c' : Cursor) : Prop where
  built : Built (.spec .Type) t
  read : t.ReadAs .spec c True c'

-- A declaration without type parameters.
theorem TypeSpecRead.plainSpec {q typ : Tree} {n : Text} {e : Cursor} (isAlias : Bool)
    (hn : (⟨.ident, n⟩ : Lexeme).Whole) (hname : Spans c (write n) 0 True d)
    (hmark : Spans d (if isAlias then operator .Assign else blank) 0 True e)
    (htyp : TypeRead typ e c') (hlength : isAlias = false → typ.keepsLength = true) :
    TypeSpecRead (plainSpec (.ident q (.text n)) typ isAlias) c c' := by
  refine ⟨.typeSpec (.name hn) (htyp.built true) htyp.isType hlength, ?_⟩
  rw [ReadAs, Grammar.plainSpec, emitted_typeSpec]
  change Spans c (write n ++ nothing ++ (if isAlias then operator .Assign else blank) ++ _) _ _ _
  rw [append_nothing]
  refine ((hname.append hmark).append htyp.read).imp ((loops_of rfl).trans (by simp [loopsAll]))
    fun h => ⟨plain_of rfl ?_, trivial⟩
  simp [allPlain, h.2.1]

-- A declaration with type parameters.
theorem Sound.genericTail {q params : Tree} {n : Text} {e : Cursor} (hg : g.Sound)
    (hs : -1 ≤ s.level) (hn : (⟨.ident, n⟩ : Lexeme).Whole) (hname : Spans c (write n) 0 True d)
    (hopen : d.current.kind = .op .LBrack) (hparams : TypeParametersRead params d.advance e)
    (h : (g.genericTail (.ident q (.text n)) params).Gives s e t c') : TypeSpecRead t c c' := by
  simp only [Grammar.genericTail, discard_bind, gives_expect_bind] at h
  obtain ⟨hclose, h⟩ := h
  have hstart := (Spans.operator hname.valid hopen).append hparams.read
  have hclose' := Spans.operator hstart.valid hclose
  have habsent := hparams.built.isAbsent
  have hall : ∀ (isAlias : Bool) {typ : Tree} {f : Cursor},
      Spans e.advance (if isAlias then operator .Assign else nothing) 0 True f →
      TypeRead typ f c' →
      TypeSpecRead (.typeSpec q (.ident q (.text n)) typ params (.flag isAlias)) c c' := by
    intro isAlias typ f hmark htyp
    refine ⟨.genericSpec (.name hn) (htyp.built true) htyp.isType hparams.built, ?_⟩
    have hmark' : (if isAlias then operator .Assign else when params.isAbsent blank) =
        if isAlias then operator .Assign else nothing := by
      rw [habsent]
      rfl
    rw [ReadAs, emitted_typeSpec, emittedIf_of habsent, hmark', append_assoc (operator .LBrack)]
    refine (((hname.append (hstart.append hclose')).append hmark).append htyp.read).imp
      ((loops_of rfl).trans (by simp [loopsAll, Nat.add_comm])) fun h => ⟨plain_of ?_ ?_, trivial⟩
    · have hlone := h.1.1.2.1.2.2 hclose
      simp [isPlainNode, hlone]
    · simp [allPlain, h.1.1.2.1.2.1, h.2.1]
  rcases gives_got_bind.mp h with ⟨hassign, h⟩ | ⟨-, h⟩
  · obtain ⟨typ, htyp, rfl⟩ := by simpa using h
    have hmark := Spans.operator hclose'.valid hassign
    exact hall true hmark (hg.typeRule hs hmark.valid htyp)
  · obtain ⟨typ, htyp, rfl⟩ := by simpa using h
    exact hall false (Spans.nothing hclose'.valid) (hg.typeRule hs hclose'.valid htyp)

theorem startsNamed_of_is_ident (h : t.is .Ident = true) : t.startsNamed = true := by
  unfold startsNamed
  split <;> first | exact h | cases h

theorem startsNamed_of_typeParameter? {force : Bool} {name typ : Tree}
    (h : t.typeParameter? force = some (name, some typ)) : t.startsNamed = true := by
  obtain ⟨hapart, hname, -⟩ := takesApart_of_typeParameter? h
  clear h
  induction hapart with
  | star => exact startsNamed_of_is_ident (t := name) hname
  | union _ ih => exact ih
  | call => exact startsNamed_of_is_ident (t := name) hname

theorem startsNamed_of_startsIndexed (h : t.startsIndexed = true) : t.startsNamed = true := by
  fun_induction startsIndexed t with
  | case3 p x _ ih =>
      rcases Bool.or_eq_true_iff.mp h with h | h
      · exact startsNamed_of_is_ident (t := x) h
      · exact ih h
  | case4 p x _ _ _ ih =>
      rcases Bool.or_eq_true_iff.mp h with h | h
      · exact startsNamed_of_is_ident (t := x) h
      · exact ih h
  | case8 => cases h
  | _ => rename_i ih; exact ih h

-- The length of an array that does not begin with a name is not taken for a type parameter.
theorem keepsLength_of_startsNamed {p elt : Tree} (h : t.startsNamed = false) :
    (Tree.arrayType p t elt).keepsLength = true := by
  have hindexed : t.startsIndexed = false := by
    cases hindexed : t.startsIndexed with
    | false => rfl
    | true => rw [startsNamed_of_startsIndexed hindexed] at h; cases h
  have hparameter : (t.typeParameter? false).any (·.2.isSome) = false := by
    cases hparameter : t.typeParameter? false with
    | none => rfl
    | some r =>
        obtain ⟨name, _ | typ⟩ := r
        · rfl
        · rw [startsNamed_of_typeParameter? hparameter] at h
          cases h
  simp [keepsLength, hindexed, hparameter]

-- The type parameters after the expression that was read first.
theorem Sound.typeParametersAfter {x p parameter : Tree} {constraint : Option Tree} (hg : g.Sound)
    (hs : -1 ≤ s.level) (hx : LeadingRead s c x d)
    (hparameter : x.typeParameter? (d.current.kind == .op .Comma) = some (parameter, constraint))
    (hcond : (constraint.isSome || d.current.kind != .op .RBrack) = true)
    (h : (g.typeParametersAfter p parameter constraint).Gives s d t c') :
    TypeParametersRead t c c' := by
  have hlist : ∀ {first : Entry} {e : Cursor},
      (g.entriesAfter (.op .RBrack) true first >>= listOf p).Gives s e t c' →
      ∃ entries fields, t = .fieldList p (.tuple fields) ∧ fieldsOf entries = .ok fields ∧
        (g.entriesAfter (.op .RBrack) true first).Gives s e entries c' := by
    intro first e h
    obtain ⟨entries, f, hentries, h⟩ := gives_bind.mp h
    unfold listOf at h
    split at h
    · rename_i fields hfields
      obtain ⟨rfl, rfl⟩ := gives_pure.mp h
      exact ⟨entries, fields, rfl, hfields, hentries⟩
    · exact absurd h gives_refuse
  cases constraint with
  | some typ =>
      obtain ⟨first, e, hfirst, h⟩ := gives_bind.mp h
      obtain ⟨entries, fields, rfl, hfields, hentries⟩ := hlist h
      obtain ⟨hapart, hident, hforce⟩ := takesApart_of_typeParameter? hparameter
      cases hx with
      | name => cases hapart
      | expression hx =>
          have hor : d.current.kind ≠ .op .Or := by
            intro hor
            have hafter := hx.after
            rw [hor] at hafter
            exact absurd hafter (by decide)
          obtain ⟨rfl, rfl⟩ := by simpa [Grammar.completed, hor] using hfirst
          exact hg.parametersApart hs hx hapart hident (fun h => by simpa using hforce h) hentries
            hfields
  | none =>
      obtain ⟨first, e, hfirst, h⟩ := gives_bind.mp h
      obtain ⟨entries, fields, rfl, hfields, hentries⟩ := hlist h
      obtain ⟨rfl, hident⟩ := typeParameter?_ident hparameter
      have hclose : d.current.kind ≠ .op .RBrack := by simpa using hcond
      cases hx with
      | name hn hkind hread hbracket =>
          refine hg.parametersAfter hs (hg.entryAfterName hs hn hkind hread hfirst) hclose ?_ ?_ ?_
            hentries hfields
          all_goals
            rw [hbracket]
            decide
      | expression hx _ hname =>
          obtain ⟨q, n, rfl, hn⟩ : ∃ q n, x = .ident q (.text n) ∧ (⟨.ident, n⟩ : Lexeme).Whole := by
            have hbuilt := hx.built
            cases hbuilt with
            | ident hn => exact ⟨_, _, rfl, hn⟩
            | _ => cases hident
          have hread : Spans c (write n) 0 True d := hx.read.imp rfl fun _ => trivial
          have hcontinues := hname rfl
          simp only [TokenKind.continues, Bool.or_eq_false_iff, beq_eq_false_iff_ne] at hcontinues
          exact hg.parametersAfter hs (hg.entryAfterName hs hn (hx.start rfl) hread hfirst) hclose
            (Nat.lt_one_iff.mp hx.after) hcontinues.2 hcontinues.1.1 hentries hfields

-- A declaration after the opening bracket: type parameters or an array type.
theorem Sound.bracketedTypeSpec {q : Tree} {n : Text} (hg : g.Sound) (hs : -1 ≤ s.level)
    (hn : (⟨.ident, n⟩ : Lexeme).Whole) (hname : Spans c (write n) 0 True d)
    (hopen : d.current.kind = .op .LBrack)
    (h : (g.bracketedTypeSpec d.current.place (.ident q (.text n))).Gives s d.advance t c') :
    TypeSpecRead t c c' := by
  have hopen' := Spans.operator hname.valid hopen
  have hblank : Spans d (if false = true then operator .Assign else blank) 0 True d :=
    Spans.blank hname.valid
  simp only [Grammar.bracketedTypeSpec, gives_peek_bind] at h
  rcases gives_ite.mp h with ⟨-, h⟩ | ⟨hident, h⟩
  · obtain ⟨x, e, hx, h⟩ := gives_bind.mp h
    have hx' := hg.leadingExpression hs hopen'.valid hx
    simp only [gives_peek_bind] at h
    have harray : ∀ {typ : Tree}, (x.typeParameter? (e.current.kind == .op .Comma)).any
          (·.2.isSome) = false →
        (g.arrayElement d.current.place (some x)).Gives s e typ c' →
        TypeSpecRead (Grammar.plainSpec (.ident q (.text n)) typ false) c c' := by
      intro typ hparameter htyp
      obtain ⟨hclose, -⟩ := by simpa [Grammar.arrayElement] using htyp
      cases hx' with
      | name _ _ _ hbracket =>
          rw [hbracket] at hclose
          cases hclose
      | expression hx hindexed _ =>
          have hbuilt := hx.built
          rw [Scope.isFree_bracketed hs] at hbuilt
          obtain ⟨htyp', elt, rfl⟩ := hg.arrayElement (o := some x) hs hopen hopen'
            (by rintro u ⟨⟩; exact .length hbuilt) (.some hx.read hbuilt.isAbsent) htyp
          refine .plainSpec false hn hname hblank htyp' fun _ => ?_
          rw [hclose] at hparameter
          have hparameter' : (x.typeParameter? false).any (·.2.isSome) = false := hparameter
          simp [keepsLength, ofOption, hindexed, hparameter']
    split at h
    · rename_i parameter constraint hparameter
      rcases gives_ite.mp h with ⟨hcond, h⟩ | ⟨hcond, h⟩
      · obtain ⟨params, f, hparams, h⟩ := gives_bind.mp h
        have hparams' := hg.typeParametersAfter hs hx' hparameter hcond hparams
        exact hg.genericTail hs hn hname hopen hparams' h
      · obtain ⟨typ, htyp, rfl⟩ := by simpa using h
        refine harray ?_ htyp
        simp only [Bool.or_eq_true, not_or] at hcond
        rw [hparameter]
        simpa using hcond.1
    · rename_i hparameter
      obtain ⟨typ, htyp, rfl⟩ := by simpa using h
      exact harray (by rw [hparameter]; rfl) htyp
  · obtain ⟨typ, htyp, rfl⟩ := by simpa using h
    obtain ⟨o, e, ho, htyp⟩ := gives_bind.mp htyp
    obtain ⟨hbuilt, hread, hstart⟩ := hg.arrayLength hs hopen'.valid ho
    obtain ⟨htyp', elt, rfl⟩ := hg.arrayElement hs hopen hopen' hbuilt hread htyp
    refine .plainSpec false hn hname hblank htyp' fun _ => keepsLength_of_startsNamed ?_
    cases o with
    | none => rfl
    | some len =>
        cases hnamed : len.startsNamed with
        | false => exact hnamed
        | true => exact absurd (hstart len rfl hnamed) hident

theorem keepsLength_of_typeStart (h : t.typeStart ≠ .op .LBrack) : t.keepsLength = true := by
  unfold keepsLength
  split
  · exact absurd rfl h
  · rfl

-- The declaration of a type.
theorem Sound.typeSpecAfter {q : Tree} {n : Text} (hg : g.Sound) (hs : -1 ≤ s.level)
    (hn : (⟨.ident, n⟩ : Lexeme).Whole) (hname : Spans c (write n) 0 True d)
    (h : (g.typeSpecAfter (.ident q (.text n))).Gives s d t c') : TypeSpecRead t c c' := by
  simp only [Grammar.typeSpecAfter, gives_peek_bind] at h
  rcases gives_ite.mp h with ⟨hopen, h⟩ | ⟨hopen, h⟩
  · exact hg.bracketedTypeSpec hs hn hname hopen (gives_advance_bind.mp h)
  · rcases gives_got_bind.mp h with ⟨hassign, h⟩ | ⟨-, h⟩
    · obtain ⟨typ, htyp, rfl⟩ := by simpa using h
      have hassign' := Spans.operator hname.valid hassign
      exact .plainSpec true hn hname hassign' (hg.typeRule hs hassign'.valid htyp)
        (by simp)
    · obtain ⟨typ, htyp, rfl⟩ := by simpa using h
      have htyp' := hg.typeRule hs hname.valid htyp
      refine .plainSpec false hn hname (Spans.blank hname.valid) htyp' fun _ => ?_
      exact keepsLength_of_typeStart (htyp'.start ▸ hopen)

end GoCompact.Grammar
