import GoCompact.Proofs.Grammar.Mirror.Declaration
import GoCompact.Proofs.Layout.Placement
import GoCompact.Proofs.Reread.Declaration

namespace GoCompact

-- Whether an expression is taken apart depends on the constraint, but not on where it stands.
theorem Grammar.TakesApart.typeParameter?_of_bare {name x typ t : Tree}
    (h : Grammar.TakesApart name x typ) (hbare : typ.bare = t.bare) (hname : name.is .Ident = true)
    (force : Bool) :
    x.typeParameter? force =
      if force || !t.combinesWithName then some (name, some typ) else none := by
  have hcombines :=
    calc typ.combinesWithName
      _ = typ.bare.combinesWithName := (Relocation.forget.combinesWithName_tree typ).symm
      _ = t.bare.combinesWithName := by rw [hbare]
      _ = t.combinesWithName := Relocation.forget.combinesWithName_tree t
  rw [h.typeParameter?_eq hname, hcombines]

namespace Tree

open GoCompact.Parser GoCompact.Grammar Cursor
open Emission (Spells)

variable {n m : Nat} {s : Scope} {p q t x : Tree} {z : Text} {ls : List Lexeme}
  {P : TokenKind → Prop}

theorem gives_ident (hne : ls ≠ []) : Grammar.ident.Gives s (before (⟨.ident, z⟩ :: ls))
    (.ident .unknownPlace (.text z)) (before ls) := by
  obtain ⟨l, rest, rfl⟩ := List.exists_cons_of_ne_nil hne
  have hread : Grammar.ident.Takes s [⟨.ident, z⟩] _ fun _ => True := takes_ident
  exact hread l rest trivial

-- An expression that begins with a name is read after the name.
structure LeadReads (z : Text) (t : Tree) (ls : List Lexeme) : Prop where
  words : t.words = ⟨.ident, z⟩ :: ls
  climbs {n : Nat} {s : Scope} {l : Lexeme} (rest : List Lexeme) :
    Room (n + 1) s t.words.length 2 → s.isFree = true → l.kind.precedence ≤ t.precedence →
      t.Stops s l.kind → ∃ x ms,
        ((upTo n).primaryAfter (.ident .unknownPlace (.text z))).Gives s (before (ls ++ l :: rest)) x
          (before ms) ∧
        Climbs ((upTo n).binaryStep 1) s x ms t.bare (l :: rest)

theorem LeadReads.of_primary (h : t.PrimaryReads true) (hwords : t.words = ⟨.ident, z⟩ :: ls) :
    t.LeadReads z ls := by
  refine ⟨hwords, fun {n s l} rest hroom hfree _ hstops => ?_⟩
  obtain ⟨x, ms, hx, hclimbs⟩ := h.climbs rest hroom (fun _ => hfree) hstops.edge fun hbrace => by
    have htakes := (hstops.brace hbrace).2
    unfold takesBrace at htakes
    split at htakes <;> simp_all [Tree.is, kind?]
  rw [hwords] at hx
  -- What is read first is the name, and the tree grows from there.
  have hident : (upTo n).operand.Gives s (before (⟨.ident, z⟩ :: ls ++ l :: rest))
      (.ident .unknownPlace (.text z)) (before (ls ++ l :: rest)) :=
    gives_peek_bind.mpr (gives_ident (by simp))
  have hsame := Except.ok.inj (hident.symm.trans hx)
  rw [Prod.mk.injEq] at hsame
  have hpos := hclimbs.length_le
  obtain rfl := before_injective (by simp) (List.ne_nil_of_length_pos (by
    simp only [List.length_cons] at hpos
    omega)) hsame.2
  rw [← hsame.1] at hclimbs
  exact ⟨t.bare, l :: rest, hclimbs.grow (by simp) (primaryStep_of_stops hstops _), .refl⟩

-- Operators go on after what was read.
theorem LeadReads.binary {y : Tree} {o : Operator} (hx : x.LeadReads z ls) (hy : y.Reads true)
    (hspells : (x.emittedAs .expression).Spells x.words) (ho : 0 < o.precedence)
    (hleft : o.precedence ≤ x.precedence) (hright : o.precedence < y.precedence)
    (hedge : x.edge (.op o) = false) :
    (Tree.binary p x (.token (.op o)) y).LeadReads z (ls ++ .ofOperator o :: y.words) := by
  have hwords := words_of_spells (spells_binary (p := p) (o := o) hspells hy.spells)
  refine ⟨by rw [hwords, hx.words, List.cons_append], fun {n s l} rest hroom hfree hl hstops => ?_⟩
  rw [hwords] at hroom
  obtain ⟨u, ms, hu, hclimbs⟩ := hx.climbs (l := .ofOperator o) (y.words ++ l :: rest)
    (hroom.mono (by simp)) hfree hleft (stops_of_precedence ho hedge s)
  have hstep := hy.takes_right (p := p) (hroom.smaller (by
    have hpos : 0 < x.words.length := by simp [hx.words]
    simp
    omega) (by decide) 1) (fun _ => hfree) (Nat.succ_le_of_lt ho) hright x l rest
    ⟨hl, hstops.continues, hstops.brace, hstops.edge⟩
  rw [List.append_assoc]
  refine ⟨u, ms, hu, hclimbs.snoc hstep ?_⟩
  simp only [List.length_cons, List.length_append]
  omega

-- It is read unless a bracket follows the name.
theorem LeadReads.takes (h : t.LeadReads z ls) (hroom : Room (n + 1) s m 3)
    (hlength : t.words.length < m) (hbinds : 0 < t.precedence)
    (hbracket : Next (· ≠ .op .LBrack) ls fun k => k.precedence = 0 ∧ t.Stops s.bracketed k) :
    (upTo n).leadingExpression.Takes s t.words t.bare
      fun k => k.precedence = 0 ∧ t.Stops s.bracketed k := by
  rw [h.words]
  refine takes_ident_bind (takes_peek_next hbracket fun k hk => ?_)
  rw [if_neg hk]
  rintro l rest ⟨hprecedence, hstops⟩
  have hroom' : Room (n + 1) s.bracketed t.words.length 2 :=
    hroom.bracketed.smaller hlength (by decide) 2
  obtain ⟨x, ms, hx, hclimbs⟩ := h.climbs rest hroom' hroom.levels.isFree_bracketed (by omega) hstops
  refine hx.bind (hclimbs.grow (by simp) ?_)
  simp [binaryStep, hprecedence]

-- How the two are read and written.
structure JoinReads (z : Text) (t x : Tree) : Prop where
  lead : x.LeadReads z t.words
  spells : (x.emittedAs .expression).Spells x.words
  binds : 4 ≤ x.precedence
  constraint : (t.emittedAs .expression).Spells t.words
  begins : Begins (· ≠ .op .LBrack) t.words

-- The expression that a name is read as, together with the constraint after it.
inductive Joins (name : Tree) : Tree → Tree → Prop
  | star {p y : Tree} (hy : y.Reads true) (hbinary : y.is .BinaryExpr = false) :
      Joins name (.star p y) (.binary .unknownPlace name (.token (.op .Mul)) y)
  | paren {p y : Tree} (hy : y.Reads true) :
      Joins name (.paren p y) (.call .unknownPlace name (.tuple [y]) (.flag false))
  | union {p t x y : Tree} (h : Joins name t x) (hy : y.Reads true) (hbinds : 4 < y.precedence) :
      Joins name (.binary p t (.token (.op .Or)) y)
        (.binary .unknownPlace x (.token (.op .Or)) y)

namespace Joins

theorem takesApart {name : Tree} (h : Joins name t x) :
    ∃ u, TakesApart name x u ∧ u.bare = t.bare := by
  induction h with
  | @star p y => exact ⟨.star .unknownPlace y, .star, by simp⟩
  | @paren p y => exact ⟨.paren y.placeOf y, .call, by simp⟩
  | @union p t x y _ _ _ ih =>
      obtain ⟨u, hu, hbare⟩ := ih
      exact ⟨.binary .unknownPlace u (.token (.op .Or)) y, .union hu, by simp [hbare]⟩

-- It is taken apart before a comma, and also before a bracket if it can only be a constraint.
theorem typeParameter?_eq {name : Tree} (h : Joins name t x) (hname : name.is .Ident = true)
    {b : Bool} (hb : t.combinesWithName = true → b = true) :
    ∃ u, x.typeParameter? b = some (name, some u) ∧ u.bare = t.bare := by
  obtain ⟨u, hu, hbare⟩ := h.takesApart
  refine ⟨u, ?_, hbare⟩
  rw [hu.typeParameter?_of_bare hbare hname, if_pos]
  cases hcombines : t.combinesWithName with
  | true => simp [hb hcombines]
  | false => simp

theorem reads (h : Joins (.ident q (.text z)) t x) (hz : (⟨.ident, z⟩ : Lexeme).Whole) :
    JoinReads z t x := by
  have hname : (Tree.ident q (.text z)).Reads true := reads_ident hz q
  have hident := words_of_spells (spells_ident hz q)
  have hlead : (Tree.ident q (.text z)).LeadReads z [] :=
    .of_primary (hname.primary rfl) hident
  induction h with
  | @star p y hy hbinary =>
      have hwords := words_of_spells (spells_star (p := p) hy.spells)
      have hspells := spells_binary (p := .unknownPlace) (o := .Mul) hname.spells hy.spells
      refine ⟨?_, words_of_spells hspells ▸ hspells, show 4 ≤ 5 by decide,
        hwords ▸ spells_star hy.spells, hwords ▸ .cons (by decide) _⟩
      rw [hwords]
      refine hlead.binary hy hname.spells (by decide) (show 5 ≤ 6 by decide) ?_ rfl
      rw [precedence_of_is_binary hbinary]
      decide
  | @paren p y hy =>
      have hwords := words_of_spells (spells_paren (p := p) hy.spells)
      have hargs : ∀ t ∈ [y], t.Reads true := by simpa using hy
      have hcall : (Tree.call .unknownPlace (Tree.ident q (.text z)) (.tuple [y])
          (.flag false)).Reads true :=
        reads_call hname rfl rfl hargs nofun
      have hcallWords := words_of_spells (spells_call (p := .unknownPlace) hname.spells
        (fun t ht => (hargs t ht).spells) false)
      refine ⟨.of_primary (hcall.primary rfl) ?_, hcall.spells, show 4 ≤ 6 by decide,
        hwords ▸ spells_paren hy.spells, hwords ▸ .cons (by decide) _⟩
      rw [hcallWords, hident, hwords]
      simp [listed, dots]
  | @union p t x y h hy hbinds ih =>
      have hwords := words_of_spells (spells_binary (p := p) (o := .Or) ih.constraint hy.spells)
      have hspells := spells_binary (p := .unknownPlace) (o := .Or) ih.spells hy.spells
      refine ⟨?_, words_of_spells hspells ▸ hspells, Nat.le_refl 4,
        hwords ▸ spells_binary ih.constraint hy.spells, hwords ▸ ih.begins.append _⟩
      rw [hwords]
      exact ih.lead.binary hy ih.spells (by decide) ih.binds hbinds (edge_eq_false (by decide) rfl x)

end Joins

end Tree

namespace Grammar

open GoCompact.Tree GoCompact.Parser Cursor
open Emission (Spells)

variable {n m : Nat} {s : Scope} {z : Text} {e : Entry} {ls : List Lexeme} {P : TokenKind → Prop}

-- An entry after its name and what was read of its type.
def entryAfter (g : Grammar) (name : Tree) : Option Tree → Parser Entry
  | some typ => g.completed true ⟨some name, some typ⟩
  | none => g.entryAfterName true name

theorem typeParametersAfter_eq {g : Grammar} {place name : Tree} {o : Option Tree} :
    g.typeParametersAfter place name o = (g.entryAfter name o >>= fun first =>
      g.entriesAfter (.op .RBrack) true first >>= fun entries => listOf place entries) := by
  cases o <;> rfl

namespace Entry

-- The first type parameter is read as an expression as far as it is one. What comes after it decides
-- whether it is a parameter.
structure HeadReads (e : Entry) (P : TokenKind → Prop) : Prop where
  begins : Begins (· = .ident) e.words
  takes {n m : Nat} {s : Scope} : Room (n + 1) s m 3 → e.words.length < m →
    ∃ ls ms x Q, e.words = ls ++ ms ∧ (upTo n).leadingExpression.Takes s ls x Q ∧ Next Q ms P ∧
      ∀ k, Q k → ∃ name o, x.typeParameter? (k == .op .Comma) = some (name, o) ∧
        (o.isSome = true ∨ k ≠ .op .RBrack) ∧ ((upTo n).entryAfter name o).Takes s ms e.bare P

-- An entry that begins with a name is read after the name.
theorem Reads.afterName {c : Bool} (h : e.Reads c) (hwords : e.words = ⟨.ident, z⟩ :: ls)
    (hroom : Room (n + 1) s m 3) (hlength : e.words.length < m) :
    ((upTo n).entryAfterName c (.ident .unknownPlace (.text z))).Takes s ls e.bare
      (·.endsEntry = true) := by
  intro l rest hl
  have hread := h.takes hroom hlength l rest hl
  rw [hwords, entry, gives_peek_bind] at hread
  obtain ⟨name, d, hname, hread⟩ := gives_bind.mp hread
  have hident : Grammar.ident.Gives s (before (⟨.ident, z⟩ :: (ls ++ l :: rest))) _ _ :=
    gives_ident (by simp)
  have hsame := Except.ok.inj (hident.symm.trans hname)
  rw [Prod.mk.injEq] at hsame
  rw [hsame.1, hsame.2]
  exact hread

-- Kinds after a name with which it is not read as an expression.
def endsName (k : TokenKind) : Bool :=
  k == .op .LBrack || (!k.continues && k.precedence == 0 && k != .op .LBrace)

-- Before a bracket only the name is read.
theorem takes_leadingBracket {g : Grammar} :
    g.leadingExpression.Takes s [⟨.ident, z⟩] (.ident .unknownPlace (.text z)) (· = .op .LBrack) := by
  refine takes_ident_bind (takes_peek_next (.nil fun _ h => h) fun k hk => ?_)
  rw [if_pos hk]
  exact takes_pure rfl

theorem takes_leadingName (hz : (⟨.ident, z⟩ : Lexeme).Whole) (hroom : Room (n + 1) s m 3)
    (hm : 1 < m) :
    (upTo n).leadingExpression.Takes s [⟨.ident, z⟩] (.ident .unknownPlace (.text z))
      (endsName · = true) := by
  intro l rest hl
  by_cases hbracket : l.kind = .op .LBrack
  · exact takes_leadingBracket l rest hbracket
  simp only [endsName, beq_false_of_ne hbracket, Bool.false_or, Bool.and_eq_true,
    Bool.not_eq_true', beq_iff_eq, bne_iff_ne] at hl
  obtain ⟨⟨hcontinues, hprecedence⟩, hbrace⟩ := hl
  have hname : (Tree.ident .unknownPlace (.text z)).Reads true := reads_ident hz _
  have hident := words_of_spells (spells_ident hz .unknownPlace)
  have hlead := LeadReads.of_primary (hname.primary rfl) hident
  have hread := hlead.takes (s := s) hroom (by simpa [hident] using hm) (show 0 < 6 by decide)
    (.nil ?_)
  · rw [hident] at hread
    exact hread l rest ⟨hprecedence, hcontinues, fun h => absurd h hbrace, rfl⟩
  · rintro k ⟨-, hstops⟩ rfl
    exact absurd hstops.continues (by decide)

-- A name that is not read as an expression with what follows.
theorem HeadReads.of_name (h : e.Reads true) (hz : (⟨.ident, z⟩ : Lexeme).Whole)
    (hwords : e.words = ⟨.ident, z⟩ :: ls)
    (hnext : Next (fun k => endsName k = true ∧ k ≠ .op .RBrack) ls P)
    (hP : ∀ k, P k → k.endsEntry = true) : e.HeadReads P where
  begins := ⟨_, _, hwords, rfl⟩
  takes {n m s} hroom hlength := by
    refine ⟨[⟨.ident, z⟩], ls, .ident .unknownPlace (.text z),
      fun k => endsName k = true ∧ k ≠ .op .RBrack, hwords, ?_, hnext, fun k hk => ?_⟩
    · refine (takes_leadingName hz hroom ?_).mono fun k hk => hk.1
      simp only [hwords, List.length_cons] at hlength
      omega
    · exact ⟨_, none, rfl, .inr hk.2, (h.afterName hwords hroom hlength).mono hP⟩

-- A name and a constraint that are read as one expression.
theorem HeadReads.of_joins {p q t x : Tree} (h : Joins (.ident p (.text z)) t x)
    (hz : (⟨.ident, z⟩ : Lexeme).Whole) (hP : ∀ k, P k → k = .op .Comma ∨ k = .op .RBrack)
    (hcombines : t.combinesWithName = true → ∀ k, P k → k = .op .Comma) :
    Entry.HeadReads ⟨some (.ident q (.text z)), some t⟩ P := by
  have hjoin := h.reads hz
  have hwords : words ⟨some (.ident q (.text z)), some t⟩ = ⟨.ident, z⟩ :: t.words :=
    (((Spells.write hz).append (.blank true)).append hjoin.constraint).words
  have hcloses : ∀ k, P k → k.closes = true := fun k hk => by
    rcases hP k hk with rfl | rfl <;> rfl
  refine ⟨⟨_, _, hwords, rfl⟩, fun {n m s} hroom hlength => ?_⟩
  refine ⟨x.words, [], x.bare, P, by rw [hwords, hjoin.lead.words, List.append_nil], ?_,
    .nil fun _ h => h, fun k hk => ?_⟩
  · have hbinds := hjoin.binds
    have hread := hjoin.lead.takes (s := s) hroom (by rwa [hjoin.lead.words, ← hwords]) (by omega)
      hjoin.begins.next
    exact hread.mono fun k hk =>
      ⟨precedence_of_closes (hcloses k hk), stops_of_closes (hcloses k hk) _ _⟩
  · obtain ⟨u, hu, hbare⟩ := h.typeParameter?_eq rfl (b := k == .op .Comma)
      fun hc => by simp [hcombines hc k hk]
    refine ⟨_, _, by rw [Relocation.typeParameter?_tree, hu]; rfl, .inl rfl, ?_⟩
    refine takes_peek_next (.nil fun _ h => h) fun j hj => ?_
    have hor : j ≠ .op .Or := by rcases hP j hj with rfl | rfl <;> decide
    rw [if_neg (by simpa using hor)]
    exact takes_pure (by simp [bare, hbare])

-- The commas after the first entry, and the entries between them. One may stand after the last entry.
def afterHead (entries : List Entry) (trailing : Bool) : List Lexeme :=
  afterComma (entries.map words) ++ if trailing then [.ofOperator .Comma] else []

theorem takes_entriesAfter (e : Entry) {es : List Entry} {trailing : Bool} (h : ∀ e ∈ es, e.Reads true)
    (htrailing : trailing = true → es = []) (hroom : Room (n + 1) s m 3)
    (hlength : (afterHead es trailing).length < m) :
    ((upTo n).entriesAfter (.op .RBrack) true e).Takes s (afterHead es trailing)
      (e :: es.map bare) (· = .op .RBrack) := by
  by_cases hnone : es = [] ∧ trailing = false
  · obtain ⟨rfl, rfl⟩ := hnone
    refine takes_not_got (.nil ?_) (takes_pure rfl)
    rintro k rfl
    decide
  have hcomma : afterHead es trailing = .ofOperator .Comma :: listed (es.map words) := by
    cases es with
    | nil =>
        obtain rfl : trailing = true := by simpa using hnone
        rfl
    | cons e' es =>
        obtain rfl : trailing = false := by
          cases trailing with
          | false => rfl
          | true => cases htrailing rfl
        simp [afterHead, listed]
  rw [hcomma, List.length_cons] at hlength
  rw [hcomma]
  have hread := takes_entries (s := s) h (.inr rfl) hroom (by omega)
  exact takes_got_bind rfl (hread.bind_nil (takes_pure rfl))

-- The first entry is read, and then the others.
theorem HeadReads.takes_bracketed {place name t : Tree} {ms : List Lexeme} {R : TokenKind → Prop}
    (h : e.HeadReads P) (hroom : Room (n + 1) s m 3) (hlength : e.words.length < m)
    (hnext : Next P ms R)
    (hrest : (((upTo n).entriesAfter (.op .RBrack) true e.bare >>= fun entries =>
      listOf place entries) >>= fun params => (upTo n).genericTail name params).Takes s ms t R) :
    ((upTo n).bracketedTypeSpec place name).Takes s (e.words ++ ms) t R := by
  obtain ⟨ls, us, x, Q, hwords, hlead, hQ, hdecide⟩ := h.takes (s := s) hroom hlength
  refine takes_peek_next ((h.begins.append ms).next) ?_
  rintro k rfl
  rw [if_pos rfl, hwords, List.append_assoc]
  refine hlead.bind (hQ.append hnext) (takes_peek_next (hQ.append hnext) fun k hk => ?_)
  obtain ⟨head, o, hparameter, hgeneric, hentry⟩ := hdecide k hk
  rw [hparameter]
  dsimp only
  rw [if_pos (by simpa using hgeneric), typeParametersAfter_eq, bind_assoc]
  exact hentry.bind hnext hrest

end Entry

end Grammar

namespace Tree

open GoCompact.Parser GoCompact.Grammar Cursor
open Emission (Spells)

variable {n m : Nat} {s : Scope} {p name typ params : Tree} {fields : List Tree} {isAlias : Bool}

-- The lexemes of type parameters in brackets, with the comma that keeps them from being a length.
def headWords (t : Tree) : List Lexeme :=
  t.listWords ++ if t.readsAsLength then [.ofOperator .Comma] else []

-- Type parameters are read after the name of a type, up to the closing bracket.
structure HeadReads (t : Tree) : Prop where
  spells : (t.emittedAs (.fieldList ",")).Spells t.listWords
  takes {n m : Nat} {s : Scope} {name u : Tree} {ms : List Lexeme} {P : TokenKind → Prop} :
    Room (n + 1) s m 3 → t.headWords.length < m → Begins (· = .op .RBrack) ms →
    ((upTo n).genericTail name t.bare).Takes s ms u P →
    ((upTo n).bracketedTypeSpec .unknownPlace name).Takes s (t.headWords ++ ms) u P

-- What comes after the first entry.
def headEnd (es : List Grammar.Entry) (trailing : Bool) : TokenKind :=
  if es.isEmpty && !trailing then .op .RBrack else .op .Comma

-- The first entry need not be read by itself.
theorem headReads_fieldList {e : Grammar.Entry} {es : List Grammar.Entry}
    (h : Collects (e :: es) fields) (hspells : e.emitted.Spells e.words)
    (hreads : ∀ e ∈ es, e.Reads true)
    (htrailing : (Tree.fieldList p (.tuple fields)).readsAsLength = true → es = [])
    (hhead : e.HeadReads (· = headEnd es (Tree.fieldList p (.tuple fields)).readsAsLength)) :
    (Tree.fieldList p (.tuple fields)).HeadReads := by
  have hspells' := h.spells (p := p)
    (List.forall_mem_cons.mpr ⟨hspells, fun e he => (hreads e he).spells⟩)
  have hlist : (Tree.fieldList p (.tuple fields)).listWords = _ := hspells'.words
  refine ⟨hlist ▸ hspells', fun {n m s name u ms P} hroom hlength hms htail => ?_⟩
  have hgathered := h.takes_listOf (p := p) (s := s) (P := (· = .op .RBrack))
  rw [List.map_cons] at hgathered
  have hwords : (Tree.fieldList p (.tuple fields)).headWords =
      e.words ++ Grammar.Entry.afterHead es (Tree.fieldList p (.tuple fields)).readsAsLength := by
    rw [headWords, hlist, List.map_cons, listed, Grammar.Entry.afterHead, List.append_assoc]
  rw [hwords, List.length_append] at hlength
  rw [hwords, List.append_assoc]
  generalize (Tree.fieldList p (.tuple fields)).readsAsLength = trailing at hhead hlength htrailing
  have hafter := Grammar.Entry.takes_entriesAfter (s := s) e.bare hreads htrailing hroom (by omega)
  refine hhead.takes_bracketed hroom (by omega) ?_ ?_
  · cases es with
    | cons e' es =>
        rw [Grammar.Entry.afterHead, List.map_cons, afterComma_cons, List.cons_append,
          List.cons_append]
        exact .cons (by rfl) _
    | nil =>
        cases trailing with
        | true => exact .cons (by rfl) _
        | false => exact hms.next
  · exact (hafter.bind_nil hgathered).bind hms.next htail

-- The constraint of the only name of the first field: the name is read together with it as one
-- expression, or as a name before it.
inductive HeadType (t : Tree) : Prop
  | joined (h : ∀ {q : Tree} {z : Text}, ∃ x, Joins (.ident q (.text z)) t x)
  | apart (hafter : t.AfterNameReads true)
      (h : Begins (fun k => Grammar.Entry.endsName k = true ∧ k ≠ .op .RBrack) t.words)

theorem headEnd_cases (es : List Grammar.Entry) (trailing : Bool) :
    headEnd es trailing = .op .Comma ∨ headEnd es trailing = .op .RBrack := by
  unfold headEnd
  split <;> simp

theorem headEnd_of_trailing (es : List Grammar.Entry) : headEnd es true = .op .Comma := by
  simp [headEnd]

theorem headEnd_of_ne_nil {es : List Grammar.Entry} (h : es ≠ []) (trailing : Bool) :
    headEnd es trailing = .op .Comma := by
  simp [headEnd, h]

-- A name by itself, which a comma comes after.
theorem headReads_name {q : Tree} {z : Text} (hz : (⟨.ident, z⟩ : Lexeme).Whole) :
    Grammar.Entry.HeadReads ⟨some (.ident q (.text z)), none⟩ (· = .op .Comma) := by
  refine .of_name (Grammar.Entry.reads_name hz) hz (Spells.write hz).words (.nil ?_) ?_
  · rintro k rfl
    exact ⟨rfl, nofun⟩
  · rintro k rfl
    rfl

-- A name with its constraint, if a comma comes after a constraint that could be part of a length.
theorem HeadType.reads {t q : Tree} {z : Text} {k : TokenKind} (h : t.HeadType)
    (hz : (⟨.ident, z⟩ : Lexeme).Whole) (hk : k = .op .Comma ∨ k = .op .RBrack)
    (hcombines : t.combinesWithName = true → k = .op .Comma) :
    Grammar.Entry.HeadReads ⟨some (.ident q (.text z)), some t⟩ (· = k) := by
  cases h with
  | joined h =>
      obtain ⟨x, hx⟩ := h (q := q) (z := z)
      refine .of_joins hx hz ?_ fun hc => ?_
      · rintro j rfl
        exact hk
      · rintro j rfl
        exact hcombines hc
  | apart hafter h =>
      have hwords := (((Spells.write hz).append (.blank true)).append hafter.spells).words
      refine .of_name (Grammar.Entry.reads_both hz hafter) hz hwords h.next ?_
      rintro j rfl
      rcases hk with rfl | rfl <;> rfl

theorem HeadType.spells {t q : Tree} {z : Text} (h : t.HeadType) (hz : (⟨.ident, z⟩ : Lexeme).Whole) :
    (Grammar.Entry.emitted ⟨some (.ident q (.text z)), some t⟩).Spells
      (Grammar.Entry.words ⟨some (.ident q (.text z)), some t⟩) := by
  have ht : (t.emittedAs .expression).Spells t.words := by
    cases h with
    | joined h =>
        obtain ⟨x, hx⟩ := h (q := q) (z := z)
        exact (hx.reads hz).constraint
    | apart hafter => exact hafter.spells
  exact ⟨(((Spells.write hz).append (.blank true)).append ht).fault, rfl⟩

theorem flatMap_fieldEntries_eq_nil {c : Bool} (h : ∀ t ∈ fields, NamedField c t) :
    fields.flatMap fieldEntries = [] ↔ fields = [] := by
  cases fields with
  | nil => simp
  | cons f fields =>
      have hany := isComplete_fieldEntries (h f (by simp)).isNamedField
      have hne : f.fieldEntries ≠ [] := by
        intro hnil
        simp [hnil] at hany
      simp [hne]

-- Type parameters of which the first has a name of its own.
theorem headReads_lone {q name t : Tree} (hname : Built .name name) (ht : t.HeadType)
    (h : ∀ f ∈ fields, NamedField true f) :
    (Tree.fieldList p (.tuple (.field q (.tuple [name]) t .absent :: fields))).HeadReads := by
  cases hname with
  | @name r z hz =>
      have hlone : (Tree.fieldList p (.tuple (.field q (.tuple [.ident r (.text z)]) t .absent ::
          fields))).readsAsLength = (fields.isEmpty && t.combinesWithName) := by
        rw [readsAsLength_fieldList]
        cases fields <;> rfl
      have hnil := flatMap_fieldEntries_eq_nil h
      have hall : ∀ f ∈ Tree.field q (.tuple [.ident r (.text z)]) t .absent :: fields,
          f.isNamedField = true :=
        List.forall_mem_cons.mpr ⟨rfl, fun f hf => (h f hf).isNamedField⟩
      have hcollects := collects_named hall
      refine headReads_fieldList hcollects (ht.spells hz) (lists_named h).reads (fun htrailing => ?_) ?_
      · simp only [hlone, Bool.and_eq_true, List.isEmpty_iff] at htrailing
        exact hnil.mpr htrailing.1
      refine ht.reads hz (headEnd_cases _ _) fun hcombines => ?_
      rw [hlone, hcombines, Bool.and_true]
      by_cases hfields : fields = []
      · rw [hfields]
        exact headEnd_of_trailing _
      · exact headEnd_of_ne_nil (fun h => hfields (hnil.mp h)) _

-- Type parameters with names.
theorem headReads_named {f : Tree} (h : ∀ t ∈ f :: fields, NamedField true t)
    (hhead : ∀ q name t, f = .field q (.tuple [name]) t .absent → t.HeadType) :
    (Tree.fieldList p (.tuple (f :: fields))).HeadReads := by
  obtain ⟨hf, hfields⟩ := List.forall_mem_cons.mp h
  cases hf with
  | @mk q t names hne hnames hafter =>
      match names with
      | [] => exact absurd rfl hne
      | [name] => exact headReads_lone (hnames name (by simp)) (hhead q name t rfl) hfields
      | name :: other :: rest =>
          have hlists := lists_named h
          rw [List.flatMap_cons] at hlists
          cases hnames name (by simp) with
          | @name r z hz =>
              refine headReads_fieldList hlists.toCollects (hlists.reads _ (.head _)).spells
                (fun e he => hlists.reads e (List.mem_cons_of_mem _ he)) (fun htrailing => ?_) ?_
              · rw [readsAsLength_fieldList] at htrailing
                cases htrailing
              · rw [headEnd_of_ne_nil (by simp)]
                exact headReads_name hz

-- The type after the name, the parameters and perhaps an equals sign.
def markWords (isAlias : Bool) : List Lexeme := if isAlias then [.ofOperator .Assign] else []

theorem typeStart_ne_assign (t : Tree) : t.typeStart ≠ .op .Assign := by
  rcases t.typeStart_cases with h | h | h | h | h | h | h | h | h | h <;> rw [h] <;> decide

theorem takes_markedType {f : Bool → Tree → Tree} (isAlias : Bool) (htyp : typ.TypeReads)
    (hroom : Room (n + 1) s m 3) (hlength : typ.words.length < m) :
    (got (.op .Assign) >>= fun isAlias => (upTo n).typeRule >>= fun typ =>
      pure (f isAlias typ)).Takes s (markWords isAlias ++ typ.words) (f isAlias typ.bare)
      fun k => k = .op .Semicolon ∨ closesStatement k = true := by
  have hread : (upTo n).typeRule.Takes s typ.words typ.bare (typ.absorbs · = false) :=
    htyp.takes_type (n := n + 1) (hroom.smaller hlength (by decide) 2)
  have htype : ((upTo n).typeRule >>= fun typ => pure (f isAlias typ)).Takes s typ.words
      (f isAlias typ.bare) fun k => k = .op .Semicolon ∨ closesStatement k = true :=
    (hread.mono fun k hk => absorbs_of_ending hk typ).bind_nil (takes_pure rfl)
  cases isAlias with
  | true => exact takes_got_bind rfl htype
  | false =>
      refine takes_not_got (htyp.begins.next.mono ?_) htype
      rintro k rfl
      exact typeStart_ne_assign typ

theorem takes_genericTail {z : Tree} (params : Tree) (isAlias : Bool) (htyp : typ.TypeReads)
    (hroom : Room (n + 1) s m 3) (hlength : typ.words.length < m) :
    ((upTo n).genericTail (.ident .unknownPlace z) params).Takes s
      (.ofOperator .RBrack :: (markWords isAlias ++ typ.words))
      (.typeSpec .unknownPlace (.ident .unknownPlace z) typ.bare params (.flag isAlias))
      fun k => k = .op .Semicolon ∨ closesStatement k = true :=
  takes_discard_expect rfl (takes_markedType isAlias htyp hroom hlength)

theorem spells_mark (isAlias plain : Bool) :
    (if isAlias then Emission.operator .Assign else .when plain .blank).Spells (markWords isAlias) := by
  cases isAlias with
  | true => exact .operator .Assign
  | false => exact .blank plain

theorem spells_comma (condition : Bool) : (Emission.when condition (.operator .Comma)).Spells
    (if condition then [.ofOperator .Comma] else []) := by
  cases condition with
  | true => exact .operator .Comma
  | false => exact .nothing

theorem HeadReads.isAbsent (h : params.HeadReads) : params.isAbsent = false := by
  unfold Tree.isAbsent
  split
  · cases h.spells.fault
  · rfl

-- A type declaration is read after its name.
theorem SpecReads.of_typeSpec {z : Text} {typeParams : Tree} (ls : List Lexeme)
    (hspells : ((Tree.typeSpec p (.ident name (.text z)) typ typeParams (.flag isAlias)).emittedAs
      .spec).Spells (⟨.ident, z⟩ :: ls))
    (h : ∀ ⦃n m : Nat⦄ ⦃s : Scope⦄, Room (n + 1) s m 3 → ls.length + 1 < m →
      ((upTo n).typeSpecAfter (.ident .unknownPlace (.text z))).Takes s ls
        (Tree.typeSpec p (.ident name (.text z)) typ typeParams (.flag isAlias)).bare
        fun k => k = .op .Semicolon ∨ closesStatement k = true) :
    (Tree.typeSpec p (.ident name (.text z)) typ typeParams (.flag isAlias)).SpecReads .Type := by
  have hwords : specWords _ = _ := hspells.words
  refine ⟨hwords ▸ hspells, hwords ▸ .cons (by simp) _, fun {n m s tail P} hroom hlength _ hending => ?_⟩
  rw [hwords] at hlength ⊢
  rw [List.length_cons] at hlength
  have hread := h hroom hlength
  refine takes_ident_bind (hread.bind hending.next ?_)
  exact hending.takes_expectEnd (takes_pure rfl)

theorem spells_plainSpec {q : Tree} {z : Text} (hz : (⟨.ident, z⟩ : Lexeme).Whole)
    (htyp : (typ.emittedAs .expression).Spells typ.words) :
    ((Tree.typeSpec p (.ident q (.text z)) typ .absent (.flag isAlias)).emittedAs .spec).Spells
      (⟨.ident, z⟩ :: (markWords isAlias ++ typ.words)) := by
  rw [emitted_typeSpec]
  exact ((((Spells.write hz).append .nothing).append (spells_mark isAlias _)).append htyp).of_eq
    (by simp)

-- An alias of a type, or a type that begins with no bracket.
theorem reads_plainSpec (hname : Built .name name) (htyp : typ.TypeReads)
    (hspells : (typ.emittedAs .expression).Spells typ.words)
    (hstart : isAlias = false → typ.typeStart ≠ .op .LBrack) :
    (Tree.typeSpec p name typ .absent (.flag isAlias)).SpecReads .Type := by
  cases hname with
  | @name _ z hz =>
      refine .of_typeSpec _ (spells_plainSpec hz hspells) fun n m s hroom hlength => ?_
      rw [List.length_append] at hlength
      have hread := takes_markedType (s := s)
        (f := fun isAlias typ => plainSpec (.ident .unknownPlace (.text z)) typ isAlias) isAlias
        htyp hroom (by omega)
      refine takes_peek_next (Q := (· ≠ .op .LBrack)) ?_ fun k hk => ?_
      · cases isAlias with
        | true => exact .cons (by decide) _
        | false =>
            refine htyp.begins.next.mono ?_
            rintro k rfl
            exact hstart rfl
      · rw [if_neg hk]
        exact hread

theorem spells_genericSpec {q : Tree} {z : Text} (hz : (⟨.ident, z⟩ : Lexeme).Whole)
    (htyp : (typ.emittedAs .expression).Spells typ.words) (hparams : params.HeadReads) :
    ((Tree.typeSpec p (.ident q (.text z)) typ params (.flag isAlias)).emittedAs .spec).Spells
      (⟨.ident, z⟩ :: .ofOperator .LBrack :: (params.headWords ++
        .ofOperator .RBrack :: (markWords isAlias ++ typ.words))) := by
  rw [emitted_typeSpec, emittedIf_of hparams.isAbsent]
  exact ((((Spells.write hz).append ((((Spells.operator _).append hparams.spells).append
    (spells_comma _)).append (.operator _))).append (spells_mark isAlias _)).append htyp).of_eq
      (by simp [headWords])

-- A type with type parameters.
theorem reads_genericSpec (hname : Built .name name) (htyp : typ.TypeReads)
    (hspells : (typ.emittedAs .expression).Spells typ.words) (hparams : params.HeadReads) :
    (Tree.typeSpec p name typ params (.flag isAlias)).SpecReads .Type := by
  cases hname with
  | @name _ z hz =>
      refine .of_typeSpec _ (spells_genericSpec hz hspells hparams) fun n m s hroom hlength => ?_
      simp only [List.length_cons, List.length_append] at hlength
      have htail := takes_genericTail (s := s) (z := .text z) params.bare isAlias htyp hroom
        (by omega)
      have hread := hparams.takes hroom (by omega) (.cons (by rfl) _) htail
      refine takes_peek_bind ?_
      rw [if_pos (Lexeme.kind_ofOperator _)]
      exact takes_advance_bind (by simpa using hread)

end Tree

end GoCompact
