import GoCompact.Proofs.Reread.TypeHead
import GoCompact.Proofs.Reread.Literal

namespace GoCompact

namespace Tree

open GoCompact.Parser GoCompact.Grammar Cursor
open Emission (Spells)

variable {b c : Bool} {p q t x y : Tree} {z : Text} {ls : List Lexeme}

-- What is read wherever it stands is read where a brace may follow.
theorem Reads.free (h : t.Reads b) : t.Reads true where
  spells := h.spells
  begins := h.begins
  binds := h.binds
  binary _ _ _ _ rest hroom hfree := h.binary rest hroom fun _ => hfree rfl
  unary hbinary _ _ hroom hfree := h.unary hbinary hroom fun _ => hfree rfl
  primary hprimary :=
    { begins := (h.primary hprimary).begins
      climbs := fun rest hroom hfree => (h.primary hprimary).climbs rest hroom fun _ => hfree rfl }
  type := h.type

-- An expression that begins with a name is read after the name.
structure NameReads (t : Tree) : Prop where
  lead {z : Text} {ls : List Lexeme} : t.words = ⟨.ident, z⟩ :: ls → t.LeadReads z ls
  follows {z : Text} {ls : List Lexeme} : t.words = ⟨.ident, z⟩ :: ls →
    (t.is .Ident = true ∧ ls = []) ∨
      Begins (fun k => t.startsIndexed = false → k ≠ .op .LBrack) ls

namespace NameReads

theorem of_begins (h : Begins (· ≠ .ident) t.words) : t.NameReads := by
  obtain ⟨l, rest, hl, hkind⟩ := h
  have hno : ∀ {z : Text} {ls : List Lexeme}, t.words ≠ ⟨.ident, z⟩ :: ls := by
    intro z ls hwords
    rw [hl, List.cons.injEq] at hwords
    exact hkind (hwords.1 ▸ rfl)
  exact ⟨fun hwords => absurd hwords hno, fun hwords => absurd hwords hno⟩

theorem ident (hz : (⟨.ident, z⟩ : Lexeme).Whole) : (Tree.ident p (.text z)).NameReads := by
  have hreads : (Tree.ident p (.text z)).Reads true := reads_ident hz p
  have hident := words_of_spells (spells_ident hz p)
  refine ⟨fun hwords => .of_primary (hreads.primary rfl) hwords, fun hwords => .inl ⟨rfl, ?_⟩⟩
  rw [hident, List.cons.injEq] at hwords
  exact hwords.2.symm

-- One step more after an operand.
theorem after {l : Lexeme} {rest : List Lexeme} (hx : x.NameReads) (hpos : x.words ≠ [])
    (h : t.PrimaryReads true) (hwords : t.words = x.words ++ l :: rest)
    (hstarts : t.startsIndexed = false →
      x.startsIndexed = false ∧ (x.is .Ident = true → l.kind ≠ .op .LBrack)) : t.NameReads := by
  refine ⟨fun ht => .of_primary h ht, fun {z ls} ht => .inr ?_⟩
  obtain ⟨m, ms, hm⟩ := List.exists_cons_of_ne_nil hpos
  rw [hwords, hm, List.cons_append, List.cons.injEq] at ht
  obtain ⟨rfl, rfl⟩ := ht
  rcases hx.follows hm with ⟨hident, rfl⟩ | hbegins
  · exact .cons (fun ht => (hstarts ht).2 hident) _
  · exact (hbegins.mono fun k hk ht => hk (hstarts ht).1).append _

theorem binary {o : Operator} (hx : x.NameReads) (hpos : x.words ≠ []) (hy : y.Reads true)
    (hspells : (x.emittedAs .expression).Spells x.words) (ho : 0 < o.precedence)
    (hleft : o.precedence ≤ x.precedence) (hright : o.precedence < y.precedence)
    (hedge : x.edge (.op o) = false) : (Tree.binary p x (.token (.op o)) y).NameReads := by
  have hwords := words_of_spells (spells_binary (p := p) (o := o) hspells hy.spells)
  obtain ⟨m, ms, hm⟩ := List.exists_cons_of_ne_nil hpos
  constructor
  · intro z ls ht
    rw [hwords, hm, List.cons_append, List.cons.injEq] at ht
    obtain ⟨rfl, rfl⟩ := ht
    exact (hx.lead hm).binary hy hspells ho hleft hright hedge
  · intro z ls ht
    rw [hwords, hm, List.cons_append, List.cons.injEq] at ht
    obtain ⟨rfl, rfl⟩ := ht
    rcases hx.follows hm with ⟨-, rfl⟩ | hbegins
    · refine .inr (.cons (fun _ hbracket => ?_) _)
      have hkind : o = .LBrack := by simpa using hbracket
      subst hkind
      cases ho
    · exact .inr (hbegins.append _)

theorem keptLength (h : t.NameReads) (hstarts : t.startsIndexed = false)
    (hparameter : (t.typeParameter? false).any (·.2.isSome) = false) : t.KeptLength where
  lead := h.lead
  next hwords l hl := by
    rcases h.follows hwords with ⟨-, rfl⟩ | ⟨m, ms, rfl, hm⟩
    · cases hl
    · obtain rfl := Option.some.inj hl
      exact hm hstarts
  parameter := hparameter

end NameReads

-- A type that is read by itself after the name of a type parameter.
theorem TypeReads.headType (h : t.TypeReads) (hspells : (t.emittedAs .expression).Spells t.words)
    (hstar : t.typeStart ≠ .op .Mul) (hparen : t.typeStart ≠ .op .LParen) : t.HeadType := by
  refine .apart (.of_type h hspells) (h.begins.mono ?_)
  rintro k rfl
  rcases t.typeStart_cases with hk | hk | hk | hk | hk | hk | hk | hk | hk | hk <;>
    first | exact absurd hk hstar | exact absurd hk hparen | rw [hk]; exact ⟨rfl, nofun⟩

-- One term more.
theorem HeadType.union (hx : x.HeadType) (hspells : (x.emittedAs .expression).Spells x.words)
    (hunion : (Tree.binary p x (.token (.op .Or)) y).UnionReads) (hy : y.Reads true)
    (hbinds : 4 < y.precedence) : (Tree.binary p x (.token (.op .Or)) y).HeadType := by
  cases hx with
  | joined h =>
      refine .joined fun {q z} => ?_
      obtain ⟨u, hu⟩ := h (q := q) (z := z)
      exact ⟨_, hu.union hy hbinds⟩
  | apart _ h =>
      refine .apart (.of_union hunion) ?_
      rw [words_of_spells (spells_binary (p := p) (o := .Or) hspells hy.spells)]
      exact h.append _

-- A tree as a type, as a term, and as a union.
structure ConstraintReads (t : Tree) : Prop where
  type : t.isType = true → t.TypeReads
  indexed : t.isIndexed = true → t.InstanceReads
  term : t.isTerm = true → t.TermReads
  union : t.isUnion = true →
    ∃ x ls, x.TermReads ∧ Extends x t ls ∧ (x.is .Ident = true → Built .name x)
  leads : t.leadsIndexed = true → ∃ u ls, u.InstanceReads ∧ Extends u t ls
  head : t.isUnion = true → t.HeadType

theorem isTerm_of_not_unary (h : t.is .UnaryExpr = false) : t.isTerm = t.isType := by
  unfold isTerm
  split
  · cases h
  · rfl

theorem isUnion_of_not_binary (h : t.is .BinaryExpr = false) : t.isUnion = t.isTerm := by
  unfold isUnion
  split
  · cases h
  · rfl

theorem leadsIndexed_of_not_binary (h : t.is .BinaryExpr = false) :
    t.leadsIndexed = t.isIndexed := by
  unfold leadsIndexed
  split
  · cases h
  · rfl

theorem is_binary_of_isTerm (h : t.isTerm = true) : t.is .BinaryExpr = false := by
  unfold isTerm at h
  split at h
  · rfl
  · exact is_binary_of_isType h

theorem UnionReads.of_extends (h : ∃ x ls, x.TermReads ∧ Extends x t ls ∧
    (x.is .Ident = true → Built .name x)) : t.UnionReads := by
  obtain ⟨x, ls, hx, hextends, -⟩ := h
  exact ⟨x, ls, hx, hextends⟩

namespace ConstraintReads

-- What is no union of several terms and has no tilde.
theorem of_type (hspells : (t.emittedAs .expression).Spells t.words)
    (hbinary : t.is .BinaryExpr = false) (hunary : t.is .UnaryExpr = false)
    (hname : t.is .Ident = true → Built .name t) (htype : t.isType = true → t.TypeReads)
    (hindexed : t.isIndexed = true → t.InstanceReads) (hhead : t.isType = true → t.HeadType) :
    t.ConstraintReads := by
  have hterm := isTerm_of_not_unary hunary
  have hunion := (isUnion_of_not_binary hbinary).trans hterm
  have hread : t.isType = true → t.TermReads := fun h => .type (htype h) hspells
  refine ⟨htype, hindexed, fun h => hread (hterm ▸ h), fun h => ?_, fun h => ?_,
    fun h => hhead (hunion ▸ h)⟩
  · exact ⟨t, [], hread (hunion ▸ h), .refl hspells, hname⟩
  · exact ⟨t, [], hindexed (leadsIndexed_of_not_binary hbinary ▸ h), .refl hspells⟩

-- A type that begins with neither a star nor a parenthesis.
theorem of_reads (h : t.Reads b) (hbinary : t.is .BinaryExpr = false)
    (hunary : t.is .UnaryExpr = false) (hname : t.is .Ident = true → Built .name t)
    (hindexed : t.isIndexed = true → t.InstanceReads) (hstar : t.typeStart ≠ .op .Mul)
    (hparen : t.typeStart ≠ .op .LParen) : t.ConstraintReads :=
  .of_type h.spells hbinary hunary hname h.type hindexed fun htype =>
    (h.type htype).headType h.spells hstar hparen

-- A prefix operator makes a term only of a tilde.
theorem unary {o : Operator} (hx : x.Reads b) :
    (Tree.unary p (.token (.op o)) x).ConstraintReads := by
  have hspells := spells_unary (p := p) (o := o) hx.spells
  have hwords := words_of_spells hspells
  have htilde : (Tree.unary p (.token (.op o)) x).isTerm = true → o = .Tilde ∧ x.isType = true := by
    intro h
    unfold isTerm at h
    split at h
    · rename_i heq
      simp only [node.injEq, List.cons.injEq] at heq
      simp_all
    · cases h
  have hterm : (Tree.unary p (.token (.op o)) x).isTerm = true →
      (Tree.unary p (.token (.op o)) x).TermReads := by
    intro h
    obtain ⟨rfl, htype⟩ := htilde h
    exact .tilde (hx.type htype) hx.spells
  have hunion := isUnion_of_not_binary (t := .unary p (.token (.op o)) x) rfl
  refine ⟨nofun, nofun, hterm, fun h => ?_, fun h => ?_, fun h => ?_⟩
  · exact ⟨_, [], hterm (hunion ▸ h), .refl (hwords ▸ hspells), nofun⟩
  · cases leadsIndexed_of_not_binary (t := .unary p (.token (.op o)) x) rfl ▸ h
  · obtain ⟨rfl, htype⟩ := htilde (hunion ▸ h)
    refine .apart (.of_union (hterm (hunion ▸ h)).union) ?_
    rw [hwords]
    exact .cons ⟨rfl, nofun⟩ _

-- A union of terms that are read.
theorem binary {o : Operator} (hx : x.ConstraintReads) (hy : y.ConstraintReads)
    (hspells : (x.emittedAs .expression).Spells x.words) (hyReads : y.Reads true) :
    (Tree.binary p x (.token (.op o)) y).ConstraintReads := by
  by_cases ho : o = .Or
  · subst ho
    have hunion : (Tree.binary p x (.token (.op .Or)) y).isUnion = (x.isUnion && y.isTerm) := rfl
    have hleads : (Tree.binary p x (.token (.op .Or)) y).leadsIndexed =
        (x.leadsIndexed && y.isTerm) := rfl
    refine ⟨nofun, nofun, nofun, fun h => ?_, fun h => ?_, fun h => ?_⟩
    all_goals
      simp only [hunion, hleads, Bool.and_eq_true] at h
      obtain ⟨hleft, hterm⟩ := h
      have hbinds : 4 < y.precedence := by
        rw [binds_of_is (is_binary_of_isTerm hterm)]
        decide
    · obtain ⟨u, ls, hu, hextends, hname⟩ := hx.union hleft
      exact ⟨u, _, hu, hextends.binary (hy.term hterm), hname⟩
    · obtain ⟨u, ls, hu, hextends⟩ := hx.leads hleft
      exact ⟨u, _, hu, hextends.binary (hy.term hterm)⟩
    · exact (hx.head hleft).union hspells
        ((UnionReads.of_extends (hx.union hleft)).binary (hy.term hterm)) hyReads hbinds
  · have hunion : (Tree.binary p x (.token (.op o)) y).isUnion = false := by
      cases o <;> first | rfl | exact absurd rfl ho
    have hleads : (Tree.binary p x (.token (.op o)) y).leadsIndexed = false := by
      cases o <;> first | rfl | exact absurd rfl ho
    refine ⟨nofun, nofun, nofun, fun h => ?_, fun h => ?_, fun h => ?_⟩
    · simp [hunion] at h
    · simp [hleads] at h
    · simp [hunion] at h

variable (h : t.ConstraintReads) (hspells : (t.emittedAs .expression).Spells t.words)

include h hspells

-- The type of a parameter with a name.
theorem afterName (hdots : t.is .Ellipsis = false) (hfits : t.fitsNamed c = true) :
    t.AfterNameReads c := by
  simp only [fitsNamed, hdots, Bool.false_or, Bool.or_eq_true, Bool.and_eq_true] at hfits
  rcases hfits with htype | ⟨rfl, hunion⟩
  · exact .of_type (h.type htype) hspells
  · exact .of_union (.of_extends (h.union hunion))

-- The type of a parameter without a name.
theorem unnamedField (hdots : t.is .Ellipsis = false) (hname : t.is .Ident = true → Built .name t)
    (hfits : t.fitsUnnamed c = true) : UnnamedField c (.field p (.tuple []) t .absent) := by
  by_cases hident : t.is .Ident = true
  · cases hname hident with
    | name hz => exact .name hz
  simp only [Bool.not_eq_true] at hident
  refine .type ?_ hident
  simp only [fitsUnnamed, hdots, Bool.false_or, Bool.or_eq_true, Bool.and_eq_true] at hfits
  rcases hfits with (htype | hindexed) | ⟨rfl, hunion | hleads⟩
  · exact Entry.reads_type (h.type htype) hspells hident
  · exact Entry.reads_instance (h.indexed hindexed) (.refl hspells)
  · obtain ⟨x, ls, hx, hextends, hleft⟩ := h.union hunion
    have hcompletes := Completes.of_extends hextends
    cases hx with
    | type hx hxSpells =>
        by_cases hxIdent : x.is .Ident = true
        · cases hleft hxIdent with
          | name hz =>
              rcases hextends.grows with ⟨-, rfl⟩ | hor
              · cases hident
              · exact Entry.reads_terms hz hcompletes hor
        · exact Entry.reads_completed hx hcompletes (by simpa using hxIdent)
    | tilde hy hySpells => exact Entry.reads_tilde hy hySpells hcompletes
  · obtain ⟨u, ls, hu, hextends⟩ := h.leads hleads
    exact Entry.reads_instance hu (.of_extends hextends)

end ConstraintReads

end Tree

end GoCompact
