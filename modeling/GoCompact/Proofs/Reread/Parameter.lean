import GoCompact.Proofs.Reread.Type

namespace GoCompact

open GoCompact.Parser GoCompact.Grammar GoCompact.Tree Cursor
open Emission (Spells)

-- Kinds that end an entry of a list.
def TokenKind.endsEntry (k : TokenKind) : Bool :=
  k == .op .Comma || k == .op .RParen || k == .op .RBrack

theorem TokenKind.cases_of_endsEntry {k : TokenKind} (h : k.endsEntry = true) :
    k = .op .Comma ∨ k = .op .RParen ∨ k = .op .RBrack := by
  simpa [endsEntry, or_assoc] using h

namespace Grammar.Entry

def words (e : Entry) : List Lexeme := e.emitted.words

def bare (e : Entry) : Entry := ⟨e.name.map Tree.bare, e.type.map Tree.bare⟩

-- An entry is read up to what ends it.
structure Reads (constraints : Bool) (e : Entry) : Prop where
  spells : e.emitted.Spells e.words
  begins : Begins (fun k => k ≠ .op .RParen ∧ k ≠ .op .RBrack ∧ k ≠ .eof) e.words
  takes {n m : Nat} {s : Scope} : Room (n + 1) s m 3 → e.words.length < m →
    ((upTo n).entry constraints).Takes s e.words e.bare (·.endsEntry = true)

end Grammar.Entry

namespace Tree

variable {c : Bool} {n m : Nat} {s : Scope} {p t : Tree} {x : Text}

-- The type of an entry is read after its name.
structure AfterNameReads (constraints : Bool) (t : Tree) : Prop where
  spells : (t.emittedAs .expression).Spells t.words
  takes {n m : Nat} {s : Scope} (name : Tree) : Room (n + 1) s m 3 → t.words.length < m →
    ((upTo n).entryAfterName constraints name).Takes s t.words ⟨some name, some t.bare⟩
      (·.endsEntry = true)

theorem absorbs_of_endsEntry {k : TokenKind} (h : k.endsEntry = true) (t : Tree) :
    t.absorbs k = false := by
  rcases TokenKind.cases_of_endsEntry h with rfl | rfl | rfl <;>
    exact absorbs_eq_false (by decide) rfl t

-- The terms after the first one of a constraint are read up to the end of the entry.
structure Completes (constraints : Bool) (x t : Tree) (ls : List Lexeme) : Prop where
  words : t.words = x.words ++ ls
  spells : (t.emittedAs .expression).Spells t.words
  next : Next (endsTerm · = true) ls (·.endsEntry = true)
  takes {n m : Nat} {s : Scope} (name : Option Tree) : Room (n + 1) s m 3 → t.words.length < m →
    ((upTo n).completed constraints ⟨name, some x.bare⟩).Takes s ls ⟨name, some t.bare⟩
      (·.endsEntry = true)

theorem endsTerm_of_endsEntry {k : TokenKind} (h : k.endsEntry = true) : endsTerm k = true := by
  rcases TokenKind.cases_of_endsEntry h with rfl | rfl | rfl <;> rfl

-- Nothing follows a type.
theorem Completes.refl (h : (t.emittedAs .expression).Spells t.words) : Completes c t t [] := by
  refine ⟨by simp, h, .nil fun _ => endsTerm_of_endsEntry, fun {n m s} name _ _ => ?_⟩
  cases c with
  | false => exact takes_pure rfl
  | true =>
      refine takes_peek_next (.nil fun _ h => h) fun k hk => ?_
      rw [if_neg]
      · exact takes_pure rfl
      · rcases TokenKind.cases_of_endsEntry hk with rfl | rfl | rfl <;> decide

-- In a constraint more terms may follow.
theorem Completes.of_extends {u : Tree} {ls : List Lexeme} (h : Extends u t ls) :
    Completes true u t ls := by
  rcases h.grows with ⟨rfl, rfl⟩ | hor
  · exact .refl h.spells
  refine ⟨h.words, h.spells, h.next fun _ => endsTerm_of_endsEntry, fun {n m s} name hroom hlength => ?_⟩
  have hread := h.takes (s := s) hroom hlength
  refine takes_peek_next hor.next ?_
  rintro k rfl
  refine (hread.mono fun k hk => ⟨endsTerm_of_endsEntry hk, ?_⟩).bind_nil (takes_pure rfl)
  rcases TokenKind.cases_of_endsEntry hk with rfl | rfl | rfl <;> decide

theorem AfterNameReads.of_completes {u : Tree} {ls : List Lexeme} (hu : u.TypeReads)
    (h : Completes c u t ls) : t.AfterNameReads c where
  spells := h.spells
  takes {n m s} name hroom hlength := by
    have hlength' := hlength
    rw [h.words, List.length_append] at hlength'
    rw [h.words]
    have hnext : Next (u.absorbs · = false) ls (·.endsEntry = true) :=
      h.next.mono fun k hk => absorbs_of_endsTerm hk u
    have hdone := h.takes (s := s) (some name) hroom hlength
    have hread : ((upTo n).type >>= fun typ => (upTo n).completed c ⟨some name, some typ⟩).Takes s
        (u.words ++ ls) ⟨some name, some t.bare⟩ (·.endsEntry = true) :=
      (hu.takes_type (hroom.inner (by omega) (by decide) 2)).bind hnext hdone
    have harray : u.typeStart = .op .LBrack → ((upTo n).arrayOrInstance name >>= fun r =>
        (upTo n).completed c ⟨r.1, some r.2⟩).Takes s (u.words ++ ls) ⟨some name, some t.bare⟩
        (·.endsEntry = true) :=
      fun hstart => (hu.array hstart name (hroom.mono (by omega))).bind hnext hdone
    refine takes_peek_next (hu.begins.append ls).next fun k hk => ?_
    rcases u.typeStart_cases with hstart | hstart | hstart | hstart | hstart | hstart | hstart |
        hstart | hstart | hstart <;>
      rw [hstart] at hk <;> subst hk <;> first | exact hread | exact harray hstart

-- A constraint that begins with a tilde.
theorem AfterNameReads.of_tilde {q y : Tree} {ls : List Lexeme} (hy : y.TypeReads)
    (hspells : (y.emittedAs .expression).Spells y.words)
    (h : Completes true (.unary q (.token (.op .Tilde)) y) t ls) : t.AfterNameReads true where
  spells := h.spells
  takes {n m s} name hroom hlength := by
    have hlength' := hlength
    rw [h.words, List.length_append] at hlength'
    have hdone := h.takes (s := s) (some name) hroom hlength
    have hterm := TermReads.takes (s := s) (.tilde (p := q) hy hspells) hroom (by omega)
    have hread : ((upTo n).constraintTerm >>= fun typ =>
        (upTo n).completed true ⟨some name, some typ⟩).Takes s
        ((Tree.unary q (.token (.op .Tilde)) y).words ++ ls) ⟨some name, some t.bare⟩
        (·.endsEntry = true) := hterm.bind h.next hdone
    have hbegins : Begins (· = .op .Tilde) ((Tree.unary q (.token (.op .Tilde)) y).words ++ ls) :=
      ⟨_, _, by rw [words_of_spells (spells_unary (p := q) (o := .Tilde) hspells)]; rfl, rfl⟩
    rw [h.words]
    refine takes_peek_next hbegins.next ?_
    rintro k rfl
    exact hread

-- Any constraint may follow a name.
theorem AfterNameReads.of_union (h : t.UnionReads) : t.AfterNameReads true := by
  obtain ⟨x, ls, hx, hextends⟩ := h
  cases hx with
  | type hx _ => exact .of_completes hx (.of_extends hextends)
  | tilde hy hspells => exact .of_tilde hy hspells (.of_extends hextends)

theorem AfterNameReads.of_type (h : t.TypeReads)
    (hspells : (t.emittedAs .expression).Spells t.words) : t.AfterNameReads c :=
  .of_completes h (.refl hspells)

theorem spells_variadic (ht : (t.emittedAs .expression).Spells t.words) (habsent : t.isAbsent = false) :
    ((Tree.ellipsis p t).emittedAs .expression).Spells (.ofOperator .Ellipsis :: t.words) := by
  have hif : t.emittedIf (t.emittedAs .expression) = t.emittedAs .expression := by
    simp [emittedIf, habsent, Emission.when]
  rw [emitted_ellipsis, hif]
  exact (Spells.operator _).append ht

theorem takes_variadicType (h : t.TypeReads) (hroom : Room (n + 1) s m 3) (hlength : t.words.length < m) :
    (upTo n).variadicType.Takes s (.ofOperator .Ellipsis :: t.words) (Tree.ellipsis p t).bare
      (·.endsEntry = true) := by
  have htype := h.takes_type (hroom.inner hlength (by decide) 2)
  refine takes_expect_bind rfl ((htype.mono fun k hk => absorbs_of_endsEntry hk t).bind_nil ?_)
  exact takes_pure (by simp)

theorem AfterNameReads.variadic (h : t.TypeReads)
    (hspells : (t.emittedAs .expression).Spells t.words) (habsent : t.isAbsent = false) :
    (Tree.ellipsis p t).AfterNameReads c := by
  have hspells' := spells_variadic (p := p) hspells habsent
  have hwords : (Tree.ellipsis p t).words = _ := hspells'.words
  refine ⟨hwords ▸ hspells', fun {n m s} name hroom hlength => ?_⟩
  rw [hwords] at hlength ⊢
  rw [List.length_cons] at hlength
  have hread := takes_variadicType (p := p) h hroom (by omega)
  exact takes_peek_bind (hread.bind_nil (takes_pure rfl))

end Tree

namespace Grammar.Entry

variable {c : Bool} {n m : Nat} {s : Scope} {p t : Tree} {x : Text}

-- A name by itself, which is a type if no entry of the list has a name and a type.
theorem reads_name (h : (⟨.ident, x⟩ : Lexeme).Whole) :
    Entry.Reads c ⟨some (.ident p (.text x)), none⟩ := by
  have hspells : (emitted ⟨some (.ident p (.text x)), none⟩).Spells [⟨.ident, x⟩] := .write h
  have hwords : words ⟨some (.ident p (.text x)), none⟩ = [⟨.ident, x⟩] := hspells.words
  refine ⟨hwords ▸ hspells, ⟨_, _, hwords, by simp⟩, fun {n m s} hroom hlength => ?_⟩
  rw [hwords]
  refine takes_peek_bind (takes_ident_bind ?_)
  refine takes_peek_next (.nil fun _ h => h) fun k hk => ?_
  rcases TokenKind.cases_of_endsEntry hk with rfl | rfl | rfl <;>
    exact takes_pure (by simp [bare])

-- A name and a type.
theorem reads_both (h : (⟨.ident, x⟩ : Lexeme).Whole) (ht : t.AfterNameReads c) :
    Entry.Reads c ⟨some (.ident p (.text x)), some t⟩ := by
  have hspells : (emitted ⟨some (.ident p (.text x)), some t⟩).Spells (⟨.ident, x⟩ :: t.words) :=
    ((Spells.write h).append (.blank true)).append ht.spells
  have hwords : words ⟨some (.ident p (.text x)), some t⟩ = _ := hspells.words
  refine ⟨hwords ▸ hspells, ⟨_, _, hwords, by simp⟩, fun {n m s} hroom hlength => ?_⟩
  rw [hwords] at hlength ⊢
  rw [List.length_cons] at hlength
  refine takes_peek_bind (takes_ident_bind ?_)
  have hread := ht.takes (.ident .unknownPlace (.text x)) hroom (by omega)
  simpa [bare] using hread

-- A name with brackets after it, and perhaps other terms.
theorem reads_instance {u : Tree} {ls : List Lexeme} (hu : u.InstanceReads)
    (h : Completes c u t ls) : Entry.Reads c ⟨none, some t⟩ := by
  obtain ⟨x, ms, hx, hbracket, htakes⟩ := hu
  have hwords : words ⟨none, some t⟩ = u.words ++ ls := h.words
  refine ⟨h.spells, ?_, fun {n m s} hroom hlength => ?_⟩
  · rw [hwords, hx]
    exact .cons (by simp) _
  · have hdone := h.takes (s := s) none hroom (by
      rw [hwords] at hlength
      rwa [h.words])
    rw [hwords] at hlength ⊢
    rw [List.length_append] at hlength
    have hread := htakes (s := s) (hroom.mono (by omega))
    have hnext : Next (·.beginsType = false) ls (·.endsEntry = true) := by
      refine h.next.mono fun k hk => ?_
      rcases cases_of_endsTerm hk with rfl | rfl | rfl | rfl | rfl | rfl <;> rfl
    rw [hx]
    refine takes_peek_bind (takes_ident_bind (takes_peek_next (hbracket.append ls).next ?_))
    rintro k rfl
    exact hread.bind hnext hdone

-- A name before other terms.
theorem reads_terms {ls : List Lexeme} (hx : (⟨.ident, x⟩ : Lexeme).Whole)
    (h : Completes true (.ident p (.text x)) t ls) (hor : Begins (· = .op .Or) ls) :
    Entry.Reads true ⟨none, some t⟩ := by
  have hident := words_of_spells (spells_ident hx p)
  have hwords : words ⟨none, some t⟩ = ⟨.ident, x⟩ :: ls := by
    rw [show words ⟨none, some t⟩ = _ from h.words, hident, List.singleton_append]
  refine ⟨h.spells, hwords ▸ .cons (by simp) _, fun {n m s} hroom hlength => ?_⟩
  have hdone := h.takes (s := s) none hroom (by
    rwa [h.words, hident, List.singleton_append, ← hwords])
  rw [hwords]
  refine takes_peek_bind (takes_ident_bind (takes_peek_next hor.next ?_))
  rintro k rfl
  rw [if_neg (by decide)]
  simpa [bare] using hdone

-- A type that is no name, and perhaps other terms.
theorem reads_completed {u : Tree} {ls : List Lexeme} (hu : u.TypeReads) (h : Completes c u t ls)
    (hident : u.is .Ident = false) : Entry.Reads c ⟨none, some t⟩ := by
  have hwords : words ⟨none, some t⟩ = u.words ++ ls := h.words
  refine ⟨h.spells, ?_, fun {n m s} hroom hlength => ?_⟩
  · rw [hwords]
    refine (hu.begins.append ls).mono fun k hk => ?_
    rcases u.typeStart_cases with hstart | hstart | hstart | hstart | hstart | hstart | hstart |
      hstart | hstart | hstart <;> rw [hstart] at hk <;> subst hk <;> decide
  · have hdone := h.takes (s := s) none hroom (by
      rw [hwords] at hlength
      rwa [h.words])
    by_cases hindexed : u.isIndexed = true
    · exact (reads_instance (hu.indexed hindexed) h).takes hroom hlength
    rw [hwords] at hlength ⊢
    rw [List.length_append] at hlength
    have hnext : Next (u.absorbs · = false) ls (·.endsEntry = true) :=
      h.next.mono fun k hk => absorbs_of_endsTerm hk u
    by_cases hstart : u.typeStart = .ident
    · obtain ⟨x, ms, hx, hafter, htakes⟩ := hu.named hstart
      have hread := htakes (s := s) (hroom.mono (by omega))
      rw [hx]
      cases hafter with
      | nothing hident' => simp [hident] at hident'
      | brackets hindexed' => exact absurd hindexed' hindexed
      | point hpoint =>
          refine takes_peek_bind (takes_ident_bind (takes_peek_next (hpoint.append ls).next ?_))
          rintro k rfl
          exact hread.bind hnext hdone
    · have hread : ((upTo n).type >>= fun typ => (upTo n).completed c ⟨none, some typ⟩).Takes s
          (u.words ++ ls) ⟨none, some t.bare⟩ (·.endsEntry = true) :=
        (hu.takes_type (hroom.inner (by omega) (by decide) 2)).bind hnext hdone
      refine takes_peek_next (hu.begins.append ls).next fun k hk => ?_
      rcases u.typeStart_cases with hkind | hkind | hkind | hkind | hkind | hkind | hkind |
        hkind | hkind | hkind <;>
        rw [hkind] at hk <;> subst hk <;> first | exact hread | exact absurd hkind hstart

theorem reads_type (h : t.TypeReads) (hspells : (t.emittedAs .expression).Spells t.words)
    (hident : t.is .Ident = false) : Entry.Reads c ⟨none, some t⟩ :=
  reads_completed h (.refl hspells) hident

-- A constraint that begins with a tilde.
theorem reads_tilde {q y : Tree} {ls : List Lexeme} (hy : y.TypeReads)
    (hspells : (y.emittedAs .expression).Spells y.words)
    (h : Completes true (.unary q (.token (.op .Tilde)) y) t ls) :
    Entry.Reads true ⟨none, some t⟩ := by
  have hterm : TermReads (.unary q (.token (.op .Tilde)) y) := .tilde hy hspells
  have htilde := words_of_spells (spells_unary (p := q) (o := .Tilde) hspells)
  have hwords : words ⟨none, some t⟩ = _ := h.words
  refine ⟨h.spells, ?_, fun {n m s} hroom hlength => ?_⟩
  · rw [hwords]
    exact (hterm.begins.append ls).mono fun k hk => ⟨hk.1, hk.2.2⟩
  have hdone := h.takes (s := s) none hroom (by rwa [h.words, ← hwords])
  rw [hwords, List.length_append] at hlength
  have hread : ((upTo n).constraintTerm >>= fun typ =>
      (upTo n).completed true ⟨none, some typ⟩).Takes s
      ((Tree.unary q (.token (.op .Tilde)) y).words ++ ls) ⟨none, some t.bare⟩
      (·.endsEntry = true) := (hterm.takes (s := s) hroom (by omega)).bind h.next hdone
  rw [hwords]
  have hbegins : Begins (· = .op .Tilde) ((Tree.unary q (.token (.op .Tilde)) y).words ++ ls) :=
    ⟨_, _, by rw [htilde]; rfl, rfl⟩
  refine takes_peek_next hbegins.next ?_
  rintro k rfl
  exact hread

theorem reads_variadic (h : t.TypeReads) (hspells : (t.emittedAs .expression).Spells t.words)
    (habsent : t.isAbsent = false) : Entry.Reads c ⟨none, some (.ellipsis p t)⟩ := by
  have hspells' := spells_variadic (p := p) hspells habsent
  have hwords : words ⟨none, some (.ellipsis p t)⟩ = _ := hspells'.words
  refine ⟨hwords ▸ hspells', ⟨_, _, hwords, by simp⟩, fun {n m s} hroom hlength => ?_⟩
  rw [hwords] at hlength ⊢
  rw [List.length_cons] at hlength
  have hread := takes_variadicType (p := p) h hroom (by omega)
  exact takes_peek_bind (hread.bind_nil (takes_pure (by simp [bare])))

end Grammar.Entry

namespace Tree

variable {c : Bool} {n m : Nat} {s : Scope} {p : Tree} {fields : List Tree}

-- Entries that are put together to fields.
structure Collects (entries : List Grammar.Entry) (fields : List Tree) : Prop where
  gathered : fieldsOf (entries.map Grammar.Entry.bare) = .ok (fields.map bare)
  emitted : emittedFields "," fields = Emission.separated "," (entries.map Grammar.Entry.emitted)

-- Each of them is read by itself.
structure Lists (constraints : Bool) (entries : List Grammar.Entry) (fields : List Tree) : Prop
    extends Collects entries fields where
  reads : ∀ e ∈ entries, e.Reads constraints

-- A field without a name, which is one entry.
inductive UnnamedField (constraints : Bool) : Tree → Prop
  | name {p q : Tree} {x : Text} (h : (⟨.ident, x⟩ : Lexeme).Whole) :
      UnnamedField constraints (.field p (.tuple []) (.ident q (.text x)) .absent)
  | type {p t : Tree} (h : Grammar.Entry.Reads constraints ⟨none, some t⟩)
      (hident : t.is .Ident = false) : UnnamedField constraints (.field p (.tuple []) t .absent)

-- A field with names, each of which is an entry.
inductive NamedField (constraints : Bool) : Tree → Prop
  | mk {p t : Tree} {names : List Tree} (hne : names ≠ []) (hnames : ∀ n ∈ names, Built .name n)
      (h : t.AfterNameReads constraints) : NamedField constraints (.field p (.tuple names) t .absent)

-- Its entry, which is a name before anything shows that it is a type.
def unnamedEntry : Tree → Grammar.Entry
  | .field _ _ typ _ => if typ.is .Ident then ⟨some typ, none⟩ else ⟨none, some typ⟩
  | _ => ⟨none, none⟩

theorem UnnamedField.entry {t : Tree} (h : UnnamedField c t) :
    t.unnamedEntry.Reads c ∧ t.unnamedEntry.bare.isComplete = false ∧
      (∀ es, unnamedFields (t.unnamedEntry.bare :: es) = t.bare :: unnamedFields es) ∧
      t.emittedAs .field = t.unnamedEntry.emitted := by
  cases h with
  | @name p q x h => exact ⟨Grammar.Entry.reads_name (p := q) h, rfl, fun es => rfl, rfl⟩
  | @type p t h hident =>
      have hentry : (Tree.field p (.tuple []) t .absent).unnamedEntry = ⟨none, some t⟩ := by
        simp [unnamedEntry, hident]
      rw [hentry]
      refine ⟨h, rfl, fun es => by simp [unnamedFields, Grammar.Entry.bare], ?_⟩
      rw [emitted_field]
      simp [emittedIf, Emission.when, isAbsent, Grammar.Entry.emitted]

theorem lists_unnamed (h : ∀ t ∈ fields, UnnamedField c t) :
    Lists c (fields.map unnamedEntry) fields := by
  have main : ((fields.map unnamedEntry).map Grammar.Entry.bare).any Grammar.Entry.isComplete = false ∧
      unnamedFields ((fields.map unnamedEntry).map Grammar.Entry.bare) = fields.map bare ∧
      fields.map (·.emittedAs .field) = (fields.map unnamedEntry).map Grammar.Entry.emitted := by
    induction fields with
    | nil => exact ⟨rfl, rfl, rfl⟩
    | cons t ts ih =>
        obtain ⟨ht, hts⟩ := List.forall_mem_cons.mp h
        obtain ⟨-, hcomplete, hfields, hemitted⟩ := ht.entry
        obtain ⟨hnone, hrest, hall⟩ := ih hts
        refine ⟨?_, ?_, ?_⟩
        · rw [List.map_cons, List.map_cons, List.any_cons, hcomplete, hnone, Bool.or_false]
        · rw [List.map_cons, List.map_cons, hfields, hrest, List.map_cons]
        · rw [List.map_cons, hemitted, hall, List.map_cons, List.map_cons]
  obtain ⟨hnone, hfields, hemitted⟩ := main
  refine ⟨⟨?_, ?_⟩, fun e he => ?_⟩
  · rw [fieldsOf, hnone, if_neg (by simp), hfields]
  · rw [emittedFields, hemitted]
  · obtain ⟨t, ht, rfl⟩ := List.mem_map.mp he
    exact (h t ht).entry.1

-- The names of a field are gathered until one has the type.
theorem gathers_names {es : List Grammar.Entry} {ts : List Tree} (h : Gathers [] es ts) (last typ : Tree)
    (names gathered : List Tree) :
    Gathers gathered (names.map (fun n => ⟨some n, none⟩) ++ ⟨some last, some typ⟩ :: es)
      (namedField (gathered ++ names ++ [last]) typ :: ts) := by
  induction names generalizing gathered with
  | nil => simpa using Gathers.both h
  | cons n ns ih =>
      have hrest := ih (gathered ++ [n])
      rw [List.append_assoc gathered, List.singleton_append] at hrest
      exact .name hrest

theorem bare_namedField (names : List Tree) (typ : Tree) :
    namedField (names.map bare) typ.bare = (namedField names typ).bare := by
  cases names <;> simp [namedField]

theorem gathers_bare {names : List Tree} {es : List Grammar.Entry} {ts : List Tree}
    (h : Gathers names es ts) :
    Gathers (names.map bare) (es.map Grammar.Entry.bare) (ts.map bare) := by
  induction h with
  | nil => exact .nil
  | name _ ih =>
      rw [List.map_append] at ih
      exact .name ih
  | @both names n t rest fields _ ih =>
      have hboth : Gathers (names.map bare) (⟨some n.bare, some t.bare⟩ :: rest.map Grammar.Entry.bare)
          (namedField (names.map bare ++ [n.bare]) t.bare :: fields.map bare) := .both ih
      rw [List.map_cons, List.map_cons, ← bare_namedField, List.map_append]
      exact hboth

-- The entries of a field with names, of which the last one has the type.
def fieldEntries : Tree → List Grammar.Entry
  | .field _ (.tuple names) typ _ =>
    names.dropLast.map (fun n => ⟨some n, none⟩) ++
      names.getLast?.toList.map fun n => ⟨some n, some typ⟩
  | _ => []

theorem NamedField.reads {t : Tree} (h : NamedField c t) : ∀ e ∈ t.fieldEntries, e.Reads c := by
  cases h with
  | @mk p t names hne hnames h =>
      intro e he
      rcases List.mem_append.mp he with he | he
      · obtain ⟨n, hn, rfl⟩ := List.mem_map.mp he
        cases hnames n (List.mem_of_mem_dropLast hn) with
        | name hx => exact Grammar.Entry.reads_name hx
      · obtain ⟨n, hn, rfl⟩ := List.mem_map.mp he
        cases hnames n (List.mem_of_getLast? (Option.mem_toList.mp hn)) with
        | name hx => exact Grammar.Entry.reads_both hx h

-- They are put together to the field again, before those of the other fields.
theorem gathers_field {names : List Tree} {es : List Grammar.Entry} {ts : List Tree} (hne : names ≠ [])
    (h : Gathers [] es ts) (p typ : Tree) :
    Gathers [] ((Tree.field p (.tuple names) typ .absent).fieldEntries ++ es)
      (namedField names typ :: ts) := by
  obtain rfl | ⟨init, last, rfl⟩ := names.eq_nil_or_concat
  · exact absurd rfl hne
  have hentries : (Tree.field p (.tuple (init ++ [last])) typ .absent).fieldEntries =
      init.map (fun n => ⟨some n, none⟩) ++ [⟨some last, some typ⟩] := by
    simp [fieldEntries]
  rw [List.concat_eq_append, hentries]
  simpa using gathers_names h last typ init []

-- Whether a field has a name.
def isNamedField : Tree → Bool
  | .field _ (.tuple names) _ .absent => !names.isEmpty
  | _ => false

theorem isComplete_fieldEntries {t : Tree} (h : t.isNamedField = true) :
    (t.fieldEntries.map Grammar.Entry.bare).any Grammar.Entry.isComplete = true := by
  unfold isNamedField at h
  split at h
  · rename_i names typ
    have hlast := List.getLast?_eq_some_getLast (l := names) (by simpa using h)
    simp [fieldEntries, hlast, Grammar.Entry.isComplete, Grammar.Entry.bare]
  · cases h

theorem collects_named (h : ∀ t ∈ fields, t.isNamedField = true) :
    Collects (fields.flatMap fieldEntries) fields := by
  have main : ∃ others : List Tree, Gathers [] (fields.flatMap fieldEntries) others ∧
      others.map bare = fields.map bare ∧
      others.map (·.emittedAs .field) = fields.map (·.emittedAs .field) := by
    induction fields with
    | nil => exact ⟨[], .nil, rfl, rfl⟩
    | cons t ts ih =>
        obtain ⟨ht, hts⟩ := List.forall_mem_cons.mp h
        obtain ⟨others, hrest, hbares, hall⟩ := ih hts
        unfold isNamedField at ht
        split at ht
        · rename_i p names typ
          refine ⟨_, gathers_field (by simpa using ht) hrest p typ, ?_, ?_⟩
          · rw [List.map_cons, hbares, List.map_cons]
            simp [namedField]
          · rw [List.map_cons, hall, List.map_cons, namedField, emitted_field, emitted_field]
        · cases ht
  obtain ⟨others, hgathers, hbares, hemitted⟩ := main
  constructor
  · have hnamed := namedFields_of_gathers (gathers_bare hgathers)
    rw [List.map_nil, hbares] at hnamed
    cases fields with
    | nil => rfl
    | cons t ts =>
        have hcomplete := isComplete_fieldEntries (h t (by simp))
        rw [fieldsOf, if_pos (by simp [hcomplete]), hnamed]
  · have hall := hgathers.emitted
    rw [emittedFields, hemitted] at hall
    simpa [emittedFields] using hall

theorem NamedField.isNamedField {t : Tree} (h : NamedField c t) : t.isNamedField = true := by
  cases h with
  | mk hne => simpa [Tree.isNamedField] using hne

theorem lists_named (h : ∀ t ∈ fields, NamedField c t) :
    Lists c (fields.flatMap fieldEntries) fields := by
  refine ⟨collects_named fun t ht => (h t ht).isNamedField, fun e he => ?_⟩
  obtain ⟨t, ht, he⟩ := List.mem_flatMap.mp he
  exact (h t ht).reads e he

-- The lexemes of the fields of a list.
def listWords (t : Tree) : List Lexeme := (t.emittedAs (.fieldList ",")).words

theorem Collects.spells {entries : List Grammar.Entry} (h : Collects entries fields)
    (hspells : ∀ e ∈ entries, e.emitted.Spells e.words) :
    ((Tree.fieldList p (.tuple fields)).emittedAs (.fieldList ",")).Spells
      (listed (entries.map Grammar.Entry.words)) := by
  rw [emitted_fieldList, h.emitted]
  exact spells_listed hspells

theorem Lists.spells {entries : List Grammar.Entry} (h : Lists c entries fields) :
    ((Tree.fieldList p (.tuple fields)).emittedAs (.fieldList ",")).Spells
      (listed (entries.map Grammar.Entry.words)) :=
  h.toCollects.spells fun e he => (h.reads e he).spells

-- The entries are read up to the end of the list.
theorem takes_entries {entries : List Grammar.Entry} (h : ∀ e ∈ entries, e.Reads c) {closing : TokenKind}
    (hclosing : closing = .op .RParen ∨ closing = .op .RBrack) (hroom : Room (n + 1) s m 3)
    (hlength : (listed (entries.map Grammar.Entry.words)).length < m) :
    (itemsUntil closing ((upTo n).entry c)).Takes s (listed (entries.map Grammar.Entry.words))
      (entries.map Grammar.Entry.bare) (· = closing) := by
  have hended : ∀ k : TokenKind, k = .op .Comma ∨ k = closing → k.endsEntry = true := by
    rcases hclosing with rfl | rfl <;> rintro k (rfl | rfl) <;> rfl
  refine takes_itemsUntil (fun e he => ?_) (fun e he => (h e he).begins.mono fun k hk => ?_) ?_
  · have hle := length_le_listed (List.mem_map_of_mem (f := Grammar.Entry.words) he)
    exact ((h e he).takes hroom (by omega)).mono hended
  · rcases hclosing with rfl | rfl
    · exact ⟨hk.1, hk.2.2⟩
    · exact hk.2
  · rcases hclosing with rfl | rfl <;> decide

-- They are put together to the fields.
theorem Collects.takes_listOf {entries : List Grammar.Entry} (h : Collects entries fields)
    {P : TokenKind → Prop} :
    (listOf .unknownPlace (entries.map Grammar.Entry.bare)).Takes s [] (Tree.fieldList p (.tuple fields)).bare
      P := by
  rw [listOf, h.gathered]
  exact takes_pure (by simp)

-- A list of parameters is read in parentheses.
structure ParametersReads (t : Tree) : Prop where
  spells : (t.emittedAs (.fieldList ",")).Spells t.listWords
  takes {n m : Nat} {s : Scope} : Room (n + 1) s m 3 → t.listWords.length + 1 < m →
    (upTo n).parameters.Takes s (.ofOperator .LParen :: (t.listWords ++ [.ofOperator .RParen]))
      t.bare fun _ => True

theorem reads_parameters {entries : List Grammar.Entry} (h : Lists false entries fields) :
    (Tree.fieldList p (.tuple fields)).ParametersReads := by
  have hwords : (Tree.fieldList p (.tuple fields)).listWords = _ := (h.spells (p := p)).words
  refine ⟨hwords ▸ h.spells, fun {n m s} hroom hlength => ?_⟩
  rw [hwords] at hlength ⊢
  refine takes_expect_bind rfl ((takes_entries h.reads (.inl rfl) hroom (by omega)).bind (.cons (by rfl) []) ?_)
  have hlist := h.takes_listOf (p := p) (s := s) (P := (· = .op .RParen))
  exact Takes.bind hlist (.cons (by rfl) []) (takes_discard_expect rfl (takes_pure rfl))

-- The results of a function are nothing, one type that stands alone, or a list in parentheses.
inductive ResultsReads : Option Tree → Prop
  | nothing : ResultsReads none
  | lone {p q t : Tree} (h : t.TypeReads) (hspells : (t.emittedAs .expression).Spells t.words)
      (hparen : t.typeStart ≠ .op .LParen) :
      ResultsReads (some (.fieldList p (.tuple [.field q (.tuple []) t .absent])))
  | list {p : Tree} {fields : List Tree} (h : (Tree.fieldList p (.tuple fields)).ParametersReads)
      (hlone : ∀ q typ tag, fields ≠ [.field q (.tuple []) typ tag])
      (hfields : ∀ t ∈ fields, ∃ q names typ tag, t = .field q (.tuple names) typ tag) :
      ResultsReads (some (.fieldList p (.tuple fields)))

def resultWords (o : Option Tree) : List Lexeme := o.elim [] fun t => (t.emittedAs .results).words

namespace ResultsReads

variable {o : Option Tree}

theorem isAbsent (h : ResultsReads o) : ∀ t ∈ o, t.isAbsent = false := by
  rintro t ht
  cases h <;> cases ht <;> rfl

theorem spells_list {p : Tree} {fields : List Tree}
    (h : (Tree.fieldList p (.tuple fields)).ParametersReads)
    (hlone : ∀ q typ tag, fields ≠ [.field q (.tuple []) typ tag])
    (hfields : ∀ t ∈ fields, ∃ q names typ tag, t = .field q (.tuple names) typ tag) :
    ((Tree.fieldList p (.tuple fields)).emittedAs .results).Spells
      (.ofOperator .LParen ::
        ((Tree.fieldList p (.tuple fields)).listWords ++ [.ofOperator .RParen])) := by
  rw [emitted_results _ _ hlone hfields, ← emitted_fieldList p]
  exact ((Spells.operator .LParen).append h.spells).append (.operator .RParen)

theorem spells_results (h : ResultsReads o) :
    ∀ t ∈ o, (t.emittedAs .results).Spells (t.emittedAs .results).words := by
  rintro t ht
  cases h with
  | nothing => cases ht
  | lone h hspells =>
      obtain rfl := Option.some.inj ht
      rw [emitted_lone]
      exact hspells
  | list h hlone hfields =>
      obtain rfl := Option.some.inj ht
      have hspells := spells_list h hlone hfields
      exact hspells.words.symm ▸ hspells

theorem takes (h : ResultsReads o) (p params typeParams keyword : Tree)
    (hroom : Room (n + 1) s m 3) (hlength : (resultWords o).length + 1 < m) :
    (upTo n).results.Takes s (resultWords o) (o.map bare)
      ((Tree.funcType p params (.ofOption o) typeParams keyword).absorbs · = false) := by
  cases h with
  | nothing =>
      have hone : Room n s 1 2 := hroom.inner (by omega) (by decide) 2
      refine takes_peek_next (.nil fun _ h => h) fun k hk => ?_
      have hparen : k ≠ .op .LParen := by
        rintro rfl
        cases hk
      rw [if_neg hparen]
      exact (takes_noType hone (by decide)).bind_nil (takes_pure rfl)
  | @lone q r t h hspells hparen =>
      have hroom' : Room n s t.words.length 2 := hroom.inner (by
        have hle : (resultWords (some (.fieldList q (.tuple [.field r (.tuple []) t .absent])))).length =
          t.words.length := rfl
        omega) (by decide) 2
      refine takes_peek_next h.begins.next fun k hk => ?_
      rw [if_neg (hk ▸ hparen)]
      exact (h.takes hroom').bind_nil (takes_pure (by simp))
  | @list q fields h hlone hfields =>
      have hwords : resultWords (some (.fieldList q (.tuple fields))) = _ :=
        (spells_list h hlone hfields).words
      rw [hwords] at hlength ⊢
      simp only [List.length_cons, List.length_append, List.length_nil] at hlength
      have hread := h.takes (s := s) hroom (by omega)
      refine takes_peek_bind ?_
      rw [if_pos (Lexeme.kind_ofOperator _)]
      exact (hread.map some).mono fun _ _ => trivial

end ResultsReads

-- Type parameters in brackets, if there are any.
def bracketWords (o : Option Tree) : List Lexeme :=
  o.elim [] fun t => .ofOperator .LBrack :: (t.listWords ++ [.ofOperator .RBrack])

-- The lexemes of parameters and results.
def signatureWords (params : Tree) (results : Option Tree) : List Lexeme :=
  .ofOperator .LParen :: (params.listWords ++ .ofOperator .RParen :: resultWords results)

section

variable {params : Tree} {results typeParams : Option Tree}

theorem spells_signature (hparams : params.ParametersReads) (hresults : ResultsReads results)
    (htypeParams : ∀ t ∈ typeParams, (t.emittedAs (.fieldList ",")).Spells t.listWords) :
    (emittedSignature params (.ofOption results) (.ofOption typeParams)).Spells
      (bracketWords typeParams ++ signatureWords params results) := by
  have habsent : ∀ t ∈ typeParams, t.isAbsent = false := by
    intro t ht
    unfold Tree.isAbsent
    split
    · cases (htypeParams _ ht).fault
    · rfl
  have hresults' := spells_optional (·.emittedAs .results) hresults.isAbsent hresults.spells_results
  have htypeParams' := spells_optional
    (fun t => .operator .LBrack ++ t.emittedAs (.fieldList ",") ++ .operator .RBrack) habsent
    fun t ht => ((Spells.operator .LBrack).append (htypeParams t ht)).append (.operator .RBrack)
  exact ((((htypeParams'.append (.operator _)).append hparams.spells).append
    (.operator _)).append hresults').of_eq (by simp [bracketWords, signatureWords, resultWords])

theorem takes_signature {q : Tree} {keyword : Bool} (hparams : params.ParametersReads)
    (hresults : ResultsReads results) (hroom : Room (n + 1) s m 3)
    (hlength : (signatureWords params results).length ≤ m) :
    ((upTo n).signature q keyword).Takes s (signatureWords params results)
      (.funcType q params.bare (.ofOption (results.map bare)) .absent (.flag keyword))
      ((Tree.funcType p params (.ofOption results) .absent (.flag keyword)).absorbs · = false) := by
  simp only [signatureWords, List.length_cons, List.length_append] at hlength
  have hparams' := hparams.takes (s := s) hroom (by omega)
  have hresults' := hresults.takes (s := s) p params .absent (.flag keyword) hroom (by omega)
  have hwords : signatureWords params results = (.ofOperator .LParen ::
      (params.listWords ++ [.ofOperator .RParen])) ++ resultWords results := by simp [signatureWords]
  rw [hwords]
  exact hparams'.bind (fun _ _ _ => trivial) (hresults'.bind_nil (takes_pure rfl))

-- Function types.
theorem spells_funcType (hparams : params.ParametersReads) (hresults : ResultsReads results) :
    ((Tree.funcType p params (.ofOption results) .absent (.flag true)).emittedAs .expression).Spells
      (.ofKeyword .Func :: signatureWords params results) := by
  have hsignature : (emittedSignature params (.ofOption results) (.ofOption none)).Spells
      (bracketWords none ++ signatureWords params results) :=
    spells_signature hparams hresults nofun
  rw [emitted_funcType]
  exact (Spells.keyword .Func).append hsignature

theorem reads_funcType {b : Bool} (hparams : params.ParametersReads)
    (hresults : ResultsReads results) :
    (Tree.funcType p params (.ofOption results) .absent (.flag true)).Reads b := by
  have hspells := spells_funcType (p := p) hparams hresults
  have hwords := words_of_spells hspells
  have hread : ∀ {n : Nat} {s : Scope},
      Room (n + 1) s (.ofKeyword .Func :: signatureWords params results).length 3 →
      ((upTo n).signature .unknownPlace true).Takes s (signatureWords params results)
        (Tree.funcType p params (.ofOption results) .absent (.flag true)).bare
        ((Tree.funcType p params (.ofOption results) .absent (.flag true)).absorbs · = false) := by
    intro n s hroom
    simpa using takes_signature (p := p) hparams hresults hroom (by simp)
  refine .of_primary (hwords ▸ hspells) rfl (.of_operand ⟨_, _, hwords, rfl⟩ ?_) fun _ =>
    .of_here ⟨_, _, hwords, rfl⟩ nofun nofun nofun ?_
  · intro n s hroom
    rw [hwords] at hroom ⊢
    refine takes_peek_bind (takes_expect_bind rfl ?_)
    refine Takes.bind_nil ((hread (hroom.later (by decide))).mono fun k hk => hk.1) ?_
    refine takes_peek_next (.nil fun _ h => h) fun k hk => ?_
    rw [if_neg fun hbrace => by simpa [Tree.is, kind?] using hk.2 hbrace]
    exact takes_pure rfl
  · intro n s hroom
    rw [hwords] at hroom ⊢
    exact takes_peek_bind (.map (takes_advance_bind (hread hroom)) some)

end

end Tree

end GoCompact
