import GoCompact.Proofs.Reread.Parameter

namespace GoCompact

open GoCompact.Parser GoCompact.Grammar GoCompact.Tree Cursor
open Emission (Spells)

-- What ends a member: the semicolon after it, or nothing before the closing brace.
inductive MemberEnding : List Lexeme → (TokenKind → Prop) → Prop
  | semicolon : MemberEnding [.ofOperator .Semicolon] fun _ => True
  | brace : MemberEnding [] (· = .op .RBrace)

namespace MemberEnding

variable {tail : List Lexeme} {P : TokenKind → Prop}

theorem ending (h : MemberEnding tail P) : Ending tail P := by
  cases h with
  | semicolon => exact .semicolon rfl
  | brace =>
      refine .closing ?_
      rintro k rfl
      rfl

theorem next (h : MemberEnding tail P) :
    Next (fun k => k = .op .Semicolon ∨ k = .op .RBrace) tail P := by
  cases h with
  | semicolon => exact .cons (.inl rfl) []
  | brace => exact .nil fun _ => .inr

end MemberEnding

-- Kinds that come after the type of a field.
def TokenKind.endsField (k : TokenKind) : Bool :=
  k == .op .Semicolon || k == .op .RBrace || k == .literal .Text

theorem TokenKind.cases_of_endsField {k : TokenKind} (h : k.endsField = true) :
    k = .op .Semicolon ∨ k = .op .RBrace ∨ k = .literal .Text := by
  simpa [endsField, or_assoc] using h

namespace Tree

variable {n m : Nat} {s : Scope} {p t : Tree}

theorem beginsType_of_endsField {k : TokenKind} (h : k.endsField = true) : k.beginsType = false := by
  rcases TokenKind.cases_of_endsField h with rfl | rfl | rfl <;> rfl

theorem absorbs_of_endsField {k : TokenKind} (h : k.endsField = true) (t : Tree) :
    t.absorbs k = false := by
  rcases TokenKind.cases_of_endsField h with rfl | rfl | rfl <;>
    exact absorbs_eq_false (by decide) rfl t

-- Names, which are lexemes by themselves.
theorem spells_name (h : Built .name t) : (Rule.nameOf t).Spells t.words := by
  cases h with
  | @name q x h => exact words_of_spells (spells_ident h q) ▸ spells_ident h q

theorem begins_name (h : Built .name t) : Begins (· = .ident) t.words := by
  cases h with
  | name h => exact ⟨_, _, words_of_spells (spells_ident h _), rfl⟩

theorem takes_name {P : TokenKind → Prop} (h : Built .name t) :
    Grammar.ident.Takes s t.words t.bare P := by
  cases h with
  | name h =>
      rw [words_of_spells (spells_ident h _)]
      simpa using takes_ident

theorem takes_otherNames {names : List Tree} (h : ∀ t ∈ names, Built .name t) :
    (afterCommas none Grammar.ident).Takes s (afterComma (names.map words)) (names.map bare)
      (· ≠ .op .Comma) :=
  takes_afterCommas (fun t ht => takes_name (h t ht)) (fun t ht => takes_name (h t (List.mem_of_getLast? ht)))
    (fun t ht => (begins_name (h t ht)).mono fun k _ => by simp) (by simp)

-- The names and the type of a field.
section

variable {names : List Tree}

-- A name with brackets after it, without a field name.
theorem takes_embeddedInstance (h : t.InstanceReads) (hroom : Room (n + 1) s t.words.length 3) :
    (upTo n).namesAndType.Takes s t.words ([], t.bare) (·.endsField = true) := by
  obtain ⟨x, ls, hx, hbracket, htakes⟩ := h
  have hread := (htakes hroom).mono fun k hk => beginsType_of_endsField hk
  rw [hx]
  refine takes_ident_bind (takes_peek_next hbracket.next ?_)
  rintro k rfl
  have hnone : (afterCommas none Grammar.ident).Takes s [] [] (· ≠ .op .Comma) :=
    takes_otherNames (by simp : ∀ t ∈ ([] : List Tree), Built .name t)
  refine Takes.bind hnone (hbracket.next.mono ?_) ?_
  · rintro k rfl
    decide
  · refine takes_peek_next hbracket.next ?_
    rintro k rfl
    exact hread.bind_nil (takes_pure rfl)

-- A type name without a field name.
theorem takes_embeddedName (h : t.TypeReads) (hstart : t.typeStart = .ident)
    (hroom : Room (n + 1) s t.words.length 3) :
    (upTo n).namesAndType.Takes s t.words ([], t.bare) (·.endsField = true) := by
  obtain ⟨x, ls, hx, hafter, htakes⟩ := h.named hstart
  have hread := (htakes hroom).mono fun k hk => absorbs_of_endsField hk t
  cases hafter with
  | nothing =>
      rw [hx]
      refine takes_ident_bind (takes_peek_next (.nil fun _ h => h) fun k hk => ?_)
      rcases TokenKind.cases_of_endsField hk with rfl | rfl | rfl <;>
        exact hread.bind_nil (takes_pure rfl)
  | brackets hindexed => exact takes_embeddedInstance (h.indexed hindexed) hroom
  | point hpoint =>
      rw [hx]
      refine takes_ident_bind (takes_peek_next hpoint.next ?_)
      rintro k rfl
      exact hread.bind_nil (takes_pure rfl)

-- A pointer to a type name without a field name.
theorem takes_embeddedPointer (h : t.TypeReads) (hstart : t.typeStart = .ident)
    (hroom : Room (n + 1) s (t.words.length + 1) 3) :
    (upTo n).embeddedPointer.Takes s (.ofOperator .Mul :: t.words) ([], (Tree.star p t).bare)
      (·.endsField = true) := by
  obtain ⟨x, ls, hx, -, htakes⟩ := h.named hstart
  have hread := (htakes (hroom.mono (by omega))).mono fun k hk => absorbs_of_endsField hk t
  rw [hx]
  exact takes_advance_bind (takes_ident_bind (hread.bind_nil (takes_pure (by simp))))

theorem followsEmbedded_typeStart (t : Tree) : followsEmbedded t.typeStart = false := by
  rcases t.typeStart_cases with h | h | h | h | h | h | h | h | h | h <;> rw [h] <;> rfl

-- Names and a type.
theorem takes_namesAndType (hne : names ≠ []) (hnames : ∀ n ∈ names, Built .name n)
    (h : t.TypeReads) (hroom : Room (n + 1) s m 3) (hlength : t.words.length < m) :
    (upTo n).namesAndType.Takes s (listed (names.map words) ++ t.words) (names.map bare, t.bare)
      (·.endsField = true) := by
  obtain ⟨x, xs, rfl⟩ := List.exists_cons_of_ne_nil hne
  obtain ⟨hx, hxs⟩ := List.forall_mem_cons.mp hnames
  have htype := (h.takes_type (hroom.inner hlength (by decide) 2)).mono fun k hk =>
    absorbs_of_endsField hk t
  have hothers := takes_otherNames (s := s) hxs
  have hcomma : t.typeStart ≠ .op .Comma := by
    rcases t.typeStart_cases with h | h | h | h | h | h | h | h | h | h <;> rw [h] <;> decide
  have hstart : Next (fun k => followsEmbedded k = false) t.words (·.endsField = true) :=
    h.begins.next.mono fun k hk => hk ▸ followsEmbedded_typeStart t
  have hnext := Next.afterComma hstart rfl (xs.map words)
  rw [List.map_cons, listed, List.append_assoc]
  have hname : Grammar.ident.Takes s x.words x.bare fun _ => True := takes_name hx
  refine hname.bind (fun _ _ _ => trivial)
    (takes_peek_next hnext fun k hk => ?_)
  rw [if_neg (by simp [hk])]
  refine hothers.bind (h.begins.next.mono fun k hk => hk ▸ hcomma)
    (takes_peek_next h.begins.next fun k hk => ?_)
  split
  · rename_i hbracket
    simp only [Bool.and_eq_true, List.isEmpty_iff, List.map_eq_nil_iff, beq_iff_eq] at hbracket
    obtain ⟨rfl, rfl⟩ := hbracket
    have harray := (h.array hk.symm x.bare (hroom.mono hlength.le)).mono fun k hk =>
      absorbs_of_endsField hk t
    exact harray.bind_nil (takes_pure rfl)
  · exact htype.bind_nil (takes_pure rfl)

end

-- The names and the type of a field, or the type by itself.
inductive FieldParts : List Tree → Tree → Prop
  | name {t : Tree} (h : t.TypeReads) (hspells : (t.emittedAs .expression).Spells t.words)
      (hstart : t.typeStart = .ident) : FieldParts [] t
  | indexed {t : Tree} (h : t.InstanceReads) (hspells : (t.emittedAs .expression).Spells t.words) :
      FieldParts [] t
  | pointer {p t : Tree} (h : t.TypeReads) (hspells : (t.emittedAs .expression).Spells t.words)
      (hstart : t.typeStart = .ident) : FieldParts [] (.star p t)
  | named {t : Tree} {names : List Tree} (hne : names ≠ []) (hnames : ∀ n ∈ names, Built .name n)
      (h : t.TypeReads) (hspells : (t.emittedAs .expression).Spells t.words) : FieldParts names t

namespace FieldParts

variable {names : List Tree}

theorem spells_names (h : ∀ n ∈ names, Built .name n) :
    (emittedNames names).Spells (listed (names.map words)) :=
  spells_listed fun n hn => spells_name (h n hn)

theorem spells (h : FieldParts names t) :
    (Emission.when (!names.isEmpty) (emittedNames names ++ .blank) ++
      t.emittedAs .expression).Spells (listed (names.map words) ++ t.words) := by
  cases h with
  | name _ hspells | indexed _ hspells => exact Spells.nothing.append hspells
  | @pointer p t _ hspells =>
      have hspells' := spells_star (p := p) hspells
      exact Spells.nothing.append (words_of_spells hspells' ▸ hspells')
  | named hne hnames _ hspells =>
      obtain ⟨x, xs, rfl⟩ := List.exists_cons_of_ne_nil hne
      exact (((spells_names hnames).append (.blank true)).of_eq (by simp)).append hspells

-- Which rule reads them is decided by what they begin with.
theorem takes (h : FieldParts names t) :
    (Begins (· = .ident) (listed (names.map words) ++ t.words) ∧
      ∀ ⦃n m : Nat⦄ ⦃s : Scope⦄, Room (n + 1) s m 3 →
        (listed (names.map words) ++ t.words).length < m →
        (upTo n).namesAndType.Takes s (listed (names.map words) ++ t.words)
          (names.map bare, t.bare) (·.endsField = true)) ∨
    (Begins (· = .op .Mul) (listed (names.map words) ++ t.words) ∧
      ∀ ⦃n m : Nat⦄ ⦃s : Scope⦄, Room (n + 1) s m 3 →
        (listed (names.map words) ++ t.words).length < m →
        (upTo n).embeddedPointer.Takes s (listed (names.map words) ++ t.words)
          (names.map bare, t.bare) (·.endsField = true)) := by
  cases h with
  | name h hspells hstart =>
      refine .inl ⟨h.begins.mono fun k hk => hk.trans hstart, fun n m s hroom hlength => ?_⟩
      exact takes_embeddedName h hstart (hroom.mono hlength.le)
  | indexed h hspells =>
      have hbegins : Begins (· = .ident) t.words := by
        obtain ⟨x, ls, hx, -⟩ := h
        exact ⟨_, _, hx, rfl⟩
      exact .inl ⟨hbegins, fun n m s hroom hlength =>
        takes_embeddedInstance h (hroom.mono hlength.le)⟩
  | @pointer p t h hspells hstart =>
      rw [words_of_spells (spells_star (p := p) hspells)]
      refine .inr ⟨⟨_, _, rfl, rfl⟩, fun n m s hroom hlength => ?_⟩
      exact takes_embeddedPointer h hstart (hroom.mono hlength.le)
  | named hne hnames h _ =>
      refine .inl ⟨?_, fun n m s hroom hlength => ?_⟩
      · obtain ⟨x, xs, rfl⟩ := List.exists_cons_of_ne_nil hne
        exact ((begins_name (hnames x (by simp))).append _).append _
      · rw [List.length_append] at hlength
        exact takes_namesAndType hne hnames h hroom (by omega)

end FieldParts

-- The lexemes of a field.
def fieldWords (t : Tree) : List Lexeme := (t.emittedAs .field).words

-- A field of a struct is read with its end.
structure FieldReads (t : Tree) : Prop where
  spells : (t.emittedAs .field).Spells t.fieldWords
  begins : Begins (beginsStructField · = true) t.fieldWords
  takes {n m : Nat} {s : Scope} {tail : List Lexeme} {P : TokenKind → Prop} :
    Room (n + 1) s m 3 → t.fieldWords.length < m → MemberEnding tail P →
    (upTo n).structField.Takes s (t.fieldWords ++ tail) t.bare P

section

variable {names : List Tree} {tag : Option Tree}

theorem spells_tag (htag : ∀ t ∈ tag, Built .text t) :
    ((Tree.ofOption tag).emittedIf (Rule.fieldText "value" (.ofOption tag))).Spells
      (boundWords tag) := by
  refine spells_optional (Rule.fieldText "value") (fun t ht => ?_) fun t ht => ?_
  · cases htag t ht
    rfl
  · cases htag t ht with
    | @text q x h => exact words_of_spells (spells_literal h q) ▸ spells_literal h q

theorem takes_tag (htag : ∀ t ∈ tag, Built .text t) :
    Grammar.tag.Takes s (boundWords tag) (.ofOption (tag.map bare)) (· ≠ .literal .Text) := by
  cases tag with
  | none =>
      refine takes_peek_next (.nil fun _ h => h) fun k hk => ?_
      rw [if_neg hk]
      exact takes_pure rfl
  | some t =>
      cases htag t rfl with
      | @text q x h =>
          have hwords : boundWords (some (.basicLit q (.token (.literal .Text)) (.text x))) =
            [⟨.literal .Text, x⟩] := words_of_spells (spells_literal h q)
          rw [hwords]
          refine takes_peek_bind ?_
          rw [if_pos rfl]
          exact takes_advance_bind (takes_pure (by simp [ofOption]))

theorem reads_field (h : FieldParts names t) (htag : ∀ t ∈ tag, Built .text t) :
    (Tree.field p (.tuple names) t (.ofOption tag)).FieldReads := by
  have hspells : ((Tree.field p (.tuple names) t (.ofOption tag)).emittedAs .field).Spells
      (listed (names.map words) ++ t.words ++ boundWords tag) := by
    rw [emitted_field]
    exact h.spells.append (spells_tag htag)
  have hwords : (Tree.field p (.tuple names) t (.ofOption tag)).fieldWords = _ := hspells.words
  have hbegins : Begins (beginsStructField · = true) (listed (names.map words) ++ t.words) := by
    rcases h.takes with ⟨hbegins, -⟩ | ⟨hbegins, -⟩ <;>
    · refine hbegins.mono ?_
      rintro k rfl
      rfl
  refine ⟨hwords ▸ hspells, hwords ▸ hbegins.append _, fun {n m s tail P} hroom hlength hending => ?_⟩
  rw [hwords] at hlength ⊢
  rw [List.length_append] at hlength
  have hnext : Next (·.endsField = true) (boundWords tag ++ tail) P := by
    cases tag with
    | none =>
        refine hending.next.mono ?_
        rintro k (rfl | rfl) <;> rfl
    | some t =>
        cases htag t rfl with
        | @text q x hx =>
            have hwords : boundWords (some (.basicLit q (.token (.literal .Text)) (.text x))) =
              [⟨.literal .Text, x⟩] := words_of_spells (spells_literal hx q)
            rw [hwords]
            exact .cons (by rfl) _
  let after (r : List Tree × Tree) : Parser Tree := do
    let tag ← Grammar.tag
    expectEnd
    return .field .unknownPlace (.tuple r.1) r.2 tag
  have hrest : (after (names.map bare, t.bare)).Takes s (boundWords tag ++ tail)
      (Tree.field p (.tuple names) t (.ofOption tag)).bare P := by
    refine (takes_tag htag).bind (hending.next.mono ?_) ?_
    · rintro k (rfl | rfl) <;> decide
    · exact hending.ending.takes_expectEnd (takes_pure (by simp))
  rw [List.append_assoc]
  rcases h.takes with ⟨⟨l, rest, hl, hkind⟩, htakes⟩ | ⟨⟨l, rest, hl, hkind⟩, htakes⟩ <;>
  · have hread := (htakes hroom (by omega)).bind hnext hrest
    rw [hl] at hread ⊢
    refine takes_current_bind ?_
    simp only [Lexeme.toLexeme_bare, hkind]
    exact hread

end

-- Struct types.
section

variable {q : Tree} {fields : List Tree}

theorem spells_structType (h : ∀ t ∈ fields, t.FieldReads) :
    ((Tree.structType p (.fieldList q (.tuple fields))).emittedAs .expression).Spells
      (.ofKeyword .Struct :: .ofOperator .LBrace ::
        (sequenced (fields.map fieldWords) ++ [.ofOperator .RBrace])) := by
  rw [emitted_structType]
  exact ((Spells.joined _ _).append (spells_sequenced fun t ht => (h t ht).spells)).append
    (.operator _)

theorem takes_fields (h : ∀ t ∈ fields, t.FieldReads) (hroom : Room (n + 1) s m 3)
    (hlength : (sequenced (fields.map fieldWords)).length < m) :
    (manyWhile beginsStructField (upTo n).structField).Takes s (sequenced (fields.map fieldWords))
      (fields.map bare) (· = .op .RBrace) := by
  have hread : ∀ t ∈ fields, ∀ {tail : List Lexeme} {P : TokenKind → Prop}, MemberEnding tail P →
      (upTo n).structField.Takes s (t.fieldWords ++ tail) t.bare P := by
    intro t ht tail P hending
    have hle := length_le_sequenced (List.mem_map_of_mem (f := fieldWords) ht)
    exact (h t ht).takes hroom (by omega) hending
  have hall : TakesAll beginsStructField (upTo n).structField s
      (sequenced (fields.map fieldWords) ++ []) (fields.map bare) (· = .op .RBrace) :=
    takesAll_sequenced (fun t ht => hread t ht .semicolon)
      (fun t ht => hread t (List.mem_of_getLast? ht) .brace) (fun t ht => (h t ht).begins) fun _ => rfl
  rw [List.append_nil] at hall
  refine hall.manyWhile ?_
  rintro k rfl
  rfl

theorem reads_structType {b : Bool} (h : ∀ t ∈ fields, t.FieldReads) :
    (Tree.structType p (.fieldList q (.tuple fields))).Reads b := by
  have hspells := spells_structType (p := p) (q := q) h
  have hwords := words_of_spells hspells
  refine .of_type (hwords ▸ hspells) (.of_here ⟨_, _, hwords, rfl⟩ nofun nofun nofun ?_) rfl rfl
    fun _ => rfl
  intro n s hroom
  rw [hwords] at hroom ⊢
  have hread := takes_fields h hroom (by simp; omega)
  refine takes_peek_bind (.map (?_ : (upTo n).structType.Takes _ _ _ _) some)
  refine takes_expect_bind rfl (takes_expect_bind rfl (hread.bind (.cons (by rfl) []) ?_))
  exact takes_discard_expect rfl (takes_pure (by simp))

end

-- The lexemes of an element of an interface.
def elementWords (t : Tree) : List Lexeme := (t.emittedAs .interfaceElement).words

-- An element of an interface is read with its end.
structure ElementReads (t : Tree) : Prop where
  spells : (t.emittedAs .interfaceElement).Spells t.elementWords
  begins : Begins (fun k => k ≠ .op .RBrace ∧ k ≠ .eof) t.elementWords
  takes {n m : Nat} {s : Scope} : Room (n + 1) s m 3 → t.elementWords.length < m →
    (upTo n).interfaceElement.Takes s t.elementWords t.bare
      fun k => k = .op .Semicolon ∨ k = .op .RBrace

section

variable {q : Tree} {x : Text} {params : Tree} {results : Option Tree}

theorem spells_method (h : (⟨.ident, x⟩ : Lexeme).Whole) (hparams : params.ParametersReads)
    (hresults : ResultsReads results) {r : Tree} :
    ((Tree.field p (.tuple [.ident q (.text x)])
        (.funcType r params (.ofOption results) .absent (.flag false))
        .absent).emittedAs .interfaceElement).Spells
      (⟨.ident, x⟩ :: signatureWords params results) := by
  have hsignature : (emittedSignature params (.ofOption results) (.ofOption none)).Spells
      (bracketWords none ++ signatureWords params results) :=
    spells_signature hparams hresults nofun
  exact (Spells.write h).append hsignature

theorem reads_method (h : (⟨.ident, x⟩ : Lexeme).Whole) (hparams : params.ParametersReads)
    (hresults : ResultsReads results) {r : Tree} :
    (Tree.field p (.tuple [.ident q (.text x)])
      (.funcType r params (.ofOption results) .absent (.flag false)) .absent).ElementReads := by
  have hspells := spells_method (p := p) (q := q) h hparams hresults (r := r)
  generalize ht : Tree.field p (.tuple [.ident q (.text x)])
    (.funcType r params (.ofOption results) .absent (.flag false)) .absent = t at hspells ⊢
  have hwords : t.elementWords = _ := hspells.words
  refine ⟨hwords ▸ hspells, ⟨_, _, hwords, by simp⟩, fun {n m s} hroom hlength => ?_⟩
  rw [hwords] at hlength ⊢
  have hread : ((upTo n).signature .unknownPlace false).Takes s (signatureWords params results)
      (.funcType .unknownPlace params.bare (.ofOption (results.map bare)) .absent (.flag false))
      fun k => k = .op .Semicolon ∨ k = .op .RBrace := by
    rw [List.length_cons] at hlength
    refine (takes_signature (p := r) hparams hresults hroom (by omega)).mono ?_
    rintro k (rfl | rfl) <;> exact absorbs_eq_false (by decide) rfl _
  refine takes_peek_bind ?_
  rw [if_pos rfl]
  refine takes_ident_bind (takes_peek_bind ?_)
  rw [if_pos (Lexeme.kind_ofOperator _)]
  have hplace : (Tree.ident .unknownPlace (.text x)).placeOf = .unknownPlace := rfl
  exact hread.bind_nil (takes_pure (by simp [← ht, hplace]))

end

-- A type or a union by itself.
theorem takes_interfaceUnion {x : Tree} {ls : List Lexeme} (h : Extends x t ls)
    (hroom : Room (n + 1) s m 3) (hlength : t.words.length < m) :
    ((upTo n).interfaceUnion x.bare).Takes s ls (Tree.field p (.tuple []) t .absent).bare
      fun k => k = .op .Semicolon ∨ k = .op .RBrace := by
  refine ((h.takes hroom hlength).mono ?_).bind_nil (takes_pure (by simp))
  rintro k (rfl | rfl) <;> exact ⟨rfl, by decide⟩

theorem reads_embedded (h : t.UnionReads) :
    (Tree.field p (.tuple []) t .absent).ElementReads := by
  have hspells : ((Tree.field p (.tuple []) t .absent).emittedAs .interfaceElement).Spells
      t.words := h.spells
  have hwords : (Tree.field p (.tuple []) t .absent).elementWords = t.words := hspells.words
  obtain ⟨x, ls, hx, hextends⟩ := h
  refine ⟨hwords ▸ hspells, ?_, fun {n m s} hroom hlength => ?_⟩
  · rw [hwords, hextends.words]
    exact (hx.begins.append _).mono fun k hk => ⟨hk.2.1, hk.2.2.2⟩
  rw [hwords] at hlength ⊢
  have hterms := takes_interfaceUnion (p := p) (s := s) hextends hroom hlength
  have hends : Next (endsTerm · = true) ls fun k => k = .op .Semicolon ∨ k = .op .RBrace := by
    refine hextends.next ?_
    rintro k (rfl | rfl) <;> rfl
  rw [hextends.words, List.length_append] at hlength
  rw [hextends.words]
  -- A term that begins with no name is read as a whole.
  have hterm : Begins (· ≠ .ident) x.words → (upTo n).interfaceElement.Takes s (x.words ++ ls)
      (Tree.field p (.tuple []) t .absent).bare fun k => k = .op .Semicolon ∨ k = .op .RBrace := by
    intro hbegins
    refine takes_peek_next (hbegins.append ls).next fun k hk => ?_
    rw [if_neg hk]
    exact (hx.takes hroom (by omega)).bind hends hterms
  cases hx with
  | @tilde r y _ hspells =>
      exact hterm ⟨_, _, words_of_spells (spells_unary (p := r) (o := .Tilde) hspells), by decide⟩
  | type h _ =>
      by_cases hstart : x.typeStart = .ident
      · obtain ⟨z, zs, hz, hafter, htakes⟩ := h.named hstart
        have hnamed := (htakes (s := s) (hroom.mono (by omega))).bind
          (hends.mono fun k hk => absorbs_of_endsTerm hk x) hterms
        have hnotMethod : Next (· ≠ .op .LParen) (zs ++ ls)
            fun k => k = .op .Semicolon ∨ k = .op .RBrace := by
          cases hafter with
          | nothing =>
              refine hends.mono ?_
              rintro k hk rfl
              cases hk
          | brackets _ hbracket =>
              refine (hbracket.append ls).next.mono ?_
              rintro k rfl
              decide
          | point hpoint =>
              refine (hpoint.append ls).next.mono ?_
              rintro k rfl
              decide
        rw [hz]
        refine takes_peek_bind ?_
        rw [if_pos rfl]
        refine takes_ident_bind (takes_peek_next hnotMethod fun k hk => ?_)
        rw [if_neg hk]
        exact hnamed
      · exact hterm (h.begins.mono fun k hk => hk ▸ hstart)

-- Interface types.
section

variable {q : Tree} {methods : List Tree}

theorem spells_interfaceType (h : ∀ t ∈ methods, t.ElementReads) :
    ((Tree.interfaceType p (.fieldList q (.tuple methods))).emittedAs .expression).Spells
      (.ofKeyword .Interface :: .ofOperator .LBrace ::
        (sequenced (methods.map elementWords) ++ [.ofOperator .RBrace])) := by
  rw [emitted_interfaceType]
  exact ((Spells.joined _ _).append (spells_sequenced fun t ht => (h t ht).spells)).append
    (.operator _)

theorem takes_methods (h : ∀ t ∈ methods, t.ElementReads) (hroom : Room (n + 1) s m 3)
    (hlength : (sequenced (methods.map elementWords)).length < m) :
    (manyWhile (fun k => k != .op .RBrace && k != .eof) do
      let element ← (upTo n).interfaceElement
      expectEnd
      return element).Takes s (sequenced (methods.map elementWords)) (methods.map bare)
        (· = .op .RBrace) := by
  have hread : ∀ t ∈ methods, ∀ {tail : List Lexeme} {P : TokenKind → Prop}, MemberEnding tail P →
      ((upTo n).interfaceElement >>= fun element => expectEnd >>= fun _ => pure element).Takes s
        (t.elementWords ++ tail) t.bare P := by
    intro t ht tail P hending
    have hle := length_le_sequenced (List.mem_map_of_mem (f := elementWords) ht)
    refine ((h t ht).takes hroom (by omega)).bind hending.next ?_
    exact hending.ending.takes_expectEnd (takes_pure rfl)
  have hbegins : ∀ t ∈ methods,
      Begins (fun k => (k != .op .RBrace && k != .eof) = true) t.elementWords := by
    intro t ht
    exact (h t ht).begins.mono fun k hk => by simpa using hk
  have hall : TakesAll (fun k => k != .op .RBrace && k != .eof)
      ((upTo n).interfaceElement >>= fun element => expectEnd >>= fun _ => pure element) s
      (sequenced (methods.map elementWords) ++ []) (methods.map bare) (· = .op .RBrace) :=
    takesAll_sequenced (fun t ht => hread t ht .semicolon)
      (fun t ht => hread t (List.mem_of_getLast? ht) .brace) hbegins fun _ => rfl
  rw [List.append_nil] at hall
  refine hall.manyWhile ?_
  rintro k rfl
  rfl

theorem reads_interfaceType {b : Bool} (h : ∀ t ∈ methods, t.ElementReads) :
    (Tree.interfaceType p (.fieldList q (.tuple methods))).Reads b := by
  have hspells := spells_interfaceType (p := p) (q := q) h
  have hwords := words_of_spells hspells
  refine .of_type (hwords ▸ hspells) (.of_here ⟨_, _, hwords, rfl⟩ nofun nofun nofun ?_) rfl rfl
    fun _ => rfl
  intro n s hroom
  rw [hwords] at hroom ⊢
  have hread := takes_methods h hroom (by simp; omega)
  refine takes_peek_bind (.map (?_ : (upTo n).interfaceType.Takes _ _ _ _) some)
  refine takes_expect_bind rfl (takes_expect_bind rfl (hread.bind (.cons (by rfl) []) ?_))
  exact takes_discard_expect rfl (takes_pure (by simp))

end

end Tree

end GoCompact
