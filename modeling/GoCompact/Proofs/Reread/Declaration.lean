import GoCompact.Proofs.Reread.Member
import GoCompact.Proofs.Reread.Statement
import GoCompact.Proofs.Reread.Text

namespace GoCompact

namespace Tree

open GoCompact.Parser GoCompact.Grammar Cursor
open Emission (Spells)

variable {n m : Nat} {s : Scope} {p t : Tree} {tail : List Lexeme} {P : TokenKind → Prop}

-- The lexemes of specs and of declarations.
def specWords (t : Tree) : List Lexeme := (t.emittedAs .spec).words

def declarationWords (t : Tree) : List Lexeme := (t.emittedAs .declaration).words

-- A spec is read with its end.
structure SpecReads (keyword : Keyword) (t : Tree) : Prop where
  spells : (t.emittedAs .spec).Spells t.specWords
  begins : Begins (fun k => k ≠ .op .LParen ∧ k ≠ .op .RParen ∧ k ≠ .eof) t.specWords
  takes {n m : Nat} {s : Scope} {tail : List Lexeme} {P : TokenKind → Prop} :
    Room (n + 1) s m 3 → t.specWords.length < m → s.isFree = true → Ending tail P →
    ((upTo n).spec keyword).Takes s (t.specWords ++ tail) t.bare P

-- The keyword that a declaration begins with.
def declaringKeyword : Tree → Keyword
  | .genDecl _ (.token (.word keyword)) _ _ => keyword
  | _ => .Func

-- A declaration is read with its end.
structure DeclarationReads (t : Tree) : Prop where
  spells : (t.emittedAs .declaration).Spells t.declarationWords
  begins : Begins (· = .word t.declaringKeyword) t.declarationWords
  takes {n : Nat} {s : Scope} {tail : List Lexeme} {P : TokenKind → Prop} :
    Room (n + 1) s t.declarationWords.length 3 → s.isFree = true → Ending tail P →
    (upTo n).declaration.Takes s (t.declarationWords ++ tail) t.bare P

theorem cases_of_closesStatement {k : TokenKind} (h : closesStatement k = true) :
    k = .op .RParen ∨ k = .op .RBrace ∨ k = .eof := by
  unfold closesStatement at h
  split at h <;> simp_all

-- What ends a declaration ends the type and the values in it.
theorem absorbs_of_ending {k : TokenKind} (h : k = .op .Semicolon ∨ closesStatement k = true)
    (t : Tree) : t.absorbs k = false := by
  rcases h.imp_right cases_of_closesStatement with rfl | rfl | rfl | rfl <;>
    exact absorbs_eq_false (by decide) rfl t

-- Imports.
section

variable {name : Option Tree} {x : Text} {q r : Tree}

-- The name under which a package is imported.
inductive ImportName : Option Tree → List Lexeme → Prop
  | path : ImportName none []
  | name {q : Tree} {x : Text} (h : (⟨.ident, x⟩ : Lexeme).Whole) :
      ImportName (some (.ident q (.text x))) [⟨.ident, x⟩]
  | all {q : Tree} : ImportName (some (.ident q (.text "."))) [.ofOperator .Period]

namespace ImportName

variable {ls : List Lexeme}

theorem spells (h : ImportName name ls) :
    ((ofOption name).emittedIf (Rule.nameOf (.ofOption name))).Spells ls := by
  cases h with
  | path => exact .nothing
  | name h => exact .write h
  | all => exact .operator .Period

theorem takes (h : ImportName name ls) :
    importName.Takes s ls (.ofOption (name.map bare)) (· = .literal .Text) := by
  cases h with
  | path =>
      refine takes_peek_next (.nil fun _ h => h) ?_
      rintro k rfl
      exact takes_pure rfl
  | @name q x h =>
      have hident : Grammar.ident.Takes s [⟨.ident, x⟩] _ (· = .literal .Text) := takes_ident
      exact takes_peek_bind hident
  | all => exact takes_peek_bind (takes_advance_bind (takes_pure rfl))

theorem begins (h : ImportName name ls) (ms : List Lexeme) :
    Begins (fun k => k ≠ .op .LParen ∧ k ≠ .op .RParen ∧ k ≠ .eof)
      (ls ++ ⟨.literal .Text, x⟩ :: ms) := by
  cases h with
  | path => exact .cons (by simp) _
  | name => exact .cons (by simp) _
  | all => exact .cons (by decide) _

end ImportName

theorem takes_stringLiteral : stringLiteral.Takes s [⟨.literal .Text, x⟩]
    (.basicLit .unknownPlace (.token (.literal .Text)) (.text x)) P :=
  takes_advance_bind (takes_pure rfl)

theorem spells_importSpec {ls : List Lexeme} (hname : ImportName name ls)
    (hpath : (⟨.literal .Text, x⟩ : Lexeme).Whole) :
    ((Tree.importSpec p (.ofOption name) (.basicLit q (.token (.literal .Text)) (.text x))).emittedAs
      .spec).Spells (ls ++ [⟨.literal .Text, x⟩]) :=
  hname.spells.append (.write hpath)

theorem reads_importSpec {ls : List Lexeme} (hname : ImportName name ls)
    (hpath : (⟨.literal .Text, x⟩ : Lexeme).Whole) :
    (Tree.importSpec p (.ofOption name)
      (.basicLit q (.token (.literal .Text)) (.text x))).SpecReads .Import := by
  have hspells := spells_importSpec (p := p) (q := q) hname hpath
  generalize ht : Tree.importSpec p (.ofOption name)
    (.basicLit q (.token (.literal .Text)) (.text x)) = t at hspells ⊢
  have hwords : t.specWords = _ := hspells.words
  refine ⟨hwords ▸ hspells, hwords ▸ hname.begins [], fun {n m s tail P} _ _ _ hending => ?_⟩
  obtain ⟨l, rest, hl, -⟩ := hname.begins (x := x) tail
  have hread : (importName >>= fun name => peek >>= fun kind =>
      if kind = .literal .Text then stringLiteral >>= fun path => expectEnd >>= fun _ =>
        pure (.importSpec .unknownPlace name path) else expected .importPath).Takes s
      (ls ++ ⟨.literal .Text, x⟩ :: tail) t.bare P := by
    refine hname.takes.bind (.cons (by rfl) _) (takes_peek_bind ?_)
    rw [if_pos rfl]
    have hpath := takes_stringLiteral (s := s) (x := x) (P := fun _ => True)
    have hend : (expectEnd >>= fun _ => pure (.importSpec .unknownPlace (.ofOption (name.map bare))
        (.basicLit .unknownPlace (.token (.literal .Text)) (.text x)))).Takes s tail t.bare P :=
      hending.takes_expectEnd (takes_pure (by simp [← ht]))
    exact hpath.bind (fun _ _ _ => trivial) hend
  rw [hwords, List.append_assoc, List.singleton_append]
  rw [hl] at hread ⊢
  exact takes_current_bind hread

end

-- Constants and variables.
section

variable {names values : List Tree} {typ : Option Tree}

-- The values of a declaration, if there are any.
def valueWords (values : List Tree) : List Lexeme :=
  if values.isEmpty then [] else .ofOperator .Assign :: listed (values.map words)

theorem spells_values (h : ∀ t ∈ values, (t.emittedAs .expression).Spells t.words) :
    (emittedValues values).Spells (valueWords values) := by
  cases values with
  | nil => exact .nothing
  | cons y ys => exact ((Spells.operator .Assign).append (.blank _)).append (spells_list h)

theorem takes_initialValues (h : ∀ t ∈ values, t.Reads true) (hroom : Room (n + 1) s m 3)
    (hlength : (valueWords values).length < m) (hfree : s.isFree = true) :
    (upTo n).initialValues.Takes s (valueWords values) (values.map bare)
      fun k => k = .op .Semicolon ∨ closesStatement k = true := by
  cases values with
  | nil =>
      refine takes_not_got (.nil ?_) (takes_pure rfl)
      rintro k hk rfl
      rcases hk with hk | hk <;> cases hk
  | cons y ys =>
      have hlist := takes_expressions (hroom.smaller hlength (by decide) 1) (by simp [valueWords])
        (fun _ => hfree) h
      refine takes_got_bind rfl (hlist.mono fun k hk => ?_)
      have hstops := stops_of_ending hk s
      exact ⟨(hstops y).1, (hstops y).2.1, fun z _ => (hstops z).2.2⟩

-- The lexemes after the names.
def tailWords (typ : Option Tree) (values : List Tree) : List Lexeme :=
  boundWords typ ++ valueWords values

theorem spells_valueSpec (hnames : ∀ n ∈ names, Built .name n)
    (htyp : ∀ t ∈ typ, (t.emittedAs .expression).Spells t.words)
    (hvalues : ∀ t ∈ values, (t.emittedAs .expression).Spells t.words) :
    ((Tree.valueSpec p (.tuple names) (.ofOption typ) (.tuple values)).emittedAs .spec).Spells
      (listed (names.map words) ++ tailWords typ values) := by
  have habsent : ∀ t ∈ typ, t.isAbsent = false := by
    intro t ht
    unfold Tree.isAbsent
    split
    · cases (htyp _ ht).fault
    · rfl
  have htyp' := spells_optional (fun t => .blank ++ t.emittedAs .expression) habsent
    fun t ht => (Spells.blank true).append (htyp t ht)
  rw [emitted_valueSpec]
  exact (((FieldParts.spells_names hnames).append htyp').append (spells_values hvalues)).of_eq
    (by simp [tailWords, boundWords])

-- What comes after the names, if anything does, is a type or an equals sign.
theorem begins_tailWords (htyp : ∀ t ∈ typ, t.TypeReads) (hne : typ = none → values ≠ []) :
    Begins (fun k => k.beginsType = true ∨ k = .op .Assign) (tailWords typ values) := by
  cases typ with
  | some t =>
      refine ((htyp t rfl).begins.append _).mono fun k hk => .inl ?_
      rcases t.typeStart_cases with h | h | h | h | h | h | h | h | h | h <;> rw [hk, h] <;> rfl
  | none =>
      obtain ⟨y, ys, rfl⟩ := List.exists_cons_of_ne_nil (hne rfl)
      exact .cons (.inr rfl) _

-- The type is read, and then the values.
theorem takes_typeAndValues (htyp : ∀ t ∈ typ, t.TypeReads) (hvalues : ∀ t ∈ values, t.Reads true)
    (hroom : Room (n + 1) s m 3) (hlength : (tailWords typ values).length + 1 < m)
    (hfree : s.isFree = true) :
    ((upTo n).typeRule? >>= fun typ => (upTo n).initialValues >>= fun values =>
      pure (Tree.ofOption typ, values)).Takes s (tailWords typ values)
      (.ofOption (typ.map bare), values.map bare)
      fun k => k = .op .Semicolon ∨ closesStatement k = true := by
  rw [tailWords, List.length_append] at hlength
  have hvalues' := takes_initialValues hvalues hroom (by omega) hfree
  have htype : (upTo n).typeRule?.Takes s (boundWords typ) (typ.map bare)
      fun k => k = .op .Assign ∨ k = .op .Semicolon ∨ closesStatement k = true := by
    cases typ with
    | none =>
        have hone : Room (n + 1) s 1 2 := hroom.smaller (by omega) (by decide) 2
        refine (takes_noType (n := n + 1) hone (by decide)).mono ?_
        rintro k (rfl | rfl | hk)
        · rfl
        · rfl
        · rcases cases_of_closesStatement hk with rfl | rfl | rfl <;> rfl
    | some t =>
        refine ((htyp t rfl).takes (n := n + 1) (hroom.smaller ?_ (by decide) 2)).mono ?_
        · simp only [boundWords, Option.elim] at hlength
          omega
        · rintro k (rfl | hk)
          · exact absorbs_eq_false (by decide) rfl t
          · exact absorbs_of_ending hk t
  refine htype.bind ?_ (hvalues'.bind_nil (takes_pure rfl))
  cases values with
  | nil => exact .nil fun k hk => .inr hk
  | cons y ys => exact .cons (.inl rfl) _

-- The tail of a constant may be empty.
theorem takes_constantTail (htyp : ∀ t ∈ typ, t.TypeReads) (hvalues : ∀ t ∈ values, t.Reads true)
    (hroom : Room (n + 1) s m 3) (hlength : (tailWords typ values).length + 1 < m)
    (hfree : s.isFree = true) :
    (upTo n).constantTail.Takes s (tailWords typ values) (.ofOption (typ.map bare), values.map bare)
      fun k => k = .op .Semicolon ∨ closesStatement k = true := by
  have hread := takes_typeAndValues htyp hvalues hroom hlength hfree
  by_cases hne : typ = none → values ≠ []
  · refine takes_peek_next (begins_tailWords htyp hne).next fun k hk => ?_
    split
    · rcases hk with hk | hk <;> cases hk
    · rcases hk with hk | hk <;> cases hk
    · rcases hk with hk | hk <;> cases hk
    · exact hread
  · obtain ⟨rfl, rfl⟩ : typ = none ∧ values = [] := by simpa using hne
    refine takes_peek_next (.nil fun _ h => h) fun k hk => ?_
    rcases hk.imp_right cases_of_closesStatement with rfl | rfl | rfl | rfl <;>
      first | exact takes_pure rfl | exact hread

-- That of a variable is not.
theorem takes_variableTail (htyp : ∀ t ∈ typ, t.TypeReads) (hvalues : ∀ t ∈ values, t.Reads true)
    (hne : typ = none → values ≠ []) (hroom : Room (n + 1) s m 3)
    (hlength : (tailWords typ values).length < m) (hfree : s.isFree = true) :
    (upTo n).variableTail.Takes s (tailWords typ values) (.ofOption (typ.map bare), values.map bare)
      fun k => k = .op .Semicolon ∨ closesStatement k = true := by
  rw [tailWords, List.length_append] at hlength
  have hvalues' := takes_initialValues hvalues hroom (by omega) hfree
  cases typ with
  | none =>
      obtain ⟨y, ys, rfl⟩ := List.exists_cons_of_ne_nil (hne rfl)
      refine takes_peek_bind ?_
      rw [if_pos (Lexeme.kind_ofOperator _), pure_bind]
      exact hvalues'.bind_nil (takes_pure rfl)
  | some t =>
      have htype : (upTo n).typeRule.Takes s t.words t.bare (t.absorbs · = false) :=
        (htyp t rfl).takes_type (n := n + 1) (hroom.smaller (by
          simp only [boundWords, Option.elim] at hlength
          omega) (by decide) 2)
      have hnext : Next (t.absorbs · = false) (valueWords values)
          fun k => k = .op .Semicolon ∨ closesStatement k = true := by
        cases values with
        | nil => exact .nil fun k hk => absorbs_of_ending hk t
        | cons y ys => exact .cons (absorbs_eq_false (by decide) rfl t) _
      have hstart : Next (· ≠ .op .Assign) (tailWords (some t) values)
          fun k => k = .op .Semicolon ∨ closesStatement k = true := by
        refine ((htyp t rfl).begins.append _).next.mono ?_
        rintro k rfl
        rcases t.typeStart_cases with h | h | h | h | h | h | h | h | h | h <;> rw [h] <;> decide
      refine takes_peek_next hstart fun k hk => ?_
      rw [if_neg hk]
      exact htype.bind hnext (hvalues'.bind_nil (takes_pure rfl))

theorem takes_names (hne : names ≠ []) (hnames : ∀ n ∈ names, Built .name n) :
    (commaList Grammar.ident).Takes s (listed (names.map words)) (names.map bare)
      (· ≠ .op .Comma) := by
  obtain ⟨x, xs, rfl⟩ := List.exists_cons_of_ne_nil hne
  exact takes_commaList (fun t ht => takes_name (hnames t ht))
    (fun t ht => takes_name (hnames t (List.mem_of_getLast? ht)))
    (fun t ht => (begins_name (hnames t (List.mem_cons_of_mem x ht))).ne_nil) (by simp)

theorem begins_names (hne : names ≠ []) (hnames : ∀ n ∈ names, Built .name n) :
    Begins (· = .ident) (listed (names.map words)) := by
  obtain ⟨x, xs, rfl⟩ := List.exists_cons_of_ne_nil hne
  exact (begins_name (hnames x (by simp))).append _

theorem reads_valueSpec {keyword : Keyword} (hkeyword : keyword = .Const ∨ keyword = .Var)
    (hne : names ≠ []) (hnames : ∀ n ∈ names, Built .name n) (htyp : ∀ t ∈ typ, t.TypeReads)
    (htypSpells : ∀ t ∈ typ, (t.emittedAs .expression).Spells t.words)
    (hvalues : ∀ t ∈ values, t.Reads true)
    (hvar : keyword = .Var → typ = none → values ≠ []) :
    (Tree.valueSpec p (.tuple names) (.ofOption typ) (.tuple values)).SpecReads keyword := by
  have hspells := spells_valueSpec (p := p) hnames htypSpells fun t ht => (hvalues t ht).spells
  have hbegins := begins_names hne hnames
  generalize ht : Tree.valueSpec p (.tuple names) (.ofOption typ) (.tuple values) = t at hspells ⊢
  have hwords : t.specWords = _ := hspells.words
  refine ⟨hwords ▸ hspells, ?_, fun {n m s tail P} hroom hlength hfree hending => ?_⟩
  · rw [hwords]
    refine (hbegins.append _).mono ?_
    rintro k rfl
    decide
  rw [hwords, List.length_append] at hlength
  have hpos := hbegins.length_pos
  have hcomma : Next (· ≠ .op .Comma) (tailWords typ values ++ tail) P := by
    by_cases hempty : typ = none → values ≠ []
    · refine ((begins_tailWords htyp hempty).append tail).next.mono ?_
      rintro k hk rfl
      rcases hk with hk | hk <;> cases hk
    · obtain ⟨rfl, rfl⟩ : typ = none ∧ values = [] := by simpa using hempty
      refine hending.next.mono ?_
      rintro k hk rfl
      rcases hk with hk | hk <;> cases hk
  have hend : ∀ l : Lexeme, (expectEnd >>= fun _ => pure (.valueSpec l.bare.place
      (.tuple (names.map bare)) (.ofOption (typ.map bare)) (.tuple (values.map bare)))).Takes s tail
      t.bare P :=
    fun l => hending.takes_expectEnd (takes_pure (by simp [← ht]))
  obtain ⟨l, rest, hl, -⟩ := hbegins
  have hnames' := takes_names (s := s) hne hnames
  have hspec : ((upTo n).valueSpec keyword).Takes s (t.specWords ++ tail) t.bare P := by
    rw [hwords, List.append_assoc]
    rw [hl] at hnames' ⊢
    refine takes_current_bind (hnames'.bind hcomma ?_)
    dsimp only
    rcases hkeyword with rfl | rfl
    · rw [if_pos rfl]
      exact (takes_constantTail htyp hvalues hroom (by omega) hfree).bind hending.next (hend l)
    · rw [if_neg (by decide)]
      exact (takes_variableTail htyp hvalues (hvar rfl) hroom (by omega) hfree).bind hending.next
        (hend l)
  rcases hkeyword with rfl | rfl <;> exact hspec

end

-- Declarations of a keyword.
section

variable {keyword : Keyword} {spec : Tree} {specs : List Tree}

theorem spells_genDecl (h : spec.SpecReads keyword) :
    ((Tree.genDecl p (.token (.word keyword)) (.tuple [spec]) (.flag false)).emittedAs
      .declaration).Spells (.ofKeyword keyword :: spec.specWords) := by
  rw [emitted_genDecl]
  exact (Spells.keyword _).append ((Spells.blank true).append h.spells)

theorem spells_grouped (h : ∀ t ∈ specs, t.SpecReads keyword) :
    ((Tree.genDecl p (.token (.word keyword)) (.tuple specs) (.flag true)).emittedAs
      .declaration).Spells (.ofKeyword keyword :: .ofOperator .LParen ::
        (sequenced (specs.map specWords) ++ [.ofOperator .RParen])) := by
  rw [emitted_grouped]
  exact (Spells.keyword _).append
    (((Spells.operator _).append (spells_sequenced fun t ht => (h t ht).spells)).append (.operator _))

theorem takes_genDecl (h : spec.SpecReads keyword) (hroom : Room (n + 1) s m 3)
    (hlength : spec.specWords.length < m) (hfree : s.isFree = true) (hending : Ending tail P) :
    ((upTo n).genDecl keyword).Takes s (.ofKeyword keyword :: (spec.specWords ++ tail))
      (Tree.genDecl p (.token (.word keyword)) (.tuple [spec]) (.flag false)).bare P := by
  have hread := h.takes hroom hlength hfree hending
  refine takes_expect_bind rfl (takes_not_got ((h.begins.mono fun k hk => hk.1).append tail).next ?_)
  exact hread.bind_nil (takes_pure (by simp))

-- The specs of a group, up to the closing parenthesis.
theorem takes_specs (h : ∀ t ∈ specs, t.SpecReads keyword) (hroom : Room (n + 1) s m 3)
    (hlength : (sequenced (specs.map specWords)).length < m) (hfree : s.isFree = true) :
    (manyWhile (fun k => k != .op .RParen && k != .eof) ((upTo n).spec keyword)).Takes s
      (sequenced (specs.map specWords)) (specs.map bare) (· = .op .RParen) := by
  have hread : ∀ t ∈ specs, ∀ {tail : List Lexeme} {P : TokenKind → Prop}, Ending tail P →
      ((upTo n).spec keyword).Takes s (t.specWords ++ tail) t.bare P := by
    intro t ht tail P hending
    have hle := length_le_sequenced (List.mem_map_of_mem (f := specWords) ht)
    exact (h t ht).takes hroom (by omega) hfree hending
  have hparen : Ending [] (· = .op .RParen) := .closing (by rintro k rfl; rfl)
  have hall : TakesAll (fun k => k != .op .RParen && k != .eof) ((upTo n).spec keyword) s
      (sequenced (specs.map specWords) ++ []) (specs.map bare) (· = .op .RParen) :=
    takesAll_sequenced (fun t ht => hread t ht (.semicolon rfl))
      (fun t ht => hread t (List.mem_of_getLast? ht) hparen)
      (fun t ht => (h t ht).begins.mono fun k hk => by simp [hk]) fun _ => rfl
  rw [List.append_nil] at hall
  refine hall.manyWhile ?_
  rintro k rfl
  rfl

theorem takes_grouped (h : ∀ t ∈ specs, t.SpecReads keyword) (hroom : Room (n + 1) s m 3)
    (hlength : (sequenced (specs.map specWords)).length < m) (hfree : s.isFree = true)
    (hending : Ending tail P) :
    ((upTo n).genDecl keyword).Takes s (.ofKeyword keyword :: .ofOperator .LParen ::
        (sequenced (specs.map specWords) ++ .ofOperator .RParen :: tail))
      (Tree.genDecl p (.token (.word keyword)) (.tuple specs) (.flag true)).bare P := by
  have hread := takes_specs h hroom hlength hfree
  refine takes_expect_bind rfl (takes_got_bind rfl (hread.bind (.cons (by rfl) _) ?_))
  exact takes_discard_expect rfl (hending.takes_expectEnd (takes_pure (by simp)))

-- Which declaration it is shows by the keyword.
theorem reads_ofKeyword {specs grouped : Tree}
    (hkeyword : keyword = .Import ∨ keyword = .Const ∨ keyword = .Type ∨ keyword = .Var)
    (ht : t = .genDecl p (.token (.word keyword)) specs grouped) {ls : List Lexeme}
    (hspells : (t.emittedAs .declaration).Spells (.ofKeyword keyword :: ls))
    (h : ∀ ⦃n : Nat⦄ ⦃s : Scope⦄ ⦃tail : List Lexeme⦄ ⦃P : TokenKind → Prop⦄,
      Room (n + 1) s (.ofKeyword keyword :: ls).length 3 → s.isFree = true → Ending tail P →
      ((upTo n).genDecl keyword).Takes s (.ofKeyword keyword :: (ls ++ tail)) t.bare P) :
    t.DeclarationReads := by
  have hwords : t.declarationWords = _ := hspells.words
  refine ⟨hwords ▸ hspells, ⟨_, _, hwords, by rw [ht]; rfl⟩, ?_⟩
  intro n s tail P hroom hfree hending
  rw [hwords] at hroom ⊢
  have hread := h hroom hfree hending
  refine takes_peek_bind ?_
  rcases hkeyword with rfl | rfl | rfl | rfl <;> exact hread

theorem reads_genDecl
    (hkeyword : keyword = .Import ∨ keyword = .Const ∨ keyword = .Type ∨ keyword = .Var)
    (h : spec.SpecReads keyword) :
    (Tree.genDecl p (.token (.word keyword)) (.tuple [spec]) (.flag false)).DeclarationReads :=
  reads_ofKeyword hkeyword rfl (spells_genDecl h) fun _ _ _ _ hroom hfree hending =>
    takes_genDecl h hroom (by simp) hfree hending

theorem reads_grouped
    (hkeyword : keyword = .Import ∨ keyword = .Const ∨ keyword = .Type ∨ keyword = .Var)
    (h : ∀ t ∈ specs, t.SpecReads keyword) :
    (Tree.genDecl p (.token (.word keyword)) (.tuple specs) (.flag true)).DeclarationReads := by
  refine reads_ofKeyword hkeyword rfl (spells_grouped h) fun n s tail P hroom hfree hending => ?_
  have hread := takes_grouped (p := p) h hroom (by simp; omega) hfree hending
  simpa using hread

-- What is read as a declaration is also read by the rule for its keyword.
theorem DeclarationReads.takes_genDecl (h : t.DeclarationReads) (hkeyword : t.declaringKeyword = keyword)
    (hk : keyword = .Import ∨ keyword = .Const ∨ keyword = .Type ∨ keyword = .Var)
    (hroom : Room (n + 1) s t.declarationWords.length 3) (hfree : s.isFree = true)
    (hending : Ending tail P) :
    ((upTo n).genDecl keyword).Takes s (t.declarationWords ++ tail) t.bare P := by
  intro l rest hl
  have hread := h.takes hroom hfree hending l rest hl
  have hkind := (h.begins.append tail).current (l :: rest)
  rw [declaration, gives_peek_bind, hkind, hkeyword] at hread
  rcases hk with rfl | rfl | rfl | rfl <;> exact hread

-- A declaration among statements.
theorem reads_declStmt {q specs grouped : Tree}
    (h : (Tree.genDecl q (.token (.word keyword)) specs grouped).DeclarationReads)
    (hk : keyword = .Const ∨ keyword = .Type ∨ keyword = .Var) :
    (Tree.declStmt p (.genDecl q (.token (.word keyword)) specs grouped)).StatementReads := by
  have hwords : (Tree.declStmt p (.genDecl q (.token (.word keyword)) specs grouped)).statementWords =
      (Tree.genDecl q (.token (.word keyword)) specs grouped).declarationWords := rfl
  obtain ⟨l, rest, hl, hkind⟩ := h.begins
  have hkind' : l.kind = .word keyword := hkind
  refine .of_here h.spells ⟨l, rest, hwords.trans hl, ?_⟩ rfl ?_ nofun nofun
  · rw [hkind']
    rcases hk with rfl | rfl | rfl <;> rfl
  · intro n s tail P hroom hfree hending _
    rw [hwords] at hroom ⊢
    have hread := h.takes_genDecl rfl (.inr hk) (hroom.later (by decide)) hfree hending
    have hdecl : ((upTo n).declarationStatement l.bare keyword).Takes s
        ((Tree.genDecl q (.token (.word keyword)) specs grouped).declarationWords ++ tail)
        (Tree.declStmt p (.genDecl q (.token (.word keyword)) specs grouped)).bare P :=
      hread.bind_nil (takes_pure (by simp))
    rw [hl] at hdecl ⊢
    refine takes_current_bind ?_
    simp only [Lexeme.toLexeme_bare, hkind']
    rcases hk with rfl | rfl | rfl <;> exact hdecl

end

-- Functions.
section

variable {q name params : Tree} {recv results typeParams body : Option Tree}

-- A list of type parameters is read in brackets, and has to have one.
structure TypeParametersReads (t : Tree) : Prop where
  spells : (t.emittedAs (.fieldList ",")).Spells t.listWords
  takes {n m : Nat} {s : Scope} : Room (n + 1) s m 3 → t.listWords.length + 1 < m →
    (upTo n).typeParameters.Takes s (.ofOperator .LBrack :: (t.listWords ++ [.ofOperator .RBrack]))
      t.bare fun _ => True

theorem reads_typeParameters {fields : List Tree} {entries : List Grammar.Entry}
    (h : Lists true entries fields) (hne : entries ≠ []) :
    (Tree.fieldList p (.tuple fields)).TypeParametersReads := by
  have hwords : (Tree.fieldList p (.tuple fields)).listWords = _ := (h.spells (p := p)).words
  refine ⟨hwords ▸ h.spells, fun {n m s} hroom hlength => ?_⟩
  rw [hwords] at hlength ⊢
  refine takes_expect_bind rfl ((takes_entries h.reads (.inr rfl) hroom (by omega)).bind (.cons (by rfl) []) ?_)
  have hlist := h.takes_listOf (p := p) (s := s) (P := (· = .op .RBrack))
  refine Takes.bind hlist (.cons (by rfl) []) ?_
  rw [if_neg (by simpa using hne)]
  exact takes_discard_expect rfl (takes_pure rfl)

theorem ParametersReads.isAbsent (h : t.ParametersReads) : t.isAbsent = false := by
  unfold Tree.isAbsent
  split
  · cases h.spells.fault
  · rfl

theorem BlockReads.isAbsent (h : t.BlockReads) : t.isAbsent = false := by
  unfold Tree.isAbsent
  split
  · cases h.spells.fault
  · rfl

-- The lexemes of the receiver and of the body, if there are any.
def receiverWords (recv : Option Tree) : List Lexeme :=
  recv.elim [] fun t => .ofOperator .LParen :: (t.listWords ++ [.ofOperator .RParen])

def bodyWords (body : Option Tree) : List Lexeme := body.elim [] statementWords

theorem spells_funcDecl (hrecv : ∀ t ∈ recv, t.ParametersReads) (hname : Built .name name)
    (htypeParams : ∀ t ∈ typeParams, t.TypeParametersReads) (hparams : params.ParametersReads)
    (hresults : ResultsReads results) (hbody : ∀ t ∈ body, t.BlockReads) (keyword : Tree) :
    ((Tree.funcDecl p (.ofOption recv) name (.funcType q params (.ofOption results)
      (.ofOption typeParams) keyword) (.ofOption body)).emittedAs .declaration).Spells
      (.ofKeyword .Func :: (receiverWords recv ++ (name.words ++
        (bracketWords typeParams ++ (signatureWords params results ++ bodyWords body))))) := by
  have hrecv' : (if (ofOption recv).isAbsent then Emission.spaced .Func
      else Emission.joined .Func .LParen ++ (ofOption recv).emittedAs (.fieldList ",") ++
        Emission.operator .RParen).Spells (.ofKeyword .Func :: receiverWords recv) := by
    cases recv with
    | none => exact .spaced .Func
    | some t =>
        have ht := hrecv t rfl
        rw [ofOption_some, if_neg (by simp [ht.isAbsent])]
        exact (((Spells.joined _ _).append ht.spells).append (.operator _)).of_eq
          (by simp [receiverWords])
  have hsignature := spells_signature hparams hresults fun t ht => (htypeParams t ht).spells
  have hbody' := spells_optional (·.emittedAs .block) (fun t ht => (hbody t ht).isAbsent)
    fun t ht => (hbody t ht).spells
  rw [emitted_funcDecl]
  exact (((hrecv'.append (spells_name hname)).append hsignature).append hbody').of_eq
    (by simp [bodyWords])

theorem takes_receiver (hrecv : ∀ t ∈ recv, t.ParametersReads) (hroom : Room (n + 1) s m 3)
    (hlength : (receiverWords recv).length < m) :
    (ifNext (.op .LParen) (upTo n).parameters).Takes s (receiverWords recv)
      (.ofOption (recv.map bare)) (· ≠ .op .LParen) := by
  cases recv with
  | none =>
      refine takes_peek_next (.nil fun _ h => h) fun k hk => ?_
      rw [if_neg hk]
      exact takes_pure rfl
  | some t =>
      simp only [receiverWords, Option.elim, List.length_cons, List.length_append,
        List.length_nil] at hlength
      have hread := (hrecv t rfl).takes (s := s) hroom (by omega)
      refine takes_peek_bind ?_
      rw [if_pos (Lexeme.kind_ofOperator _)]
      exact hread.mono fun _ _ => trivial

theorem takes_bracketed (htypeParams : ∀ t ∈ typeParams, t.TypeParametersReads)
    (hroom : Room (n + 1) s m 3) (hlength : (bracketWords typeParams).length < m) :
    (ifNext (.op .LBrack) (upTo n).typeParameters).Takes s (bracketWords typeParams)
      (.ofOption (typeParams.map bare)) (· ≠ .op .LBrack) := by
  cases typeParams with
  | none =>
      refine takes_peek_next (.nil fun _ h => h) fun k hk => ?_
      rw [if_neg hk]
      exact takes_pure rfl
  | some t =>
      simp only [bracketWords, Option.elim, List.length_cons, List.length_append,
        List.length_nil] at hlength
      have hread := (htypeParams t rfl).takes (s := s) hroom (by omega)
      refine takes_peek_bind ?_
      rw [if_pos (Lexeme.kind_ofOperator _)]
      exact hread.mono fun _ _ => trivial

theorem takes_body (hbody : ∀ t ∈ body, t.BlockReads) (hroom : Room (n + 1) s m 3)
    (hlength : (bodyWords body).length < m) :
    (ifNext (.op .LBrace) (Parser.bracketed (upTo n).block)).Takes s (bodyWords body)
      (.ofOption (body.map bare)) (· ≠ .op .LBrace) := by
  cases body with
  | none =>
      refine takes_peek_next (.nil fun _ h => h) fun k hk => ?_
      rw [if_neg hk]
      exact takes_pure rfl
  | some t =>
      have hroom' : Room (n + 1) s.bracketed t.statementWords.length 1 :=
        hroom.bracketed.smaller hlength (by decide) 1
      have hread := (hbody t rfl).takes hroom' hroom.levels.isFree_bracketed
      refine takes_peek_next (hbody t rfl).begins.next fun k hk => ?_
      rw [if_pos hk]
      exact hread.bracketed.mono fun _ _ => trivial

theorem reads_funcDecl (hrecv : ∀ t ∈ recv, t.ParametersReads) (hname : Built .name name)
    (htypeParams : ∀ t ∈ typeParams, t.TypeParametersReads) (hparams : params.ParametersReads)
    (hresults : ResultsReads results) (hbody : ∀ t ∈ body, t.BlockReads) :
    (Tree.funcDecl p (.ofOption recv) name (.funcType q params (.ofOption results)
      (.ofOption typeParams) (.flag true)) (.ofOption body)).DeclarationReads := by
  have hspells := spells_funcDecl (p := p) (q := q) hrecv hname htypeParams hparams hresults hbody
    (.flag true)
  generalize ht : Tree.funcDecl p (.ofOption recv) name (.funcType q params (.ofOption results)
    (.ofOption typeParams) (.flag true)) (.ofOption body) = t at hspells ⊢
  have hwords : t.declarationWords = _ := hspells.words
  refine ⟨hwords ▸ hspells, ⟨_, _, hwords, by rw [← ht]; rfl⟩, ?_⟩
  intro n s tail P hroom hfree hending
  rw [hwords] at hroom ⊢
  have hsize : (signatureWords params results).length =
      params.listWords.length + (resultWords results).length + 2 := by
    simp [signatureWords]
    omega
  generalize hm : List.length (Lexeme.ofKeyword .Func :: _) = m at hroom
  simp only [List.length_cons, List.length_append, hsize] at hm
  have hrecv' := takes_receiver hrecv hroom (by omega)
  have htypeParams' := takes_bracketed htypeParams hroom (by omega)
  have hparams' := hparams.takes (s := s) hroom (by omega)
  have hresults' := hresults.takes (s := s) q params (.ofOption typeParams) (.flag true) hroom
    (by omega)
  have hbody' := takes_body hbody hroom (by omega)
  have hnext : Next (fun k => k = .op .LBrace ∨ k = .op .Semicolon ∨ closesStatement k = true)
      (bodyWords body ++ tail) P := by
    cases body with
    | none => exact hending.next.mono fun k hk => .inr hk
    | some t => exact ((hbody t rfl).begins.append tail).next.mono fun k hk => .inl hk
  have hname' : Grammar.ident.Takes s name.words name.bare fun _ => True := takes_name hname
  have hsplit : Lexeme.ofKeyword .Func :: (receiverWords recv ++ (name.words ++
      (bracketWords typeParams ++ (signatureWords params results ++ bodyWords body)))) ++ tail =
      .ofKeyword .Func :: (receiverWords recv ++ (name.words ++ (bracketWords typeParams ++
        ((.ofOperator .LParen :: (params.listWords ++ [.ofOperator .RParen])) ++
          (resultWords results ++ (bodyWords body ++ tail)))))) := by
    simp [signatureWords]
  rw [hsplit]
  refine takes_peek_bind (takes_expect_bind rfl (hrecv'.bind ?_ (hname'.bind (fun _ _ _ => trivial)
    (htypeParams'.bind (.cons (by decide) _) (hparams'.bind (fun _ _ _ => trivial)
      (hresults'.bind ?_ ?_))))))
  · exact ((begins_name hname).append _).next.mono (by rintro k rfl; decide)
  · refine hnext.mono ?_
    rintro k (rfl | hk)
    · exact absorbs_eq_false (by decide) rfl _
    · exact absorbs_of_ending hk _
  · refine hbody'.bind (hending.next.mono ?_) (hending.takes_expectEnd (takes_pure ?_))
    · rintro k (rfl | hk)
      · decide
      · rcases cases_of_closesStatement hk with rfl | rfl | rfl <;> decide
    · simp [← ht]

end

-- Files.
section

variable {package : Tree} {decls : List Tree}

-- Whether a declaration is read among the imports.
def isImport (t : Tree) : Bool := t.declaringKeyword == .Import

-- An import is also read by the rule for imports.
theorem DeclarationReads.takes_import (h : t.DeclarationReads) (himport : t.isImport = true)
    (hroom : Room (n + 1) s t.declarationWords.length 3) (hfree : s.isFree = true)
    (hending : Ending tail P) :
    ((upTo n).genDecl .Import).Takes s (t.declarationWords ++ tail) t.bare P :=
  h.takes_genDecl (by simpa [isImport] using himport) (.inl rfl) hroom hfree hending

-- Declarations one after another, with what ends the last one.
theorem takesAll_declarations {more : TokenKind → Bool} {rule : Parser Tree}
    (h : ∀ t ∈ decls, Begins (more · = true) t.declarationWords ∧
      ∀ {tail : List Lexeme} {P : TokenKind → Prop}, Ending tail P →
        rule.Takes s (t.declarationWords ++ tail) t.bare P)
    (hending : Ending tail P) (htail : decls = [] → tail = []) :
    TakesAll more rule s (sequenced (decls.map declarationWords) ++ tail) (decls.map bare) P :=
  takesAll_sequenced (fun t ht => (h t ht).2 (.semicolon rfl))
    (fun t ht => (h t (List.mem_of_getLast? ht)).2 hending) (fun t ht => (h t ht).1) htail

theorem takes_imports (h : ∀ t ∈ decls, t.DeclarationReads)
    (himport : ∀ t ∈ decls, t.isImport = true)
    (hroom : Room (n + 1) s (sequenced (decls.map declarationWords)).length 3)
    (hfree : s.isFree = true) (hending : Ending tail P) (htail : decls = [] → tail = []) :
    TakesAll (· == .word .Import) ((upTo n).genDecl .Import) s
      (sequenced (decls.map declarationWords) ++ tail) (decls.map bare) P := by
  refine takesAll_declarations (fun t ht => ⟨(h t ht).begins.mono ?_, fun {_ _} hending => ?_⟩)
    hending htail
  · rintro k rfl
    rw [show t.declaringKeyword = .Import by simpa [isImport] using himport t ht]
    rfl
  · have hle := length_le_sequenced (List.mem_map_of_mem (f := declarationWords) ht)
    exact (h t ht).takes_import (himport t ht) (hroom.mono hle) hfree hending

theorem takes_others (h : ∀ t ∈ decls, t.DeclarationReads)
    (hroom : Room (n + 1) s (sequenced (decls.map declarationWords)).length 3)
    (hfree : s.isFree = true) (hending : Ending tail P) (htail : decls = [] → tail = []) :
    TakesAll (· != .eof) (upTo n).declaration s (sequenced (decls.map declarationWords) ++ tail)
      (decls.map bare) P := by
  refine takesAll_declarations (fun t ht => ⟨(h t ht).begins.mono ?_, fun {_ _} hending => ?_⟩)
    hending htail
  · rintro k rfl
    rfl
  · have hle := length_le_sequenced (List.mem_map_of_mem (f := declarationWords) ht)
    exact (h t ht).takes (hroom.mono hle) hfree hending

-- The imports that stand first are read before the other declarations.
theorem takes_fileBody {imports others : List Tree} (h : ∀ t ∈ imports ++ others, t.DeclarationReads)
    (himports : ∀ t ∈ imports, t.isImport = true) (hothers : ∀ t ∈ others.head?, t.isImport = false)
    (hroom : Room (n + 1) s (sequenced ((imports ++ others).map declarationWords)).length 3)
    (hfree : s.isFree = true) (hending : Ending tail (· = .eof))
    (htail : imports ++ others = [] → tail = []) {f : List Tree → List Tree → Tree} :
    ((manyWhile (· == .word .Import) ((upTo n).genDecl .Import)) >>= fun is =>
      (manyWhile (· != .eof) (upTo n).declaration) >>= fun os => pure (f is os)).Takes s
      (sequenced ((imports ++ others).map declarationWords) ++ tail)
      (f (imports.map bare) (others.map bare)) (· = .eof) := by
  obtain ⟨himportReads, hotherReads⟩ := List.forall_mem_append.mp h
  cases others with
  | nil =>
      rw [List.append_nil] at hroom htail ⊢
      have hall := (takes_imports himportReads himports hroom hfree hending htail).manyWhile
        (by rintro k rfl; rfl)
      have hempty : TakesAll (· != .eof) (upTo n).declaration s [] [] (· = .eof) := takesAll_nil
      have hnone := hempty.manyWhile (by rintro k rfl; rfl)
      exact hall.bind_nil (hnone.bind_nil (takes_pure rfl))
  | cons t ts =>
      rw [List.map_append, sequenced_append (by simp)] at hroom ⊢
      simp only [List.length_append] at hroom
      have hstops : Begins (· ≠ .word .Import) (sequenced ((t :: ts).map declarationWords)) := by
        refine ((hotherReads t (by simp)).begins.append _).mono ?_
        rintro k rfl hk
        have himport := hothers t rfl
        simp [isImport, TokenKind.word.inj hk] at himport
      have hall : TakesAll (· == .word .Import) ((upTo n).genDecl .Import) s
          (sequenced (imports.map declarationWords) ++
            if imports.map declarationWords = [] then [] else [.ofOperator .Semicolon])
          (imports.map bare) (· ≠ .word .Import) := by
        cases imports with
        | nil => exact takesAll_nil
        | cons u us =>
            exact takes_imports himportReads himports (hroom.mono (by omega)) hfree (.semicolon rfl)
              nofun
      have hothers' := (takes_others hotherReads (hroom.mono (by omega)) hfree hending
        nofun).manyWhile (by rintro k rfl; rfl)
      rw [List.append_assoc]
      refine (hall.manyWhile fun k hk => by simpa using hk).bind (hstops.append tail).next ?_
      exact hothers'.bind_nil (takes_pure rfl)

-- A file is read from its lexemes.
theorem takes_file (hpackage : Built .name package) (h : ∀ t ∈ decls, t.DeclarationReads)
    (hroom : Room (n + 1) s (sequenced (decls.map declarationWords)).length 3)
    (hfree : s.isFree = true) (hending : Ending tail (· = .eof)) (htail : decls = [] → tail = []) :
    (Fragment.fileRule (upTo n)).Takes s (.ofKeyword .Package :: (package.words ++
        .ofOperator .Semicolon :: (sequenced (decls.map declarationWords) ++ tail)))
      (Tree.file p package (.tuple decls)).bare (· = .eof) := by
  have hsplit : decls.takeWhile isImport ++ decls.dropWhile isImport = decls :=
    List.takeWhile_append_dropWhile
  have hsplitReads : ∀ t ∈ decls.takeWhile isImport ++ decls.dropWhile isImport,
      t.DeclarationReads := by rwa [hsplit]
  have hbody := takes_fileBody (s := s) hsplitReads (fun t => List.mem_takeWhile_imp) ?_
    (by rwa [hsplit]) hfree hending (by rwa [hsplit])
    (f := fun is os => .file .unknownPlace package.bare (.tuple (is ++ os)))
  · rw [hsplit, ← List.map_append, hsplit] at hbody
    have hname : Grammar.ident.Takes s package.words package.bare fun _ => True :=
      takes_name hpackage
    refine takes_expect_bind rfl (hname.bind (fun _ _ _ => trivial) (takes_expectEnd_bind rfl ?_))
    simpa using hbody
  · intro t ht
    have hhead := List.head?_dropWhile_not isImport decls
    rw [Option.mem_def.mp ht] at hhead
    exact hhead

theorem spells_file (hpackage : Built .name package) (h : ∀ t ∈ decls, t.DeclarationReads) :
    ((Tree.file p package (.tuple decls)).emittedAs .unit).Spells
      (.ofKeyword .Package :: (package.words ++
        .ofOperator .Semicolon :: sequenced (decls.map declarationWords))) := by
  rw [emitted_file]
  exact ((((Spells.spaced _).append (spells_name hpackage)).append (.operator _)).append
    (spells_sequenced fun t ht => (h t ht).spells)).of_eq (by simp)

end

end Tree

namespace Fragment

open GoCompact.Tree GoCompact.Parser Cursor

-- At the end of a text a declaration is ended by the semicolon that is put in, or by the end itself.
theorem ending_of_pending (pending : Bool) :
    ∃ tail, Strung.ending pending = tail ++ [.ending] ∧ Ending tail (· = .eof) ∧
      (pending = false → tail = []) := by
  cases pending with
  | false => exact ⟨[], rfl, .closing (by rintro k rfl; rfl), fun _ => rfl⟩
  | true => exact ⟨[.newline], rfl, .semicolon rfl, nofun⟩

-- A declaration by itself.
theorem rereads_declaration {t : Tree} (h : t.DeclarationReads) : declaration.Rereads t := by
  intro n limit hn hlimit
  have hroom : Room (n + 1) ⟨0, 0, limit⟩ t.declarationWords.length 3 :=
    ⟨Nat.le_succ_of_le hn, (admits_of_limit hlimit).mono (Nat.sub_le _ _)⟩
  obtain ⟨tail, htail, hending, -⟩ :=
    ending_of_pending (Strung.pendingAfter false (declaration.words t))
  have hread := h.takes hroom rfl hending .ending [] rfl
  obtain ⟨c, hfinish⟩ := finish_ending ⟨0, 0, limit⟩ false
  refine ⟨c, ?_⟩
  rw [htail, ← List.append_assoc]
  exact Gives.bind hread (hfinish.bind (gives_pure.mpr ⟨rfl, rfl⟩))

-- A file.
theorem rereads_file {p package : Tree} {decls : List Tree} (hpackage : Built .name package)
    (h : ∀ t ∈ decls, t.DeclarationReads) : file.Rereads (.file p package (.tuple decls)) := by
  have hspells := spells_file (p := p) hpackage h
  have hwords : file.words (.file p package (.tuple decls)) = _ := hspells.words
  intro n limit hn hlimit
  rw [hwords] at hn hlimit ⊢
  simp only [List.length_cons, List.length_append] at hn hlimit
  have hroom : Room (n + 1) ⟨0, 0, limit⟩ (sequenced (decls.map declarationWords)).length 3 :=
    ⟨by omega, (admits_of_limit hlimit).mono (by omega)⟩
  obtain ⟨tail, htail, hending, hnone⟩ := ending_of_pending
    (Strung.pendingAfter false (.ofKeyword .Package :: (package.words ++
      .ofOperator .Semicolon :: sequenced (decls.map declarationWords))))
  have hread := takes_file (p := p) hpackage h hroom rfl hending ?_
  · refine ⟨before [.ending], ?_⟩
    change (fileRule (Grammar.upTo n)).Gives _ _ _ _
    rw [htail]
    simpa using hread .ending [] rfl
  · rintro rfl
    refine hnone ?_
    simp [Strung.pendingAfter, sequenced, TokenKind.endsStatement]

end Fragment

end GoCompact
