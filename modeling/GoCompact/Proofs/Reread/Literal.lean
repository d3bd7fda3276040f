import GoCompact.Proofs.Reread.Parameter
import GoCompact.Proofs.Reread.Statement

namespace GoCompact

open GoCompact.Parser GoCompact.Grammar GoCompact.Tree Cursor
open Emission (Spells)

-- Kinds that come after a part of an element.
def TokenKind.endsPart (k : TokenKind) : Bool := k == .op .Colon || k == .op .Comma || k == .op .RBrace

theorem TokenKind.closes_of_endsPart {k : TokenKind} (h : k.endsPart = true) : k.closes = true := by
  have hkind : k = .op .Colon ∨ k = .op .Comma ∨ k = .op .RBrace := by
    simpa [endsPart, or_assoc] using h
  rcases hkind with rfl | rfl | rfl <;> rfl

namespace Tree

variable {b : Bool} {n m j : Nat} {s : Scope} {p x t : Tree}

-- Assertions.
section

variable {typ : Option Tree}

-- The type of an assertion, which a type switch leaves open.
def assertedWords (typ : Option Tree) : List Lexeme := typ.elim [.ofKeyword .Type] words

theorem spells_typeAssert (hx : (x.emittedAs .expression).Spells x.words)
    (htyp : ∀ t ∈ typ, t.Reads b) :
    ((Tree.typeAssert p x (.ofOption typ)).emittedAs .expression).Spells
      (x.words ++ .ofOperator .Period :: .ofOperator .LParen ::
        (assertedWords typ ++ [.ofOperator .RParen])) := by
  have hpoint : Emission.assertion.Spells [.ofOperator .Period, .ofOperator .LParen] :=
    ⟨rfl, Emission.words_assertion⟩
  have htyp' : (if (ofOption typ).isAbsent then Emission.keyword .Type
      else (ofOption typ).emittedAs .expression).Spells (assertedWords typ) := by
    cases typ with
    | none => exact .keyword .Type
    | some t =>
        rw [ofOption_some, if_neg (by simp [(htyp t rfl).isAbsent])]
        exact (htyp t rfl).spells
  rw [emitted_typeAssert]
  exact (((hx.append hpoint).append htyp').append (.operator _)).of_eq (by simp)

theorem takes_assertedType (hroom : Room (n + 1) s m 2) (hlength : (assertedWords typ).length < m)
    (htyp : ∀ t ∈ typ, t.TypeReads) :
    (upTo n).assertedType.Takes s (assertedWords typ) (typ.map bare) (· = .op .RParen) := by
  cases typ with
  | none => exact takes_got_bind rfl (takes_pure rfl)
  | some t =>
      have ht := htyp t rfl
      have hread := ht.takes_type (hroom.inner hlength (by decide) 2)
      refine takes_not_got (ht.begins.next.mono ?_) ((hread.map some).mono ?_)
      · rintro k rfl
        rcases t.typeStart_cases with h | h | h | h | h | h | h | h | h | h <;> rw [h] <;> decide
      · rintro k rfl
        exact absorbs_eq_false (by decide) rfl t

theorem reads_typeAssert (hx : x.Reads b) (hprimary : x.isPrimary = true)
    (hedge : x.edge (.op .Period) = false) (htyp : ∀ t ∈ typ, t.Reads true)
    (htypes : ∀ t ∈ typ, t.isType = true) : (Tree.typeAssert p x (.ofOption typ)).Reads b := by
  have hspells := spells_typeAssert (p := p) hx.spells htyp
  have hwords : (Tree.typeAssert p x (.ofOption typ)).words = _ := hspells.words
  refine .of_primary (hwords ▸ hspells) rfl ?_ nofun
  refine (hx.primary hprimary).step hwords hedge (by simp) fun n s hroom hfree => ?_
  rw [hwords] at hroom
  have hread := takes_assertedType (s := s) hroom (by simp; omega)
    fun t ht => (htyp t ht).type (htypes t ht)
  refine takes_peek_bind (.map (?_ : ((upTo n).selectorOrAssertion x.bare).Takes _ _ _ _) some)
  refine takes_discard_expect rfl (takes_peek_bind ?_)
  rw [if_neg (by decide)]
  refine takes_got_bind rfl (hread.bind (.cons (by rfl) []) (takes_discard_expect rfl ?_))
  exact takes_pure (by simp)

end

-- A key or a value of an element, which may be a literal without its type.
structure PartReads (t : Tree) : Prop where
  spells : (t.emittedAs .expression).Spells t.words
  begins : Begins (fun k => k ≠ .op .RBrace ∧ k ≠ .eof) t.words
  takes {n : Nat} {s : Scope} : Room n s t.words.length 1 →
    (upTo n).elementPart.Takes s.bracketed t.words t.bare (·.endsPart = true)

-- An element of a literal.
structure ItemReads (t : Tree) : Prop where
  spells : (t.emittedAs .expression).Spells t.words
  begins : Begins (fun k => k ≠ .op .RBrace ∧ k ≠ .eof) t.words
  takes {n : Nat} {s : Scope} : Room n s t.words.length 1 →
    (upTo n).element.Takes s.bracketed t.words t.bare fun k => k = .op .Comma ∨ k = .op .RBrace

theorem Reads.part (h : t.Reads true) : t.PartReads where
  spells := h.spells
  begins := h.begins.mono fun k hk => by constructor <;> (rintro rfl; cases hk)
  takes hroom := by
    refine takes_peek_next h.begins.next fun k hk => ?_
    rw [if_neg (by rintro rfl; cases hk)]
    exact (h.takes_bracketed hroom).mono fun _ => TokenKind.closes_of_endsPart

theorem PartReads.item (h : t.PartReads) : t.ItemReads where
  spells := h.spells
  begins := h.begins
  takes hroom := by
    refine Takes.bind_nil ((h.takes hroom).mono ?_) (takes_not_got (.nil ?_) (takes_pure rfl))
    · rintro k (rfl | rfl) <;> rfl
    · rintro k (rfl | rfl) <;> decide

-- A key and a value.
theorem spells_keyValue (hx : (x.emittedAs .expression).Spells x.words)
    (ht : (t.emittedAs .expression).Spells t.words) :
    ((Tree.keyValue p x t).emittedAs .expression).Spells
      (x.words ++ .ofOperator .Colon :: t.words) := by
  rw [emitted_keyValue, Emission.append_assoc]
  exact hx.append ((Spells.operator .Colon).append ht)

theorem reads_keyValue (hx : x.PartReads) (ht : t.PartReads) : (Tree.keyValue p x t).ItemReads := by
  have hspells := spells_keyValue (p := p) hx.spells ht.spells
  have hwords : (Tree.keyValue p x t).words = _ := hspells.words
  refine ⟨hwords ▸ hspells, hwords ▸ hx.begins.append _, fun {n s} hroom => ?_⟩
  rw [hwords] at hroom ⊢
  have hkey := hx.takes (hroom.mono (by simp))
  have hvalue := ht.takes (hroom.mono (by simp; omega))
  refine hkey.bind (.cons (by rfl) _) (takes_got_bind rfl ((hvalue.mono ?_).bind_nil ?_))
  · rintro k (rfl | rfl) <;> rfl
  · exact takes_pure (by simp)

-- The braces of a literal.
section

variable {typ : Tree} {elts : List Tree}

def literalWords (elts : List Tree) : List Lexeme :=
  .ofOperator .LBrace :: (listed (elts.map words) ++ [.ofOperator .RBrace])

theorem takes_literalValue (hroom : Room (n + 1) s m j) (hj : j ≤ 3)
    (hlength : (literalWords elts).length ≤ m) (helts : ∀ t ∈ elts, t.ItemReads)
    (typ : Option Tree) : ((upTo n).literalValue (typ.map bare)).Takes s (literalWords elts)
      (.compositeLit .unknownPlace (.ofOption (typ.map bare)) (.tuple (elts.map bare)))
      fun _ => True := by
  simp only [literalWords, List.length_cons, List.length_append] at hlength
  have hitems : (itemsUntil (.op .RBrace) (upTo n).element).Takes s.bracketed
      (listed (elts.map words)) (elts.map bare) (· = .op .RBrace) := by
    refine takes_itemsUntil (fun t ht => ?_) (fun t ht => (helts t ht).begins) (by decide)
    have hle := length_le_listed (List.mem_map_of_mem (f := words) ht)
    exact (helts t ht).takes (hroom.inner (by omega) hj 1)
  refine takes_expect_bind rfl (hitems.bracketed.bind (.cons (by rfl) []) ?_)
  refine takes_discard_expect rfl (takes_pure ?_)
  cases typ <;> simp

-- A literal without its type.
theorem spells_bareLiteral (helts : ∀ t ∈ elts, (t.emittedAs .expression).Spells t.words) :
    ((Tree.compositeLit p .absent (.tuple elts)).emittedAs .expression).Spells
      (literalWords elts) := by
  rw [emitted_compositeLit]
  exact ((Spells.nothing.append (.operator _)).append (spells_list helts)).append (.operator _)

theorem reads_bareLiteral (helts : ∀ t ∈ elts, t.ItemReads) :
    (Tree.compositeLit p .absent (.tuple elts)).PartReads := by
  have hspells := spells_bareLiteral (p := p) fun t ht => (helts t ht).spells
  have hwords : (Tree.compositeLit p .absent (.tuple elts)).words = _ := hspells.words
  refine ⟨hwords ▸ hspells, ⟨_, _, hwords, by decide⟩, fun {n s} hroom => ?_⟩
  rw [hwords] at hroom ⊢
  cases n with
  | zero => exact absurd hroom.rules (by simp [literalWords])
  | succ n =>
      have hread := takes_literalValue hroom.bracketed (by decide) (Nat.le_refl _) helts none
      have hbare : (Tree.compositeLit p .absent (.tuple elts)).bare =
          .compositeLit .unknownPlace (.ofOption (Option.map bare none)) (.tuple (elts.map bare)) := by
        simp
      rw [hbare]
      refine takes_peek_bind ?_
      rw [if_pos (Lexeme.kind_ofOperator _)]
      exact hread.mono fun _ _ => trivial

theorem spells_compositeLit (htyp : (typ.emittedAs .expression).Spells typ.words)
    (habsent : typ.isAbsent = false)
    (helts : ∀ t ∈ elts, (t.emittedAs .expression).Spells t.words) :
    ((Tree.compositeLit p typ (.tuple elts)).emittedAs .expression).Spells
      (typ.words ++ literalWords elts) := by
  rw [emitted_compositeLit, emittedIf_of habsent]
  exact (((htyp.append (.operator _)).append (spells_list helts)).append (.operator _)).of_eq
    (by simp [literalWords])

-- What a brace may follow is the type of a literal.
theorem isPrimary_of_takesBraces (h : t.takesBraces b = true) :
    t.isPrimary = true ∧ t.is .FuncType = false := by
  cases t with
  | node k q fields =>
      cases k <;> first | exact ⟨rfl, rfl⟩ | simp_all [takesBraces, Tree.is, kind?]
  | _ => simp [takesBraces, Tree.is, kind?] at h

theorem gives_isLiteralType {c : Cursor} (h : t.takesBraces b = true)
    (hfree : b = true → s.isFree = true) : (isLiteralType t.bare).Gives s c true c := by
  have hlevel : b = true → 0 ≤ s.level := fun hb => by simpa [Scope.isFree] using hfree hb
  have hparen : ∀ {k : NodeKind} {q : Tree} {fields : List Tree}, k ≠ .ParenExpr →
      (Tree.node k q fields).unparen = .node k q fields := by
    intro k q fields hk
    cases k <;> first | exact absurd rfl hk | rfl
  cases t with
  | node k q fields =>
      cases k <;> simp_all [takesBraces, isLiteralType, Tree.is, kind?] <;> exact ⟨s, rfl⟩
  | _ => simp [takesBraces, Tree.is, kind?] at h

theorem reads_compositeLit (htyp : typ.Reads b) (hbraces : typ.takesBraces b = true)
    (helts : ∀ t ∈ elts, t.ItemReads) : (Tree.compositeLit p typ (.tuple elts)).Reads b := by
  have hspells := spells_compositeLit (p := p) htyp.spells htyp.isAbsent
    fun t ht => (helts t ht).spells
  have hwords : (Tree.compositeLit p typ (.tuple elts)).words = _ := hspells.words
  obtain ⟨hprimary, hfunc⟩ := isPrimary_of_takesBraces hbraces
  refine .of_primary (hwords ▸ hspells) rfl ?_ nofun
  refine (htyp.primary hprimary).step hwords (edge_eq_false (by decide) rfl typ) (fun _ => hfunc)
    fun n s hroom hfree => ?_
  rw [hwords] at hroom
  have hread := takes_literalValue hroom (by decide) (by simp) helts (some typ)
  have hbare : (Tree.compositeLit p typ (.tuple elts)).bare =
      .compositeLit .unknownPlace (.ofOption (Option.map bare (some typ)))
        (.tuple (elts.map bare)) := by simp
  rw [hbare]
  refine takes_peek_bind ?_
  intro l rest hl
  exact (gives_isLiteralType hbraces hfree).bind ((hread.map some) l rest hl)

end

-- Function literals.
section

variable {q params body : Tree} {results : Option Tree}

theorem spells_funcLit (hparams : params.ParametersReads) (hresults : ResultsReads results)
    (hbody : body.BlockReads) :
    ((Tree.funcLit p (.funcType q params (.ofOption results) .absent (.flag true)) body).emittedAs
      .expression).Spells
      (.ofKeyword .Func :: (signatureWords params results ++ body.statementWords)) := by
  have hsignature : (emittedSignature params (.ofOption results) (.ofOption none)).Spells
      (bracketWords none ++ signatureWords params results) :=
    spells_signature hparams hresults nofun
  rw [emitted_funcLit]
  exact (((Spells.keyword .Func).append hsignature).append hbody.spells).of_eq
    (by simp [bracketWords])

theorem reads_funcLit (hparams : params.ParametersReads) (hresults : ResultsReads results)
    (hbody : body.BlockReads) :
    (Tree.funcLit p (.funcType q params (.ofOption results) .absent (.flag true)) body).Reads b := by
  have hspells := spells_funcLit (p := p) (q := q) hparams hresults hbody
  generalize ht : Tree.funcLit p (.funcType q params (.ofOption results) .absent (.flag true)) body = t
    at hspells ⊢
  have hwords := words_of_spells hspells
  refine .of_primary (hwords ▸ hspells) (by rw [← ht]; rfl) (.of_operand ⟨_, _, hwords, rfl⟩ ?_)
    (by rw [← ht]; nofun)
  intro n s hroom
  rw [hwords] at hroom ⊢
  have hsignature : ((upTo n).signature .unknownPlace true).Takes s _ _ _ :=
    takes_signature (p := .unknownPlace) hparams hresults (hroom.later (by decide)) (by simp; omega)
  have hblock := hbody.takes (s := s.bracketed)
    (hroom.bracketed.smaller (by simp) (by decide) 1) hroom.levels.isFree_bracketed
  refine takes_peek_bind (takes_expect_bind rfl (hsignature.bind ?_ ?_))
  · refine hbody.begins.next.mono ?_
    rintro k rfl
    exact absorbs_eq_false (by decide) rfl _
  · refine takes_peek_next hbody.begins.next fun k hk => ?_
    rw [if_pos hk]
    refine Takes.bind_nil (hblock.bracketed.mono fun _ _ => trivial) (takes_pure ?_)
    simp [← ht]

end

end Tree

end GoCompact
