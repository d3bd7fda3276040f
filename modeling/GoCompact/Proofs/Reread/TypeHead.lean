import GoCompact.Proofs.Reread.TypeSpec

namespace GoCompact

namespace Tree

open GoCompact.Parser GoCompact.Grammar Cursor
open Emission (Spells)

variable {n m : Nat} {s : Scope} {p q t name : Tree} {z : Text} {ls : List Lexeme}

-- An entry that begins with a name and a bracket.
theorem headReads_bracket {e : Grammar.Entry} {P : TokenKind → Prop} (h : e.Reads true)
    (hwords : e.words = ⟨.ident, z⟩ :: ls) (hls : Begins (· = .op .LBrack) ls)
    (hP : ∀ k, P k → k.endsEntry = true) : e.HeadReads P where
  begins := ⟨_, _, hwords, rfl⟩
  takes {n m s} hroom hlength := by
    refine ⟨_, ls, _, (· = .op .LBrack), hwords, Grammar.Entry.takes_leadingBracket, hls.next, ?_⟩
    rintro k rfl
    exact ⟨_, none, rfl, .inr (by decide), (h.afterName hwords hroom hlength).mono hP⟩

-- Type parameters without names. If the first one is a name, there are others.
theorem headReads_unnamed {fields : List Tree}
    (h : ∀ f ∈ Tree.field q (.tuple []) t .absent :: fields, UnnamedField true f)
    (hname : t.is .Ident = true → fields ≠ [])
    (hleads : t.is .Ident = false →
      ∃ z ls, t.words = ⟨.ident, z⟩ :: ls ∧ Begins (· = .op .LBrack) ls) :
    (Tree.fieldList p (.tuple (.field q (.tuple []) t .absent :: fields))).HeadReads := by
  have hlists := lists_unnamed h
  have hlength : (Tree.fieldList p (.tuple (.field q (.tuple []) t .absent :: fields))).readsAsLength =
      false := by
    rw [readsAsLength_fieldList]
    cases fields <;> rfl
  refine headReads_fieldList hlists.toCollects (hlists.reads _ (.head _)).spells
    (fun e he => hlists.reads e (.tail _ he)) (by simp [hlength]) ?_
  rw [hlength]
  cases h _ (.head _) with
  | name hz =>
      rw [headEnd_of_ne_nil (by simpa using hname rfl)]
      exact headReads_name hz
  | type hreads hident =>
      obtain ⟨z, ls, hwords, hls⟩ := hleads hident
      have hentry : (Tree.field q (.tuple []) t .absent).unnamedEntry = ⟨none, some t⟩ := by
        simp [unnamedEntry, hident]
      rw [hentry]
      refine headReads_bracket hreads hwords hls ?_
      rintro k rfl
      rcases headEnd_cases (fields.map unnamedEntry) false with hk | hk <;> rw [hk] <;> rfl

-- A length that is not taken for a type parameter.
structure KeptLength (t : Tree) : Prop where
  lead {z : Text} {ls : List Lexeme} : t.words = ⟨.ident, z⟩ :: ls → t.LeadReads z ls
  next {z : Text} {ls : List Lexeme} : t.words = ⟨.ident, z⟩ :: ls →
    ∀ l ∈ ls.head?, l.kind ≠ .op .LBrack
  parameter : (t.typeParameter? false).any (·.2.isSome) = false

section

variable {elt : Tree} {len : Option Tree}

-- After the length the array type goes on as it does elsewhere.
theorem KeptLength.takes {ms : List Lexeme} {P : TokenKind → Prop} (h : t.KeptLength)
    (hreads : t.Reads true) (hwords : t.words = ⟨.ident, z⟩ :: ls) (hroom : Room (n + 1) s m 3)
    (hlength : t.words.length < m)
    (hrest : ((upTo n).arrayElement .unknownPlace (some t.bare) >>= fun typ =>
      pure (plainSpec name typ false)).Takes s (.ofOperator .RBrack :: ms) q P) :
    ((upTo n).bracketedTypeSpec .unknownPlace name).Takes s
      (t.words ++ .ofOperator .RBrack :: ms) q P := by
  have hnext : Next (· ≠ .op .LBrack) ls fun k => k.precedence = 0 ∧ t.Stops s.bracketed k := by
    cases ls with
    | nil =>
        refine .nil ?_
        rintro k ⟨-, hstops⟩ rfl
        exact absurd hstops.continues (by decide)
    | cons l ls => exact .cons (h.next hwords l rfl) ls
  have hlead := (h.lead hwords).takes (s := s) hroom hlength hreads.binds hnext
  have hbegins : Begins (· = .ident) t.words := ⟨_, _, hwords, rfl⟩
  refine takes_peek_next (hbegins.append _).next ?_
  rintro k rfl
  rw [if_pos rfl]
  have hclosing : TokenKind.closes (.op .RBrack) = true := rfl
  refine hlead.bind (.cons ⟨precedence_of_closes hclosing, stops_of_closes hclosing _ _⟩ _)
    (takes_peek_bind ?_)
  rw [Relocation.typeParameter?_tree]
  have hparameter := h.parameter
  cases hx : t.typeParameter? false with
  | none =>
      simp only [Lexeme.kind_ofOperator, show (TokenKind.op .RBrack == .op .Comma) = false from rfl, hx]
      exact hrest
  | some r =>
      obtain ⟨head, o⟩ := r
      obtain rfl : o = none := by simpa [hx] using hparameter
      simp only [Lexeme.kind_ofOperator, show (TokenKind.op .RBrack == .op .Comma) = false from rfl, hx]
      exact hrest

theorem takes_bracketedArray (hlen : ∀ t ∈ len, t.LengthReads)
    (hkept : ∀ t ∈ len, t.KeptLength) (helt : elt.TypeReads) (hroom : Room (n + 1) s m 3)
    (hlength : (boundWords len).length + elt.words.length < m) :
    ((upTo n).bracketedTypeSpec .unknownPlace name).Takes s
      (boundWords len ++ .ofOperator .RBrack :: elt.words)
      (plainSpec name (Tree.arrayType q (.ofOption len) elt).bare false) (elt.absorbs · = false) := by
  have hbare : (Tree.arrayType q (.ofOption len) elt).bare =
      .arrayType .unknownPlace (.ofOption (len.map bare)) elt.bare := by simp
  rw [hbare]
  have helt' := helt.takes_type (s := s) (hroom.inner (by omega) (by decide) 2)
  have hrest : ((upTo n).arrayElement .unknownPlace (len.map bare) >>= fun typ =>
      pure (plainSpec name typ false)).Takes s (.ofOperator .RBrack :: elt.words)
      (plainSpec name (.arrayType .unknownPlace (.ofOption (len.map bare)) elt.bare) false)
      (elt.absorbs · = false) := (takes_arrayElement helt').bind_nil (takes_pure rfl)
  -- Only a length that begins with a name could be a type parameter.
  have harray : Begins (· ≠ .ident) (boundWords len ++ .ofOperator .RBrack :: elt.words) →
      ((upTo n).bracketedTypeSpec .unknownPlace name).Takes s
        (boundWords len ++ .ofOperator .RBrack :: elt.words)
        (plainSpec name (.arrayType .unknownPlace (.ofOption (len.map bare)) elt.bare) false)
        (elt.absorbs · = false) := by
    intro hbegins
    refine takes_peek_next hbegins.next fun k hk => ?_
    rw [if_neg hk]
    refine Takes.bind_nil ?_ (takes_pure rfl)
    exact (takes_arrayLength hroom (by omega) hlen).bind (.cons (by rfl) _)
      (takes_arrayElement helt')
  cases len with
  | none => exact harray (.cons (by decide) _)
  | some t =>
      cases hlen t rfl with
      | @dots r =>
          have hbegins : Begins (· ≠ .ident) (Tree.ellipsis r .absent).words :=
            ⟨_, _, words_of_spells LengthReads.spells_dots, by decide⟩
          exact harray (hbegins.append _)
      | expression h =>
          obtain ⟨⟨k, z⟩, ls, hwords, -⟩ := h.begins
          by_cases hident : k = .ident
          · subst hident
            have hless : t.words.length < m := (Nat.le_add_right _ _).trans_lt hlength
            exact (hkept t rfl).takes h hwords hroom hless hrest
          · exact harray (Begins.append ⟨_, _, hwords, hident⟩ _)

-- A type that is an array type.
theorem reads_arraySpec (hname : Built .name name) (hlen : ∀ t ∈ len, t.LengthReads)
    (hkept : ∀ t ∈ len, t.KeptLength) (helt : elt.TypeReads)
    (hspells : (elt.emittedAs .expression).Spells elt.words) :
    (Tree.typeSpec p name (.arrayType q (.ofOption len) elt) .absent (.flag false)).SpecReads
      .Type := by
  have harray := spells_arrayType (p := q) hlen hspells
  have hwords := words_of_spells harray
  cases hname with
  | @name r z hz =>
      refine .of_typeSpec _ (spells_plainSpec hz (hwords ▸ harray)) fun n m s hroom hlength => ?_
      simp only [markWords, Bool.false_eq_true, if_false, List.nil_append] at hlength ⊢
      rw [hwords] at hlength ⊢
      simp only [List.length_cons, List.length_append] at hlength
      have hread : ((upTo n).bracketedTypeSpec .unknownPlace (.ident .unknownPlace (.text z))).Takes
          s _ _ _ := takes_bracketedArray (q := q) hlen hkept helt hroom (by omega)
      refine takes_peek_bind ?_
      rw [if_pos (Lexeme.kind_ofOperator _)]
      have hbare : (Tree.typeSpec p (.ident r (.text z)) (.arrayType q (.ofOption len) elt) .absent
          (.flag false)).bare = plainSpec (.ident .unknownPlace (.text z))
            (Tree.arrayType q (.ofOption len) elt).bare false := rfl
      rw [hbare]
      exact takes_advance_bind (hread.mono fun k hk => absorbs_of_ending hk elt)

end

end Tree

end GoCompact
