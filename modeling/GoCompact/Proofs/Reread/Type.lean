import GoCompact.Proofs.Grammar.Sound.Expression
import GoCompact.Proofs.Reread.Expression

namespace GoCompact.Tree

open GoCompact.Parser GoCompact.Grammar Cursor
open Emission (Spells)

variable {b : Bool} {n m : Nat} {s : Scope} {p t : Tree}

-- Kinds that begin a type literal, functions apart.
def beginsLiteralType (k : TokenKind) : Bool :=
  k == .op .LBrack || k == .word .Struct || k == .word .Map || k == .word .Chan ||
    k == .word .Interface

-- A type literal is an operand.
theorem TypeReads.primary (h : t.TypeReads) (hstart : beginsLiteralType t.typeStart = true)
    (hedge : ∀ k, t.edge k = t.absorbs k) : t.PrimaryReads b := by
  have hkind : ∀ k, k = t.typeStart → k = .op .LBrack ∨ k = .word .Struct ∨ k = .word .Map ∨
      k = .word .Chan ∨ k = .word .Interface := by
    rintro k rfl
    simpa [beginsLiteralType, or_assoc] using hstart
  refine .of_operand (h.begins.mono fun k hk => ?_) fun n s hroom => ?_
  · rcases hkind k hk with rfl | rfl | rfl | rfl | rfl <;> rfl
  · have hread : (upTo n).typeRule?.Takes s t.words (some t.bare)
        fun k => t.edge k = false ∧ (k = .op .LBrace → t.is .FuncType = false) :=
      (h.takes (n := n + 1) hroom).mono fun k hk => hedge k ▸ hk.1
    refine takes_peek_next h.begins.next fun k hk => ?_
    rcases hkind k hk with rfl | rfl | rfl | rfl | rfl <;> exact hread.bind_nil (takes_pure rfl)

theorem Reads.of_type (hspells : (t.emittedAs .expression).Spells t.words) (h : t.TypeReads)
    (hstart : beginsLiteralType t.typeStart = true) (hprimary : t.isPrimary = true)
    (hedge : ∀ k, t.edge k = t.absorbs k) : t.Reads b :=
  .of_primary hspells hprimary (h.primary hstart hedge) fun _ => h

-- Arrays and slices.
section

variable {elt : Tree} {len : Option Tree}

theorem takes_arrayLength (hroom : Room (n + 1) s m 3) (hlength : (boundWords len).length < m)
    (hlen : ∀ t ∈ len, t.LengthReads) :
    (upTo n).arrayLength.Takes s (boundWords len) (len.map bare) (· = .op .RBrack) := by
  refine Takes.bracketed ?_
  cases len with
  | none =>
      refine takes_peek_next (.nil fun _ h => h) ?_
      rintro k rfl
      exact takes_pure rfl
  | some t =>
      cases hlen t rfl with
      | @dots p =>
          have hbegins : Begins (· = .op .Ellipsis) (Tree.ellipsis p .absent).words :=
            ⟨_, _, words_of_spells LengthReads.spells_dots, rfl⟩
          refine takes_peek_next hbegins.next ?_
          rintro k rfl
          exact LengthReads.takes_openLength.map some
      | expression h =>
          have hread := h.takes_bracketed (hroom.inner hlength (by decide) 1)
          refine takes_peek_next h.begins.next fun k hk => ?_
          split
          · cases hk
          · cases hk
          · refine (hread.map some).mono ?_
            rintro k rfl
            rfl

theorem takes_arrayElement {q : Tree} {length : Option Tree}
    (helt : (upTo n).type.Takes s elt.words elt.bare (elt.absorbs · = false)) :
    ((upTo n).arrayElement q length).Takes s (.ofOperator .RBrack :: elt.words)
      (.arrayType q (.ofOption length) elt.bare) (elt.absorbs · = false) :=
  takes_discard_expect rfl (helt.bind_nil (takes_pure rfl))

theorem spells_arrayType (hlen : ∀ t ∈ len, t.LengthReads)
    (helt : (elt.emittedAs .expression).Spells elt.words) :
    ((Tree.arrayType p (.ofOption len) elt).emittedAs .expression).Spells
      (.ofOperator .LBrack :: (boundWords len ++ .ofOperator .RBrack :: elt.words)) := by
  have habsent : ∀ t ∈ len, t.isAbsent = false := by
    intro t ht
    cases hlen t ht with
    | dots => rfl
    | expression h => exact h.isAbsent
  have hlen' := spells_optional (·.emittedAs .expression) habsent fun t ht => (hlen t ht).spells
  rw [emitted_arrayType]
  exact ((((Spells.operator _).append hlen').append (.operator _)).append helt).of_eq
    (by simp [boundWords])

theorem array_of_length (hlen : ∀ t ∈ len, t.LengthReads) (helt : elt.TypeReads)
    (hwords : (Tree.arrayType p (.ofOption len) elt).words =
      .ofOperator .LBrack :: (boundWords len ++ .ofOperator .RBrack :: elt.words)) :
    (Tree.arrayType p (.ofOption len) elt).ArrayReads := by
  intro n s name hroom
  rw [hwords] at hroom ⊢
  have hroom' : Room n s elt.words.length 2 := hroom.inner (by simp; omega) (by decide) 2
  refine takes_expect_bind rfl ?_
  cases len with
  | none =>
      have hitems : (upTo n).bracketItems.Takes s [] [] (· = .op .RBrack) := by
        refine takes_peek_next (.nil fun _ h => h) fun k hk => ?_
        rw [if_pos hk]
        exact takes_pure rfl
      refine hitems.bind (.cons (by rfl) _) (takes_discard_expect rfl ?_)
      exact (helt.takes_type hroom').bind_nil (takes_pure (by simp [ofOption]))
  | some t =>
      have hothers : ∀ u ∈ ([] : List Tree), u.TypeReads := by simp
      have hitems := takes_bracketItems hroom (by simp [boundWords]) (hlen t rfl) hothers
      rw [List.map_nil, afterComma_nil, List.append_nil] at hitems
      refine hitems.bind (.cons (by rfl) _) (takes_discard_expect rfl ?_)
      exact (helt.takes hroom').bind_nil (takes_pure (by simp))

theorem typeReads_arrayType (hlen : ∀ t ∈ len, t.LengthReads) (helt : elt.TypeReads)
    (hspells : (elt.emittedAs .expression).Spells elt.words) :
    (Tree.arrayType p (.ofOption len) elt).TypeReads := by
  have hwords := words_of_spells (spells_arrayType (p := p) hlen hspells)
  refine .of_here ⟨_, _, hwords, rfl⟩ nofun (fun _ => array_of_length hlen helt hwords) nofun ?_
  intro n s hroom
  rw [hwords] at hroom ⊢
  have hlength := takes_arrayLength hroom (by simp) hlen
  have helt' := helt.takes_type (hroom.inner (by simp; omega) (by decide) 2)
  refine takes_peek_bind (.map (takes_advance_bind (hlength.bind (.cons (by rfl) _) ?_)) some)
  have hbare : (Tree.arrayType p (.ofOption len) elt).bare =
      .arrayType .unknownPlace (.ofOption (len.map bare)) elt.bare := by simp
  rw [hbare]
  exact takes_arrayElement helt'

theorem reads_arrayType (hlen : ∀ t ∈ len, t.LengthReads) (helt : elt.TypeReads)
    (hspells : (elt.emittedAs .expression).Spells elt.words) :
    (Tree.arrayType p (.ofOption len) elt).Reads b := by
  have hwords := spells_arrayType (p := p) hlen hspells
  exact .of_type (words_of_spells hwords ▸ hwords) (typeReads_arrayType hlen helt hspells) rfl rfl
    fun _ => rfl

end

-- Maps.
section

variable {key value : Tree}

theorem spells_mapType (hkey : (key.emittedAs .expression).Spells key.words)
    (hvalue : (value.emittedAs .expression).Spells value.words) :
    ((Tree.mapType p key value).emittedAs .expression).Spells
      (.ofKeyword .Map :: .ofOperator .LBrack ::
        (key.words ++ .ofOperator .RBrack :: value.words)) := by
  rw [emitted_mapType]
  exact ((((Spells.joined _ _).append hkey).append (.operator _)).append hvalue).of_eq (by simp)

theorem reads_mapType (hkey : key.TypeReads) (hvalue : value.TypeReads)
    (hkeySpells : (key.emittedAs .expression).Spells key.words)
    (hvalueSpells : (value.emittedAs .expression).Spells value.words) :
    (Tree.mapType p key value).Reads b := by
  have hspells := spells_mapType (p := p) hkeySpells hvalueSpells
  have hwords := words_of_spells hspells
  refine .of_type (hwords ▸ hspells) (.of_here ⟨_, _, hwords, rfl⟩ nofun nofun nofun ?_) rfl rfl
    fun _ => rfl
  intro n s hroom
  rw [hwords] at hroom ⊢
  have hkey' := hkey.takes_type (hroom.inner (by simp; omega) (by decide) 2)
  have hvalue' := hvalue.takes_type (hroom.inner (by simp; omega) (by decide) 2)
  refine takes_peek_bind (.map (?_ : (upTo n).mapType.Takes _ _ _ _) some)
  refine takes_expect_bind rfl (takes_discard_expect rfl (hkey'.bind (.cons ?_ _) ?_))
  · exact absorbs_eq_false (by decide) rfl key
  · exact takes_discard_expect rfl (hvalue'.bind_nil (takes_pure (by simp)))

end

-- Channels.
section

theorem typeStart_ne_arrow (h : t.isReceiver = false) : t.typeStart ≠ .op .Arrow := by
  unfold typeStart
  split <;> first | decide | cases h

variable {value : Tree} {d : Direction}

theorem takes_chanDirection (hd : d ≠ .neither) :
    chanDirection.Takes s (Emission.directionWords d) d fun k => d = .both → k ≠ .op .Arrow := by
  cases d with
  | neither => exact absurd rfl hd
  | both => exact takes_got_bind rfl (takes_not_got (.nil fun k hk => hk rfl) (takes_pure rfl))
  | send => exact takes_got_bind rfl (takes_got_bind rfl (takes_pure rfl))
  | receive =>
      refine takes_not_got (.cons (by decide) _) ?_
      exact takes_discard_expect rfl (takes_discard_expect rfl (takes_pure rfl))

theorem spells_chanType (hd : d ≠ .neither)
    (hvalue : (value.emittedAs .expression).Spells value.words) :
    ((Tree.chanType p (.direction d) value).emittedAs .expression).Spells
      (Emission.directionWords d ++ value.words) := by
  rw [emitted_chanType]
  exact Spells.append ⟨fault_channelMark hd _, Emission.words_channelMark d _⟩ hvalue

theorem typeReads_chanType (hd : d ≠ .neither) (hvalue : value.TypeReads)
    (hspells : (value.emittedAs .expression).Spells value.words)
    (hboth : d = .both → value.isReceiver = false) :
    (Tree.chanType p (.direction d) value).TypeReads := by
  have hwords := words_of_spells (spells_chanType (p := p) hd hspells)
  have hbegins : Begins (· = (Tree.chanType p (.direction d) value).typeStart)
      (Tree.chanType p (.direction d) value).words := by
    rw [hwords]
    cases d with
    | neither => exact absurd rfl hd
    | _ => exact .cons (by rfl) _
  refine .of_here hbegins (by cases d <;> nofun) (by cases d <;> nofun) nofun fun n s hroom => ?_
  rw [hwords, List.length_append] at hroom
  rw [hwords]
  have hpos : 0 < (Emission.directionWords d).length := by
    cases d with
    | neither => exact absurd rfl hd
    | _ => exact Nat.zero_lt_succ _
  have hvalue' := hvalue.takes_type (hroom.inner (by omega) (by decide) 2)
  have hnext : Next (fun k => d = .both → k ≠ .op .Arrow) value.words (value.absorbs · = false) :=
    hvalue.begins.next.mono fun k hk hd => hk ▸ typeStart_ne_arrow (hboth hd)
  have hread : (chanDirection >>= fun d => (upTo n).type >>= fun u =>
      pure (.chanType .unknownPlace (.direction d) u)).Takes s
        (Emission.directionWords d ++ value.words) (Tree.chanType p (.direction d) value).bare
        (value.absorbs · = false) :=
    (takes_chanDirection hd).bind hnext (hvalue'.bind_nil (takes_pure (by simp)))
  cases d with
  | neither => exact absurd rfl hd
  | _ => exact takes_peek_bind (.map (takes_current_bind hread) some)

theorem reads_chanType (hd : d ≠ .neither) (hreceive : d ≠ .receive) (hvalue : value.TypeReads)
    (hspells : (value.emittedAs .expression).Spells value.words)
    (hboth : d = .both → value.isReceiver = false) :
    (Tree.chanType p (.direction d) value).Reads b := by
  have hspells' := spells_chanType (p := p) hd hspells
  have htype := typeReads_chanType (p := p) hd hvalue hspells hboth
  refine .of_type (words_of_spells hspells' ▸ hspells') htype ?_ ?_ fun _ => rfl
  · cases d <;> first | rfl | exact absurd rfl hd | exact absurd rfl hreceive
  · cases d <;> first | rfl | exact absurd rfl hd | exact absurd rfl hreceive

-- Moving the arrows brings back the channel type.
theorem gives_receiving {x : Tree} {c : Cursor} (h : Received x t) :
    (receiving x.bare).Gives s c t.bare c := by
  induction h with
  | both => exact gives_pure.mpr ⟨by simp, rfl⟩
  | @send p value result h ih =>
      have hchan : value.bare.is .ChanType = true := by cases h <;> rfl
      have hbare : (Tree.chanType p (.direction .send) value).bare =
          .chanType .unknownPlace (.direction .send) value.bare := by simp
      rw [hbare, receiving, if_pos hchan]
      exact ih.bind (gives_pure.mpr ⟨by simp, rfl⟩)

-- What follows the first arrow of a channel to receive from is read as a channel to send to if the
-- values are such channels themselves, whose arrow comes next.
theorem received_chanType (hvalue : value.TypeReads)
    (hspells : (value.emittedAs .expression).Spells value.words)
    (h : value.isReceiver = true →
      ∃ x, Received x value ∧ x.TypeReads ∧ (x.emittedAs .expression).Spells x.words) :
    ∃ x, Received x (.chanType p (.direction .receive) value) ∧ x.TypeReads ∧
      (x.emittedAs .expression).Spells x.words := by
  have hchan : ∀ {y : Tree} {d : Direction}, d ≠ .neither → y.TypeReads →
      (y.emittedAs .expression).Spells y.words → (d = .both → y.isReceiver = false) →
      (Tree.chanType p (.direction d) y).TypeReads ∧
        ((Tree.chanType p (.direction d) y).emittedAs .expression).Spells
          (Tree.chanType p (.direction d) y).words := fun hd hy hspells hboth =>
    ⟨typeReads_chanType hd hy hspells hboth,
      words_of_spells (spells_chanType hd hspells) ▸ spells_chanType hd hspells⟩
  cases hreceiver : value.isReceiver with
  | true =>
      obtain ⟨y, hy, hyReads, hySpells⟩ := h hreceiver
      exact ⟨_, .send hy, hchan (by decide) hyReads hySpells nofun⟩
  | false => exact ⟨_, .both, hchan (by decide) hvalue hspells fun _ => hreceiver⟩

-- A channel to receive from is read as an expression if what follows its first arrow is read as a type.
theorem reads_receiver {x : Tree} (h : Received x t) (hx : x.TypeReads) (ht : t.TypeReads)
    (hspells : (t.emittedAs .expression).Spells t.words) : t.Reads b := by
  have hwords : t.words = .ofOperator .Arrow :: x.words := h.words.2
  have hkind : t.isPrimary = false ∧ t.is .BinaryExpr = false := by cases h <;> exact ⟨rfl, rfl⟩
  have hx' : x.isReceiver = false ∧ x.takesBrace = false ∧ x.bare.is .ChanType = true := by
    cases h <;> exact ⟨rfl, rfl, rfl⟩
  have hprimary : x.PrimaryReads b := by
    cases h <;> exact hx.primary rfl fun _ => rfl
  refine .of_unary hspells ⟨_, _, hwords, rfl⟩ hkind.1 hkind.2 (.of_here (by simp [hwords]) ?_)
    fun _ => ht
  intro n s hroom hfree
  rw [hwords] at hroom ⊢
  have hread := hprimary.unary (hroom.inner (by simp) (by decide) 1) hfree
  refine takes_current_bind ?_
  rw [if_neg (by decide)]
  refine takes_discard_advance ((hread.mono fun k hk => ?_).bind_nil ?_)
  · exact ⟨hk.continues, fun hbrace => ⟨(hk.brace hbrace).1, hx'.2.1⟩, h.edge_eq k ▸ hk.edge⟩
  · rw [if_pos hx'.2.2]
    exact fun l rest _ => gives_receiving h

end

-- What a type begins with.
theorem typeStart_cases (t : Tree) : t.typeStart = .ident ∨ t.typeStart = .op .LBrack ∨
    t.typeStart = .op .Mul ∨ t.typeStart = .op .LParen ∨ t.typeStart = .op .Arrow ∨
    t.typeStart = .word .Map ∨ t.typeStart = .word .Chan ∨ t.typeStart = .word .Func ∨
    t.typeStart = .word .Struct ∨ t.typeStart = .word .Interface := by
  unfold typeStart
  split <;> simp

theorem typeStart_ne_paren (h : t.isType = true) (hparen : t.is .ParenExpr = false) :
    t.typeStart ≠ .op .LParen := by
  intro hstart
  unfold typeStart at hstart
  split at hstart <;> first | (cases hstart; done) | cases hparen

-- Unions.
section

-- Kinds that come after a term of a union.
def endsTerm (k : TokenKind) : Bool :=
  k == .op .Or || k == .op .Semicolon || k == .op .RBrace || k == .op .Comma ||
    k == .op .RParen || k == .op .RBrack

theorem cases_of_endsTerm {k : TokenKind} (h : endsTerm k = true) : k = .op .Or ∨
    k = .op .Semicolon ∨ k = .op .RBrace ∨ k = .op .Comma ∨ k = .op .RParen ∨ k = .op .RBrack := by
  simpa [endsTerm, or_assoc] using h

theorem absorbs_of_endsTerm {k : TokenKind} (h : endsTerm k = true) (t : Tree) :
    t.absorbs k = false := by
  rcases cases_of_endsTerm h with rfl | rfl | rfl | rfl | rfl | rfl <;>
    exact absorbs_eq_false (by decide) rfl t

theorem isTerm_of_isType (h : t.isType = true) : t.isTerm = true := by
  unfold isTerm
  split
  · cases h
  · exact h

-- A term of a union is a type, perhaps with a tilde before it.
inductive TermReads : Tree → Prop
  | type {t : Tree} (h : t.TypeReads) (hspells : (t.emittedAs .expression).Spells t.words) :
      TermReads t
  | tilde {p t : Tree} (h : t.TypeReads) (hspells : (t.emittedAs .expression).Spells t.words) :
      TermReads (.unary p (.token (.op .Tilde)) t)

namespace TermReads

theorem spells (h : TermReads t) : (t.emittedAs .expression).Spells t.words := by
  cases h with
  | type _ hspells => exact hspells
  | @tilde p t _ hspells =>
      have hspells' := spells_unary (p := p) (o := .Tilde) hspells
      exact words_of_spells hspells' ▸ hspells'

theorem begins (h : TermReads t) :
    Begins (fun k => k ≠ .op .RParen ∧ k ≠ .op .RBrace ∧ k ≠ .op .RBrack ∧ k ≠ .eof) t.words := by
  cases h with
  | type h _ =>
      refine h.begins.mono ?_
      rintro k rfl
      rcases t.typeStart_cases with h | h | h | h | h | h | h | h | h | h <;> rw [h] <;> decide
  | @tilde p t _ hspells =>
      exact ⟨_, _, words_of_spells (spells_unary (p := p) (o := .Tilde) hspells), by decide⟩

theorem takes (h : TermReads t) (hroom : Room (n + 1) s m 3) (hlength : t.words.length < m) :
    (upTo n).constraintTerm.Takes s t.words t.bare (endsTerm · = true) := by
  cases h with
  | type h _ =>
      have hread := (h.takes_type (hroom.inner hlength (by decide) 2)).mono fun k hk =>
        absorbs_of_endsTerm hk t
      refine takes_peek_next h.begins.next ?_
      rintro k rfl
      rw [if_neg]
      · exact hread
      · rcases t.typeStart_cases with h | h | h | h | h | h | h | h | h | h <;> rw [h] <;> decide
  | @tilde p t h hspells =>
      have hwords := words_of_spells (spells_unary (p := p) (o := .Tilde) hspells)
      rw [hwords] at hlength ⊢
      rw [List.length_cons] at hlength
      have hread := (h.takes_type (hroom.inner (by omega) (by decide) 2)).mono fun k hk =>
        absorbs_of_endsTerm hk t
      refine takes_peek_bind ?_
      rw [if_pos (Lexeme.kind_ofOperator _)]
      exact takes_advance_bind (hread.bind_nil (takes_pure (by simp)))

end TermReads

-- A tree that grows to a union by terms that are read one after another.
structure Extends (x t : Tree) (ls : List Lexeme) : Prop where
  words : t.words = x.words ++ ls
  spells : (t.emittedAs .expression).Spells t.words
  grows : (ls = [] ∧ t = x) ∨ Begins (· = .op .Or) ls
  climbs {n m : Nat} {s : Scope} {l : Lexeme} (rest : List Lexeme) : Room (n + 1) s m 3 →
    t.words.length < m → endsTerm l.kind = true →
    Climbs (upTo n).unionStep s x.bare (ls ++ l :: rest) t.bare (l :: rest)

namespace Extends

variable {x y : Tree} {ls : List Lexeme}

theorem refl (hspells : (x.emittedAs .expression).Spells x.words) : Extends x x [] :=
  ⟨by simp, hspells, .inl ⟨rfl, rfl⟩, fun _ _ _ _ => .refl⟩

theorem next (h : Extends x t ls) {P : TokenKind → Prop} (hP : ∀ k, P k → endsTerm k = true) :
    Next (endsTerm · = true) ls P := by
  rcases h.grows with ⟨rfl, -⟩ | hor
  · exact .nil hP
  · refine hor.next.mono ?_
    rintro k rfl
    rfl

theorem binary (h : Extends x t ls) (hy : y.TermReads) :
    Extends x (.binary p t (.token (.op .Or)) y) (ls ++ .ofOperator .Or :: y.words) := by
  have hspells := spells_binary (p := p) (o := .Or) h.spells hy.spells
  have hwords := words_of_spells hspells
  refine ⟨?_, hwords ▸ hspells, .inr ?_, ?_⟩
  · rw [hwords, h.words, List.append_assoc]
  · rcases h.grows with ⟨rfl, -⟩ | hor
    · exact .cons (by rfl) _
    · exact hor.append _
  · intro n m s l rest hroom hlength hl
    rw [hwords, List.length_append, List.length_cons] at hlength
    have hclimbs := h.climbs (l := .ofOperator .Or) (y.words ++ l :: rest) hroom (by omega) rfl
    have hread := hy.takes (s := s) hroom (by omega)
    have hstep : ((upTo n).unionStep t.bare).Takes s (.ofOperator .Or :: y.words)
        (some (Tree.binary p t (.token (.op .Or)) y).bare) (endsTerm · = true) :=
      takes_got_bind rfl (hread.bind_nil (takes_pure (by simp)))
    rw [List.append_assoc]
    refine hclimbs.snoc (hstep l rest hl) ?_
    simp only [List.length_cons, List.length_append]
    omega

-- The terms after the first one.
theorem takes (h : Extends x t ls) (hroom : Room (n + 1) s m 3) (hlength : t.words.length < m) :
    ((upTo n).union x.bare).Takes s ls t.bare fun k => endsTerm k = true ∧ k ≠ .op .Or := by
  intro l rest hl
  refine (h.climbs rest hroom hlength hl.1).grow (by simp) ?_
  refine gives_got_bind.mpr (.inr ⟨hl.2, ?_⟩)
  exact gives_pure.mpr ⟨rfl, rfl⟩

end Extends

-- A union is a term that grows.
def UnionReads (t : Tree) : Prop := ∃ x ls, TermReads x ∧ Extends x t ls

theorem TermReads.union (h : TermReads t) : t.UnionReads := ⟨t, [], h, .refl h.spells⟩

theorem UnionReads.binary {x y : Tree} (hx : x.UnionReads) (hy : y.TermReads) :
    (Tree.binary p x (.token (.op .Or)) y).UnionReads := by
  obtain ⟨first, ls, hfirst, hextends⟩ := hx
  exact ⟨first, _, hfirst, hextends.binary hy⟩

theorem UnionReads.spells (h : t.UnionReads) : (t.emittedAs .expression).Spells t.words := by
  obtain ⟨x, ls, -, hextends⟩ := h
  exact hextends.spells

end

end GoCompact.Tree
