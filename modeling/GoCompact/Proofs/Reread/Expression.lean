import GoCompact.Proofs.Grammar.Mirror.Expression
import GoCompact.Proofs.Grammar.Spans
import GoCompact.Proofs.Layout.Words
import GoCompact.Proofs.Reread.Basic

namespace GoCompact

namespace Emission

-- What an emission writes without a fault.
structure Spells (e : Emission) (ls : List Lexeme) : Prop where
  fault : e.fault = none
  words : e.words = ls

namespace Spells

variable {a b : Emission} {ls ms : List Lexeme}

theorem of_eq (h : Spells a ls) (hls : ls = ms) : Spells a ms := hls ▸ h

theorem nothing : Spells .nothing [] := ⟨rfl, rfl⟩

theorem append (ha : Spells a ls) (hb : Spells b ms) : Spells (a ++ b) (ls ++ ms) :=
  ⟨(fault_append ha.fault).trans hb.fault, by rw [words_append ha.fault, ha.words, hb.words]⟩

theorem operator (o : Operator) : Spells (.operator o) [.ofOperator o] :=
  ⟨rfl, words_operator o⟩

theorem keyword (k : Keyword) : Spells (.keyword k) [.ofKeyword k] := ⟨rfl, words_keyword k⟩

theorem spaced (k : Keyword) : Spells (.spaced k) [.ofKeyword k] := ⟨rfl, words_spaced k⟩

theorem joined (k : Keyword) (o : Operator) : Spells (.joined k o) [.ofKeyword k, .ofOperator o] :=
  ⟨rfl, words_joined k o⟩

theorem blank (condition : Bool) : Spells (.when condition .blank) [] :=
  ⟨fault_when rfl, words_when_blank condition⟩

theorem write {l : Lexeme} (h : l.Whole) : Spells (.write l.text) [l] :=
  ⟨rfl, by rw [words_write, Text.lexemes_single h]⟩

-- Emissions with an operator between them.
theorem separated {α : Type} {o : Operator} {f : α → Emission} {w : α → List Lexeme} {x : α}
    {xs : List α} (h : ∀ y ∈ x :: xs, Spells (f y) (w y)) :
    Spells (.separated o.spelling ((x :: xs).map f))
      (w x ++ xs.flatMap fun y => .ofOperator o :: w y) := by
  have hfault : ∀ e ∈ (x :: xs).map f, e.fault = none := by
    intro e he
    obtain ⟨y, hy, rfl⟩ := List.mem_map.mp he
    exact (h y hy).fault
  refine ⟨fault_separated hfault, ?_⟩
  obtain ⟨hx, hxs⟩ := List.forall_mem_cons.mp h
  rw [List.map_cons, words_separated hfault, hx.words, (Text.word_operator o).lexemes,
    List.flatMap_map]
  congr 1
  refine List.flatMap_congr fun y hy => ?_
  rw [(hxs y hy).words]
  rfl

end Spells

end Emission

namespace TokenKind

-- Kinds that end every expression.
def closes (k : TokenKind) : Bool :=
  k.precedence == 0 && !k.beginsType && k != .op .Period && k != .op .LBrace

-- Kinds that begin an operand.
def beginsOperand : TokenKind → Bool
  | .ident | .literal _ => true
  | .op o => o == .LParen || o == .LBrack
  | .word k => k == .Func || k == .Struct || k == .Map || k == .Chan || k == .Interface
  | .eof => false

end TokenKind

namespace Tree

open GoCompact.Parser GoCompact.Grammar Cursor

-- The tree without the places of its nodes.
abbrev bare (t : Tree) : Tree := Relocation.forget.tree t

@[simp]
theorem place_forget (p : Tree) : Relocation.forget.place p = .unknownPlace := rfl

-- The lexemes of an expression.
def words (t : Tree) : List Lexeme := (t.emittedAs .expression).words

theorem words_of_spells {t : Tree} {ls : List Lexeme} (h : (t.emittedAs .expression).Spells ls) :
    t.words = ls :=
  h.words

-- A token of this kind after an expression does not go on with it.
structure Stops (s : Scope) (t : Tree) (k : TokenKind) : Prop where
  continues : k.continues = false
  brace : k = .op .LBrace → s.isFree = false ∧ t.takesBrace = false
  edge : t.edge k = false

theorem stops_of_closes {k : TokenKind} (h : k.closes = true) (s : Scope) (t : Tree) :
    t.Stops s k := by
  simp only [TokenKind.closes, Bool.and_eq_true, Bool.not_eq_true', beq_iff_eq, bne_iff_ne] at h
  obtain ⟨⟨⟨-, htype⟩, hpoint⟩, hbrace⟩ := h
  refine ⟨?_, fun h => absurd h hbrace, edge_eq_false hpoint htype t⟩
  cases k with
  | op o => cases o <;> first | rfl | exact absurd rfl hpoint | cases htype
  | _ => rfl

theorem precedence_of_closes {k : TokenKind} (h : k.closes = true) : k.precedence = 0 := by
  simp only [TokenKind.closes, Bool.and_eq_true, beq_iff_eq] at h
  exact h.1.1.1

end Tree

-- There are rules enough for so many lexemes, and levels enough for them: three for each, of which some
-- were entered for the first one.
structure Room (n : Nat) (s : Scope) (lexemes entered : Nat) : Prop where
  rules : lexemes ≤ n
  levels : s.Admits (3 * lexemes - entered)

namespace Room

variable {n m m' j j' : Nat} {s : Scope}

theorem mono (h : Room n s m j) (hm : m' ≤ m) : Room n s m' j :=
  ⟨hm.trans h.rules, h.levels.mono (by omega)⟩

theorem later (h : Room n s m j) (hj : j ≤ j') : Room n s m j' :=
  ⟨h.rules, h.levels.mono (by omega)⟩

-- After a lexeme was read, as many rules fewer are enough.
theorem inner (h : Room (n + 1) s m j) (hm : m' < m) (hj : j ≤ 3) (j' : Nat) : Room n s m' j' :=
  ⟨by have := h.rules; omega, h.levels.mono (by omega)⟩

-- A smaller part has its own room under the same rules.
theorem smaller (h : Room n s m j) (hm : m' < m) (hj : j ≤ 3) (j' : Nat) : Room n s m' j' :=
  ⟨by have := h.rules; omega, h.levels.mono (by omega)⟩

theorem deeper (h : Room n s m j) (hm : 0 < m) (hj : j ≤ 2) : Room n s.deeper m (j + 1) :=
  ⟨h.rules, h.levels.deeper (by omega)⟩

theorem bracketed (h : Room n s m j) : Room n s.bracketed m j := ⟨h.rules, h.levels.bracketed⟩

theorem header (h : Room n s m j) : Room n s.header m j := ⟨h.rules, h.levels.header⟩

theorem admits (h : Room n s m j) (hm : 0 < m) (hj : j ≤ 2) :
    s.limit.admits (s.depth + 1) = some true :=
  h.levels.admits_one (by omega)

end Room

namespace Tree

open GoCompact.Parser GoCompact.Grammar Cursor

-- An operand is read and grows to the tree.
structure PrimaryReads (b : Bool) (t : Tree) : Prop where
  begins : Begins (·.beginsOperand = true) t.words
  climbs {n : Nat} {s : Scope} {l : Lexeme} (rest : List Lexeme) :
    Room (n + 1) s t.words.length 2 → (b = true → s.isFree = true) → t.edge l.kind = false →
      (l.kind = .op .LBrace → t.is .FuncType = false) →
      ∃ x ls, (upTo n).operand.Gives s (before (t.words ++ l :: rest)) x (before ls) ∧
        Climbs (upTo n).primaryStep s x ls t.bare (l :: rest)

-- A tree without operators between its parts is read as a whole.
def UnaryReads (b : Bool) (t : Tree) : Prop :=
  ∀ ⦃n : Nat⦄ ⦃s : Scope⦄, Room n s t.words.length 1 → (b = true → s.isFree = true) →
    (upTo n).unary.Takes s t.words t.bare (t.Stops s)

-- The first side of the operators is read and grows to the tree.
def BinaryReads (b : Bool) (t : Tree) : Prop :=
  ∀ ⦃n : Nat⦄ ⦃s : Scope⦄ ⦃least : Nat⦄ ⦃l : Lexeme⦄ (rest : List Lexeme),
    Room (n + 1) s t.words.length 1 → (b = true → s.isFree = true) → least ≤ t.precedence →
      l.kind.precedence ≤ t.precedence → t.Stops s l.kind →
      ∃ x ls, (upTo n).unaryRule.Gives s (before (t.words ++ l :: rest)) x (before ls) ∧
        Climbs ((upTo n).binaryStep least) s x ls t.bare (l :: rest)

-- What follows the name that a type name begins with.
inductive AfterName (t : Tree) : List Lexeme → Prop
  | nothing (h : t.is .Ident = true) : AfterName t []
  | brackets {ls : List Lexeme} (h : t.isIndexed = true) (hls : Begins (· = .op .LBrack) ls) :
      AfterName t ls
  | point {ls : List Lexeme} (hls : Begins (· = .op .Period) ls) : AfterName t ls

-- A name is read, and then the rest of the type name that begins with it.
def NamedReads (t : Tree) : Prop :=
  ∃ x ls, t.words = ⟨.ident, x⟩ :: ls ∧ t.AfterName ls ∧
    ∀ ⦃n : Nat⦄ ⦃s : Scope⦄, Room (n + 1) s t.words.length 3 →
      ((upTo n).namedType (.ident .unknownPlace (.text x))).Takes s ls t.bare (t.absorbs · = false)

-- After a name an array type is read as the type of what has the name.
def ArrayReads (t : Tree) : Prop :=
  ∀ ⦃n : Nat⦄ ⦃s : Scope⦄ (name : Tree), Room (n + 1) s t.words.length 3 →
    ((upTo n).arrayOrInstance name).Takes s t.words (some name, t.bare) (t.absorbs · = false)

-- A name with type arguments is no array type of that name if no type follows.
def InstanceReads (t : Tree) : Prop :=
  ∃ x ls, t.words = ⟨.ident, x⟩ :: ls ∧ Begins (· = .op .LBrack) ls ∧
    ∀ ⦃n : Nat⦄ ⦃s : Scope⦄, Room (n + 1) s t.words.length 3 →
      ((upTo n).arrayOrInstance (.ident .unknownPlace (.text x))).Takes s ls (none, t.bare)
        (·.beginsType = false)

-- A type is read where one may stand.
structure TypeReads (t : Tree) : Prop where
  begins : Begins (· = t.typeStart) t.words
  takes {n : Nat} {s : Scope} : Room n s t.words.length 2 →
    (upTo n).type?.Takes s t.words (some t.bare) (t.absorbs · = false)
  named : t.typeStart = .ident → t.NamedReads
  array : t.typeStart = .op .LBrack → t.ArrayReads
  indexed : t.isIndexed = true → t.InstanceReads

-- An expression is read from what it is written as, and a type also as a type.
structure Reads (b : Bool) (t : Tree) : Prop where
  spells : (t.emittedAs .expression).Spells t.words
  begins : Begins (beginsSimple · = true) t.words
  binds : 0 < t.precedence
  binary : t.BinaryReads b
  unary : t.is .BinaryExpr = false → t.UnaryReads b
  primary : t.isPrimary = true → t.PrimaryReads b
  type : t.isType = true → t.TypeReads

section

variable {b : Bool} {n : Nat} {s : Scope} {t : Tree} {l : Lexeme} {rest : List Lexeme}

theorem unparen_of_takesBrace (h : t.takesBrace = false) :
    t.unparen.is .ArrayType = false ∧ t.unparen.is .StructType = false ∧
      t.unparen.is .MapType = false := by
  unfold takesBrace at h
  split at h
  · exact ⟨rfl, rfl, rfl⟩
  · exact ⟨rfl, rfl, rfl⟩
  · exact ⟨rfl, rfl, rfl⟩
  · simp only [Bool.or_eq_false_iff] at h
    exact ⟨h.1.1.2, h.1.2, h.2⟩

-- In a header a brace after a name is not read with it.
theorem isLiteralType_of_takesBrace {c : Cursor} (hfree : s.isFree = false)
    (h : t.takesBrace = false) : (isLiteralType t.bare).Gives s c false c := by
  obtain ⟨harray, hstruct, hmap⟩ := unparen_of_takesBrace h
  have hlevel : ¬0 ≤ s.level := by simpa [Scope.isFree] using hfree
  simp [isLiteralType, harray, hstruct, hmap, hlevel]

theorem primaryStep_of_stops (h : t.Stops s l.kind) (g : Grammar) :
    (g.primaryStep t.bare).Gives s (before (l :: rest)) none (before (l :: rest)) := by
  have hcontinues := h.continues
  simp only [primaryStep, gives_peek_bind, current_before, Lexeme.toLexeme_bare]
  split
  · simp_all [TokenKind.continues]
  · simp_all [TokenKind.continues]
  · simp_all [TokenKind.continues]
  · rename_i hbrace
    obtain ⟨hfree, htakes⟩ := h.brace hbrace
    exact (isLiteralType_of_takesBrace hfree htakes).bind (by simp)
  · simp

-- Before an operand no operator is read.
theorem gives_unaryHere {g : Grammar} {c d : Cursor} {u : Tree}
    (h : c.current.kind.beginsOperand = true) :
    g.unaryHere.Gives s c u d ↔ (g.operand >>= g.primaryAfter).Gives s c u d := by
  have hunary : isUnary c.current.kind = false := by
    generalize c.current.kind = k at h
    cases k with
    | op o => cases o <;> first | rfl | cases h
    | _ => rfl
  simp only [unaryHere, gives_current_bind, hunary, Bool.false_eq_true, if_false]
  split
  · simp_all [TokenKind.beginsOperand]
  · simp_all [TokenKind.beginsOperand]
  · rfl

theorem PrimaryReads.unary (h : t.PrimaryReads b) : t.UnaryReads b := by
  intro n s hroom hfree l rest hstops
  have hpos := h.begins.length_pos
  cases n with
  | zero => exact absurd hroom.rules (by omega)
  | succ n =>
      refine gives_nested.mpr ⟨hroom.admits hpos (by decide), ?_⟩
      rw [gives_unaryHere (h.begins.current _)]
      obtain ⟨x, ls, hx, hclimbs⟩ := h.climbs rest (hroom.deeper hpos (by decide)) hfree
        hstops.edge fun hbrace => by
          have htakes := (hstops.brace hbrace).2
          unfold takesBrace at htakes
          split at htakes <;> simp_all [Tree.is, kind?]
      have hstops' : t.Stops s.deeper l.kind := ⟨hstops.continues, hstops.brace, hstops.edge⟩
      exact hx.bind (hclimbs.grow (by simp) (primaryStep_of_stops hstops' _))

theorem UnaryReads.binary (h : t.UnaryReads b) : t.BinaryReads b := by
  intro n s least l rest hroom hfree _ _ hstops
  exact ⟨t.bare, l :: rest, h hroom hfree l rest hstops, .refl⟩

theorem binds_of_is (h : t.is .BinaryExpr = false) : t.precedence = 6 := by
  unfold precedence
  split
  · cases h
  · rfl

theorem beginsSimple_of_beginsOperand {k : TokenKind} (h : k.beginsOperand = true) :
    beginsSimple k = true := by
  cases k with
  | op o => cases o <;> first | rfl | cases h
  | word k => cases k <;> first | rfl | cases h
  | eof => cases h
  | _ => rfl

-- An expression that has no operators.
theorem Reads.of_primary (hspells : (t.emittedAs .expression).Spells t.words)
    (hprimary : t.isPrimary = true) (h : t.PrimaryReads b) (htype : t.isType = true → t.TypeReads) :
    t.Reads b where
  spells := hspells
  begins := h.begins.mono fun _ => beginsSimple_of_beginsOperand
  binds := by
    rw [binds_of_is]
    · decide
    · simp_all [isPrimary]
  binary := h.unary.binary
  unary _ := h.unary
  primary _ := h
  type := htype

-- An expression that begins with an operator.
theorem Reads.of_unary (hspells : (t.emittedAs .expression).Spells t.words)
    (hbegins : Begins (beginsSimple · = true) t.words) (hprimary : t.isPrimary = false)
    (hbinary : t.is .BinaryExpr = false) (h : t.UnaryReads b)
    (htype : t.isType = true → t.TypeReads) : t.Reads b where
  spells := hspells
  begins := hbegins
  binds := by
    rw [binds_of_is hbinary]
    decide
  binary := h.binary
  unary _ := h
  primary hprimary' := by simp [hprimary] at hprimary'
  type := htype

-- An expression is read if the token after it neither goes on with it nor binds tightly enough.
theorem Reads.takes_binary (h : t.Reads b) (hroom : Room n s t.words.length 1)
    (hfree : b = true → s.isFree = true) {least : Nat} (hleast : least ≤ t.precedence) :
    ((upTo n).binary least).Takes s t.words t.bare
      fun k => k.precedence < least ∧ t.Stops s k := by
  intro l rest hl
  cases n with
  | zero => exact absurd hroom.rules (Nat.not_le.mpr h.begins.length_pos)
  | succ n =>
      obtain ⟨x, ls, hx, hclimbs⟩ := h.binary rest hroom hfree hleast (by omega) hl.2
      refine hx.bind (hclimbs.grow (by simp) ?_)
      simp [binaryStep, hl.1]

theorem Reads.takes (h : t.Reads b) (hroom : Room n s t.words.length 1)
    (hfree : b = true → s.isFree = true) :
    (upTo n).expression.Takes s t.words t.bare fun k => k.precedence = 0 ∧ t.Stops s k :=
  (h.takes_binary hroom hfree h.binds).mono fun _ hk => ⟨by omega, hk.2⟩

-- In brackets every expression may stand, up to what closes it.
theorem Reads.takes_bracketed (h : t.Reads b) (hroom : Room n s t.words.length 1) :
    (upTo n).expression.Takes s.bracketed t.words t.bare (·.closes = true) :=
  (h.takes hroom.bracketed fun _ => hroom.levels.isFree_bracketed).mono fun _ hk =>
    ⟨precedence_of_closes hk, stops_of_closes hk _ _⟩

theorem TypeReads.takes_type (h : t.TypeReads) (hroom : Room n s t.words.length 2) :
    (upTo n).type.Takes s t.words t.bare (t.absorbs · = false) :=
  (h.takes hroom).bind_nil (takes_pure rfl)

-- A type is read one level deeper.
theorem TypeReads.of_here (hbegins : Begins (· = t.typeStart) t.words)
    (hnamed : t.typeStart = .ident → t.NamedReads) (harray : t.typeStart = .op .LBrack → t.ArrayReads)
    (hindexed : t.isIndexed = true → t.InstanceReads)
    (h : ∀ ⦃n : Nat⦄ ⦃s : Scope⦄, Room (n + 1) s t.words.length 3 →
      (upTo n).typeHere.Takes s t.words (some t.bare) (t.absorbs · = false)) : t.TypeReads where
  begins := hbegins
  takes {n s} hroom := by
    have hpos := hbegins.length_pos
    cases n with
    | zero => exact absurd hroom.rules (by omega)
    | succ n => exact (h (hroom.deeper hpos (by decide))).nested (hroom.admits hpos (by decide))
  named := hnamed
  array := harray
  indexed := hindexed

theorem NamedReads.type (h : t.NamedReads) (hstart : t.typeStart = .ident)
    (hindexed : t.isIndexed = true → t.InstanceReads) : t.TypeReads := by
  obtain ⟨x, ls, hwords, hafter, htakes⟩ := h
  refine .of_here ⟨_, _, hwords, hstart.symm⟩ (fun _ => ⟨x, ls, hwords, hafter, htakes⟩)
    (by simp [hstart]) hindexed fun n s hroom => ?_
  have hrest := htakes hroom
  rw [hwords]
  exact takes_peek_bind (.map (takes_ident_bind hrest) some)

-- No type arguments follow.
theorem takes_instantiated {g : Grammar} {u : Tree} :
    (g.instantiated u).Takes s [] u (· ≠ .op .LBrack) :=
  takes_peek_next (.nil fun _ h => h) fun k hk => by
    rw [if_neg hk]
    exact takes_pure rfl

-- An operand by itself.
theorem PrimaryReads.of_operand (hbegins : Begins (·.beginsOperand = true) t.words)
    (h : ∀ ⦃n : Nat⦄ ⦃s : Scope⦄, Room (n + 1) s t.words.length 2 →
      (upTo n).operand.Takes s t.words t.bare
        fun k => t.edge k = false ∧ (k = .op .LBrace → t.is .FuncType = false)) :
    t.PrimaryReads b where
  begins := hbegins
  climbs {_ _ l} rest hroom _ hedge hbrace :=
    ⟨t.bare, l :: rest, h hroom l rest ⟨hedge, hbrace⟩, .refl⟩

-- One step more after an operand.
theorem PrimaryReads.step {x : Tree} {ls : List Lexeme} (hx : x.PrimaryReads b)
    (hwords : t.words = x.words ++ l :: ls) (hedge : x.edge l.kind = false)
    (hbrace : l.kind = .op .LBrace → x.is .FuncType = false)
    (hstep : ∀ ⦃n : Nat⦄ ⦃s : Scope⦄, Room (n + 1) s t.words.length 2 →
      (b = true → s.isFree = true) →
      ((upTo n).primaryStep x.bare).Takes s (l :: ls) (some t.bare) fun _ => True) :
    t.PrimaryReads b where
  begins := by
    rw [hwords]
    exact hx.begins.append _
  climbs {n s m} rest hroom hfree _ _ := by
    have hle : x.words.length ≤ t.words.length := by simp [hwords]
    obtain ⟨y, ms, hy, hclimbs⟩ := hx.climbs (ls ++ m :: rest) (hroom.mono hle) hfree hedge hbrace
    rw [hwords, List.append_assoc]
    refine ⟨y, ms, hy, hclimbs.snoc (hstep hroom hfree m rest trivial) ?_⟩
    simp only [List.length_cons, List.length_append]
    omega

end

open Emission (Spells)

-- Names and literals.
theorem spells_ident {x : Text} (h : (⟨.ident, x⟩ : Lexeme).Whole) (p : Tree) :
    ((Tree.ident p (.text x)).emittedAs .expression).Spells [⟨.ident, x⟩] :=
  .write h

theorem spells_literal {k : Literal} {x : Text} (h : (⟨.literal k, x⟩ : Lexeme).Whole)
    (p : Tree) : ((Tree.basicLit p (.token (.literal k)) (.text x)).emittedAs .expression).Spells
      [⟨.literal k, x⟩] :=
  .write h

theorem reads_ident {b : Bool} {x : Text} (h : (⟨.ident, x⟩ : Lexeme).Whole) (p : Tree) :
    (Tree.ident p (.text x)).Reads b := by
  have hspells := spells_ident h p
  have hwords : (Tree.ident p (.text x)).words = [⟨.ident, x⟩] := hspells.words
  refine .of_primary (hwords ▸ hspells) rfl (.of_operand ⟨_, _, hwords, rfl⟩ ?_) fun _ =>
    NamedReads.type ⟨x, [], hwords, .nothing rfl, ?_⟩ rfl nofun
  · intro n s hroom
    rw [hwords]
    exact takes_peek_bind takes_ident
  · intro n s hroom
    refine Takes.mono (P := fun k => k ≠ .op .LBrack ∧ k ≠ .op .Period) ?_ ?_
    · refine Takes.bind_nil (takes_not_got (.nil fun k hk => hk.2) (takes_pure rfl)) ?_
      exact takes_instantiated.mono fun k hk => hk.1
    · intro k hk
      simpa [absorbs, and_comm] using hk

theorem reads_literal {b : Bool} {k : Literal} {x : Text} (h : (⟨.literal k, x⟩ : Lexeme).Whole)
    (p : Tree) : (Tree.basicLit p (.token (.literal k)) (.text x)).Reads b := by
  have hspells := spells_literal h p
  have hwords : (Tree.basicLit p (.token (.literal k)) (.text x)).words = [⟨.literal k, x⟩] :=
    hspells.words
  refine .of_primary (hwords ▸ hspells) rfl (.of_operand ⟨_, _, hwords, rfl⟩ ?_) fun htype =>
    nomatch htype
  intro n s hroom
  rw [hwords]
  exact takes_peek_bind (takes_advance_bind (takes_pure rfl))

section

variable {b c : Bool} {p x : Tree}

theorem spells_paren (hx : (x.emittedAs .expression).Spells x.words) :
    ((Tree.paren p x).emittedAs .expression).Spells
      (.ofOperator .LParen :: (x.words ++ [.ofOperator .RParen])) :=
  ((Spells.operator .LParen).append hx).append (.operator .RParen)

theorem reads_paren (hx : x.Reads c) : (Tree.paren p x).Reads b := by
  have hspells := spells_paren (p := p) hx.spells
  have hwords : (Tree.paren p x).words = _ := hspells.words
  refine .of_primary (hwords ▸ hspells) rfl (.of_operand ⟨_, _, hwords, rfl⟩ ?_) fun htype =>
    .of_here ⟨_, _, hwords, rfl⟩ nofun nofun nofun ?_
  · intro n s hroom
    rw [hwords] at hroom ⊢
    have hinner := hx.takes_bracketed (hroom.inner (by simp) (by decide) 1)
    refine takes_peek_bind (takes_advance_bind ?_)
    refine hinner.bracketed.bind (.cons (by rfl) []) ?_
    exact takes_discard_expect rfl (takes_pure (by simp))
  · intro n s hroom
    rw [hwords] at hroom ⊢
    have hinner := (hx.type htype).takes_type (hroom.inner (by simp) (by decide) 2)
    refine takes_peek_bind (.map (takes_advance_bind ?_) some)
    refine hinner.bind (.cons (absorbs_eq_false (by decide) (by decide) x) []) ?_
    exact takes_discard_expect rfl (takes_pure (by simp))

-- A type name is read as a name with perhaps a selection after it.
theorem qualified_of_isTypeName (hx : Built (.expression b) x) (hname : x.isTypeName = true) :
    ∃ z ls, x.words = ⟨.ident, z⟩ :: ls ∧ x.AfterName ls ∧ ∀ s : Scope,
      (qualified (.ident .unknownPlace (.text z))).Takes s ls x.bare
        fun k => k = .op .LBrack ∨ x.absorbs k = false := by
  cases hx with
  | @ident _ p z h =>
      refine ⟨z, [], (Spells.write h).words, .nothing rfl, fun s => ?_⟩
      refine takes_not_got (.nil ?_) (takes_pure rfl)
      rintro k hk rfl
      simp [absorbs] at hk
  | @selector _ p x sel hx _ hsel =>
      cases hsel with
      | @name q y hy =>
          cases hx with
          | @ident _ r z hz =>
              have hspells := ((Spells.write hz).append (.operator .Period)).append (.write hy)
              refine ⟨z, _, hspells.words, .point ⟨_, _, rfl, rfl⟩, fun s => takes_got_bind rfl ?_⟩
              exact takes_ident_bind (takes_pure rfl)
          | _ => cases hname
  | _ => cases hname

theorem named_of_isTypeName (hx : Built (.expression b) x) (hname : x.isTypeName = true) :
    x.NamedReads := by
  obtain ⟨z, ls, hwords, hafter, htakes⟩ := qualified_of_isTypeName hx hname
  refine ⟨z, ls, hwords, hafter, fun n s _ => ?_⟩
  refine Takes.bind_nil ((htakes s).mono fun _ => .inr) (takes_instantiated.mono ?_)
  rintro k hk rfl
  unfold isTypeName at hname
  split at hname <;> simp_all [absorbs]

-- What is written with commas between its parts, as a list of expressions is.
theorem spells_listed {α : Type} {f : α → Emission} {w : α → List Lexeme} {xs : List α}
    (h : ∀ x ∈ xs, (f x).Spells (w x)) :
    (Emission.separated "," (xs.map f)).Spells (listed (xs.map w)) := by
  cases xs with
  | nil => exact .nothing
  | cons x xs =>
      refine (Spells.separated (o := .Comma) h).of_eq ?_
      simp [listed, afterComma, List.flatMap_map]

-- What is written with semicolons between its parts.
theorem spells_sequenced {α : Type} {f : α → Emission} {w : α → List Lexeme} {xs : List α}
    (h : ∀ x ∈ xs, (f x).Spells (w x)) :
    (Emission.separated ";" (xs.map f)).Spells (sequenced (xs.map w)) := by
  cases xs with
  | nil => exact .nothing
  | cons x xs =>
      refine (Spells.separated (o := .Semicolon) h).of_eq ?_
      simp [sequenced, List.flatMap_map]

theorem spells_list {ts : List Tree} (h : ∀ t ∈ ts, (t.emittedAs .expression).Spells t.words) :
    (emittedList ts).Spells (listed (ts.map words)) :=
  spells_listed h

theorem spells_selector {q : Tree} {y : Text} (hx : (x.emittedAs .expression).Spells x.words)
    (h : (⟨.ident, y⟩ : Lexeme).Whole) :
    ((Tree.selector p x (.ident q (.text y))).emittedAs .expression).Spells
      (x.words ++ [.ofOperator .Period, ⟨.ident, y⟩]) := by
  rw [emitted_selector, Emission.append_assoc]
  exact hx.append ((Spells.operator .Period).append (.write h))

theorem reads_selector {sel : Tree} (hbuilt : Built (.expression b) x) (hx : x.Reads b)
    (hprimary : x.isPrimary = true) (hedge : x.edge (.op .Period) = false)
    (hsel : Built .name sel) : (Tree.selector p x sel).Reads b := by
  cases hsel with
  | @name q y h =>
      have hspells := spells_selector (p := p) (q := q) hx.spells h
      have hwords : (Tree.selector p x (.ident q (.text y))).words = _ := hspells.words
      refine .of_primary (hwords ▸ hspells) rfl ?_ fun htype => NamedReads.type ?_ rfl nofun
      · refine (hx.primary hprimary).step hwords hedge (by simp) fun n s hroom hfree => ?_
        refine takes_peek_bind
          (.map (?_ : ((upTo n).selectorOrAssertion x.bare).Takes _ _ _ _) some)
        refine takes_discard_expect rfl (takes_peek_bind ?_)
        rw [if_pos rfl]
        exact takes_ident_bind (takes_pure (by simp))
      · refine named_of_isTypeName (.selector hbuilt hprimary (.name h)) ?_
        cases hbuilt with
        | ident => rfl
        | _ => cases htype

-- The items after the first one in brackets, which are types.
theorem takes_otherTypes {n : Nat} {s : Scope} {m j : Nat} {others : List Tree}
    (hroom : Room (n + 1) s m j) (hj : j ≤ 3) (hlength : (afterComma (others.map words)).length ≤ m)
    (hothers : ∀ t ∈ others, t.TypeReads) :
    (afterCommas (some (.op .RBrack)) (upTo n).type).Takes s (afterComma (others.map words))
      (others.map bare) (· = .op .RBrack) := by
  have hread : ∀ t ∈ others, (upTo n).type.Takes s t.words t.bare
      fun k => k = .op .Comma ∨ k = .op .RBrack := by
    intro t ht
    have hlt := length_lt_afterComma (List.mem_map_of_mem (f := words) ht)
    refine ((hothers t ht).takes_type (hroom.inner (hlt.trans_le hlength) hj 2)).mono ?_
    rintro k (rfl | rfl) <;> exact absorbs_eq_false (by decide) (by decide) t
  refine takes_afterCommas (fun t ht => (hread t ht).mono fun _ => .inl)
    (fun t ht => (hread t (List.mem_of_getLast? ht)).mono fun _ => .inr) (fun t ht => ?_) (by simp)
  refine (hothers t ht).begins.mono ?_
  rintro k rfl hk
  have hstart : ∀ u : Tree, u.typeStart ≠ .op .RBrack := by
    intro u
    unfold typeStart
    split <;> decide
  exact hstart t (Option.some.inj hk)

-- No type begins with such a token.
theorem takes_noType {n m : Nat} {s : Scope} (hroom : Room n s m 2) (hm : 0 < m) :
    (upTo n).type?.Takes s [] none (·.beginsType = false) := by
  cases n with
  | zero => exact absurd hroom.rules (by omega)
  | succ n =>
      refine Takes.nested ?_ (hroom.admits hm (by decide))
      refine takes_peek_next (.nil fun _ h => h) fun k hk => ?_
      split <;> first | exact takes_pure rfl | cases hk

-- What is read in brackets as an expression, or as three dots.
inductive LengthReads : Tree → Prop
  | dots {p : Tree} : LengthReads (.ellipsis p .absent)
  | expression {t : Tree} (h : t.Reads true) : LengthReads t

namespace LengthReads

variable {t : Tree} {n : Nat} {s : Scope}

theorem spells_dots {p : Tree} :
    ((Tree.ellipsis p .absent).emittedAs .expression).Spells [.ofOperator .Ellipsis] :=
  (Spells.operator .Ellipsis).append .nothing

theorem takes_openLength {p : Tree} {P : TokenKind → Prop} :
    openLength.Takes s (Tree.ellipsis p .absent).words (Tree.ellipsis p .absent).bare P := by
  rw [words_of_spells spells_dots]
  exact takes_advance_bind (takes_pure (by simp))

theorem spells (h : t.LengthReads) : (t.emittedAs .expression).Spells t.words := by
  cases h with
  | dots => exact words_of_spells spells_dots ▸ spells_dots
  | expression h => exact h.spells

theorem begins (h : t.LengthReads) : Begins (· ≠ .op .RBrack) t.words := by
  cases h with
  | dots => exact ⟨_, _, words_of_spells spells_dots, by decide⟩
  | expression h =>
      refine h.begins.mono ?_
      rintro k hk rfl
      cases hk

-- The first item in brackets, whichever it is.
theorem takes_bind {β : Type} {f : Tree → Parser β} {y : β} {ms : List Lexeme}
    {Q : TokenKind → Prop} (h : t.LengthReads) (hroom : Room n s t.words.length 1)
    (hnext : Next (·.closes = true) ms Q) (hf : (f t.bare).Takes s.bracketed ms y Q) :
    (peek >>= fun k =>
      if k = .op .Ellipsis then openLength >>= f else (upTo n).expression >>= f).Takes
      s.bracketed (t.words ++ ms) y Q := by
  cases h with
  | @dots p =>
      have hbegins : Begins (· = .op .Ellipsis) (Tree.ellipsis p .absent).words :=
        ⟨_, _, words_of_spells spells_dots, rfl⟩
      refine takes_peek_next (hbegins.append ms).next fun k hk => ?_
      rw [if_pos hk]
      exact takes_openLength.bind hnext hf
  | expression h =>
      refine takes_peek_next (h.begins.append ms).next fun k hk => ?_
      rw [if_neg (by rintro rfl; cases hk)]
      exact (h.takes_bracketed hroom).bind hnext hf

end LengthReads

-- The items in brackets after a name.
theorem takes_bracketItems {n : Nat} {s : Scope} {m : Nat} {first : Tree} {others : List Tree}
    (hroom : Room (n + 1) s m 3)
    (hlength : first.words.length + (afterComma (others.map words)).length < m)
    (hfirst : first.LengthReads) (hothers : ∀ t ∈ others, t.TypeReads) :
    (upTo n).bracketItems.Takes s (first.words ++ afterComma (others.map words))
      ((first :: others).map bare) (· = .op .RBrack) := by
  refine takes_peek_next (hfirst.begins.append _).next fun k hk => ?_
  rw [if_neg hk]
  have hothers' := takes_otherTypes hroom.bracketed (by decide) (by omega) hothers
  refine Takes.bracketed (hfirst.takes_bind (hroom.inner (by omega) (by decide) 1)
    ((next_afterComma _).mono ?_) (hothers'.bind_nil (takes_pure rfl)))
  rintro k (rfl | rfl) <;> rfl

-- A name with several items in brackets, or with one if no type follows.
theorem takes_instance {n : Nat} {s : Scope} {m : Nat} {first x : Tree} {others : List Tree}
    (hroom : Room (n + 1) s m 3)
    (hlength : first.words.length + (afterComma (others.map words)).length < m)
    (hfirst : first.LengthReads) (hothers : ∀ t ∈ others, t.TypeReads) :
    ((upTo n).arrayOrInstance x).Takes s
      (.ofOperator .LBrack ::
        (first.words ++ afterComma (others.map words) ++ [.ofOperator .RBrack]))
      (none, .index x.placeOf x (.tuple ((first :: others).map bare)))
      (·.beginsType = false) := by
  have hitems := takes_bracketItems hroom hlength hfirst hothers
  refine takes_expect_bind rfl (hitems.bind (.cons (by rfl) []) (takes_discard_expect rfl ?_))
  cases others with
  | nil =>
      have hnone := takes_noType (hroom.inner (by omega) (by decide) 2) hfirst.begins.length_pos
      exact hnone.bind_nil (takes_pure rfl)
  | cons u us => exact takes_pure rfl

theorem takes_indices {n : Nat} {s : Scope} {m : Nat} {first : Tree} {others : List Tree}
    (hroom : Room (n + 1) s m 2)
    (hlength : first.words.length + (afterComma (others.map words)).length < m)
    (hfirst : first.Reads true) (hothers : ∀ t ∈ others, t.TypeReads) :
    (upTo n).bracketContents.Takes s (first.words ++ afterComma (others.map words))
      (.indices ((first :: others).map bare)) (· = .op .RBrack) := by
  refine Takes.bracketed (takes_peek_next (hfirst.begins.append _).next fun k hk => ?_)
  rw [if_neg (by rintro rfl; cases hk)]
  have hfirst' := hfirst.takes_bracketed (hroom.inner (by omega) (by decide) 1)
  have hothers' := takes_otherTypes hroom.bracketed (by decide) (by omega) hothers
  refine hfirst'.bind ((next_afterComma _).mono ?_) (takes_not_got ((next_afterComma _).mono ?_)
    (hothers'.bind_nil (takes_pure rfl)))
  · rintro k (rfl | rfl) <;> rfl
  · rintro k (rfl | rfl) <;> decide

theorem spells_index {ts : List Tree} (hx : (x.emittedAs .expression).Spells x.words)
    (hts : ∀ t ∈ ts, (t.emittedAs .expression).Spells t.words) :
    ((Tree.index p x (.tuple ts)).emittedAs .expression).Spells
      (x.words ++ .ofOperator .LBrack :: (listed (ts.map words) ++ [.ofOperator .RBrack])) := by
  rw [emitted_index]
  exact (((hx.append (.operator _)).append (spells_list hts)).append (.operator _)).of_eq (by simp)

-- A name with brackets after it, whatever stands first in them.
theorem instanceReads_index {q : Tree} {z : Text} {first : Tree} {others : List Tree}
    (hz : (⟨.ident, z⟩ : Lexeme).Whole) (hfirst : first.LengthReads)
    (hothers : ∀ t ∈ others, t.TypeReads)
    (hspells : ∀ t ∈ others, (t.emittedAs .expression).Spells t.words) :
    (Tree.index p (.ident q (.text z)) (.tuple (first :: others))).InstanceReads := by
  have hident := words_of_spells (spells_ident hz q)
  have hwords := words_of_spells (spells_index (p := p) (hident ▸ spells_ident hz q)
    (List.forall_mem_cons.mpr ⟨hfirst.spells, hspells⟩))
  rw [hident, List.map_cons, listed] at hwords
  refine ⟨z, _, hwords, .cons (by rfl) _, fun n s hroom => ?_⟩
  rw [hwords] at hroom
  have hread := takes_instance (x := Tree.ident .unknownPlace (.text z)) hroom
    (by simp; omega) hfirst hothers
  have hplace : (Tree.ident .unknownPlace (.text z)).placeOf = .unknownPlace := rfl
  simpa [hplace] using hread

theorem reads_index {first : Tree} {others : List Tree} (hbuilt : Built (.expression b) x)
    (hx : x.Reads b) (hprimary : x.isPrimary = true) (hedge : x.edge (.op .LBrack) = false)
    (hfirst : first.Reads true) (hothers : ∀ t ∈ others, t.Reads true)
    (htypes : ∀ t ∈ others, t.isType = true) :
    (Tree.index p x (.tuple (first :: others))).Reads b := by
  have hothers' : ∀ t ∈ others, t.TypeReads := fun t ht => (hothers t ht).type (htypes t ht)
  have hspells := spells_index (p := p) hx.spells (List.forall_mem_cons.mpr
    ⟨hfirst.spells, fun t ht => (hothers t ht).spells⟩)
  rw [List.map_cons, listed] at hspells
  have hwords : (Tree.index p x (.tuple (first :: others))).words = _ := hspells.words
  refine .of_primary (hwords ▸ hspells) rfl ?_ fun htype => NamedReads.type ?_ rfl fun hindexed => ?_
  · refine (hx.primary hprimary).step hwords hedge (by simp) fun n s hroom hfree => ?_
    rw [hwords] at hroom
    refine takes_peek_bind
      (.map (?_ : ((upTo n).indexOrSlice x.bare).Takes _ _ _ _) some)
    refine takes_discard_expect rfl (takes_peek_next ((hfirst.begins.append _).append _).next ?_)
    intro k hk
    rw [if_neg (by rintro rfl; cases hk)]
    refine (takes_indices hroom (by simp; omega) hfirst hothers').bind (.cons (by rfl) []) ?_
    exact takes_discard_expect rfl (takes_pure (by simp))
  · have hname : x.isTypeName = true ∧ areTypes (first :: others) = true := by
      simpa [isType] using htype
    have hfirstType : first.isType = true := by
      simp only [areTypes, Bool.and_eq_true] at hname
      exact hname.2.1
    obtain ⟨z, ls, hxwords, hafter, htakes⟩ := qualified_of_isTypeName hbuilt hname.1
    rw [hxwords] at hwords
    refine ⟨z, _, hwords, ?_, fun n s hroom => ?_⟩
    · cases hafter with
      | nothing hident =>
          exact .brackets (by cases hbuilt <;> first | rfl | cases hident) (.cons (by rfl) _)
      | brackets hindexed =>
          unfold isIndexed at hindexed
          split at hindexed <;> first | cases hname.1 | cases hindexed
      | point hls => exact .point (hls.append _)
    rw [hwords] at hroom
    have hroom' : Room n s first.words.length 2 := hroom.inner (by simp; omega) (by decide) 2
    have hfirst' := (hfirst.type hfirstType).takes_type hroom'
    have hothers'' := takes_otherTypes hroom (by decide) (by simp; omega) hothers'
    refine (htakes s).bind (.cons (.inl rfl) _) (takes_peek_bind ?_)
    rw [if_pos (Lexeme.kind_ofOperator _), List.append_assoc]
    refine takes_discard_expect rfl (hfirst'.bind ?_ ?_)
    · refine Next.afterComma (.cons ?_ []) ?_ _
      · exact absorbs_eq_false (by decide) (by decide) first
      · exact absorbs_eq_false (by decide) (by decide) first
    · exact hothers''.bind (.cons (by rfl) []) (takes_discard_expect rfl (takes_pure (by simp)))
  · cases hbuilt with
    | ident hz =>
        exact instanceReads_index hz (.expression hfirst) hothers' fun t ht => (hothers t ht).spells
    | _ => cases hindexed

theorem Reads.isAbsent (h : x.Reads b) : x.isAbsent = false := by
  unfold Tree.isAbsent
  split
  · cases h.spells.fault
  · rfl

-- A part that may be left out.
theorem spells_optional {o : Option Tree} (f : Tree → Emission) {w : Tree → List Lexeme}
    (habsent : ∀ t ∈ o, t.isAbsent = false) (h : ∀ t ∈ o, (f t).Spells (w t)) :
    ((ofOption o).emittedIf (f (.ofOption o))).Spells (o.elim [] w) := by
  cases o with
  | none => exact .nothing
  | some t =>
      have hif : (ofOption (some t)).emittedIf (f (.ofOption (some t))) = f t := by
        simp [emittedIf, ofOption, habsent t rfl, Emission.when]
      rw [hif]
      exact h t rfl

-- A bound of a slice, which may be left out.
def boundWords (o : Option Tree) : List Lexeme := o.elim [] words

theorem takes_sliceBound {n : Nat} {s : Scope} {m : Nat} {o : Option Tree}
    (hroom : Room (n + 1) s m 2) (hlength : (boundWords o).length < m)
    (ho : ∀ t ∈ o, t.Reads true) :
    (upTo n).sliceBound.Takes s.bracketed (boundWords o) (o.map bare)
      fun k => k = .op .Colon ∨ k = .op .RBrack := by
  cases o with
  | none =>
      refine takes_peek_next (.nil fun _ h => h) ?_
      rintro k (rfl | rfl) <;> exact takes_pure rfl
  | some t =>
      have ht := ho t rfl
      refine takes_peek_next ht.begins.next fun k hk => ?_
      have hbound := (ht.takes_bracketed (hroom.inner hlength (by decide) 1)).map some
      split
      · cases hk
      · cases hk
      · cases hk
      · refine hbound.mono ?_
        rintro k (rfl | rfl) <;> rfl

-- The largest bound with the colon before it.
def maxWords (o : Option Tree) : List Lexeme := o.elim [] fun t => .ofOperator .Colon :: t.words

-- What is read for the bounds of a slice.
def sliceContents (low high max : Option Tree) : Brackets :=
  max.elim (.slice low high) fun t => .fullSlice low high (some t)

theorem takes_sliceRest {n : Nat} {s : Scope} {m : Nat} {high max : Option Tree}
    (hroom : Room (n + 1) s m 2) (hlength : (boundWords high).length + (maxWords max).length < m)
    (hhigh : ∀ t ∈ high, t.Reads true) (hmax : ∀ t ∈ max, t.Reads true) (low : Option Tree) :
    ((upTo n).bracketsAfter low).Takes s.bracketed
      (.ofOperator .Colon :: (boundWords high ++ maxWords max))
      (sliceContents low (high.map bare) (max.map bare)) (· = .op .RBrack) := by
  have hhigh' := takes_sliceBound hroom (by omega) hhigh
  refine takes_got_bind rfl (hhigh'.bind ?_ ?_)
  · cases max with
    | none => exact .nil fun _ => .inr
    | some t => exact .cons (.inl rfl) _
  · cases max with
    | none => exact takes_not_got (.nil fun k hk => by simp [hk]) (takes_pure rfl)
    | some t =>
        have hmax' := takes_sliceBound hroom (o := some t) (by
          simp only [maxWords, boundWords, Option.elim, List.length_cons] at hlength ⊢
          omega) hmax
        exact takes_got_bind rfl ((hmax'.mono fun _ => .inr).bind_nil (takes_pure rfl))

theorem takes_slice {n : Nat} {s : Scope} {m : Nat} {low high max : Option Tree}
    (hroom : Room (n + 1) s m 2)
    (hlength : (boundWords low).length + (boundWords high).length + (maxWords max).length < m)
    (hlow : ∀ t ∈ low, t.Reads true) (hhigh : ∀ t ∈ high, t.Reads true)
    (hmax : ∀ t ∈ max, t.Reads true) :
    (upTo n).bracketContents.Takes s
      (boundWords low ++ .ofOperator .Colon :: (boundWords high ++ maxWords max))
      (sliceContents (low.map bare) (high.map bare) (max.map bare)) (· = .op .RBrack) := by
  have hrest := takes_sliceRest hroom (by omega) hhigh hmax
  refine Takes.bracketed ?_
  cases low with
  | none =>
      refine takes_peek_bind ?_
      rw [if_pos (Lexeme.kind_ofOperator _)]
      exact hrest none
  | some t =>
      have ht := hlow t rfl
      have hroom' : Room n s t.words.length 1 :=
        hroom.inner (by simp only [boundWords, Option.elim] at hlength; omega) (by decide) 1
      refine takes_peek_next (ht.begins.append _).next fun k hk => ?_
      rw [if_neg (by rintro rfl; cases hk)]
      exact (ht.takes_bracketed hroom').bind (.cons (by rfl) _) (hrest _)

theorem spells_slice {low high max : Option Tree} (hx : (x.emittedAs .expression).Spells x.words)
    (hlow : ∀ t ∈ low, t.Reads b) (hhigh : ∀ t ∈ high, t.Reads b) (hmax : ∀ t ∈ max, t.Reads b) :
    ((Tree.slice p x (.ofOption low) (.ofOption high) (.ofOption max)).emittedAs .expression).Spells
      (x.words ++ .ofOperator .LBrack ::
        (boundWords low ++ .ofOperator .Colon :: (boundWords high ++ maxWords max) ++
          [.ofOperator .RBrack])) := by
  have hlow' := spells_optional (·.emittedAs .expression) (fun t ht => (hlow t ht).isAbsent)
    fun t ht => (hlow t ht).spells
  have hhigh' := spells_optional (·.emittedAs .expression) (fun t ht => (hhigh t ht).isAbsent)
    fun t ht => (hhigh t ht).spells
  have hmax' := spells_optional (fun t => .operator .Colon ++ t.emittedAs .expression)
    (fun t ht => (hmax t ht).isAbsent) fun t ht => (Spells.operator _).append (hmax t ht).spells
  rw [emitted_slice]
  exact ((((((hx.append (.operator _)).append hlow').append (.operator _)).append
    hhigh').append hmax').append (.operator _)).of_eq (by simp [boundWords, maxWords])

theorem reads_slice {low high max : Option Tree} (hx : x.Reads b) (hprimary : x.isPrimary = true)
    (hedge : x.edge (.op .LBrack) = false) (hlow : ∀ t ∈ low, t.Reads true)
    (hhigh : ∀ t ∈ high, t.Reads true) (hmax : ∀ t ∈ max, t.Reads true)
    (hfull : max.isSome = true → high.isSome = true) :
    (Tree.slice p x (.ofOption low) (.ofOption high) (.ofOption max)).Reads b := by
  have hspells := spells_slice (p := p) hx.spells hlow hhigh hmax
  have hwords : (Tree.slice p x (.ofOption low) (.ofOption high) (.ofOption max)).words = _ :=
    hspells.words
  refine .of_primary (hwords ▸ hspells) rfl ?_ nofun
  refine (hx.primary hprimary).step hwords hedge (by simp) fun n s hroom hfree => ?_
  rw [hwords] at hroom
  have hcontents := takes_slice hroom (by simp; omega) hlow hhigh hmax
  have hbegins : Begins (· ≠ .op .RBrack)
      (boundWords low ++ .ofOperator .Colon :: (boundWords high ++ maxWords max)) := by
    cases low with
    | none => exact .cons (by decide) _
    | some t =>
        refine ((hlow t rfl).begins.append _).mono ?_
        rintro k hk rfl
        cases hk
  refine takes_peek_bind
    (.map (?_ : ((upTo n).indexOrSlice x.bare).Takes _ _ _ _) some)
  refine takes_discard_expect rfl (takes_peek_next (hbegins.append _).next fun k hk => ?_)
  rw [if_neg hk]
  refine hcontents.bind (.cons (by rfl) []) (takes_discard_expect rfl ?_)
  cases max with
  | none => exact takes_pure (by simp)
  | some t =>
      cases high with
      | none => cases hfull rfl
      | some u => exact takes_pure (by simp)

-- Three dots after the last argument.
def dots (spread : Bool) : List Lexeme := if spread then [.ofOperator .Ellipsis] else []

theorem takes_arguments {n : Nat} {s : Scope} {m : Nat} {args : List Tree} {spread : Bool}
    (hroom : Room (n + 1) s m 2) (hlength : (listed (args.map words)).length < m)
    (hargs : ∀ t ∈ args, t.Reads true) (hspread : spread = true → args ≠ []) :
    (ahead >>= (upTo n).argumentsWithin).Takes s.bracketed (listed (args.map words) ++ dots spread)
      (args.map bare, spread) (· = .op .RParen) := by
  refine takes_ahead_bind fun rounds hrounds => ?_
  induction args generalizing rounds with
  | nil =>
      obtain rfl : spread = false := by simpa using hspread
      cases rounds with
      | nil => exact takes_pure rfl
      | cons r rounds =>
          refine takes_peek_next (.nil fun _ h => h) ?_
          rintro k rfl
          exact takes_pure rfl
  | cons t ts ih =>
      obtain ⟨ht, hts⟩ := List.forall_mem_cons.mp hargs
      have hpos := ht.begins.length_pos
      rw [List.map_cons, listed] at hlength hrounds ⊢
      simp only [List.length_append] at hlength hrounds
      have ht' := ht.takes_bracketed (hroom.inner (by omega) (by decide) 1)
      cases rounds with
      | nil =>
          simp only [List.length_nil] at hrounds
          omega
      | cons r rounds =>
          rw [List.append_assoc]
          refine takes_peek_next (ht.begins.append _).next fun k hk => ?_
          split
          · cases hk
          · cases hk
          cases ts with
          | nil =>
              cases spread with
              | false =>
                  refine ht'.bind (.nil ?_) (takes_not_got (.nil ?_) (takes_not_got (.nil ?_)
                    (takes_pure rfl)))
                  · rintro k rfl
                    rfl
                  · rintro k rfl
                    decide
                  · rintro k rfl
                    decide
              | true =>
                  refine ht'.bind (.cons (by rfl) []) (takes_got_bind rfl (takes_not_got (.nil ?_)
                    (takes_pure rfl)))
                  rintro k rfl
                  decide
          | cons u us =>
              have hothers := ih (by
                simp only [List.map_cons, afterComma_cons, listed, List.length_cons,
                  List.length_append] at hlength ⊢
                omega) hts (by simp) rounds (by
                simp only [List.map_cons, afterComma_cons, listed, List.length_cons,
                  List.length_append] at hrounds ⊢
                omega)
              rw [List.map_cons, afterComma_cons]
              refine ht'.bind (.cons (by rfl) _) (takes_not_got (.cons (by decide) _)
                (takes_got_bind rfl ?_))
              exact hothers.bind_nil (takes_pure rfl)

theorem spells_call {args : List Tree} (hx : (x.emittedAs .expression).Spells x.words)
    (hargs : ∀ t ∈ args, (t.emittedAs .expression).Spells t.words) (spread : Bool) :
    ((Tree.call p x (.tuple args) (.flag spread)).emittedAs .expression).Spells
      (x.words ++ .ofOperator .LParen ::
        (listed (args.map words) ++ dots spread ++ [.ofOperator .RParen])) := by
  have hdots : (Emission.when spread (.operator .Ellipsis)).Spells (dots spread) := by
    cases spread with
    | false => exact .nothing
    | true => exact .operator _
  rw [emitted_call]
  exact ((((hx.append (.operator _)).append (spells_list hargs)).append hdots).append
    (.operator _)).of_eq (by simp)

theorem reads_call {args : List Tree} {spread : Bool} (hx : x.Reads b)
    (hprimary : x.isPrimary = true) (hedge : x.edge (.op .LParen) = false)
    (hargs : ∀ t ∈ args, t.Reads true) (hspread : spread = true → args ≠ []) :
    (Tree.call p x (.tuple args) (.flag spread)).Reads b := by
  have hspells := spells_call (p := p) hx.spells (fun t ht => (hargs t ht).spells) spread
  have hwords : (Tree.call p x (.tuple args) (.flag spread)).words = _ := hspells.words
  refine .of_primary (hwords ▸ hspells) rfl ?_ nofun
  refine (hx.primary hprimary).step hwords hedge (by simp) fun n s hroom hfree => ?_
  rw [hwords] at hroom
  have harguments := takes_arguments hroom (by simp; omega) hargs hspread
  refine takes_peek_bind (.map (?_ : ((upTo n).call x.bare).Takes _ _ _ _) some)
  refine takes_discard_expect rfl (harguments.bracketed.bind (.cons (by rfl) []) ?_)
  exact takes_discard_expect rfl (takes_pure (by simp))

theorem spells_after (hx : (x.emittedAs .expression).Spells x.words) (o : Operator) :
    (x.emittedAfter o).Spells (.ofOperator o :: x.words) :=
  ((Spells.operator o).append (.blank _)).append hx

theorem spells_unary {o : Operator} (hx : (x.emittedAs .expression).Spells x.words) :
    ((Tree.unary p (.token (.op o)) x).emittedAs .expression).Spells (.ofOperator o :: x.words) :=
  spells_after hx o

theorem spells_star (hx : (x.emittedAs .expression).Spells x.words) :
    ((Tree.star p x).emittedAs .expression).Spells (.ofOperator .Mul :: x.words) :=
  spells_after hx .Mul

-- What is read after an operator that stands before it.
theorem Reads.takes_unary {y : Tree} {n : Nat} {s : Scope} {l : Lexeme} (hx : x.Reads b)
    (hbinary : x.is .BinaryExpr = false) (hroom : Room (n + 1) s (l :: x.words).length 2)
    (hfree : b = true → s.isFree = true) (hbrace : y.takesBrace = x.takesBrace)
    (hedge : ∀ k, y.edge k = x.edge k) :
    (upTo n).unary.Takes s x.words x.bare (y.Stops s) := by
  refine (hx.unary hbinary (hroom.inner (by simp) (by decide) 1) hfree).mono fun k hk => ?_
  exact ⟨hk.continues, fun h => hbrace ▸ hk.brace h, hedge k ▸ hk.edge⟩

-- A tree that begins with an operator is read one level deeper.
theorem UnaryReads.of_here {t : Tree} (hpos : 0 < t.words.length)
    (h : ∀ ⦃n : Nat⦄ ⦃s : Scope⦄, Room (n + 1) s t.words.length 2 → (b = true → s.isFree = true) →
      (upTo n).unaryHere.Takes s t.words t.bare (t.Stops s)) : t.UnaryReads b := by
  intro n s hroom hfree
  cases n with
  | zero => exact absurd hroom.rules (by omega)
  | succ n =>
      refine ((h (hroom.deeper hpos (by decide)) hfree).mono ?_).nested
        (hroom.admits hpos (by decide))
      exact fun k hk => ⟨hk.continues, hk.brace, hk.edge⟩

theorem reads_unary {o : Operator} (ho : o.isPrefix = true) (hx : x.Reads b)
    (hbinary : x.is .BinaryExpr = false) (hchan : o = .Arrow → x.is .ChanType = false) :
    (Tree.unary p (.token (.op o)) x).Reads b := by
  have hspells := spells_unary (p := p) (o := o) hx.spells
  have hwords : (Tree.unary p (.token (.op o)) x).words = _ := hspells.words
  refine .of_unary (hwords ▸ hspells) ⟨_, _, hwords, ?_⟩ rfl rfl (.of_here (by simp [hwords]) ?_)
    nofun
  · cases o <;> first | rfl | cases ho
  · intro n s hroom hfree
    rw [hwords] at hroom ⊢
    have hread := hx.takes_unary (y := Tree.unary p (.token (.op o)) x) hbinary hroom hfree rfl
      fun _ => rfl
    refine takes_current_bind ?_
    by_cases hunary : isUnary (Lexeme.ofOperator o).bare.kind = true
    · rw [if_pos hunary]
      exact takes_discard_advance (hread.bind_nil (takes_pure (by simp)))
    · rw [if_neg hunary]
      simp only [Lexeme.toLexeme_bare, Lexeme.kind_ofOperator] at hunary
      obtain rfl : o = .Arrow := by simpa [Operator.isPrefix, hunary] using ho
      refine takes_discard_advance (hread.bind_nil ?_)
      rw [if_neg (by simp [hchan rfl])]
      exact takes_pure (by simp)

theorem reads_star (hx : x.Reads b) (hbinary : x.is .BinaryExpr = false) :
    (Tree.star p x).Reads b := by
  have hspells := spells_star (p := p) hx.spells
  have hwords : (Tree.star p x).words = _ := hspells.words
  refine .of_unary (hwords ▸ hspells) ⟨_, _, hwords, rfl⟩ rfl rfl (.of_here (by simp [hwords]) ?_)
    fun htype => .of_here ⟨_, _, hwords, rfl⟩ nofun nofun nofun ?_
  · intro n s hroom hfree
    rw [hwords] at hroom ⊢
    have hread := hx.takes_unary (y := Tree.star p x) hbinary hroom hfree rfl fun _ => rfl
    exact takes_current_bind (takes_discard_advance (hread.bind_nil (takes_pure (by simp))))
  · intro n s hroom
    rw [hwords] at hroom ⊢
    have hread := (hx.type htype).takes_type (hroom.inner (by simp) (by decide) 2)
    refine takes_peek_bind (.map (takes_advance_bind (hread.bind_nil ?_)) some)
    exact takes_pure (by simp)

-- An operator between two sides is read after the first of them.
theorem stops_of_precedence {o : Operator} (ho : 0 < o.precedence) (hedge : x.edge (.op o) = false)
    (s : Scope) : x.Stops s (.op o) := by
  refine ⟨?_, ?_, hedge⟩
  · cases o <;> first | rfl | exact absurd ho (by decide)
  · intro h
    cases h
    exact absurd ho (by decide)

theorem Reads.takes_right {y : Tree} {n : Nat} {s : Scope} {o : Operator} {least : Nat}
    (hy : y.Reads b) (hroom : Room (n + 1) s (.ofOperator o :: y.words).length 1)
    (hfree : b = true → s.isFree = true) (hleast : least ≤ o.precedence)
    (hright : o.precedence < y.precedence) (x : Tree) :
    ((upTo n).binaryStep least x.bare).Takes s (.ofOperator o :: y.words)
      (some (Tree.binary p x (.token (.op o)) y).bare)
      fun k => k.precedence ≤ o.precedence ∧ y.Stops s k := by
  have hnot : ¬(Lexeme.ofOperator o).kind.precedence < least := Nat.not_lt.mpr hleast
  refine takes_peek_bind ?_
  rw [if_neg hnot]
  have hread := hy.takes_binary (hroom.inner (by simp) (by decide) 1) hfree hright
  refine takes_discard_advance ((hread.mono fun k hk => ?_).bind_nil (takes_pure (by simp)))
  exact ⟨Nat.lt_succ_of_le hk.1, hk.2⟩

theorem spells_binary {y : Tree} {o : Operator} (hx : (x.emittedAs .expression).Spells x.words)
    (hy : (y.emittedAs .expression).Spells y.words) :
    ((Tree.binary p x (.token (.op o)) y).emittedAs .expression).Spells
      (x.words ++ .ofOperator o :: y.words) := by
  rw [emitted_binary]
  exact hx.append (spells_after hy o)

theorem reads_binary {y : Tree} {o : Operator} (ho : 0 < o.precedence) (hx : x.Reads b)
    (hy : y.Reads b) (hleft : o.precedence ≤ x.precedence) (hright : o.precedence < y.precedence)
    (hedge : x.edge (.op o) = false) : (Tree.binary p x (.token (.op o)) y).Reads b := by
  have hspells := spells_binary (p := p) (o := o) hx.spells hy.spells
  have hwords : (Tree.binary p x (.token (.op o)) y).words = _ := hspells.words
  refine ⟨hwords ▸ hspells, ?_, ho, ?_, nofun, nofun, nofun⟩
  · rw [hwords]
    exact hx.begins.append _
  · intro n s least l rest hroom hfree hleast hl hstops
    rw [hwords] at hroom ⊢
    obtain ⟨u, ls, hu, hclimbs⟩ := hx.binary (l := .ofOperator o) (y.words ++ l :: rest)
      (hroom.mono (by simp)) hfree (hleast.trans hleft) hleft (stops_of_precedence ho hedge s)
    have hstep := hy.takes_right (p := p) (hroom.mono (by simp)) hfree hleast hright x l rest
      ⟨hl, hstops.continues, hstops.brace, hstops.edge⟩
    rw [List.append_assoc]
    refine ⟨u, ls, hu, hclimbs.snoc hstep ?_⟩
    simp only [List.length_cons, List.length_append]
    omega

end

end Tree

end GoCompact
