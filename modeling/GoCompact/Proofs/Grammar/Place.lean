import GoCompact.Proofs.Grammar.Simple
import GoCompact.Proofs.Grammar.Sound.Fragment
import GoCompact.Proofs.Grammar.Variable
import GoCompact.Layout.Adjacency

namespace GoCompact

open GoCompact.Parser

namespace Tree

-- Whether what is written first is a channel type to receive from.
def beginsReceiving (t : Tree) : Bool :=
  match t.leftmost with
  | .chanType _ (.direction .receive) _ => true
  | _ => false

-- A tree at a place that does not begin with a channel type to receive from.
def StandsAt (t p : Tree) : Prop := t.placeOf = p ∧ t.beginsReceiving = false

section

variable {p q x y z w : Tree}

@[simp]
theorem beginsReceiving_binary : (binary p x y z).beginsReceiving = x.beginsReceiving := rfl

@[simp]
theorem beginsReceiving_selector : (selector p x y).beginsReceiving = x.beginsReceiving := rfl

@[simp]
theorem beginsReceiving_index : (index p x y).beginsReceiving = x.beginsReceiving := rfl

@[simp]
theorem beginsReceiving_slice : (slice p x y z w).beginsReceiving = x.beginsReceiving := rfl

@[simp]
theorem beginsReceiving_typeAssert : (typeAssert p x y).beginsReceiving = x.beginsReceiving := rfl

@[simp]
theorem beginsReceiving_call : (call p x y z).beginsReceiving = x.beginsReceiving := rfl

-- A literal begins with its type, if that is an expression.
theorem beginsReceiving_compositeLit (h : x.beginsReceiving = false) :
    (compositeLit p x y).beginsReceiving = false := by
  by_cases htype : x.kind?.any NodeKind.isExpression = true
  · simpa [beginsReceiving, leftmost_compositeLit, htype] using h
  · simp [beginsReceiving, leftmost_compositeLit, htype]

end

end Tree

namespace Grammar

open GoCompact.Tree

variable {g : Grammar} {s : Scope} {t x : Tree} {c c' : Cursor} {p : Tree}

section Types

variable {name typ : Tree}

theorem qualified_stands (h : name.StandsAt p) : (qualified name).Yields s (·.StandsAt p) :=
  .skip fun _ => .ite (fun _ => .skip fun _ => .pure ⟨h.1, by simp [h.2]⟩) fun _ => .pure h

theorem instantiated_stands (h : typ.StandsAt p) : (g.instantiated typ).Yields s (·.StandsAt p) :=
  .skip fun _ => .ite
    (fun _ => .skip fun _ => .skip fun _ => .skip fun _ => .skip fun _ =>
      .pure ⟨h.1, by simp [h.2]⟩)
    fun _ => .pure h

theorem namedType_stands (h : name.StandsAt p) : (g.namedType name).Yields s (·.StandsAt p) :=
  (qualified_stands h).bind fun _ hname => instantiated_stands hname

theorem arrayType_stands : (g.arrayType p).Yields s (·.StandsAt p) :=
  .skip fun _ => .skip fun _ => .skip fun _ => .pure ⟨rfl, rfl⟩

theorem signature_stands {funcKeyword : Bool} :
    (g.signature p funcKeyword).Yields s (·.StandsAt p) :=
  .skip fun _ => .skip fun _ => .pure ⟨rfl, rfl⟩

end Types

theorem ident_stands (h : ident.Gives s c t c') : t.StandsAt c.current.place := by
  simp only [ident, gives_peek_bind] at h
  split at h
  · rw [gives_advance_bind] at h
    obtain ⟨rfl, -⟩ := gives_pure.mp h
    exact ⟨rfl, rfl⟩
  · exact absurd h gives_expected

-- A rule that begins with a token and gives a tree at its place.
theorem stands_of_expect {kind : TokenKind} {f : Token → Parser Tree}
    (hf : ∀ t : Token, (f t).Yields s (·.StandsAt t.place)) (h : (expect kind >>= f).Gives s c t c') :
    t.StandsAt c.current.place :=
  hf _ (gives_expect_bind.mp h).2

theorem stands_of_advance {f : Token → Parser Tree}
    (hf : ∀ t : Token, (f t).Yields s (·.StandsAt t.place)) (h : (advance >>= f).Gives s c t c') :
    t.StandsAt c.current.place :=
  hf _ (gives_advance_bind.mp h)

theorem chanType_place (h : g.chanType.Gives s c t c') : t.placeOf = c.current.place := by
  have hrest : ∀ f : Direction → Tree → Tree, (∀ d v, (f d v).placeOf = c.current.place) →
      (chanDirection >>= fun d => g.type >>= fun v => pure (f d v)).Yields s
        (·.placeOf = c.current.place) :=
    fun f hf => .skip fun d => .skip fun v => .pure (hf d v)
  exact hrest _ (fun _ _ => rfl) (gives_current_bind.mp h)

-- The type that begins with a token stands where it does. Only an arrow begins a channel type to receive
-- from.
theorem typeHere_stands (hkind : c.current.kind ≠ .op .Arrow)
    (h : g.typeHere.Gives s c (some t) c') : t.StandsAt c.current.place := by
  simp only [typeHere, gives_peek_bind] at h
  split at h <;> rename_i hstart
  all_goals try obtain ⟨u, h, ⟨⟩⟩ := gives_map.mp h
  · obtain ⟨name, d, hname, h⟩ := gives_bind.mp h
    exact namedType_stands (ident_stands hname) h
  · exact stands_of_advance (fun _ => arrayType_stands) h
  · exact stands_of_expect
      (fun _ => .skip fun _ => .skip fun _ => .skip fun _ => .pure ⟨rfl, rfl⟩) h
  · exact stands_of_advance (fun _ => .skip fun _ => .pure ⟨rfl, rfl⟩) h
  · exact stands_of_advance (fun _ => signature_stands) h
  · exact stands_of_expect
      (fun _ => .skip fun _ => .skip fun _ => .skip fun _ => .pure ⟨rfl, rfl⟩) h
  · exact stands_of_expect (fun _ => .skip fun _ => .skip fun _ => .skip fun _ => .skip fun _ =>
      .pure ⟨rfl, rfl⟩) h
  · obtain ⟨d, e, hd, h⟩ := gives_bind.mp (gives_current_bind.mp h)
    obtain ⟨v, e', -, h⟩ := gives_bind.mp h
    obtain ⟨rfl, -⟩ := gives_pure.mp h
    refine ⟨rfl, ?_⟩
    have hreceive : d ≠ .receive := by
      rintro rfl
      simp [chanDirection, hstart] at hd
    cases d with
    | receive => contradiction
    | _ => rfl
  · contradiction
  · exact stands_of_advance (fun _ => .skip fun _ => .skip fun _ => .pure ⟨rfl, rfl⟩) h
  · simp at h

-- In type position every type stands where its first token does.
theorem typeRule_place (h : g.typeRule.Gives s c t c') : t.placeOf = c.current.place := by
  obtain ⟨o, d, ho, h⟩ := gives_bind.mp h
  cases o with
  | none => exact absurd h gives_expected
  | some u =>
      obtain ⟨rfl, rfl⟩ := gives_pure.mp h
      have hhere := (gives_nested.mp ho).2
      by_cases hkind : c.current.kind = .op .Arrow
      · simp only [typeHere, gives_peek_bind, hkind] at hhere
        obtain ⟨v, hv, ⟨⟩⟩ := gives_map.mp hhere
        exact chanType_place hv
      · exact (typeHere_stands hkind hhere).1

theorem operand_stands (hkind : c.current.kind ≠ .op .Arrow) (h : g.operand.Gives s c t c') :
    t.StandsAt c.current.place := by
  simp only [operand, gives_peek_bind] at h
  split at h
  · exact ident_stands h
  · exact stands_of_advance (fun _ => .pure ⟨rfl, rfl⟩) h
  · exact stands_of_advance (fun _ => .skip fun _ => .skip fun _ => .pure ⟨rfl, rfl⟩) h
  · refine stands_of_expect (fun _ => signature_stands.bind fun _ htyp => ?_) h
    exact .skip fun _ => .ite (fun _ => .skip fun _ => .pure ⟨rfl, rfl⟩) fun _ => .pure htyp
  · obtain ⟨o, d, ho, h⟩ := gives_bind.mp h
    cases o with
    | none => exact absurd h gives_expected
    | some u =>
        obtain ⟨rfl, rfl⟩ := gives_pure.mp h
        exact typeHere_stands hkind (gives_nested.mp ho).2

-- What follows an operand leaves it where it is.
theorem selectorOrAssertion_stands (h : x.StandsAt p) :
    (g.selectorOrAssertion x).Yields s (·.StandsAt p) := by
  refine .skip fun _ => .skip fun _ => .ite (fun _ => .skip fun _ => .pure ⟨h.1, by simp [h.2]⟩)
    fun _ => .skip fun _ => .ite (fun _ => ?_) fun _ => .expected
  exact .skip fun _ => .skip fun _ => .pure ⟨h.1, by simp [h.2]⟩

theorem indexOrSlice_stands (h : x.StandsAt p) : (g.indexOrSlice x).Yields s (·.StandsAt p) := by
  refine .skip fun _ => .skip fun _ => .ite (fun _ => .skip fun _ => ?_) fun _ => ?_
  all_goals
    refine .skip fun contents => .skip fun _ => ?_
    cases contents with
    | indices items => exact .pure ⟨h.1, by simp [h.2]⟩
    | slice low high => exact .pure ⟨h.1, by simp [h.2]⟩
    | fullSlice low high max => exact .ite (fun _ => .refuse) fun _ => .pure ⟨h.1, by simp [h.2]⟩

theorem primaryStep_stands (h : x.StandsAt p) :
    (g.primaryStep x).Yields s fun o => ∀ u ∈ o, u.StandsAt p := by
  refine .skip fun _ => ?_
  split
  · exact .map ((selectorOrAssertion_stands h).imp fun u hu => by simpa)
  · exact .map ((indexOrSlice_stands h).imp fun u hu => by simpa)
  · refine .map (.skip fun _ => .skip fun args => .skip fun _ => .pure ?_)
    have hcall : (Tree.call x.placeOf x (.tuple args.1) (.flag args.2)).StandsAt p :=
      ⟨h.1, by simp [h.2]⟩
    simpa using hcall
  · refine .skip fun _ => .ite (fun _ => .map (.skip fun _ => .skip fun elts => .skip fun _ => .pure ?_))
      fun _ => .pure (by simp)
    have hliteral : (compositeLit x.placeOf x (.tuple elts)).StandsAt p :=
      ⟨h.1, beginsReceiving_compositeLit h.2⟩
    simpa using hliteral
  · exact .pure (by simp)

theorem primaryAfter_stands (h : x.StandsAt p) : (g.primaryAfter x).Yields s (·.StandsAt p) :=
  .grow (fun _ ht => primaryStep_stands ht) h

-- An expression that begins at a cursor. If it begins with a channel type to receive from, it stands where
-- the token after the arrow does.
def BeginsAt (t : Tree) (c : Cursor) : Prop :=
  t.placeOf = (if t.beginsReceiving then c.advance else c).current.place

theorem beginsAt_of_standsAt (h : t.StandsAt c.current.place) : BeginsAt t c := by
  rw [BeginsAt, h.2]
  exact h.1

theorem unaryHere_begins (hg : g.Sound)
    (hunary : ∀ {s : Scope} {t : Tree} {c c' : Cursor}, -1 ≤ s.level → c.Valid →
      g.unary.Gives s c t c' → BeginsAt t c)
    (hs : -1 ≤ s.level) (hc : c.Valid) (h : g.unaryHere.Gives s c t c') : BeginsAt t c := by
  simp only [unaryHere, gives_current_bind, discard_bind] at h
  split at h
  · rw [gives_advance_bind] at h
    obtain ⟨x, d, -, h⟩ := gives_bind.mp h
    obtain ⟨rfl, -⟩ := gives_pure.mp h
    rfl
  · split at h
    · rename_i harrow
      rw [gives_advance_bind] at h
      obtain ⟨x, d, hx, h⟩ := gives_bind.mp h
      have hvalid := hc.advance (by simp [harrow])
      have hbegins := hunary hs hvalid hx
      rcases gives_ite.mp h with ⟨hchan, h⟩ | ⟨-, h⟩
      · obtain ⟨hreceived, -⟩ := received_of_receiving (hg.unary hs hvalid hx).1.built hchan h
        cases hreceived with
        | both => exact hbegins
        | send => exact hbegins
      · obtain ⟨rfl, -⟩ := gives_pure.mp h
        rfl
    · rw [gives_advance_bind] at h
      obtain ⟨x, d, -, h⟩ := gives_bind.mp h
      obtain ⟨rfl, -⟩ := gives_pure.mp h
      rfl
    · rename_i harrow _
      obtain ⟨x, d, hx, h⟩ := gives_bind.mp h
      exact beginsAt_of_standsAt (primaryAfter_stands (operand_stands harrow hx) h)

theorem unary_begins {n : Nat} (hs : -1 ≤ s.level) (hc : c.Valid)
    (h : (upTo n).unary.Gives s c t c') : BeginsAt t c := by
  induction n generalizing s c t c' with
  | zero => exact absurd h gives_refuse
  | succ n ih =>
      exact unaryHere_begins (sound_upTo n) ih (s := s.deeper) hs hc (gives_nested.mp h).2

-- Operators leave their left side where it is.
theorem binaryAfter_begins {least : Nat} (hx : BeginsAt x c) :
    (g.binaryAfter least x).Yields s (BeginsAt · c) := by
  refine .grow (fun t ht => ?_) hx
  refine .skip fun op => .ite (fun _ => .pure (by simp)) fun _ => .skip fun _ => .skip fun y => .pure ?_
  have hbinary : BeginsAt (.binary t.placeOf t (.token op) y) c := by
    rw [BeginsAt, beginsReceiving_binary]
    exact ht
  simpa using hbinary

theorem expressionRule_begins {n : Nat} (hs : -1 ≤ s.level) (hc : c.Valid)
    (h : (upTo n).expressionRule.Gives s c t c') : BeginsAt t c := by
  obtain ⟨x, d, hx, h⟩ := gives_bind.mp h
  have hunary := unaryHere_begins (sound_upTo n) unary_begins (s := s.deeper) hs hc
    (gives_nested.mp hx).2
  exact binaryAfter_begins hunary h

end Grammar

namespace Fragment

-- A text goes on after every token but the end.
theorem eq_cons_of_valid {c : Cursor} (hc : c.Valid) (hkind : c.current.kind ≠ .eof) :
    ∃ t ts, c.upcoming = t :: ts ∧ c.advance = ⟨t, ts⟩ := by
  obtain ⟨t, ts⟩ := c
  cases ts with
  | nil => exact absurd (hc.kind_eq_eof rfl) hkind
  | cons u us => exact ⟨u, us, rfl, rfl⟩

-- An expression stands where its first token does, unless it begins with a channel type to receive from:
-- then it stands where its second token does. As the type of a variable every type stands where its
-- first token does.
theorem parse_place (limit : Limit) (source : Text) (file : Option Text) :
    (∀ t, expression.parse limit source file = .ok t →
      ∃ first second rest, Lexer.tokens source file = .ok (first :: second :: rest) ∧
        t.placeOf = (if t.beginsReceiving then second else first).place) ∧
      ∀ place specPlace name typ,
        declaration.parse limit source file = .ok (.variableDecl place specPlace name typ) →
          ∃ keyword x first rest, Lexer.tokens source file = .ok (keyword :: x :: first :: rest) ∧
            typ.placeOf = first.place := by
  refine ⟨fun t h => ?_, fun place specPlace name typ h => ?_⟩
  · obtain ⟨ts, c', hts, hgives⟩ := gives_of_parse h
    obtain ⟨x, d, hx, hgives⟩ := gives_bind.mp hgives
    obtain ⟨_, d', -, hgives⟩ := gives_bind.mp hgives
    obtain ⟨rfl, -⟩ := gives_pure.mp hgives
    have hvalid := valid_ofTokens (sourced_of_tokens hts)
    have hbegins := Grammar.expressionRule_begins (by simp) hvalid hx
    have hkind := Grammar.beginsSimple_of_expression hx
    obtain ⟨second, rest, hupcoming, hadvance⟩ := eq_cons_of_valid hvalid (by
      intro heof
      rw [heof] at hkind
      cases hkind)
    refine ⟨(Cursor.ofTokens ts).current, second, rest, ?_, ?_⟩
    · rw [hts, ← hupcoming, ← eq_cons_of_tokens hts]
    · rw [hbegins, hadvance]
      cases t.beginsReceiving <;> rfl
  · obtain ⟨ts, c', hts, hgives⟩ := gives_of_parse h
    obtain ⟨x, d, hx, hgives⟩ := gives_bind.mp hgives
    obtain ⟨_, d', -, hgives⟩ := gives_bind.mp hgives
    obtain ⟨rfl, -⟩ := gives_pure.mp hgives
    have hvalid := valid_ofTokens (sourced_of_tokens hts)
    obtain ⟨e, hkeyword, hname, htyp, -⟩ := Grammar.typeRule_of_declaration hx
    obtain ⟨y, ts', hupcoming, hadvance⟩ := eq_cons_of_valid hvalid (by simp [hkeyword])
    obtain ⟨first, rest, hupcoming', hadvance'⟩ :=
      eq_cons_of_valid (hvalid.advance (by simp [hkeyword])) (by simp [hname])
    refine ⟨(Cursor.ofTokens ts).current, y, first, rest, ?_, ?_⟩
    · rw [hadvance] at hupcoming'
      rw [hts, ← hupcoming', ← hupcoming, ← eq_cons_of_tokens hts]
    · rw [Grammar.typeRule_place htyp, hadvance']

-- The same channel type as an expression and as the type of a variable: the expression stands where the
-- second token does, the type of the variable where the arrow does.
theorem parse_place_channel :
    (∃ t first second rest, expression.parse (.atMost 100) "<-chan int" none = .ok t ∧
        Lexer.tokens "<-chan int" none = .ok (first :: second :: rest) ∧
        t.placeOf = (if t.beginsReceiving then second else first).place) ∧
      ∃ place specPlace name typ keyword x first rest,
        declaration.parse (.atMost 100) "var x <-chan int" none =
            .ok (.variableDecl place specPlace name typ) ∧
          Lexer.tokens "var x <-chan int" none = .ok (keyword :: x :: first :: rest) ∧
          typ.placeOf = first.place := by
  have hts : Lexer.tokens "<-chan int" none =
      .ok [⟨⟨.op .Arrow, "<-"⟩, 1, 1, 0, 2, none⟩, ⟨⟨.word .Chan, "chan"⟩, 1, 3, 2, 6, none⟩,
        ⟨⟨.ident, "int"⟩, 1, 8, 7, 10, none⟩, ⟨.newline, 1, 11, 10, 10, none⟩,
        ⟨.ending, 1, 11, 10, 10, none⟩] :=
    rfl
  have hts' : Lexer.tokens "var x <-chan int" none =
      .ok [⟨⟨.word .Var, "var"⟩, 1, 1, 0, 3, none⟩, ⟨⟨.ident, "x"⟩, 1, 5, 4, 5, none⟩,
        ⟨⟨.op .Arrow, "<-"⟩, 1, 7, 6, 8, none⟩, ⟨⟨.word .Chan, "chan"⟩, 1, 9, 8, 12, none⟩,
        ⟨⟨.ident, "int"⟩, 1, 14, 13, 16, none⟩, ⟨.newline, 1, 17, 16, 16, none⟩,
        ⟨.ending, 1, 17, 16, 16, none⟩] :=
    rfl
  have ht : ∃ t, expression.parse (.atMost 100) "<-chan int" none = .ok t :=
    ⟨_, parse_of_ok hts rfl⟩
  have hdecl : ∃ place specPlace name typ, declaration.parse (.atMost 100) "var x <-chan int" none =
      .ok (.variableDecl place specPlace name typ) :=
    ⟨_, _, _, _, parse_of_ok hts' rfl⟩
  obtain ⟨t, ht⟩ := ht
  obtain ⟨place, specPlace, name, typ, hdecl⟩ := hdecl
  obtain ⟨first, second, rest, htokens, hplace⟩ := (parse_place _ _ _).1 _ ht
  obtain ⟨keyword, x, first', rest', htokens', hplace'⟩ := (parse_place _ _ _).2 _ _ _ _ hdecl
  exact ⟨⟨t, first, second, rest, ht, htokens, hplace⟩, place, specPlace, name, typ, keyword, x,
    first', rest', hdecl, htokens', hplace'⟩

-- An expression that does not stand where its first token does.
theorem parse_place_received :
    ∃ t first rest, expression.parse (.atMost 100) "<-chan int" none = .ok t ∧
      Lexer.tokens "<-chan int" none = .ok (first :: rest) ∧ t.placeOf ≠ first.place := by
  let arrow : Token := ⟨⟨.op .Arrow, "<-"⟩, 1, 1, 0, 2, none⟩
  let chan : Token := ⟨⟨.word .Chan, "chan"⟩, 1, 3, 2, 6, none⟩
  let int : Token := ⟨⟨.ident, "int"⟩, 1, 8, 7, 10, none⟩
  have hts : Lexer.tokens "<-chan int" none =
      .ok [arrow, chan, int, ⟨.newline, 1, 11, 10, 10, none⟩, ⟨.ending, 1, 11, 10, 10, none⟩] :=
    rfl
  have hparse : expression.parse (.atMost 100) "<-chan int" none =
      .ok (.chanType chan.place (.direction .receive) (.ident int.place (.text "int"))) :=
    parse_of_ok hts rfl
  refine ⟨_, arrow, _, hparse, hts, ?_⟩
  simp [Tree.placeOf, Tree.place?, Token.place, Token.location, arrow, chan]

end Fragment

end GoCompact
