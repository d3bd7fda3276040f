import Mathlib
import GoCompact.Grammar.Fragment

namespace GoCompact

namespace Parser

variable {α β : Type} {s : Scope} {c c' : Cursor}

-- The parser reads from `c` to `c'` and gives `a`.
def Gives (p : Parser α) (s : Scope) (c : Cursor) (a : α) (c' : Cursor) : Prop :=
  p s c = .ok (a, c')

@[simp]
theorem gives_pure {a b : α} : (pure a : Parser α).Gives s c b c' ↔ b = a ∧ c' = c := by
  simp only [Gives, pure, ReaderT.pure, StateT.pure, Except.pure, Except.ok.injEq, Prod.mk.injEq]
  exact ⟨fun h => ⟨h.1.symm, h.2.symm⟩, fun h => ⟨h.1.symm, h.2.symm⟩⟩

@[simp low]
theorem gives_bind {p : Parser α} {f : α → Parser β} {b : β} :
    (p >>= f).Gives s c b c' ↔ ∃ a d, p.Gives s c a d ∧ (f a).Gives s d b c' := by
  simp only [Gives, bind, ReaderT.bind, StateT.bind, Except.bind]
  cases hp : p s c with
  | error r => simp
  | ok q =>
      obtain ⟨a, d⟩ := q
      simp only [Except.ok.injEq, Prod.mk.injEq]
      constructor
      · intro h
        exact ⟨a, d, ⟨rfl, rfl⟩, h⟩
      · rintro ⟨a', d', ⟨rfl, rfl⟩, h⟩
        exact h

@[simp]
theorem gives_map {p : Parser α} {f : α → β} {b : β} :
    (f <$> p).Gives s c b c' ↔ ∃ a, p.Gives s c a c' ∧ b = f a := by
  rw [map_eq_pure_bind]
  simp only [gives_bind, gives_pure]
  constructor
  · rintro ⟨a, d, h, rfl, rfl⟩
    exact ⟨a, h, rfl⟩
  · rintro ⟨a, h, rfl⟩
    exact ⟨a, c', h, rfl, rfl⟩

@[simp]
theorem gives_discard {p : Parser α} {u : PUnit} :
    (discard p).Gives s c u c' ↔ ∃ a, p.Gives s c a c' := by
  change ((fun _ => PUnit.unit) <$> p).Gives s c u c' ↔ _
  rw [gives_map]
  simp

-- A parser that cannot fail.
theorem gives_of_run {p : Parser α} {a b : α} {d : Cursor} (h : p s c = .ok (a, d)) :
    p.Gives s c b c' ↔ b = a ∧ c' = d := by
  simp only [Gives, h, Except.ok.injEq, Prod.mk.injEq]
  exact ⟨fun h => ⟨h.1.symm, h.2.symm⟩, fun h => ⟨h.1.symm, h.2.symm⟩⟩

@[simp]
theorem discard_bind {p : Parser α} {f : PUnit → Parser β} :
    (discard p >>= f) = p >>= fun _ => f ⟨⟩ := by
  change ((fun _ => PUnit.unit) <$> p) >>= f = _
  simp

-- Parsers that cannot fail, alone and before others.
theorem gives_bind_of_run {p : Parser α} {f : α → Parser β} {a : α} {d : Cursor} {b : β}
    (h : p s c = .ok (a, d)) : (p >>= f).Gives s c b c' ↔ (f a).Gives s d b c' := by
  simp only [gives_bind, gives_of_run h]
  constructor
  · rintro ⟨_, _, ⟨rfl, rfl⟩, hf⟩
    exact hf
  · intro hf
    exact ⟨_, _, ⟨rfl, rfl⟩, hf⟩

@[simp]
theorem gives_current {t : Token} : current.Gives s c t c' ↔ t = c.current ∧ c' = c :=
  gives_of_run rfl

@[simp]
theorem gives_current_bind {f : Token → Parser β} {b : β} :
    (current >>= f).Gives s c b c' ↔ (f c.current).Gives s c b c' :=
  gives_bind_of_run rfl

@[simp]
theorem gives_peek {k : TokenKind} : peek.Gives s c k c' ↔ k = c.current.kind ∧ c' = c :=
  gives_of_run rfl

@[simp]
theorem gives_peek_bind {f : TokenKind → Parser β} {b : β} :
    (peek >>= f).Gives s c b c' ↔ (f c.current.kind).Gives s c b c' :=
  gives_bind_of_run rfl

@[simp]
theorem gives_advance {t : Token} :
    advance.Gives s c t c' ↔ t = c.current ∧ c' = c.advance :=
  gives_of_run rfl

@[simp]
theorem gives_advance_bind {f : Token → Parser β} {b : β} :
    (advance >>= f).Gives s c b c' ↔ (f c.current).Gives s c.advance b c' :=
  gives_bind_of_run rfl

@[simp]
theorem gives_ahead_bind {f : List Token → Parser β} {b : β} :
    (ahead >>= f).Gives s c b c' ↔ (f c.upcoming).Gives s c b c' :=
  gives_bind_of_run rfl

@[simp]
theorem gives_read_bind {f : Scope → Parser β} {b : β} :
    (read >>= f).Gives s c b c' ↔ (f s).Gives s c b c' :=
  gives_bind_of_run rfl

-- Parsers that always fail.
@[simp]
theorem gives_refuseAt {cause : Cause} {t : Token} {a : α} :
    ¬(refuseAt cause t : Parser α).Gives s c a c' := by
  intro h
  cases h

@[simp]
theorem gives_refuse {cause : Cause} {a : α} : ¬(refuse cause : Parser α).Gives s c a c' := by
  simp [refuse]

@[simp]
theorem gives_expected {what : Wanted} {a : α} : ¬(expected what : Parser α).Gives s c a c' := by
  simp [expected]

-- Parsers for one token.
@[simp]
theorem gives_got_bind {kind : TokenKind} {f : Bool → Parser β} {b : β} :
    (got kind >>= f).Gives s c b c' ↔
      (c.current.kind = kind ∧ (f true).Gives s c.advance b c') ∨
        (c.current.kind ≠ kind ∧ (f false).Gives s c b c') := by
  simp only [got, bind_assoc, gives_peek_bind]
  by_cases h : c.current.kind = kind <;> simp [h]

@[simp]
theorem gives_expect {kind : TokenKind} {t : Token} :
    (expect kind).Gives s c t c' ↔ c.current.kind = kind ∧ t = c.current ∧ c' = c.advance := by
  simp only [expect, gives_peek_bind]
  by_cases h : c.current.kind = kind <;> simp [h]

@[simp]
theorem gives_expect_bind {kind : TokenKind} {f : Token → Parser β} {b : β} :
    (expect kind >>= f).Gives s c b c' ↔
      c.current.kind = kind ∧ (f c.current).Gives s c.advance b c' := by
  simp only [gives_bind, gives_expect]
  constructor
  · rintro ⟨_, _, ⟨hk, rfl, rfl⟩, hf⟩
    exact ⟨hk, hf⟩
  · rintro ⟨hk, hf⟩
    exact ⟨_, _, ⟨hk, rfl, rfl⟩, hf⟩

-- Kinds before which the end of a statement may be left out.
def closesStatement : TokenKind → Bool
  | .op .RParen | .op .RBrace | .eof => true
  | _ => false

-- Passing over the end of a statement.
inductive Ends (c : Cursor) : Cursor → Prop
  | closing (h : closesStatement c.current.kind = true) : Ends c c
  | semicolon (h : c.current.kind = .op .Semicolon) : Ends c c.advance

@[simp]
theorem gives_expectEnd {u : Unit} : expectEnd.Gives s c u c' ↔ Ends c c' := by
  simp only [expectEnd, gives_peek_bind]
  constructor
  · intro h
    split at h
    · obtain ⟨-, rfl⟩ := gives_pure.mp h
      exact .closing (by simp_all [closesStatement])
    · obtain ⟨-, rfl⟩ := gives_pure.mp h
      exact .closing (by simp_all [closesStatement])
    · obtain ⟨-, rfl⟩ := gives_pure.mp h
      exact .closing (by simp_all [closesStatement])
    · obtain ⟨_, -, rfl⟩ : ∃ t, t = c.current ∧ c' = c.advance := by simpa using h
      exact .semicolon (by assumption)
    · simp at h
  · rintro (h | h)
    · unfold closesStatement at h
      split at h <;> simp_all
    · simp [h]

@[simp]
theorem gives_expectEnd_bind {f : Unit → Parser β} {b : β} :
    (expectEnd >>= f).Gives s c b c' ↔ ∃ d, Ends c d ∧ (f ()).Gives s d b c' := by
  simp only [gives_bind, gives_expectEnd]
  constructor
  · rintro ⟨_, d, h⟩
    exact ⟨d, h⟩
  · rintro ⟨d, h⟩
    exact ⟨(), d, h⟩

end Parser

namespace Scope

-- The scopes of a part that is nested deeper, of one in brackets and of one in a header.
def deeper (s : Scope) : Scope := { s with depth := s.depth + 1 }

def bracketed (s : Scope) : Scope := { s with level := s.level + 1 }

def header (s : Scope) : Scope := { s with level := -1 }

-- Whether a brace after a type name begins a literal.
def isFree (s : Scope) : Bool := 0 ≤ s.level

end Scope

namespace Parser

variable {α β : Type} {s : Scope} {c c' : Cursor}

@[simp]
theorem gives_nested {p : Parser α} {a : α} :
    (nested p).Gives s c a c' ↔
      s.limit.admits (s.depth + 1) = some true ∧ p.Gives s.deeper c a c' := by
  simp only [nested, gives_read_bind]
  split <;> rename_i h <;> simp [h]
  rfl

@[simp]
theorem gives_bracketed {p : Parser α} {a : α} :
    (bracketed p).Gives s c a c' ↔ p.Gives s.bracketed c a c' :=
  Iff.rfl

@[simp]
theorem gives_inHeader {p : Parser α} {a : α} :
    (inHeader p).Gives s c a c' ↔ p.Gives s.header c a c' :=
  Iff.rfl

@[simp]
theorem gives_ite {P : Prop} [Decidable P] {p q : Parser α} {a : α} :
    (if P then p else q).Gives s c a c' ↔ (P ∧ p.Gives s c a c') ∨ (¬P ∧ q.Gives s c a c') := by
  by_cases h : P <;> simp [h]

-- One item after another, each where the current token is of the right kind.
inductive Items (more : TokenKind → Bool) (p : Parser α) (s : Scope) :
    Cursor → List α → Cursor → Prop
  | nil {c : Cursor} : Items more p s c [] c
  | cons {c d c' : Cursor} {x : α} {xs : List α} (hmore : more c.current.kind = true)
      (h : p.Gives s c x d) (hs : Items more p s d xs c') : Items more p s c (x :: xs) c'

theorem items_of_manyWhile {more : TokenKind → Bool} {p : Parser α} {xs : List α}
    (h : (manyWhile more p).Gives s c xs c') : Items more p s c xs c' := by
  have main : ∀ (rounds : List Token) (c : Cursor) (xs : List α),
      (manyWithin more p rounds).Gives s c xs c' → Items more p s c xs c' := by
    intro rounds
    induction rounds with
    | nil =>
        intro c xs h
        obtain ⟨rfl, rfl⟩ := gives_pure.mp h
        exact .nil
    | cons t rounds ih =>
        intro c xs h
        simp only [manyWithin, gives_peek_bind] at h
        split at h
        · rename_i hmore
          simp only [gives_bind, gives_pure] at h
          obtain ⟨x, d, hx, ys, e, hys, rfl, rfl⟩ := h
          exact .cons hmore hx (ih d ys hys)
        · obtain ⟨rfl, rfl⟩ := gives_pure.mp h
          exact .nil
  exact main c.upcoming c xs h

-- If each item takes tokens, items are read until no more of them can begin, or to the end.
theorem stops_of_manyWhile {more : TokenKind → Bool} {p : Parser α} {I : Cursor → Prop}
    {xs : List α}
    (hp : ∀ {c x d}, I c → more c.current.kind = true → p.Gives s c x d →
      I d ∧ d.upcoming.length < c.upcoming.length)
    (hc : I c) (h : (manyWhile more p).Gives s c xs c') :
    more c'.current.kind = false ∨ c'.upcoming = [] := by
  have main : ∀ (rounds : List Token) (c : Cursor) (xs : List α), I c →
      c.upcoming.length ≤ rounds.length → (manyWithin more p rounds).Gives s c xs c' →
        more c'.current.kind = false ∨ c'.upcoming = [] := by
    intro rounds
    induction rounds with
    | nil =>
        intro c xs hc hlength h
        obtain ⟨rfl, rfl⟩ := gives_pure.mp h
        exact Or.inr (List.length_eq_zero_iff.mp (Nat.le_zero.mp hlength))
    | cons t rounds ih =>
        intro c xs hc hlength h
        simp only [manyWithin, gives_peek_bind] at h
        split at h
        · rename_i hmore
          simp only [gives_bind, gives_pure] at h
          obtain ⟨x, d, hx, ys, e, hys, rfl, rfl⟩ := h
          obtain ⟨hd, hless⟩ := hp hc hmore hx
          simp only [List.length_cons] at hlength
          exact ih d ys hd (by omega) hys
        · rename_i hmore
          obtain ⟨rfl, rfl⟩ := gives_pure.mp h
          exact Or.inl (by simpa using hmore)
  exact main c.upcoming c xs hc (Nat.le_refl _) h

-- Items after commas, perhaps with a comma before what closes them.
inductive AfterCommas (closing : Option TokenKind) (p : Parser α) (s : Scope) :
    Cursor → List α → Cursor → Prop
  | nil {c : Cursor} : AfterCommas closing p s c [] c
  | trailing {c : Cursor} (hcomma : c.current.kind = .op .Comma)
      (hclosing : some c.advance.current.kind = closing) :
      AfterCommas closing p s c [] c.advance
  | cons {c d c' : Cursor} {x : α} {xs : List α} (hcomma : c.current.kind = .op .Comma)
      (h : p.Gives s c.advance x d) (hs : AfterCommas closing p s d xs c') :
      AfterCommas closing p s c (x :: xs) c'

theorem afterCommas_of_gives {closing : Option TokenKind} {p : Parser α} {xs : List α}
    (h : (afterCommas closing p).Gives s c xs c') : AfterCommas closing p s c xs c' := by
  have main : ∀ (rounds : List Token) (c : Cursor) (xs : List α),
      (afterCommasWithin closing p rounds).Gives s c xs c' →
        AfterCommas closing p s c xs c' := by
    intro rounds
    induction rounds with
    | nil =>
        intro c xs h
        obtain ⟨rfl, rfl⟩ := gives_pure.mp h
        exact .nil
    | cons t rounds ih =>
        intro c xs h
        simp only [afterCommasWithin, gives_got_bind, gives_peek_bind, if_true,
          Bool.false_eq_true, if_false] at h
        rcases h with ⟨hcomma, h⟩ | ⟨-, h⟩
        · split at h
          · rename_i hclosing
            obtain ⟨rfl, rfl⟩ := gives_pure.mp h
            exact .trailing hcomma hclosing
          · simp only [gives_bind, gives_pure] at h
            obtain ⟨x, d, hx, ys, e, hys, rfl, rfl⟩ := h
            exact .cons hcomma hx (ih d ys hys)
        · obtain ⟨rfl, rfl⟩ := gives_pure.mp h
          exact .nil
  exact main c.upcoming c xs h

@[simp]
theorem gives_commaList {p : Parser α} {xs : List α} :
    (commaList p).Gives s c xs c' ↔
      ∃ x ys d, xs = x :: ys ∧ p.Gives s c x d ∧ (afterCommas none p).Gives s d ys c' := by
  simp only [commaList, gives_bind, gives_pure]
  constructor
  · rintro ⟨x, d, hx, ys, e, hys, rfl, rfl⟩
    exact ⟨x, ys, d, rfl, hx, hys⟩
  · rintro ⟨x, ys, d, rfl, hx, hys⟩
    exact ⟨x, d, hx, ys, c', hys, rfl, rfl⟩

-- Items with commas between them, perhaps with one after the last.
inductive Listed (p : Parser α) (s : Scope) : Cursor → List α → Cursor → Prop
  | nil {c : Cursor} : Listed p s c [] c
  | last {c c' : Cursor} {x : α} (h : p.Gives s c x c') : Listed p s c [x] c'
  | cons {c d c' : Cursor} {x : α} {xs : List α} (h : p.Gives s c x d)
      (hcomma : d.current.kind = .op .Comma) (hs : Listed p s d.advance xs c') :
      Listed p s c (x :: xs) c'

theorem listed_of_itemsUntil {closing : TokenKind} {p : Parser α} {xs : List α}
    (h : (itemsUntil closing p).Gives s c xs c') : Listed p s c xs c' := by
  have main : ∀ (rounds : List Token) (c : Cursor) (xs : List α),
      (itemsWithin closing p rounds).Gives s c xs c' → Listed p s c xs c' := by
    intro rounds
    induction rounds with
    | nil =>
        intro c xs h
        obtain ⟨rfl, rfl⟩ := gives_pure.mp h
        exact .nil
    | cons t rounds ih =>
        intro c xs h
        simp only [itemsWithin, gives_peek_bind] at h
        split at h
        · obtain ⟨rfl, rfl⟩ := gives_pure.mp h
          exact .nil
        · obtain ⟨x, d, hx, h⟩ := gives_bind.mp h
          simp only [gives_got_bind, if_true, Bool.false_eq_true, if_false] at h
          rcases h with ⟨hcomma, h⟩ | ⟨-, h⟩
          · simp only [gives_bind, gives_pure] at h
            obtain ⟨ys, e, hys, rfl, rfl⟩ := h
            exact .cons hx hcomma (ih _ ys hys)
          · obtain ⟨rfl, rfl⟩ := gives_pure.mp h
            exact .last hx
  exact main c.upcoming c xs h

-- A tree that grows by steps.
inductive Grows (step : Tree → Parser (Option Tree)) (s : Scope) :
    Tree → Cursor → Tree → Cursor → Prop
  | refl {t : Tree} {c : Cursor} : Grows step s t c t c
  | step {t u v : Tree} {c d c' : Cursor} (h : (step t).Gives s c (some u) d)
      (hs : Grows step s u d v c') : Grows step s t c v c'

-- What each step keeps is kept while a tree grows. It stops because there is no more of it, or at the
-- end; while it grows, tokens are read.
theorem grows_of_grow {step : Tree → Parser (Option Tree)} {I : Tree → Cursor → Prop} {t u : Tree}
    (hstep : ∀ {t c u d}, I t c → (step t).Gives s c (some u) d →
      I u d ∧ d.upcoming.length < c.upcoming.length)
    (ht : I t c) (h : (grow step t).Gives s c u c') :
    ∃ d, Grows step s t c u d ∧ I u d ∧
      ((step u).Gives s d none c' ∨ (d.upcoming = [] ∧ c' = d)) := by
  have main : ∀ (rounds : List Token) (t : Tree) (c : Cursor), I t c →
      c.upcoming.length ≤ rounds.length → (growWithin step rounds t).Gives s c u c' →
        ∃ d, Grows step s t c u d ∧ I u d ∧
          ((step u).Gives s d none c' ∨ (d.upcoming = [] ∧ c' = d)) := by
    intro rounds
    induction rounds with
    | nil =>
        intro t c ht hlength h
        obtain ⟨rfl, rfl⟩ := gives_pure.mp h
        exact ⟨c', .refl, ht, Or.inr ⟨List.length_eq_zero_iff.mp (Nat.le_zero.mp hlength), rfl⟩⟩
    | cons r rounds ih =>
        intro t c ht hlength h
        obtain ⟨o, d, ho, h⟩ := gives_bind.mp h
        cases o with
        | none =>
            obtain ⟨rfl, rfl⟩ := gives_pure.mp h
            exact ⟨c, .refl, ht, Or.inl ho⟩
        | some v =>
            obtain ⟨hd, hless⟩ := hstep ht ho
            simp only [List.length_cons] at hlength
            obtain ⟨e, hgrows, hu, hend⟩ := ih v d hd (by omega) h
            exact ⟨e, .step ho hgrows, hu, hend⟩
  exact main c.upcoming t c ht (Nat.le_refl _) h

end Parser

end GoCompact
