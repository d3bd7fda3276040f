import GoCompact.Proofs.Grammar.Mirror.Relocation

namespace GoCompact

namespace Lexeme

-- A token of which only the lexeme is known.
def bare (l : Lexeme) : Token := ⟨l, 0, 0, 0, 0, none⟩

@[simp]
theorem toLexeme_bare (l : Lexeme) : l.bare.toLexeme = l := rfl

@[simp]
theorem place_bare (l : Lexeme) : l.bare.place = .unknownPlace := rfl

theorem bare_injective : Function.Injective bare := fun _ _ h => congrArg Token.toLexeme h

@[simp]
theorem kind_ofOperator (o : Operator) : (ofOperator o).kind = .op o := rfl

@[simp]
theorem kind_ofKeyword (k : Keyword) : (ofKeyword k).kind = .word k := rfl

end Lexeme

namespace Cursor

-- The cursor before lexemes.
def before (ls : List Lexeme) : Cursor := ofTokens (ls.map Lexeme.bare)

variable {l m : Lexeme} {ls ms : List Lexeme}

@[simp]
theorem current_before : (before (l :: ls)).current = l.bare := rfl

@[simp]
theorem upcoming_before : (before (l :: ls)).upcoming = ls.map Lexeme.bare := rfl

@[simp]
theorem advance_before (h : ls ≠ []) : (before (l :: ls)).advance = before ls := by
  cases ls with
  | nil => exact absurd rfl h
  | cons m ls => rfl

theorem length_upcoming_before (h : ls ≠ []) : (before ls).upcoming.length + 1 = ls.length := by
  cases ls with
  | nil => exact absurd rfl h
  | cons m ls => simp

theorem before_injective (hls : ls ≠ []) (hms : ms ≠ []) (h : before ls = before ms) : ls = ms := by
  obtain ⟨l, ls, rfl⟩ := List.exists_cons_of_ne_nil hls
  obtain ⟨m, ms, rfl⟩ := List.exists_cons_of_ne_nil hms
  have hcurrent := congrArg Cursor.current h
  have hupcoming := congrArg Cursor.upcoming h
  rw [current_before, current_before] at hcurrent
  rw [upcoming_before, upcoming_before] at hupcoming
  rw [Lexeme.bare_injective hcurrent, List.map_injective_iff.mpr Lexeme.bare_injective hupcoming]

end Cursor

namespace Scope

-- A scope in which so many more levels may be entered.
structure Admits (s : Scope) (levels : Nat) : Prop where
  depth : ∀ i ≤ levels, s.limit.admits (s.depth + i) = some true
  level : -1 ≤ s.level

namespace Admits

variable {s : Scope} {r q : Nat}

theorem mono (h : s.Admits r) (hle : q ≤ r) : s.Admits q :=
  ⟨fun i hi => h.depth i (hi.trans hle), h.level⟩

theorem deeper (h : s.Admits r) (hle : q + 1 ≤ r) : s.deeper.Admits q := by
  refine ⟨fun i hi => ?_, h.level⟩
  have hi' := h.depth (i + 1) (by omega)
  rwa [Nat.add_comm i, ← Nat.add_assoc] at hi'

theorem bracketed (h : s.Admits r) : s.bracketed.Admits r := by
  refine ⟨h.depth, ?_⟩
  have hlevel := h.level
  simp only [Scope.bracketed]
  omega

theorem header (h : s.Admits r) : s.header.Admits r := ⟨h.depth, Int.le_refl _⟩

-- Inside brackets a brace after a type name begins a literal.
theorem isFree_bracketed (h : s.Admits r) : s.bracketed.isFree = true := by
  have hlevel := h.level
  have hfree : (0 : Int) ≤ s.level + 1 := by omega
  exact decide_eq_true hfree

theorem admits_one (h : s.Admits r) (hr : 1 ≤ r) : s.limit.admits (s.depth + 1) = some true :=
  h.depth 1 hr

end Admits

@[simp]
theorem isFree_deeper (s : Scope) : s.deeper.isFree = s.isFree := rfl

end Scope

-- Lexemes of which the first is of a kind.
def Begins (P : TokenKind → Prop) (ls : List Lexeme) : Prop := ∃ l rest, ls = l :: rest ∧ P l.kind

namespace Begins

open Cursor

variable {P Q : TokenKind → Prop} {ls : List Lexeme}

theorem cons {l : Lexeme} (h : P l.kind) (rest : List Lexeme) : Begins P (l :: rest) :=
  ⟨l, rest, rfl, h⟩

theorem mono (h : Begins P ls) (hPQ : ∀ k, P k → Q k) : Begins Q ls := by
  obtain ⟨l, rest, rfl, hl⟩ := h
  exact ⟨l, rest, rfl, hPQ _ hl⟩

theorem append (h : Begins P ls) (ms : List Lexeme) : Begins P (ls ++ ms) := by
  obtain ⟨l, rest, rfl, hl⟩ := h
  exact ⟨l, rest ++ ms, rfl, hl⟩

theorem ne_nil (h : Begins P ls) : ls ≠ [] := by
  obtain ⟨l, rest, rfl, -⟩ := h
  simp

theorem length_pos (h : Begins P ls) : 0 < ls.length := List.length_pos_iff.mpr h.ne_nil

-- The kind of the token that comes first.
theorem current (h : Begins P ls) (ms : List Lexeme) : P (before (ls ++ ms)).current.kind := by
  obtain ⟨l, rest, rfl, hl⟩ := h
  exact hl

end Begins

-- The kind of what comes next: the first of these lexemes or, if there are none, what follows them.
def Next (P : TokenKind → Prop) (ls : List Lexeme) (Q : TokenKind → Prop) : Prop :=
  ∀ l rest, Q l.kind → P (Cursor.before (ls ++ l :: rest)).current.kind

namespace Next

variable {P P' Q : TokenKind → Prop} {ls : List Lexeme}

theorem nil (h : ∀ k, Q k → P k) : Next P [] Q := fun l _ hl => h l.kind hl

theorem cons {l : Lexeme} (h : P l.kind) (ls : List Lexeme) : Next P (l :: ls) Q :=
  fun _ _ _ => h

theorem mono (h : Next P ls Q) (hP : ∀ k, P k → P' k) : Next P' ls Q :=
  fun l rest hl => hP _ (h l rest hl)

-- What comes after some lexemes may be lexemes too.
theorem append {ms : List Lexeme} {R : TokenKind → Prop} (h : Next P ls Q) (h' : Next Q ms R) :
    Next P (ls ++ ms) R := by
  intro l rest hl
  have hkind := h' l rest hl
  rw [List.append_assoc]
  cases ms with
  | nil => exact h l rest hkind
  | cons m ms => exact h m (ms ++ l :: rest) hkind

end Next

theorem Begins.next {P Q : TokenKind → Prop} {ls : List Lexeme} (h : Begins P ls) : Next P ls Q :=
  fun l rest _ => h.current (l :: rest)

namespace Parser

open Cursor

variable {α β : Type} {s : Scope} {c d e : Cursor}

-- The parser takes just these lexemes if what follows them is of a kind that does not belong to them.
def Takes (p : Parser α) (s : Scope) (ls : List Lexeme) (a : α) (P : TokenKind → Prop) : Prop :=
  ∀ l rest, P l.kind → p.Gives s (before (ls ++ l :: rest)) a (before (l :: rest))

theorem Takes.mono {p : Parser α} {ls : List Lexeme} {a : α} {P Q : TokenKind → Prop}
    (h : p.Takes s ls a P) (hQP : ∀ k, Q k → P k) : p.Takes s ls a Q :=
  fun l rest hl => h l rest (hQP _ hl)

-- Runs of one parser after another.
theorem Gives.bind {p : Parser α} {f : α → Parser β} {a : α} {b : β} (hp : p.Gives s c a d)
    (hf : (f a).Gives s d b e) : (p >>= f).Gives s c b e :=
  gives_bind.mpr ⟨a, d, hp, hf⟩

section Rules

variable {p : Parser α} {f : α → Parser β} {a : α} {b : β} {l : Lexeme} {ls ms : List Lexeme}
  {k : TokenKind} {P Q : TokenKind → Prop}

-- One parser after another, where what comes after the first does not belong to it.
theorem Takes.bind (hp : p.Takes s ls a P) (hnext : Next P ms Q) (hf : (f a).Takes s ms b Q) :
    (p >>= f).Takes s (ls ++ ms) b Q := by
  intro l rest hl
  have hkind := hnext l rest hl
  rw [List.append_assoc]
  cases ms with
  | nil => exact (hp l rest hkind).bind (hf l rest hl)
  | cons m ms => exact (hp m (ms ++ l :: rest) hkind).bind (hf l rest hl)

-- The second takes nothing.
theorem Takes.bind_nil (hp : p.Takes s ls a P) (hf : (f a).Takes s [] b P) :
    (p >>= f).Takes s ls b P :=
  fun l rest hl => (hp l rest hl).bind (hf l rest hl)

theorem takes_pure {a' : α} (h : a = a') : (pure a' : Parser α).Takes s [] a P :=
  fun _ _ _ => gives_pure.mpr ⟨h, rfl⟩

theorem Takes.map (hp : p.Takes s ls a P) (f : α → β) : (f <$> p).Takes s ls (f a) P :=
  fun l rest hl => gives_map.mpr ⟨a, hp l rest hl, rfl⟩

theorem Takes.nested (hp : p.Takes s.deeper ls a P)
    (h : s.limit.admits (s.depth + 1) = some true) : (nested p).Takes s ls a P :=
  fun l rest hl => gives_nested.mpr ⟨h, hp l rest hl⟩

theorem Takes.bracketed (hp : p.Takes s.bracketed ls a P) : (bracketed p).Takes s ls a P := hp

theorem Takes.inHeader (hp : p.Takes s.header ls a P) : (inHeader p).Takes s ls a P := hp

-- The current token is the first lexeme.
theorem takes_current_bind {f : Token → Parser β} (hf : (f l.bare).Takes s (l :: ls) b P) :
    (current >>= f).Takes s (l :: ls) b P :=
  fun m rest hm => gives_current_bind.mpr (hf m rest hm)

theorem takes_peek_bind {f : TokenKind → Parser β} (hf : (f l.kind).Takes s (l :: ls) b P) :
    (peek >>= f).Takes s (l :: ls) b P :=
  fun m rest hm => gives_peek_bind.mpr (hf m rest hm)

theorem takes_peek_next {f : TokenKind → Parser β} (hnext : Next Q ls P)
    (hf : ∀ k, Q k → (f k).Takes s ls b P) : (peek >>= f).Takes s ls b P :=
  fun l rest hl => gives_peek_bind.mpr (hf _ (hnext l rest hl) l rest hl)

theorem takes_advance_bind {f : Token → Parser β} (hf : (f l.bare).Takes s ls b P) :
    (advance >>= f).Takes s (l :: ls) b P := by
  intro m rest hm
  refine gives_advance_bind.mpr ?_
  rw [List.cons_append, advance_before (by simp)]
  exact hf m rest hm

theorem takes_expect_bind {f : Token → Parser β} (hl : l.kind = k)
    (hf : (f l.bare).Takes s ls b P) : (expect k >>= f).Takes s (l :: ls) b P := by
  intro m rest hm
  refine gives_expect_bind.mpr ⟨hl, ?_⟩
  rw [List.cons_append, advance_before (by simp)]
  exact hf m rest hm

theorem takes_got_bind {f : Bool → Parser β} (hl : l.kind = k) (hf : (f true).Takes s ls b P) :
    (got k >>= f).Takes s (l :: ls) b P := by
  intro m rest hm
  refine gives_got_bind.mpr (.inl ⟨hl, ?_⟩)
  rw [List.cons_append, advance_before (by simp)]
  exact hf m rest hm

theorem takes_not_got {f : Bool → Parser β} (hnext : Next (· ≠ k) ls P)
    (hf : (f false).Takes s ls b P) : (got k >>= f).Takes s ls b P :=
  fun l rest hl => gives_got_bind.mpr (.inr ⟨hnext l rest hl, hf l rest hl⟩)

theorem takes_discard_advance {f : PUnit → Parser β} (hf : (f ⟨⟩).Takes s ls b P) :
    (discard advance >>= f).Takes s (l :: ls) b P := by
  rw [discard_bind]
  exact takes_advance_bind hf

theorem takes_discard_expect {f : PUnit → Parser β} (hl : l.kind = k)
    (hf : (f ⟨⟩).Takes s ls b P) : (discard (expect k) >>= f).Takes s (l :: ls) b P := by
  rw [discard_bind]
  exact takes_expect_bind hl hf

theorem takes_ident {x : Text} :
    Grammar.ident.Takes s [⟨.ident, x⟩] (.ident .unknownPlace (.text x)) P := by
  refine takes_peek_bind ?_
  rw [if_pos rfl]
  exact takes_advance_bind (takes_pure rfl)

theorem takes_ident_bind {f : Tree → Parser β} {x : Text}
    (hf : (f (.ident .unknownPlace (.text x))).Takes s ls b P) :
    (Grammar.ident >>= f).Takes s (⟨.ident, x⟩ :: ls) b P := by
  intro l rest hl
  have hident : Grammar.ident.Takes s [⟨.ident, x⟩] _ fun _ => True := takes_ident
  cases ls with
  | nil => exact (hident l rest trivial).bind (hf l rest hl)
  | cons m ls => exact (hident m (ls ++ l :: rest) trivial).bind (hf l rest hl)

-- There are rounds enough for the lexemes.
theorem takes_ahead_bind {f : List Token → Parser β}
    (hf : ∀ rounds : List Token, ls.length ≤ rounds.length → (f rounds).Takes s ls b P) :
    (ahead >>= f).Takes s ls b P := by
  intro l rest hl
  refine gives_ahead_bind.mpr (hf _ ?_ l rest hl)
  have hlength := @length_upcoming_before (ls ++ l :: rest) (by simp)
  simp only [List.length_append, List.length_cons] at hlength
  omega

-- The end of a statement.
theorem takes_expectEnd_bind {f : Unit → Parser β} (hl : l.kind = .op .Semicolon)
    (hf : (f ()).Takes s ls b P) : (expectEnd >>= f).Takes s (l :: ls) b P := by
  intro m rest hm
  refine gives_expectEnd_bind.mpr ⟨_, .semicolon hl, ?_⟩
  rw [List.cons_append, advance_before (by simp)]
  exact hf m rest hm

theorem takes_expectEnd_nil {f : Unit → Parser β} (hP : ∀ k, P k → closesStatement k = true)
    (hf : (f ()).Takes s [] b P) : (expectEnd >>= f).Takes s [] b P :=
  fun l rest hl => gives_expectEnd_bind.mpr ⟨_, .closing (hP _ hl), hf l rest hl⟩

end Rules

-- A tree that grows by steps along lexemes.
inductive Climbs (step : Tree → Parser (Option Tree)) (s : Scope) :
    Tree → List Lexeme → Tree → List Lexeme → Prop
  | refl {t : Tree} {ls : List Lexeme} : Climbs step s t ls t ls
  | step {t u v : Tree} {ls ms ns : List Lexeme}
      (h : (step t).Gives s (before ls) (some u) (before ms)) (hless : ms.length < ls.length)
      (hs : Climbs step s u ms v ns) : Climbs step s t ls v ns

theorem Climbs.length_le {step : Tree → Parser (Option Tree)} {t u : Tree} {ls ms : List Lexeme}
    (h : Climbs step s t ls u ms) : ms.length ≤ ls.length := by
  induction h with
  | refl => exact Nat.le_refl _
  | step _ hless _ ih => omega

theorem Climbs.snoc {step : Tree → Parser (Option Tree)} {t u v : Tree} {ls ms ns : List Lexeme}
    (h : Climbs step s t ls u ms) (hstep : (step u).Gives s (before ms) (some v) (before ns))
    (hless : ns.length < ms.length) : Climbs step s t ls v ns := by
  induction h with
  | refl => exact .step hstep hless .refl
  | step h hless' _ ih => exact .step h hless' (ih hstep hless)

-- It has grown when there is no more of it. Each step takes a lexeme, so there are rounds enough.
theorem Climbs.grow {step : Tree → Parser (Option Tree)} {t u : Tree} {ls ms : List Lexeme}
    (h : Climbs step s t ls u ms) (hne : ms ≠ [])
    (hstop : (step u).Gives s (before ms) none (before ms)) :
    (grow step t).Gives s (before ls) u (before ms) := by
  have main : ∀ rounds : List Token, ls.length ≤ rounds.length + 1 →
      (growWithin step rounds t).Gives s (before ls) u (before ms) := by
    induction h with
    | refl =>
        intro rounds _
        cases rounds with
        | nil => exact gives_pure.mpr ⟨rfl, rfl⟩
        | cons r rounds => exact hstop.bind (gives_pure.mpr ⟨rfl, rfl⟩)
    | step hstep hless hs ih =>
        intro rounds hlength
        have hpos := List.length_pos_iff.mpr hne
        have hle := hs.length_le
        cases rounds with
        | nil =>
            simp only [List.length_nil] at hlength
            omega
        | cons r rounds =>
            simp only [List.length_cons] at hlength
            exact hstep.bind (ih hne hstop rounds (by omega))
  cases ls with
  | nil => exact main [] (by simp)
  | cons l ls => exact main (ls.map Lexeme.bare) (by simp)

-- Items along lexemes, each where a token of the right kind comes first.
inductive Runs (more : TokenKind → Bool) (p : Parser α) (s : Scope) :
    List Lexeme → List α → List Lexeme → Prop
  | nil {ls : List Lexeme} : Runs more p s ls [] ls
  | cons {ls ms ns : List Lexeme} {x : α} {xs : List α}
      (hmore : more (before ls).current.kind = true) (h : p.Gives s (before ls) x (before ms))
      (hless : ms.length < ls.length) (hs : Runs more p s ms xs ns) : Runs more p s ls (x :: xs) ns

theorem Runs.length_le {more : TokenKind → Bool} {p : Parser α} {ls ms : List Lexeme} {xs : List α}
    (h : Runs more p s ls xs ms) : ms.length ≤ ls.length := by
  induction h with
  | nil => exact Nat.le_refl _
  | cons _ _ hless _ ih => omega

theorem Runs.manyWhile {more : TokenKind → Bool} {p : Parser α} {ls ms : List Lexeme} {xs : List α}
    (h : Runs more p s ls xs ms) (hne : ms ≠ []) (hstop : more (before ms).current.kind = false) :
    (manyWhile more p).Gives s (before ls) xs (before ms) := by
  have main : ∀ rounds : List Token, ls.length ≤ rounds.length + 1 →
      (manyWithin more p rounds).Gives s (before ls) xs (before ms) := by
    induction h with
    | nil =>
        intro rounds _
        cases rounds with
        | nil => exact gives_pure.mpr ⟨rfl, rfl⟩
        | cons r rounds => simp [manyWithin, hstop]
    | cons hmore hitem hless hs ih =>
        intro rounds hlength
        have hpos := List.length_pos_iff.mpr hne
        have hle := hs.length_le
        cases rounds with
        | nil =>
            simp only [List.length_nil] at hlength
            omega
        | cons r rounds =>
            simp only [List.length_cons] at hlength
            simp only [manyWithin, gives_peek_bind, hmore, if_true]
            exact hitem.bind ((ih hne hstop rounds (by omega)).bind (gives_pure.mpr ⟨rfl, rfl⟩))
  cases ls with
  | nil => exact main [] (by simp)
  | cons l ls => exact main (ls.map Lexeme.bare) (by simp)

-- The items take just these lexemes, one after another.
def TakesAll (more : TokenKind → Bool) (p : Parser α) (s : Scope) (ls : List Lexeme) (xs : List α)
    (P : TokenKind → Prop) : Prop :=
  ∀ l rest, P l.kind → Runs more p s (ls ++ l :: rest) xs (l :: rest)

section Repetition

variable {more : TokenKind → Bool} {p : Parser α} {ls ms : List Lexeme} {x : α} {xs : List α}
  {P Q : TokenKind → Prop}

theorem takesAll_nil : TakesAll more p s [] ([] : List α) P := fun _ _ _ => .nil

theorem TakesAll.cons (h : TakesAll more p s ms xs P) (hx : p.Takes s ls x Q)
    (hbegins : Begins (more · = true) ls) (hnext : Next Q ms P) :
    TakesAll more p s (ls ++ ms) (x :: xs) P := by
  intro l rest hl
  have hpos := hbegins.length_pos
  have hkind := hnext l rest hl
  rw [List.append_assoc]
  refine .cons (hbegins.current _) ?_ ?_ (h l rest hl)
  · cases ms with
    | nil => exact hx l rest hkind
    | cons m ms => exact hx m (ms ++ l :: rest) hkind
  · simp only [List.length_append]
    omega

theorem TakesAll.manyWhile (h : TakesAll more p s ls xs P) (hP : ∀ k, P k → more k = false) :
    (manyWhile more p).Takes s ls xs P :=
  fun l rest hl => (h l rest hl).manyWhile (by simp) (hP _ hl)

end Repetition

-- Lists of lexemes with commas before each of them, and with commas between them.
def afterComma (ws : List (List Lexeme)) : List Lexeme := ws.flatMap (.ofOperator .Comma :: ·)

def listed : List (List Lexeme) → List Lexeme
  | [] => []
  | w :: ws => w ++ afterComma ws

@[simp]
theorem afterComma_nil : afterComma [] = [] := rfl

@[simp]
theorem afterComma_cons (w : List Lexeme) (ws : List (List Lexeme)) :
    afterComma (w :: ws) = .ofOperator .Comma :: (w ++ afterComma ws) := by
  simp [afterComma]

theorem length_lt_afterComma {w : List Lexeme} {ws : List (List Lexeme)} (h : w ∈ ws) :
    w.length < (afterComma ws).length := by
  induction ws with
  | nil => cases h
  | cons v ws ih =>
      simp only [afterComma_cons, List.length_cons, List.length_append]
      rcases List.mem_cons.mp h with rfl | h
      · omega
      · have hlt := ih h
        omega

theorem length_le_listed {w : List Lexeme} {ws : List (List Lexeme)} (h : w ∈ ws) :
    w.length ≤ (listed ws).length := by
  cases ws with
  | nil => cases h
  | cons v ws =>
      simp only [listed, List.length_append]
      rcases List.mem_cons.mp h with rfl | h
      · omega
      · have hlt := length_lt_afterComma h
        omega

-- What comes after an item: a comma, or what follows the list.
theorem next_afterComma (ws : List (List Lexeme)) {P : TokenKind → Prop} :
    Next (fun k => k = .op .Comma ∨ P k) (afterComma ws) P := by
  cases ws with
  | nil => exact .nil fun _ => .inr
  | cons w ws =>
      rw [afterComma_cons]
      exact .cons (.inl rfl) _

theorem Next.afterComma {P Q : TokenKind → Prop} {ms : List Lexeme} (h : Next P ms Q)
    (hcomma : P (.op .Comma)) (ws : List (List Lexeme)) : Next P (afterComma ws ++ ms) Q := by
  cases ws with
  | nil => exact h
  | cons w ws =>
      rw [afterComma_cons]
      exact .cons hcomma _

section Lists

variable {p : Parser β} {f : α → β} {w : α → List Lexeme} {xs : List α} {P : TokenKind → Prop}

theorem takes_afterCommas {closing : Option TokenKind}
    (hp : ∀ x ∈ xs, p.Takes s (w x) (f x) (· = .op .Comma))
    (hlast : ∀ x ∈ xs.getLast?, p.Takes s (w x) (f x) P)
    (hbegins : ∀ x ∈ xs, Begins (fun k => some k ≠ closing) (w x)) (hP : ¬P (.op .Comma)) :
    (afterCommas closing p).Takes s (afterComma (xs.map w)) (xs.map f) P := by
  refine takes_ahead_bind fun rounds hrounds => ?_
  induction xs generalizing rounds with
  | nil =>
      cases rounds with
      | nil => exact takes_pure rfl
      | cons r rounds => exact takes_not_got (.nil fun k hk h => hP (h ▸ hk)) (takes_pure rfl)
  | cons x xs ih =>
      obtain ⟨hx, hxs⟩ := List.forall_mem_cons.mp hp
      obtain ⟨hbegin, hbegins⟩ := List.forall_mem_cons.mp hbegins
      rw [List.map_cons, afterComma_cons] at hrounds ⊢
      simp only [List.length_cons, List.length_append] at hrounds
      cases rounds with
      | nil => simp at hrounds
      | cons r rounds =>
          refine takes_got_bind rfl (takes_peek_next (hbegin.append _).next fun k hk => ?_)
          rw [if_neg hk]
          cases xs with
          | nil =>
              have hothers := ih (by simp) (by simp) (by simp) rounds (by simp)
              exact (hlast x rfl).bind (.nil fun _ h => h) (hothers.bind_nil (takes_pure rfl))
          | cons y ys =>
              have hothers := ih hxs (fun z hz => hlast z (by simpa using hz)) hbegins rounds (by
                simp at hrounds ⊢
                omega)
              rw [List.map_cons, afterComma_cons] at hothers ⊢
              exact hx.bind (.cons (by rfl) _) (hothers.bind_nil (takes_pure rfl))

theorem takes_itemsUntil {closing : TokenKind}
    (hp : ∀ x ∈ xs, p.Takes s (w x) (f x) fun k => k = .op .Comma ∨ k = closing)
    (hbegins : ∀ x ∈ xs, Begins (fun k => k ≠ closing ∧ k ≠ .eof) (w x))
    (hclosing : closing ≠ .op .Comma) :
    (itemsUntil closing p).Takes s (listed (xs.map w)) (xs.map f) (· = closing) := by
  refine takes_ahead_bind fun rounds hrounds => ?_
  induction xs generalizing rounds with
  | nil =>
      cases rounds with
      | nil => exact takes_pure rfl
      | cons r rounds =>
          refine takes_peek_next (.nil fun _ h => h) fun k hk => ?_
          rw [if_pos (.inl hk)]
          exact takes_pure rfl
  | cons x xs ih =>
      obtain ⟨hx, hxs⟩ := List.forall_mem_cons.mp hp
      obtain ⟨hbegin, hbegins⟩ := List.forall_mem_cons.mp hbegins
      have hpos := hbegin.length_pos
      rw [List.map_cons, listed] at hrounds ⊢
      rw [List.length_append] at hrounds
      cases rounds with
      | nil =>
          simp only [List.length_nil] at hrounds
          omega
      | cons r rounds =>
          refine takes_peek_next (hbegin.append _).next fun k hk => ?_
          rw [if_neg (not_or.mpr hk)]
          refine hx.bind (next_afterComma _) ?_
          cases xs with
          | nil => exact takes_not_got (.nil fun k hk h => hclosing (hk ▸ h)) (takes_pure rfl)
          | cons y ys =>
              have hothers := ih hxs hbegins rounds (by
                simp only [List.map_cons, listed, afterComma_cons, List.length_cons,
                  List.length_append] at hrounds ⊢
                omega)
              rw [List.map_cons, afterComma_cons]
              exact takes_got_bind rfl (hothers.bind_nil (takes_pure rfl))

-- One item, and others after commas.
theorem takes_commaList {x : α}
    (hp : ∀ y ∈ x :: xs, p.Takes s (w y) (f y) (· = .op .Comma))
    (hlast : ∀ y ∈ (x :: xs).getLast?, p.Takes s (w y) (f y) P)
    (hbegins : ∀ y ∈ xs, w y ≠ []) (hP : ¬P (.op .Comma)) :
    (commaList p).Takes s (listed ((x :: xs).map w)) ((x :: xs).map f) P := by
  obtain ⟨hx, hxs⟩ := List.forall_mem_cons.mp hp
  have hbegins' : ∀ y ∈ xs, Begins (fun k => some k ≠ none) (w y) := by
    intro y hy
    obtain ⟨l, ls, hls⟩ := List.exists_cons_of_ne_nil (hbegins y hy)
    exact ⟨l, ls, hls, by simp⟩
  cases xs with
  | nil =>
      have hothers : (afterCommas none p).Takes s (afterComma ([].map w)) ([].map f) P :=
        takes_afterCommas hxs (by simp) hbegins' hP
      exact (hlast x rfl).bind (.nil fun _ h => h) (hothers.bind_nil (takes_pure rfl))
  | cons y ys =>
      have hothers := takes_afterCommas hxs (fun z hz => hlast z (by simpa using hz)) hbegins' hP
      rw [List.map_cons, listed, List.map_cons, afterComma_cons]
      rw [List.map_cons, afterComma_cons] at hothers
      exact hx.bind (.cons (by rfl) _) (hothers.bind_nil (takes_pure rfl))

end Lists

-- What ends a statement: a semicolon, or nothing before what closes the statements around it.
inductive Ending : List Lexeme → (TokenKind → Prop) → Prop
  | semicolon {l : Lexeme} {P : TokenKind → Prop} (h : l.kind = .op .Semicolon) : Ending [l] P
  | closing {P : TokenKind → Prop} (h : ∀ k, P k → closesStatement k = true) : Ending [] P

namespace Ending

variable {tail : List Lexeme} {P : TokenKind → Prop} {b : β}

theorem next (h : Ending tail P) :
    Next (fun k => k = .op .Semicolon ∨ closesStatement k = true) tail P := by
  cases h with
  | semicolon h => exact .cons (.inl h) []
  | closing h => exact .nil fun k hk => .inr (h k hk)

theorem takes_expectEnd {f : Unit → Parser β} (h : Ending tail P)
    (hf : (f ()).Takes s [] b P) : (expectEnd >>= f).Takes s tail b P := by
  cases h with
  | semicolon h => exact takes_expectEnd_bind h hf
  | closing h => exact takes_expectEnd_nil h hf

end Ending

-- Lists of lexemes with semicolons between them.
def sequenced : List (List Lexeme) → List Lexeme
  | [] => []
  | w :: ws => w ++ ws.flatMap (.ofOperator .Semicolon :: ·)

theorem length_le_sequenced {w : List Lexeme} {ws : List (List Lexeme)} (h : w ∈ ws) :
    w.length ≤ (sequenced ws).length := by
  cases ws with
  | nil => cases h
  | cons v ws =>
      rw [sequenced, List.length_append]
      rcases List.mem_cons.mp h with rfl | h
      · omega
      · obtain ⟨us, vs, rfl⟩ := List.append_of_mem h
        simp only [List.flatMap_append, List.flatMap_cons, List.length_append, List.length_cons]
        omega

theorem sequenced_append {us vs : List (List Lexeme)} (hne : vs ≠ []) :
    sequenced (us ++ vs) =
      sequenced us ++ (if us = [] then [] else [.ofOperator .Semicolon]) ++ sequenced vs := by
  obtain ⟨v, vs, rfl⟩ := List.exists_cons_of_ne_nil hne
  cases us <;> simp [sequenced]

-- Items of which each is read with the semicolon after it, and the last one with what ends the list.
theorem takesAll_sequenced {more : TokenKind → Bool} {p : Parser β} {f : α → β}
    {w : α → List Lexeme} {xs : List α} {tail : List Lexeme} {P : TokenKind → Prop}
    (hp : ∀ x ∈ xs, p.Takes s (w x ++ [.ofOperator .Semicolon]) (f x) fun _ => True)
    (hlast : ∀ x ∈ xs.getLast?, p.Takes s (w x ++ tail) (f x) P)
    (hbegins : ∀ x ∈ xs, Begins (more · = true) (w x)) (htail : xs = [] → tail = []) :
    TakesAll more p s (sequenced (xs.map w) ++ tail) (xs.map f) P := by
  induction xs with
  | nil =>
      rw [htail rfl]
      exact takesAll_nil
  | cons x xs ih =>
      obtain ⟨hx, hxs⟩ := List.forall_mem_cons.mp hp
      obtain ⟨hbegin, hbegins⟩ := List.forall_mem_cons.mp hbegins
      cases xs with
      | nil =>
          have hall := TakesAll.cons takesAll_nil (hlast x rfl) (hbegin.append _)
            (.nil fun _ hk => hk)
          simpa [sequenced] using hall
      | cons y ys =>
          have hothers := ih hxs (fun z hz => hlast z (by simpa using hz)) hbegins (by simp)
          have hall := TakesAll.cons hothers hx (hbegin.append _) fun _ _ _ => trivial
          simpa [sequenced] using hall

end Parser

end GoCompact
