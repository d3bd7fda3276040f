import GoCompact.Proofs.Grammar.Run
import GoCompact.Proofs.Lexing.Pieces

namespace GoCompact

namespace Lexeme

-- Lexemes that only separate or group others.
def separates (l : Lexeme) : Bool :=
  l.kind == .op .Comma || l.kind == .op .Semicolon || l.kind == .op .LParen || l.kind == .op .RParen

-- Those of them that are counted: opening parentheses and commas.
def groups (l : Lexeme) : Bool := l.kind == .op .LParen || l.kind == .op .Comma

end Lexeme

-- A list of lexemes without separators.
def content (ls : List Lexeme) : List Lexeme := ls.filter (!·.separates)

@[simp]
theorem content_nil : content [] = [] := rfl

theorem content_cons (l : Lexeme) (ls : List Lexeme) :
    content (l :: ls) = content [l] ++ content ls :=
  List.filter_append [l] ls

@[simp]
theorem content_append (ls ms : List Lexeme) : content (ls ++ ms) = content ls ++ content ms :=
  List.filter_append ..

-- The number of groupings in a list of lexemes.
def groupings (ls : List Lexeme) : Nat := ls.countP Lexeme.groups

@[simp]
theorem groupings_nil : groupings [] = 0 := rfl

theorem groupings_cons (l : Lexeme) (ls : List Lexeme) :
    groupings (l :: ls) = (if l.groups then 1 else 0) + groupings ls := by
  rw [groupings, List.countP_cons, groupings, Nat.add_comm]

@[simp]
theorem groupings_append (ls ms : List Lexeme) :
    groupings (ls ++ ms) = groupings ls + groupings ms :=
  List.countP_append ..

-- The number of loops whose header begins with a semicolon.
def openLoops : List Lexeme → Nat
  | [] => 0
  | l :: ls =>
    (if l.kind = .word .For ∧ ls.head?.map (·.kind) = some (.op .Semicolon) then 1 else 0) +
      openLoops ls

def cost (ls : List Lexeme) : Nat := groupings ls + openLoops ls

theorem Sourced.ne_nil {pending : Bool} {ls : List Lexeme} (h : Sourced pending ls) : ls ≠ [] := by
  cases h <;> simp

namespace Cursor

variable {c : Cursor}

def lexemes (c : Cursor) : List Lexeme := (c.current :: c.upcoming).map (·.toLexeme)

-- The tokens from the current one on come from a text.
def Valid (c : Cursor) : Prop := ∃ pending, Sourced pending c.lexemes

-- The current token does not stand for the end of a line.
def Fresh (c : Cursor) : Prop := Sourced false c.lexemes

def content (c : Cursor) : List Lexeme := GoCompact.content c.lexemes

def cost (c : Cursor) : Nat := GoCompact.cost c.lexemes

theorem Fresh.valid (h : c.Fresh) : c.Valid := ⟨false, h⟩

-- The current token and what comes after it, unless it is the end.
theorem Valid.cases (h : c.Valid) (hkind : c.current.kind ≠ .eof) :
    c.lexemes = c.current.toLexeme :: c.advance.lexemes ∧
      c.advance.upcoming.length < c.upcoming.length ∧
      ((c.current.toLexeme.Whole ∧
          Sourced c.current.kind.endsStatement c.advance.lexemes) ∨
        (c.current.toLexeme = .newline ∧ c.advance.Fresh)) := by
  obtain ⟨pending, h⟩ := h
  obtain ⟨t, ts⟩ := c
  cases ts with
  | nil =>
      generalize hl : (⟨t, []⟩ : Cursor).lexemes = ls at h
      cases h with
      | finish =>
          obtain ⟨ht, -⟩ := List.cons.inj hl
          exact absurd (congrArg Lexeme.kind ht) hkind
      | newline h =>
          obtain ⟨-, rfl⟩ := List.cons.inj hl
          exact absurd rfl h.ne_nil
      | token hl' h =>
          obtain ⟨-, rfl⟩ := List.cons.inj hl
          exact absurd rfl h.ne_nil
  | cons u us =>
      refine ⟨rfl, by simp [advance], ?_⟩
      generalize hl : (⟨t, u :: us⟩ : Cursor).lexemes = ls at h
      cases h with
      | finish => simp [lexemes] at hl
      | newline h =>
          obtain ⟨ht, rfl⟩ := List.cons.inj hl
          exact Or.inr ⟨ht, h⟩
      | token hl' h =>
          obtain ⟨rfl, rfl⟩ := List.cons.inj hl
          exact Or.inl ⟨hl', h⟩

theorem Valid.advance (h : c.Valid) (hkind : c.current.kind ≠ .eof) : c.advance.Valid := by
  obtain ⟨-, -, ⟨-, hs⟩ | ⟨-, hs⟩⟩ := h.cases hkind
  · exact ⟨_, hs⟩
  · exact ⟨_, hs⟩

-- Nothing but the end comes last.
theorem Valid.kind_eq_eof (h : c.Valid) (hlast : c.upcoming = []) : c.current.kind = .eof := by
  by_contra hkind
  have hless := (h.cases hkind).2.1
  rw [hlast] at hless
  exact Nat.not_lt_zero _ hless

-- A token that is no semicolon is read from its own text.
theorem Valid.whole (h : c.Valid) (hkind : c.current.kind ≠ .eof)
    (hsemicolon : c.current.kind ≠ .op .Semicolon) : c.current.toLexeme.Whole := by
  obtain ⟨-, -, ⟨hw, -⟩ | ⟨hn, -⟩⟩ := h.cases hkind
  · exact hw
  · exact absurd (congrArg Lexeme.kind hn) hsemicolon

theorem Valid.eq_ofOperator {o : Operator} (h : c.Valid) (hkind : c.current.kind = .op o)
    (ho : o ≠ .Semicolon) : c.current.toLexeme = .ofOperator o :=
  (h.whole (by simp [hkind]) (by simp [hkind, ho])).eq_ofOperator hkind

theorem Valid.eq_ofKeyword {k : Keyword} (h : c.Valid) (hkind : c.current.kind = .word k) :
    c.current.toLexeme = .ofKeyword k :=
  (h.whole (by simp [hkind]) (by simp [hkind])).eq_ofKeyword hkind

-- After a token that cannot end a statement a line does not end one.
theorem Valid.fresh_advance (h : c.Valid) (hkind : c.current.kind ≠ .eof)
    (hend : c.current.kind.endsStatement = false) : c.advance.Fresh := by
  obtain ⟨-, -, ⟨-, hs⟩ | ⟨-, hs⟩⟩ := h.cases hkind
  · rw [hend] at hs
    exact hs
  · exact hs

-- Before anything but a semicolon the end of a line is not read.
theorem Valid.fresh (h : c.Valid) (hkind : c.current.kind ≠ .op .Semicolon) : c.Fresh := by
  obtain ⟨pending, h⟩ := h
  unfold Fresh
  generalize hl : c.lexemes = ls at h
  cases h with
  | finish => exact .finish
  | newline h =>
      obtain ⟨ht, -⟩ := List.cons.inj hl
      exact absurd (congrArg Lexeme.kind ht) hkind
  | token hl' h => exact .token hl' h

theorem Fresh.text_ne_lineEnd (h : c.Fresh) : c.current.toLexeme ≠ .newline := by
  unfold Fresh at h
  generalize hl : c.lexemes = ls at h
  intro hn
  cases h with
  | finish =>
      have ht : c.current.toLexeme = .ending := (List.cons.inj hl).1
      rw [ht] at hn
      cases hn
  | token hl' h =>
      have ht : c.current.toLexeme = _ := (List.cons.inj hl).1
      have hwritten := hl'.isWritten
      rw [← ht, hn] at hwritten
      exact absurd hwritten (by decide)

end Cursor

-- A part of a text from one cursor to another, with its content. Its cost is at least `n`, and if it
-- is not more, then `plain` holds.
structure Segment (c : Cursor) (w : List Lexeme) (n : Nat) (plain : Prop) (c' : Cursor) : Prop where
  valid : c'.Valid
  progress : c'.upcoming.length ≤ c.upcoming.length
  content : c.content = w ++ c'.content
  cost : n + c'.cost ≤ c.cost
  plain : n + c'.cost = c.cost → plain

namespace Segment

variable {c d e : Cursor} {w v : List Lexeme} {n m : Nat} {P Q : Prop}

theorem refl (h : c.Valid) : Segment c [] 0 True c :=
  ⟨h, Nat.le_refl _, rfl, by simp, fun _ => trivial⟩

theorem trans (h : Segment c w n P d) (h' : Segment d v m Q e) :
    Segment c (w ++ v) (n + m) (P ∧ Q) e where
  valid := h'.valid
  progress := Nat.le_trans h'.progress h.progress
  content := by rw [h.content, h'.content, List.append_assoc]
  cost := by
    have hc := h.cost
    have hc' := h'.cost
    omega
  plain hn := by
    have hc := h.cost
    have hc' := h'.cost
    exact ⟨h.plain (by omega), h'.plain (by omega)⟩

-- A smaller cost than the one that was found may be given.
theorem weaken (h : Segment c w n P d) (hw : v = w) (hm : m ≤ n) (hq : m = n → P → Q) :
    Segment c v m Q d where
  valid := h.valid
  progress := h.progress
  content := by rw [hw, h.content]
  cost := by
    have hc := h.cost
    omega
  plain hn := by
    have hc := h.cost
    exact hq (by omega) (h.plain (by omega))

theorem advance (hc : c.Valid) (hkind : c.current.kind ≠ .eof) :
    Segment c (GoCompact.content [c.current.toLexeme]) (groupings [c.current.toLexeme])
      (c.current.kind = .word .For → c.advance.current.kind ≠ .op .Semicolon) c.advance := by
  obtain ⟨hl, hless, -⟩ := hc.cases hkind
  have hcost : c.cost = groupings [c.current.toLexeme] + (if c.current.kind = .word .For ∧
      c.advance.current.kind = .op .Semicolon then 1 else 0) + c.advance.cost := by
    have hhead : c.advance.lexemes.head?.map (·.kind) = some c.advance.current.kind := rfl
    simp only [Cursor.cost, GoCompact.cost, hl, groupings_cons, openLoops, hhead,
      Option.some.injEq, groupings_nil]
    omega
  refine ⟨hc.advance hkind, Nat.le_of_lt hless, ?_, by omega, fun h hfor hsemicolon => ?_⟩
  · rw [Cursor.content, hl, content_cons]
    rfl
  · rw [if_pos ⟨hfor, hsemicolon⟩] at hcost
    omega

theorem operator {o : Operator} (hc : c.Valid) (hkind : c.current.kind = .op o) :
    Segment c (GoCompact.content [.ofOperator o]) (groupings [.ofOperator o]) True c.advance := by
  refine (advance hc (by simp [hkind])).weaken ?_ ?_ fun _ _ => trivial
  · by_cases ho : o = .Semicolon
    · subst ho
      obtain ⟨-, -, ⟨hw, -⟩ | ⟨hn, -⟩⟩ := hc.cases (by simp [hkind])
      · rw [hw.eq_ofOperator hkind]
      · rw [hn]
        decide
    · rw [hc.eq_ofOperator hkind ho]
  · simp [groupings_cons, Lexeme.groups, hkind, Lexeme.ofOperator]

theorem keyword {k : Keyword} (hc : c.Valid) (hkind : c.current.kind = .word k) :
    Segment c (GoCompact.content [.ofKeyword k]) 0
      (k = .For → c.advance.current.kind ≠ .op .Semicolon) c.advance := by
  refine (advance hc (by simp [hkind])).weaken ?_ (Nat.zero_le _) fun _ hfor hk => ?_
  · rw [hc.eq_ofKeyword hkind]
  · exact hfor (by rw [hkind, hk])

-- A loop whose header begins with a semicolon.
theorem openLoop (hc : c.Valid) (hkind : c.current.kind = .word .For)
    (hnext : c.advance.current.kind = .op .Semicolon) :
    Segment c (GoCompact.content [.ofKeyword .For]) 1 True c.advance := by
  have hsegment := advance hc (by simp [hkind])
  refine ⟨hsegment.valid, hsegment.progress, ?_, ?_, fun _ => trivial⟩
  · rw [hsegment.content, hc.eq_ofKeyword hkind]
  · have hcost := hsegment.cost
    have hplain := hsegment.plain
    by_cases h : groupings [c.current.toLexeme] + c.advance.cost = c.cost
    · exact absurd hnext (hplain h hkind)
    · omega

-- A name or a literal.
theorem literal (hc : c.Valid) (hkind : c.current.kind.isLiteral = true) :
    Segment c (GoCompact.content [c.current.toLexeme]) 0 True c.advance := by
  have heof : c.current.kind ≠ .eof := by
    intro h
    rw [h] at hkind
    cases hkind
  exact (advance hc heof).weaken rfl (Nat.zero_le _) fun _ _ => trivial

-- The end of a statement.
theorem ends (hc : c.Valid) (h : Parser.Ends c d) : Segment c [] 0 True d := by
  cases h with
  | closing => exact refl hc
  | semicolon h => exact (operator hc h).weaken rfl (Nat.zero_le _) fun _ h => h

end Segment

end GoCompact
