import GoCompact.Proofs.Layout.Emitted

namespace GoCompact.Text

open CodePoint (char)

variable {w : Text} {l m : Lexeme}

-- A single lexeme.
theorem strung_single (h : l.Whole) : Strung l.text.toList [l] [] := by
  have hs : Strung (l.text.toList ++ []) [l] [] := .token h (by simp) .nil
  rwa [List.append_nil] at hs

theorem piece_single (h : l.Whole) : Piece l.text :=
  piece_of_strung (by simpa using h.text_ne_nil) (strung_single h)

theorem lexemes_single (h : l.Whole) : lexemes l.text = [l] :=
  lexemes_eq (strung_single h).written

-- A lexeme with a blank after it.
theorem strung_blank (h : l.Whole) (hend : l.endsBefore ' ' = true) :
    Strung (l.text.toList ++ [char ' ']) [l] [] :=
  .token h (by simpa using hend) (.blank .nil)

-- A lexeme directly before a text.
theorem strung_cons {d : CodePoint} {cs : List CodePoint} {ls : List Lexeme} (h : l.Whole)
    (hend : l.endsBefore d = true) (hs : Strung (d :: cs) ls []) :
    Strung (l.text.toList ++ d :: cs) (l :: ls) [] :=
  .token h (by simpa using hend) hs

-- A text that is a piece with known lexemes.
structure Word (w : Text) (ls : List Lexeme) : Prop where
  piece : Piece w
  lexemes : lexemes w = ls

theorem word_of_strung (cs : List CodePoint) {ls : List Lexeme} (hw : w.toList = cs) (hne : cs ≠ [])
    (h : Strung cs ls []) : Word w ls := by
  rw [← hw] at h
  exact ⟨piece_of_strung (by rintro rfl; exact hne hw.symm) h, lexemes_eq h.written⟩

theorem word_single (h : l.Whole) : Word l.text [l] := ⟨piece_single h, lexemes_single h⟩

theorem word_operator (o : Operator) : Word o.spelling [.ofOperator o] :=
  word_single (Lexeme.whole_ofOperator o)

theorem word_keyword (k : Keyword) : Word k.spelling [.ofKeyword k] :=
  word_single (Lexeme.whole_ofKeyword k)

theorem word_spaced (k : Keyword) : Word (k.spelling ++ " ") [.ofKeyword k] := by
  refine word_of_strung (k.spelling.toList ++ [char ' ']) (by simp) (by simp) ?_
  exact strung_blank (Lexeme.whole_ofKeyword k) (by cases k <;> decide)

theorem word_blank : Word " " [] := word_of_strung [' '] rfl (by simp) (.blank .nil)

-- A keyword directly before an operator. No operator begins like a name goes on.
theorem word_joined (k : Keyword) (o : Operator) :
    Word (k.spelling ++ o.spelling) [.ofKeyword k, .ofOperator o] := by
  have hhead : ∀ d ∈ o.spelling.toList.head?, continuesName d = false := by
    cases o <;> rintro d ⟨⟩ <;> decide
  have hs := strung_single (Lexeme.whole_ofOperator o)
  change Strung o.spelling.toList [.ofOperator o] [] at hs
  cases ho : o.spelling.toList with
  | nil => exact absurd ho (Lexeme.whole_ofOperator o).text_ne_nil
  | cons d ds =>
      rw [ho] at hhead hs
      refine word_of_strung (k.spelling.toList ++ d :: ds) (by simp [ho]) (by simp) ?_
      refine strung_cons (Lexeme.whole_ofKeyword k) ?_ hs
      simp [Lexeme.endsBefore, Lexeme.ofKeyword, hhead d rfl]

theorem word_assertion : Word ".(" [.ofOperator .Period, .ofOperator .LParen] := by
  refine word_of_strung ['.', '('] rfl (by simp) ?_
  exact strung_cons (d := '(') (Lexeme.whole_ofOperator .Period) (by decide)
    (strung_single (Lexeme.whole_ofOperator .LParen))

theorem word_sender : Word "chan<- " [.ofKeyword .Chan, .ofOperator .Arrow] := by
  refine word_of_strung ("chan<- ".toList) rfl (by simp) ?_
  exact strung_cons (d := '<') (Lexeme.whole_ofKeyword .Chan) (by decide)
    (strung_blank (Lexeme.whole_ofOperator .Arrow) (by decide))

theorem word_receiver : Word "<-chan " [.ofOperator .Arrow, .ofKeyword .Chan] := by
  refine word_of_strung ("<-chan ".toList) rfl (by simp) ?_
  exact strung_cons (d := 'c') (Lexeme.whole_ofOperator .Arrow) (by decide)
    (strung_blank (Lexeme.whole_ofKeyword .Chan) (by decide))

theorem word_forRange : Word "for range " [.ofKeyword .For, .ofKeyword .Range] := by
  refine word_of_strung ("for range ".toList) rfl (by simp) ?_
  exact strung_cons (d := ' ') (Lexeme.whole_ofKeyword .For) (by decide)
    (.blank (strung_blank (Lexeme.whole_ofKeyword .Range) (by decide)))

end GoCompact.Text

namespace GoCompact.Emission

open Text

@[simp]
theorem words_operator (o : Operator) : (operator o).words = [.ofOperator o] := by
  rw [operator, words_write, (word_operator o).lexemes]

@[simp]
theorem words_keyword (k : Keyword) : (keyword k).words = [.ofKeyword k] := by
  rw [keyword, words_write, (word_keyword k).lexemes]

@[simp]
theorem words_spaced (k : Keyword) : (spaced k).words = [.ofKeyword k] := by
  rw [spaced, words_write, (word_spaced k).lexemes]

@[simp]
theorem words_joined (k : Keyword) (o : Operator) :
    (joined k o).words = [.ofKeyword k, .ofOperator o] := by
  rw [joined, words_write, (word_joined k o).lexemes]

@[simp]
theorem words_blank : blank.words = [] := by
  rw [blank, words_write, word_blank.lexemes]

@[simp]
theorem words_assertion : assertion.words = [.ofOperator .Period, .ofOperator .LParen] := by
  rw [assertion, words_write, word_assertion.lexemes]

@[simp]
theorem words_when_blank (condition : Bool) : (when condition blank).words = [] := by
  cases condition
  · rfl
  · exact words_blank

-- The words of the mark of a channel.
def directionWords : Direction → List Lexeme
  | .neither => []
  | .both => [.ofKeyword .Chan]
  | .send => [.ofKeyword .Chan, .ofOperator .Arrow]
  | .receive => [.ofOperator .Arrow, .ofKeyword .Chan]

theorem words_channelMark (d : Direction) (f : Role → Emission) :
    (Rule.channelMark ⟨.direction d, f⟩).words = directionWords d := by
  cases d with
  | neither => rfl
  | both => exact words_spaced .Chan
  | send => exact (words_write _).trans word_sender.lexemes
  | receive => exact (words_write _).trans word_receiver.lexemes

theorem words_separated {separator : Text} {e : Emission} {es : List Emission}
    (h : ∀ f ∈ e :: es, f.fault = none) :
    (separated separator (e :: es)).words =
      e.words ++ es.flatMap fun f => lexemes separator ++ f.words := by
  induction es generalizing e with
  | nil => simp [separated]
  | cons f es ih =>
      rw [separated, words_append (h e (by simp)), words_append (fault_write _), words_write,
        ih fun g hg => h g (by simp [hg])]
      · simp
      · simp

theorem fault_separated {separator : Text} {es : List Emission} (h : ∀ e ∈ es, e.fault = none) :
    (separated separator es).fault = none := by
  induction es with
  | nil => rfl
  | cons e es ih =>
      cases es with
      | nil => exact h e (by simp)
      | cons f es =>
          rw [separated, fault_append (h e (by simp)), fault_append (fault_write _)]
          · exact ih fun g hg => h g (by simp [hg])
          · simp

end GoCompact.Emission
