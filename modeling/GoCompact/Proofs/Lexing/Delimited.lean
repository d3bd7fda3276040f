import GoCompact.Proofs.Lexing.Pieces

namespace GoCompact

variable {l : Lexeme} {ls : List Lexeme} {pending : Bool}

namespace Lexeme

-- The lexemes of a text that is one lexeme.
def alone (l : Lexeme) : List Lexeme :=
  l :: if l.kind.endsStatement then [newline, ending] else [ending]

theorem Whole.lexes_alone (h : l.Whole) : Lexes pending l.text.toList l.alone := by
  have hstrung : Strung (l.text.toList ++ []) [l] [] := .token h (by simp) .nil
  have hend : Lexes l.kind.endsStatement []
      (if l.kind.endsStatement then [newline, ending] else [ending]) := by
    cases l.kind.endsStatement
    · exact .finish
    · exact .finishLine
  have hlexes : Lexes pending (l.text.toList ++ [] ++ []) _ := hstrung.lexes hend
  simpa [alone] using hlexes

end Lexeme

-- What stands in the source is read from its own text.
theorem Sourced.whole_of_mem (h : Sourced pending ls) (hl : l ∈ ls) (hwritten : l.isWritten = true) :
    l.Whole := by
  induction h with
  | finish =>
      obtain rfl := List.mem_singleton.mp hl
      cases hwritten
  | newline _ ih =>
      rcases List.mem_cons.mp hl with rfl | hl
      · cases hwritten
      · exact ih hl
  | token hm _ ih =>
      rcases List.mem_cons.mp hl with rfl | hl
      · exact hm
      · exact ih hl

namespace Lexer

variable {source : Text} {file : Option Text} {ts : List Token} {t : Token}

-- The text of a token that stands in a source has that token only, whatever followed it in the source.
theorem tokens_alone (h : tokens source file = .ok ts) (ht : t ∈ ts) (hinserted : t.isInserted = false)
    (hend : t.kind ≠ .eof) (file' : Option Text) :
    ∃ us, tokens t.text file' = .ok us ∧
      us.map (·.toLexeme) =
        t.toLexeme :: if t.kind.endsStatement then [.newline, .ending] else [.ending] := by
  have hwritten : t.toLexeme.isWritten = true := by simp [Lexeme.isWritten, hinserted, hend]
  have hwhole : t.toLexeme.Whole :=
    (lexes_of_tokens h).sourced.whole_of_mem (List.mem_map_of_mem ht) hwritten
  exact tokens_of_lexes hwhole.lexes_alone file'

-- A hexadecimal number whose exponent has a sign, before an operator of three characters.
theorem tokens_alone_number :
    ∃ ts t us, tokens "0x1.8p-3i&^=b" none = .ok ts ∧ t ∈ ts ∧ t.isInserted = false ∧ t.kind ≠ .eof ∧
      tokens t.text none = .ok us ∧
      us.map (·.toLexeme) = [⟨.literal .Imaginary, "0x1.8p-3i"⟩, .newline, .ending] := by
  let number : Token := ⟨⟨.literal .Imaginary, "0x1.8p-3i"⟩, 1, 1, 0, 9, none⟩
  have hread : ((tokens "0x1.8p-3i&^=b" none).toOption.any (number ∈ ·)) = true := by rfl
  cases hts : tokens "0x1.8p-3i&^=b" none with
  | error d => simp [hts, Except.toOption] at hread
  | ok ts =>
      have hmem : number ∈ ts := by simpa [hts, Except.toOption] using hread
      obtain ⟨us, hus, hlexemes⟩ := tokens_alone hts hmem rfl (by decide) none
      exact ⟨ts, number, us, rfl, hmem, rfl, by decide, hus, hlexemes⟩

end Lexer

end GoCompact
