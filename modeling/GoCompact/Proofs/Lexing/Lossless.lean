import GoCompact.Proofs.Lexing.Pieces
import GoCompact.Proofs.Lexing.Steps

namespace GoCompact

open CodePoint (char)

namespace Text

-- The part of a text between two offsets.
def between (cs : List CodePoint) (start stop : Nat) : List CodePoint :=
  (cs.drop start).take (stop - start)

-- A text of blanks, line ends and complete comments, and what follows it. A line comment is complete
-- at the end of its line, and a block comment where it is closed first.
inductive IsGap : List CodePoint → List CodePoint → Prop
  | nil {after : List CodePoint} : IsGap [] after
  | blank {c : CodePoint} {cs after : List CodePoint} (hc : c = ' ' ∨ c = '\t' ∨ c = '\r')
      (h : IsGap cs after) : IsGap (c :: cs) after
  | newline {cs after : List CodePoint} (h : IsGap cs after) : IsGap ('\n' :: cs) after
  | lineComment {body cs after : List CodePoint} (hbody : char '\n' ∉ body)
      (hend : cs ++ after = [] ∨ (cs ++ after).head? = some (char '\n')) (h : IsGap cs after) :
      IsGap (char '/' :: '/' :: body ++ cs) after
  | blockComment {body cs after : List CodePoint} (hbody : ¬[char '*', char '/'] <:+: body)
      (h : IsGap cs after) : IsGap (char '/' :: '*' :: body ++ char '*' :: '/' :: cs) after

-- A part of a source that is such a text.
def GapBetween (source : List CodePoint) (start stop : Nat) : Prop :=
  start ≤ stop ∧ IsGap (between source start stop) (source.drop stop)

theorem between_append {source : List CodePoint} {a b c : Nat} (hab : a ≤ b) (hbc : b ≤ c) :
    between source a b ++ between source b c = between source a c := by
  have hsplit := List.take_append_drop (b - a) ((source.drop a).take (c - a))
  rw [List.take_take, List.drop_take, List.drop_drop, Nat.min_eq_left (by omega),
    show a + (b - a) = b by omega, show c - a - (b - a) = c - b by omega] at hsplit
  exact hsplit

theorem between_append_drop {source : List CodePoint} {a b : Nat} (hab : a ≤ b) :
    between source a b ++ source.drop b = source.drop a := by
  have hsplit := List.take_append_drop (b - a) (source.drop a)
  rwa [List.drop_drop, show a + (b - a) = b by omega] at hsplit

theorem IsGap.append {cs ds after : List CodePoint} (h : IsGap cs (ds ++ after)) (h' : IsGap ds after) :
    IsGap (cs ++ ds) after := by
  generalize hfollow : ds ++ after = follow at h
  induction h with
  | nil => exact h'
  | blank hc _ ih => exact .blank hc (ih hfollow)
  | newline _ ih => exact .newline (ih hfollow)
  | lineComment hbody hend _ ih =>
      subst hfollow
      rw [← List.append_assoc] at hend
      rw [List.append_assoc]
      exact .lineComment hbody hend (ih rfl)
  | blockComment hbody _ ih =>
      rw [List.append_assoc]
      exact .blockComment hbody (ih hfollow)

theorem GapBetween.trans {source : List CodePoint} {a b c : Nat} (h : GapBetween source a b)
    (h' : GapBetween source b c) : GapBetween source a c := by
  refine ⟨Nat.le_trans h.1 h'.1, ?_⟩
  rw [← between_append h.1 h'.1]
  refine IsGap.append ?_ h'.2
  rw [between_append_drop h'.1]
  exact h.2

-- The pieces that the lexer passes over make up such a text.
theorem isGap_of_passed {cs rest : List CodePoint} {gaps : List Gap} (h : Gap.Passed cs gaps rest) :
    IsGap (Gap.textAll gaps) rest := by
  induction h with
  | nil => exact .nil
  | @cons cs ds rest gap gaps hread hs ih =>
      have hds := hs.eq
      rw [Gap.textAll_cons]
      rcases Gap.read_cases hread with ⟨c, rfl, hc⟩ | rfl | ⟨body, rfl, hbody, hend⟩ |
        ⟨body, rfl, hbody⟩
      · refine .blank ?_ ih
        simpa [Gap.isBlank, or_assoc] using hc
      · exact .newline ih
      · refine .lineComment hbody ?_ ih
        rw [← hds]
        cases ds with
        | nil => exact Or.inl rfl
        | cons d ds => exact Or.inr (congrArg some (hend d rfl))
      · have htext : (Gap.blockComment body).text ++ Gap.textAll gaps =
            char '/' :: '*' :: body ++ char '*' :: '/' :: Gap.textAll gaps := by simp [Gap.text]
        rw [htext]
        exact .blockComment hbody ih

end Text

namespace Token

-- A token that stands where its offsets say, with the text that stands there.
structure Faithful (source : List CodePoint) (t : Token) : Prop where
  span : t.offset ≤ t.endOffset
  within : t.endOffset ≤ source.length
  text : t.isInserted = false → Text.between source t.offset t.endOffset = t.text.toList
  inserted : t.isInserted = true → t.offset = t.endOffset
  operator : t.isInserted = false → ∀ o, t.kind = .op o → t.text = o.spelling
  keyword : ∀ k, t.kind = .word k → t.text = k.spelling
  ending : t.kind = .eof → t.offset = source.length

-- Tokens from an offset on, in order and with nothing but gaps before and between them.
def Spaced (source : List CodePoint) : Nat → List Token → Prop
  | _, [] => True
  | start, t :: ts => Text.GapBetween source start t.offset ∧ Spaced source t.endOffset ts

-- An inserted semicolon stands in a gap, which is one also without it.
theorem Spaced.filter {source : List CodePoint} {start : Nat} {ts : List Token}
    (hts : ∀ t ∈ ts, t.Faithful source) (h : Spaced source start ts) :
    Spaced source start (ts.filter (!·.isInserted)) := by
  have hwiden : ∀ {a b : Nat} {us : List Token}, Text.GapBetween source a b →
      Spaced source b us → Spaced source a us := by
    intro a b us hab hus
    cases us with
    | nil => trivial
    | cons u us => exact ⟨hab.trans hus.1, hus.2⟩
  induction ts generalizing start with
  | nil => trivial
  | cons t ts ih =>
      obtain ⟨ht, hts⟩ := List.forall_mem_cons.mp hts
      have hrest := ih hts h.2
      cases hins : t.isInserted with
      | false =>
          rw [List.filter_cons_of_pos (by simp [hins])]
          exact ⟨h.1, hrest⟩
      | true =>
          rw [List.filter_cons_of_neg (by simp [hins])]
          rw [← ht.inserted hins] at hrest
          exact hwiden h.1 hrest

end Token

namespace Lexer

variable {source : List CodePoint} {s s' : Lexer} {t : Token}

-- What is left to read is the source from the offset on.
structure Placed (source : List CodePoint) (s : Lexer) : Prop where
  rest : s.rest = source.drop s.offset
  within : s.offset ≤ source.length

theorem Placed.new (source : Text) (file : Option Text) :
    (new source file).Placed source.toList :=
  ⟨rfl, Nat.zero_le _⟩

-- After a text that was there the lexer stands behind it.
theorem drop_of_append {start : Nat} {text rest : List CodePoint}
    (h : source.drop start = text ++ rest) (hstart : start ≤ source.length) :
    Text.between source start (start + text.length) = text ∧
      source.drop (start + text.length) = rest ∧ start + text.length ≤ source.length := by
  have hlength := congrArg List.length h
  rw [List.length_drop, List.length_append] at hlength
  refine ⟨?_, ?_, by omega⟩
  · rw [Text.between, h, Nat.add_sub_cancel_left, List.take_left]
  · rw [← List.drop_drop, h, List.drop_left]

theorem Placed.pass {rest : List CodePoint} {gaps : List Gap} (h : s.Placed source)
    (hpassed : Gap.Passed s.rest gaps rest) :
    (s.pass rest gaps).Placed source ∧
      Text.GapBetween source s.offset (s.pass rest gaps).offset := by
  have htext := hpassed.eq
  have hgap := Text.isGap_of_passed hpassed
  rw [h.rest] at htext
  obtain ⟨hbetween, hdrop, hwithin⟩ := drop_of_append htext h.within
  have hrest := pass_rest (hpassed.eq)
  refine ⟨⟨?_, ?_⟩, ?_, ?_⟩
  · rw [hrest, pass_offset, hdrop]
  · rw [pass_offset]
    exact hwithin
  · rw [pass_offset]
    exact Nat.le_add_right _ _
  · rw [pass_offset, hbetween, hdrop]
    exact hgap

theorem offset_scanned (s : Lexer) (scan : Scan) :
    (s.scanned scan).2.offset = s.offset + scan.text.length := by
  simp only [scanned]
  split <;> rfl

theorem rest_scanned (s : Lexer) (scan : Scan) : (s.scanned scan).2.rest = scan.rest := by
  simp only [scanned]
  split <;> rfl

-- A token that is given where the lexer stands.
theorem Given.faithful (h : Given s t s') (hs : s.Placed source) :
    t.Faithful source ∧ t.offset = s.offset ∧ s'.Placed source ∧ s'.offset = t.endOffset := by
  have hsemicolon : s.insertedSemicolon.Faithful source :=
    ⟨Nat.le_refl _, hs.within, by rintro ⟨⟩, fun _ => rfl, by rintro ⟨⟩, by rintro k ⟨⟩, by rintro ⟨⟩⟩
  cases h with
  | inserted => exact ⟨hsemicolon, rfl, ⟨hs.rest, hs.within⟩, rfl⟩
  | insertedLast => exact ⟨hsemicolon, rfl, ⟨hs.rest, hs.within⟩, rfl⟩
  | ending hpending hrest =>
      refine ⟨⟨Nat.le_refl _, hs.within, fun _ => ?_, fun _ => rfl, by rintro - o ⟨⟩,
        by rintro k ⟨⟩, fun _ => ?_⟩, rfl, hs, rfl⟩
      · simp [Text.between, tokenHere]
      · have hdrop := hs.rest
        rw [hrest] at hdrop
        have hwithin := hs.within
        have hlength := List.drop_eq_nil_iff.mp hdrop.symm
        exact Nat.le_antisymm hwithin hlength
  | @scanned c cs scan hrest hgap hscan =>
      have happend := Scan.eq_of_token hscan
      have htext := hs.rest
      rw [hrest, happend] at htext
      obtain ⟨hbetween, hdrop, hwithin⟩ := drop_of_append htext.symm hs.within
      obtain ⟨hoperator, hkeyword⟩ := Scan.text_of_token hscan
      refine ⟨⟨Nat.le_add_right _ _, hwithin, fun _ => ?_, fun h => ?_, fun _ o ho => ?_,
        fun k hk => ?_, fun h => absurd h (Scan.kind_ne_eof hscan)⟩, rfl, ⟨?_, ?_⟩, ?_⟩
      · change _ = (Text.ofList scan.text).toList
        rw [Text.toList_ofList]
        exact hbetween
      · -- a semicolon in the text is written with its own character
        obtain ⟨hkind, hline⟩ := by simpa [Lexeme.isInserted] using h
        have hspelling := hoperator _ hkind
        have hline : Text.ofList scan.text = lineEnd := hline
        rw [hspelling] at hline
        exact absurd hline (by decide)
      · change Text.ofList scan.text = _
        rw [hoperator o ho, Text.ofList_toList]
      · change Text.ofList scan.text = _
        rw [hkeyword k hk, Text.ofList_toList]
      · rw [rest_scanned, offset_scanned, hdrop]
      · rw [offset_scanned]
        exact hwithin
      · exact offset_scanned s scan

-- What one step gives, and that the next one goes on from there.
theorem faithful_of_next (hs : s.Placed source) (h : s.next = .ok (t, s')) :
    t.Faithful source ∧ Text.GapBetween source s.offset t.offset ∧ s'.Placed source ∧
      s'.offset = t.endOffset := by
  obtain ⟨gaps, rest, hpassed, -, hgiven⟩ := next_cases h
  obtain ⟨hpass, hgap⟩ := hs.pass hpassed
  obtain ⟨hfaithful, hoffset, hs', hend⟩ := hgiven.faithful hpass
  rw [← hoffset] at hgap
  exact ⟨hfaithful, hgap, hs', hend⟩

theorem faithful_of_draw (hs : s.Placed source) (n : Nat) :
    (∀ t ∈ (draw n s).tokens, t.Faithful source) ∧
      Token.Spaced source s.offset (draw n s).tokens := by
  induction n generalizing s with
  | zero => exact ⟨by simp [draw], trivial⟩
  | succ n ih =>
      unfold draw
      cases hnext : s.next with
      | error d => exact ⟨by simp, trivial⟩
      | ok p =>
          obtain ⟨t, s'⟩ := p
          obtain ⟨ht, hgap, hs', hend⟩ := faithful_of_next hs hnext
          dsimp only
          split
          · exact ⟨by simpa using ht, hgap, trivial⟩
          · obtain ⟨hts, hspaced⟩ := ih hs'
            rw [hend] at hspaced
            exact ⟨List.forall_mem_cons.mpr ⟨ht, hts⟩, hgap, hspaced⟩

-- Every token that is drawn stands in the source as it says, in order, and there are only blanks, line
-- ends and complete comments before and between the tokens, whether those that are inserted count
-- among them or not.
theorem draw_lossless (source : Text) (file : Option Text) (n : Nat) :
    (∀ t ∈ ((new source file).draw n).tokens, t.Faithful source.toList) ∧
      Token.Spaced source.toList 0 ((new source file).draw n).tokens ∧
      Token.Spaced source.toList 0
        (((new source file).draw n).tokens.filter (!·.isInserted)) := by
  obtain ⟨hfaithful, hspaced⟩ := faithful_of_draw (Placed.new source file) n
  exact ⟨hfaithful, hspaced, hspaced.filter hfaithful⟩

end Lexer

end GoCompact
