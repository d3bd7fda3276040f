import GoCompact.Proofs.Lexing.Lossless

namespace GoCompact

open CodePoint (char)

namespace Text

-- The column of an offset: how far it is behind the last of the places where a line ends.
structure ColumnAfter (ends : Nat → Prop) (offset column : Nat) : Prop where
  behind : ∀ i < offset, ends i → (∀ j, i < j → j < offset → ¬ends j) → column = offset - i
  first : (∀ i < offset, ¬ends i) → column = offset + 1

-- The offset at which the last line begins that ends before an offset.
structure LineStart (ends : Nat → Prop) (offset start : Nat) : Prop where
  le : start ≤ offset
  after : start = 0 ∨ ends (start - 1)
  clear : ∀ i, start ≤ i → i < offset → ¬ends i

theorem LineStart.column {ends : Nat → Prop} {offset start : Nat} (h : LineStart ends offset start) :
    ColumnAfter ends offset (offset - start + 1) := by
  have hle := h.le
  constructor
  · intro i hi hend hlast
    have hstart : i < start := Nat.lt_of_not_le fun hge => h.clear i hge hi hend
    rcases h.after with hzero | hbefore
    · omega
    · have hnot : ¬i < start - 1 := fun hlt => hlast _ hlt (by omega) hbefore
      omega
  · intro hnone
    rcases h.after with hzero | hbefore
    · omega
    · by_cases hpos : start = 0
      · omega
      · exact absurd hbefore (hnone _ (by omega))

-- Only the line ends before an offset tell where its line begins.
theorem LineStart.congr {ends ends' : Nat → Prop} {offset start : Nat}
    (h : LineStart ends offset start) (heq : ∀ i < offset, (ends i ↔ ends' i)) :
    LineStart ends' offset start := by
  have hle := h.le
  refine ⟨h.le, ?_, fun i hi hlt hend => h.clear i hi hlt ((heq i hlt).mpr hend)⟩
  rcases h.after with hzero | hbefore
  · exact Or.inl hzero
  · by_cases hpos : start = 0
    · exact Or.inl hpos
    · exact Or.inr ((heq _ (by omega)).mp hbefore)

theorem ColumnAfter.congr {ends ends' : Nat → Prop} {offset column : Nat}
    (h : ColumnAfter ends offset column) (heq : ∀ i < offset, (ends i ↔ ends' i)) :
    ColumnAfter ends' offset column := by
  constructor
  · intro i hi hend hlast
    refine h.behind i hi ((heq i hi).mpr hend) fun j hij hj hend => ?_
    exact hlast j hij hj ((heq j hj).mp hend)
  · intro hnone
    exact h.first fun i hi hend => hnone i hi ((heq i hi).mp hend)

-- The line of the column is told by the place of the last line end, so there is one column.
theorem ColumnAfter.unique {ends : Nat → Prop} {offset column other : Nat}
    (h : ColumnAfter ends offset column) (h' : ColumnAfter ends offset other) : column = other := by
  by_cases hnone : ∀ i < offset, ¬ends i
  · rw [h.first hnone, h'.first hnone]
  · push Not at hnone
    classical
    obtain ⟨i, hi, hend⟩ := hnone
    let last := Nat.findGreatest (fun j => j < offset ∧ ends j) offset
    have hlast : last < offset ∧ ends last :=
      Nat.findGreatest_spec (P := fun j => j < offset ∧ ends j) (Nat.le_of_lt hi) ⟨hi, hend⟩
    have hafter : ∀ j, last < j → j < offset → ¬ends j := fun j hlt hj hend =>
      Nat.findGreatest_is_greatest (P := fun j => j < offset ∧ ends j) hlt (Nat.le_of_lt hj) ⟨hj, hend⟩
    rw [h.behind last hlast.1 hlast.2 hafter, h'.behind last hlast.1 hlast.2 hafter]

-- A text with a line end: what is before the last one, and the line after it.
theorem exists_lastLine {cs : List CodePoint} (h : char '\n' ∈ cs) :
    ∃ init line, cs = init ++ char '\n' :: line ∧ char '\n' ∉ line ∧
      (cs.reverse.takeWhile (· != char '\n')).length = line.length := by
  obtain ⟨line, init, heq, hline⟩ := List.eq_append_cons_of_mem (List.mem_reverse.mpr h)
  refine ⟨init.reverse, line.reverse, ?_, by simpa using hline, ?_⟩
  · rw [← List.reverse_reverse cs, heq]
    simp
  · rw [heq, List.takeWhile_append_of_pos, List.takeWhile_cons_of_neg (by simp), List.append_nil,
      List.length_reverse]
    intro c hc
    simp only [bne_iff_ne]
    rintro rfl
    exact hline hc

-- The beginning of the line after the last line end of a text, counted from the beginning of the text.
theorem lineStart_of_mem {cs : List CodePoint} (h : char '\n' ∈ cs) :
    0 < cs.length - (cs.reverse.takeWhile (· != char '\n')).length ∧
      LineStart (fun i => cs[i]? = some (char '\n')) cs.length
        (cs.length - (cs.reverse.takeWhile (· != char '\n')).length) := by
  obtain ⟨init, line, rfl, hline, hlength⟩ := exists_lastLine h
  have hstart : (init ++ char '\n' :: line).length -
      ((init ++ char '\n' :: line).reverse.takeWhile (· != char '\n')).length = init.length + 1 := by
    rw [hlength]
    simp
    omega
  rw [hstart]
  refine ⟨by omega, by simp, Or.inr (by simp), ?_⟩
  intro i hi _ hend
  obtain ⟨k, rfl⟩ := Nat.exists_eq_add_of_le hi
  rw [List.getElem?_append_right (by omega), show init.length + 1 + k - init.length = k + 1 by omega,
    List.getElem?_cons_succ] at hend
  exact hline (List.mem_of_getElem? hend)

theorem columnAfter_columnAt (source : List CodePoint) {offset : Nat} (h : offset ≤ source.length) :
    ColumnAfter (fun i => source[i]? = some (char '\n')) offset (Lexer.columnAt source offset) := by
  have htake : ∀ i < offset,
      ((source.take offset)[i]? = some (char '\n') ↔ source[i]? = some (char '\n')) := by
    intro i hi
    rw [List.getElem?_take_of_lt hi]
  have hlength : (source.take offset).length = offset := List.length_take_of_le h
  refine ColumnAfter.congr ?_ htake
  unfold Lexer.columnAt
  by_cases hmem : char '\n' ∈ source.take offset
  · obtain ⟨-, hline⟩ := lineStart_of_mem hmem
    have hcolumn := hline.column
    rw [hlength] at hcolumn
    obtain ⟨init, line, heq, -, hlast⟩ := exists_lastLine hmem
    have hle : line.length ≤ offset := by
      rw [← hlength, heq]
      simp
      omega
    rwa [hlast, show offset - (offset - line.length) + 1 = line.length + 1 by omega,
      ← hlast] at hcolumn
  · have hall : (source.take offset).reverse.takeWhile (· != char '\n') =
        (source.take offset).reverse := by
      rw [List.takeWhile_eq_self_iff]
      intro c hc
      simp only [bne_iff_ne]
      rintro rfl
      exact hmem (List.mem_reverse.mp hc)
    rw [hall, List.length_reverse, hlength]
    refine ⟨fun i hi hend => ?_, fun _ => rfl⟩
    exact absurd (List.mem_of_getElem? hend) hmem

end Text

namespace Scan

-- The characters of a number are those of names, points and signs.
theorem mem_number {cs : List CodePoint} {c : CodePoint} (h : c ∈ (number cs).text) :
    Text.continuesName c = true ∨ c = '.' ∨ c = '+' ∨ c = '-' := by
  have hdigits : ∀ d, digitsOf cs d = true → Text.continuesName d = true := by
    intro d hd
    by_contra hname
    rw [not_digitsOf cs (by simpa using hname)] at hd
    cases hd
  rw [number_eq] at h
  simp only [List.mem_append] at h
  rcases h with (((h | h) | h) | h) | h
  · left
    unfold baseMark at h
    split at h
    · rename_i d tail
      split at h
      · rename_i hd
        simp only [Bool.or_eq_true, beq_iff_eq] at hd
        rcases List.mem_cons.mp h with rfl | h
        · decide
        · rcases hd with rfl | rfl <;> obtain rfl := List.mem_singleton.mp h <;> decide
      · split at h
        · rename_i hd
          simp only [Bool.or_eq_true, beq_iff_eq] at hd
          rcases List.mem_cons.mp h with rfl | h
          · decide
          · rcases hd with ((rfl | rfl) | rfl) | rfl <;> obtain rfl := List.mem_singleton.mp h <;>
              decide
        · cases h
    · cases h
  · exact Or.inl (hdigits c (List.mem_takeWhile_imp h))
  · rcases mem_fraction h with rfl | h
    · simp
    · exact Or.inl (hdigits c h)
  · unfold powerPart at h
    cases hrest : (pointPart cs).2 with
    | nil => simp [hrest, exponent] at h
    | cons d tail =>
        rw [hrest, exponent_cons] at h
        split at h
        · rename_i hmark
          simp only [List.cons_append, List.mem_cons, List.mem_append] at h
          rcases h with rfl | h | h
          · exact Or.inl (continuesName_of_isExponentMark hmark)
          · unfold sign at h
            split at h <;> simp_all
          · exact Or.inl (continuesName_of_isDecimalDigit (List.mem_takeWhile_imp h))
        · cases h
  · left
    unfold unitPart imaginaryMark at h
    split at h
    · obtain rfl := List.mem_singleton.mp h
      decide
    · cases h

-- Whether a text begins with the quotes of a string that is not raw, or of a rune.
def beginsQuoted (cs : List CodePoint) : Bool :=
  cs.head? == some (char '"') || cs.head? == some (char '\'')

-- A line end is part of a token only in a raw string, where it counts, and in a quoted literal.
theorem newline_of_token {c : CodePoint} {cs : List CodePoint} {scan : Scan} (h : token c cs = .ok scan) :
    (scan.raw = true → beginsQuoted scan.text = false) ∧
      (scan.raw = false → char '\n' ∈ scan.text → beginsQuoted scan.text = true) := by
  unfold token at h
  split at h
  · obtain rfl := Except.ok.inj h
    refine ⟨by rintro ⟨⟩, fun _ hmem => ?_⟩
    have hname : Text.continuesName '\n' = true := List.mem_takeWhile_imp hmem
    exact absurd hname (by decide)
  split at h
  · obtain rfl := Except.ok.inj h
    refine ⟨by rintro ⟨⟩, fun _ hmem => ?_⟩
    have hchar := mem_number hmem
    exact absurd hchar (by decide)
  split at h
  · unfold quoted at h
    split at h
    · obtain rfl := Except.ok.inj h
      exact ⟨by rintro ⟨⟩, fun _ _ => rfl⟩
    · cases h
  split at h
  · simp only [rawString] at h
    split at h
    · obtain rfl := Except.ok.inj h
      exact ⟨fun _ => rfl, by rintro ⟨⟩⟩
    · cases h
  split at h
  · unfold quoted at h
    split at h
    · obtain rfl := Except.ok.inj h
      exact ⟨by rintro ⟨⟩, fun _ _ => rfl⟩
    · cases h
  · obtain ⟨o, ho⟩ := kind_operator h
    have htext := text_operator h ho
    have hspelling : char '\n' ∉ o.spelling.toList := by cases o <;> decide
    refine ⟨fun hraw => ?_, fun _ hmem => absurd (htext ▸ hmem) hspelling⟩
    unfold operator at h
    split at h
    · rw [← Except.ok.inj h] at hraw
      cases hraw
    · cases h

end Scan

namespace Token

def isQuoted (t : Token) : Bool := Scan.beginsQuoted t.text.toList

-- The line ends in the strings and runes among some tokens.
def hiddenLines : List Token → Nat
  | [] => 0
  | t :: ts => (if t.isQuoted then t.text.toList.count (char '\n') else 0) + hiddenLines ts

-- A line end of the source that is in none of the strings and runes among some tokens.
def CountedEnd (source : List CodePoint) (ts : List Token) (i : Nat) : Prop :=
  source[i]? = some (char '\n') ∧ ∀ t ∈ ts, t.isQuoted = true → ¬(t.offset ≤ i ∧ i < t.endOffset)

@[simp]
theorem hiddenLines_concat (ts : List Token) (t : Token) :
    hiddenLines (ts ++ [t]) =
      hiddenLines ts + if t.isQuoted then t.text.toList.count (char '\n') else 0 := by
  induction ts with
  | nil => simp [hiddenLines]
  | cons u ts ih =>
      rw [List.cons_append, hiddenLines, ih, hiddenLines, Nat.add_assoc]

theorem hiddenLines_eq_zero_iff {ts : List Token} :
    hiddenLines ts = 0 ↔ ∀ t ∈ ts, t.isQuoted = true → char '\n' ∉ t.text.toList := by
  induction ts with
  | nil => simp [hiddenLines]
  | cons t ts ih =>
      rw [hiddenLines, Nat.add_eq_zero_iff, ih, List.forall_mem_cons]
      cases t.isQuoted <;> simp [List.count_eq_zero]

-- Line ends before an offset are not changed by a token that begins there.
theorem countedEnd_concat_iff {source : List CodePoint} {ts : List Token} {t : Token} {i : Nat}
    (h : t.isQuoted = true → i < t.offset) :
    CountedEnd source (ts ++ [t]) i ↔ CountedEnd source ts i := by
  simp only [CountedEnd, List.mem_append, List.mem_singleton]
  refine and_congr_right fun _ => ⟨fun hall u hu => hall u (Or.inl hu), fun hall u hu => ?_⟩
  rcases hu with hu | rfl
  · exact hall u hu
  · intro hquoted hspan
    have hlt := h hquoted
    omega

end Token

namespace Lexer

variable {source text rest : List CodePoint} {s s' : Lexer} {ts : List Token} {t : Token}

-- The lexer is in the line that the line ends before it tell, less those in quoted literals.
structure Tracked (source : List CodePoint) (ts : List Token) (s : Lexer) : Prop where
  line : s.line + Token.hiddenLines ts = lineAt source s.offset
  start : Text.LineStart (Token.CountedEnd source ts) s.offset s.lineStart
  before : ∀ t ∈ ts, t.endOffset ≤ s.offset

theorem Tracked.new (source : Text) (file : Option Text) :
    (new source file).Tracked source.toList [] :=
  ⟨by simp [Lexer.new, Token.hiddenLines, lineAt], ⟨Nat.le_refl _, Or.inl rfl, by simp [Lexer.new]⟩,
    by simp⟩

-- The lines of a text that the lexer stands before.
theorem lineAt_add (h : s.Placed source) (htext : s.rest = text ++ rest) :
    lineAt source (s.offset + text.length) = lineAt source s.offset + text.count (char '\n') := by
  rw [h.rest] at htext
  rw [lineAt, lineAt, List.take_add, htext, List.take_left, List.count_append]
  omega

theorem getElem?_of_placed (h : s.Placed source) (htext : s.rest = text ++ rest) {i : Nat}
    (hi : i < text.length) : source[s.offset + i]? = text[i]? := by
  rw [h.rest] at htext
  rw [← List.getElem?_drop, htext, List.getElem?_append_left hi]

-- Of the text that the lexer stands before all line ends are still to be counted.
theorem countedEnd_of_placed (h : s.Placed source) (htext : s.rest = text ++ rest)
    (hbefore : ∀ t ∈ ts, t.endOffset ≤ s.offset) {i : Nat} (hi : i < text.length) :
    Token.CountedEnd source ts (s.offset + i) ↔ text[i]? = some (char '\n') := by
  rw [Token.CountedEnd, getElem?_of_placed h htext hi, and_iff_left_iff_imp]
  intro _ t ht _ hspan
  have hle := hbefore t ht
  omega

theorem Tracked.move (h : s.Tracked source ts) (hs : s.Placed source)
    (htext : s.rest = text ++ rest) : (s.move text rest).Tracked source ts := by
  have hle := h.start.le
  refine ⟨?_, ?_, fun t ht => Nat.le_add_right_of_le (h.before t ht)⟩
  · change s.line + text.count (char '\n') + _ = lineAt source (s.offset + text.length)
    rw [lineAt_add hs htext, ← h.line]
    omega
  · change Text.LineStart _ (s.offset + text.length) (if text.contains '\n' then _ else _)
    split
    · rename_i hmem
      obtain ⟨hpos, hline⟩ := Text.lineStart_of_mem (by simpa using hmem)
      have hlength := hline.le
      rw [Nat.add_sub_assoc (by omega)]
      refine ⟨by omega, Or.inr ?_, fun i hi hlt => ?_⟩
      · rw [Nat.add_sub_assoc hpos, countedEnd_of_placed hs htext h.before (by omega)]
        rcases hline.after with hzero | hend
        · omega
        · exact hend
      · obtain ⟨k, rfl⟩ := Nat.exists_eq_add_of_le (show s.offset ≤ i by omega)
        rw [countedEnd_of_placed hs htext h.before (by omega)]
        exact hline.clear k (by omega) (by omega)
    · rename_i hmem
      refine ⟨by omega, h.start.after, fun i hi hlt => ?_⟩
      rcases Nat.lt_or_ge i s.offset with hold | hnew
      · exact h.start.clear i hi hold
      · obtain ⟨k, rfl⟩ := Nat.exists_eq_add_of_le hnew
        rw [countedEnd_of_placed hs htext h.before (by omega)]
        intro hend
        exact hmem (by simpa using List.mem_of_getElem? hend)

-- A token that is no quoted literal hides no line end.
theorem Tracked.concat (h : s.Tracked source ts) (hquoted : t.isQuoted = false)
    (hend : t.endOffset ≤ s.offset) : s.Tracked source (ts ++ [t]) := by
  refine ⟨?_, h.start.congr fun i _ => ?_, ?_⟩
  · rw [Token.hiddenLines_concat, hquoted]
    exact h.line
  · rw [Token.countedEnd_concat_iff (by simp [hquoted])]
  · intro u hu
    rcases List.mem_append.mp hu with hu | hu
    · exact h.before u hu
    · obtain rfl := List.mem_singleton.mp hu
      exact hend

-- A token that the lexer passes without counting its line ends: it is a quoted literal if there are any.
theorem Tracked.moveFlat (h : s.Tracked source ts) (hs : s.Placed source)
    (htext : s.rest = t.text.toList ++ rest) (hoffset : t.offset = s.offset)
    (hend : t.endOffset = s.offset + t.text.toList.length)
    (hquoted : char '\n' ∈ t.text.toList → t.isQuoted = true) :
    (s.moveFlat t.text.toList rest).Tracked source (ts ++ [t]) := by
  have hle := h.start.le
  refine ⟨?_, ⟨?_, ?_, ?_⟩, ?_⟩
  · change s.line + _ = lineAt source (s.offset + t.text.toList.length)
    rw [lineAt_add hs htext, ← h.line, Token.hiddenLines_concat]
    split
    · omega
    · rename_i hplain
      rw [List.count_eq_zero.mpr fun hmem => hplain (hquoted hmem)]
      omega
  · exact Nat.le_add_right_of_le hle
  · change s.lineStart = 0 ∨ Token.CountedEnd source (ts ++ [t]) (s.lineStart - 1)
    rcases h.start.after with hzero | hbefore
    · exact Or.inl hzero
    · by_cases hpos : s.lineStart = 0
      · exact Or.inl hpos
      · exact Or.inr ((Token.countedEnd_concat_iff fun _ => by omega).mpr hbefore)
  · intro i hi hlt hcounted
    change i < s.offset + t.text.toList.length at hlt
    rcases Nat.lt_or_ge i s.offset with hold | hnew
    · rw [Token.countedEnd_concat_iff fun _ => by omega] at hcounted
      exact h.start.clear i hi hold hcounted
    · obtain ⟨k, rfl⟩ := Nat.exists_eq_add_of_le hnew
      have hmem := hcounted.1
      rw [getElem?_of_placed hs htext (by omega)] at hmem
      exact hcounted.2 t (by simp) (hquoted (List.mem_of_getElem? hmem)) (by omega)
  · intro u hu
    rcases List.mem_append.mp hu with hu | hu
    · exact Nat.le_add_right_of_le (h.before u hu)
    · obtain rfl := List.mem_singleton.mp hu
      exact Nat.le_of_eq hend

theorem Tracked.pass {gaps : List Gap} (h : s.Tracked source ts) (hs : s.Placed source)
    (hpassed : Gap.Passed s.rest gaps rest) : (s.pass rest gaps).Tracked source ts := by
  generalize hcs : s.rest = cs at hpassed
  induction hpassed generalizing s with
  | nil => exact h
  | @cons cs ds rest gap gaps hread hpassed ih =>
      have htext : s.rest = gap.text ++ ds := by rw [hcs, Gap.eq_of_read hread]
      have hplaced : (s.move gap.text ds).Placed source := by
        have hsplit := hs.rest
        rw [htext] at hsplit
        obtain ⟨-, hdrop, hwithin⟩ := drop_of_append hsplit.symm hs.within
        exact ⟨hdrop.symm, hwithin⟩
      rw [Lexer.pass, ← hpassed.eq]
      exact ih (h.move hs htext) hplaced rfl

-- A token in the line and column that the line ends before it tell, less those in quoted literals.
structure Positioned (source : List CodePoint) (ts : List Token) (t : Token) : Prop where
  line : t.line + Token.hiddenLines ts = lineAt source t.offset
  column : Text.ColumnAfter (Token.CountedEnd source ts) t.offset t.column

theorem Tracked.tokenHere (h : s.Tracked source ts) (kind : TokenKind) (text : Text)
    (length : Nat) : Positioned source ts (s.tokenHere kind text length) :=
  ⟨h.line, h.start.column⟩

theorem Given.positioned (h : Given s t s') (hs : s.Placed source) (htracked : s.Tracked source ts) :
    Positioned source ts t ∧ s'.Tracked source (ts ++ [t]) := by
  have hinserted : Scan.beginsQuoted lineEnd.toList = false := by decide
  have hline := htracked.concat (t := s.insertedSemicolon) hinserted (Nat.le_refl _)
  cases h with
  | inserted => exact ⟨htracked.tokenHere _ _ _, hline.line, hline.start, hline.before⟩
  | insertedLast => exact ⟨htracked.tokenHere _ _ _, hline.line, hline.start, hline.before⟩
  | ending => exact ⟨htracked.tokenHere _ _ _, htracked.concat rfl (Nat.le_refl _)⟩
  | @scanned c cs scan hrest hgap hscan =>
      refine ⟨htracked.tokenHere _ _ _, ?_⟩
      obtain ⟨hraw, hflat⟩ := Scan.newline_of_token hscan
      have htext : s.rest = scan.text ++ scan.rest := hrest.trans (Scan.eq_of_token hscan)
      have hquoted : (s.scanned scan).1.isQuoted = Scan.beginsQuoted scan.text := by
        change Scan.beginsQuoted (Text.ofList scan.text).toList = _
        rw [Text.toList_ofList]
      cases hcase : scan.raw with
      | true =>
          have hnext := (htracked.move hs htext).concat (t := (s.scanned scan).1)
            (hquoted.trans (hraw hcase)) (Nat.le_refl _)
          simp only [Lexer.scanned, hcase, if_true]
          exact ⟨hnext.line, hnext.start, hnext.before⟩
      | false =>
          have hchars : (s.scanned scan).1.text.toList = scan.text := Text.toList_ofList
          have htext' : s.rest = (s.scanned scan).1.text.toList ++ scan.rest := by rw [hchars, htext]
          have hnext := htracked.moveFlat hs htext' rfl (by rw [hchars]; rfl)
            (by rw [hchars, hquoted]; exact hflat hcase)
          rw [hchars] at hnext
          simp only [Lexer.scanned, hcase, Bool.false_eq_true, if_false] at hnext ⊢
          exact ⟨hnext.line, hnext.start, hnext.before⟩

-- What one step gives, and that the next one goes on from there.
theorem positioned_of_next (hs : s.Placed source) (htracked : s.Tracked source ts)
    (h : s.next = .ok (t, s')) :
    Positioned source ts t ∧ s'.Placed source ∧ s'.Tracked source (ts ++ [t]) := by
  obtain ⟨gaps, rest, hpassed, -, hgiven⟩ := next_cases h
  have hplaced := (hs.pass hpassed).1
  obtain ⟨hpositioned, hnext⟩ := hgiven.positioned hplaced (htracked.pass hs hpassed)
  exact ⟨hpositioned, (hgiven.faithful hplaced).2.2.1, hnext⟩

theorem positioned_of_draw (hs : s.Placed source) (htracked : s.Tracked source ts) {n : Nat}
    {before after : List Token} (h : (draw n s).tokens = before ++ t :: after) :
    Positioned source (ts ++ before) t := by
  induction n generalizing s ts before with
  | zero => simp [draw] at h
  | succ n ih =>
      unfold draw at h
      cases hnext : s.next with
      | error d => simp [hnext] at h
      | ok p =>
          obtain ⟨u, s'⟩ := p
          obtain ⟨hu, hs', htracked'⟩ := positioned_of_next hs htracked hnext
          simp only [hnext] at h
          cases before with
          | nil =>
              have ht : u = t := by
                split at h <;> exact (List.cons.inj h).1
              rw [List.append_nil]
              exact ht ▸ hu
          | cons v before =>
              split at h
              · simp at h
              · obtain ⟨rfl, htail⟩ := List.cons.inj h
                have hrest := ih hs' htracked' htail
                rwa [List.append_assoc] at hrest

-- A quoted literal without a line end hides none of the source.
theorem countedEnd_iff_of_plain (hfaithful : ∀ t ∈ ts, t.Faithful source)
    (hplain : ∀ t ∈ ts, t.isQuoted = true → char '\n' ∉ t.text.toList) (i : Nat) :
    Token.CountedEnd source ts i ↔ source[i]? = some (char '\n') := by
  rw [Token.CountedEnd, and_iff_left_iff_imp]
  intro hend t ht hquoted hspan
  have hinserted : t.isInserted = false := by
    cases hcase : t.isInserted with
    | false => rfl
    | true =>
        obtain ⟨-, htext⟩ := by simpa [Lexeme.isInserted] using hcase
        have hbegins : Scan.beginsQuoted t.text.toList = true := hquoted
        rw [htext] at hbegins
        exact absurd hbegins (by decide)
  have htext := (hfaithful t ht).text hinserted
  refine hplain t ht hquoted ?_
  rw [← htext]
  apply List.mem_of_getElem? (i := i - t.offset)
  rw [Text.between, List.getElem?_take_of_lt (by omega), List.getElem?_drop,
    show t.offset + (i - t.offset) = i by omega]
  exact hend

-- The line of a token is the one that counting gives less the line ends in quoted literals before it,
-- and its column counts from the last line end outside of them. So line and column are what counting
-- the source gives, and what a diagnostic at the same place says, if there are no such line ends.
theorem draw_positions (source : Text) (file : Option Text) (n : Nat)
    {before after : List Token} {t : Token}
    (h : ((new source file).draw n).tokens = before ++ t :: after) :
    t.line + Token.hiddenLines before = lineAt source.toList t.offset ∧
      Text.ColumnAfter (Token.CountedEnd source.toList before) t.offset t.column ∧
      ((∀ u ∈ before, u.isQuoted = true → char '\n' ∉ u.text.toList) →
        t.line = 1 + (source.toList.take t.offset).count (char '\n') ∧
        Text.ColumnAfter (fun i => source.toList[i]? = some (char '\n')) t.offset t.column ∧
        ∀ (s : Lexer) (cause : Cause), s.source = source.toList → s.offset = t.offset →
          (s.diagnose cause).line = t.line ∧ (s.diagnose cause).column = t.column) := by
  have hpositioned := positioned_of_draw (Placed.new source file) (Tracked.new source file) h
  rw [List.nil_append] at hpositioned
  obtain ⟨hfaithful, -⟩ := faithful_of_draw (Placed.new source file) n
  rw [h] at hfaithful
  have hwithin : t.offset ≤ source.toList.length :=
    (hfaithful t (by simp)).span.trans (hfaithful t (by simp)).within
  refine ⟨hpositioned.line, hpositioned.column, fun hplain => ?_⟩
  have hline := hpositioned.line
  rw [Token.hiddenLines_eq_zero_iff.mpr hplain] at hline
  have hcolumn := hpositioned.column.congr fun i _ => countedEnd_iff_of_plain
    (fun u hu => hfaithful u (List.mem_append_left _ hu)) hplain i
  refine ⟨?_, hcolumn, ?_⟩
  · rw [lineAt] at hline
    omega
  · intro s cause hsource hoffset
    refine ⟨?_, ?_⟩
    · rw [diagnose, hsource, hoffset, ← hline, Nat.add_zero]
    · rw [diagnose, hsource, hoffset]
      exact (Text.columnAfter_columnAt source.toList hwithin).unique hcolumn

-- A line comment, the end of a line that counts, a raw string over two lines and a name behind it.
theorem draw_positions_raw :
    let source := Text.ofList ['a', '/', '/', '\n', Scan.backquote, '\n', Scan.backquote, ' ', 'b']
    let t : Token := ⟨⟨.ident, "b"⟩, 3, 3, 8, 9, none⟩
    ((new source none).draw 4).tokens.getLast? = some t ∧
      t.line = 1 + (source.toList.take 8).count (char '\n') ∧ t.column = columnAt source.toList 8 := by
  intro source t
  have hsource : source.toList =
      [char 'a', '/', '/', '\n', Scan.backquote, '\n', Scan.backquote, ' ', 'b'] :=
    Text.toList_ofList
  have htokens : ((new source none).draw 4).tokens =
      ((new source none).draw 3).tokens ++ t :: [] := by
    simp only [new, hsource]
    rfl
  have hplain : ∀ u ∈ ((new source none).draw 3).tokens, u.isQuoted = true → char '\n' ∉ u.text.toList := by
    simp only [new, hsource]
    decide
  obtain ⟨-, -, hexact⟩ := draw_positions source none 4 htokens
  obtain ⟨hline, -, hdiagnosed⟩ := hexact hplain
  refine ⟨by rw [htokens]; simp, hline, ?_⟩
  exact (hdiagnosed { new source none with offset := 8 } (.unfinished .comment) rfl rfl).2.symm

-- A backslash takes the end of a line into a string. The name behind it is in the second line, in the
-- third column, and the lexer has it in the first line.
theorem draw_positions_escaped :
    ((new "\"\\\n\" x" none).draw 2).tokens.getLast? = some ⟨⟨.ident, "x"⟩, 1, 6, 5, 6, none⟩ ∧
      lineAt (Text.toList "\"\\\n\" x") 5 = 2 ∧ columnAt (Text.toList "\"\\\n\" x") 5 = 3 :=
  ⟨rfl, rfl, rfl⟩

end Lexer

end GoCompact
