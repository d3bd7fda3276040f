import GoCompact.Proofs.Lexing.Lossless

namespace GoCompact

namespace Text

-- A digit that begins a number and is none of its digits.
def isForeignDigit (c : CodePoint) : Bool := isDigit c && !isAscii c

theorem isDecimalDigit_of_isForeignDigit {c : CodePoint} (h : isForeignDigit c = true) :
    Scan.isDecimalDigit c = false := by
  obtain ⟨-, hascii⟩ : isDigit c = true ∧ isAscii c = false := by simpa [isForeignDigit] using h
  apply Bool.eq_false_iff.mpr
  intro hdecimal
  simp only [Scan.isDecimalDigit, Bool.or_eq_true, beq_iff_eq] at hdecimal
  rcases hdecimal with hdigit | rfl
  · rw [isAscii_of_isAlphanum (Or.inr hdigit)] at hascii
    cases hascii
  · exact absurd hascii (by decide)

theorem isForeignDigit_of_isDigit {c : CodePoint} (h : isDigit c = true)
    (hdecimal : Scan.isDecimalDigit c = false) : isForeignDigit c = true := by
  cases hascii : isAscii c with
  | false => simp [isForeignDigit, h, hascii]
  | true =>
      have hdigit : c.isDigit = true := by simpa [isDigit, hascii] using h
      simp [Scan.isDecimalDigit, hdigit] at hdecimal

end Text

namespace Scan

-- The number without text that a digit outside ASCII begins.
def stalled (cs : List CodePoint) : Scan := ⟨.literal .Integer, [], cs, false⟩

theorem number_of_isForeignDigit {c : CodePoint} {cs : List CodePoint} (h : Text.isForeignDigit c = true) :
    number (c :: cs) = stalled (c :: cs) := by
  have hdigit : Text.isDigit c = true := (Bool.and_eq_true _ _).mp h |>.1
  have htext : (number (c :: cs)).text = [] :=
    text_number_eq_nil hdigit (Text.isDecimalDigit_of_isForeignDigit h)
  have hrest := number_append (c :: cs)
  rw [htext, List.nil_append] at hrest
  rw [number_eq] at htext hrest ⊢
  dsimp only at htext hrest
  obtain ⟨⟨⟨⟨hmark, hdigits⟩, hpoint⟩, hpower⟩, hunit⟩ := by
    simpa only [List.append_eq_nil_iff] using htext
  simp only [numberKind, hmark, hdigits, hpoint, hpower, hunit, hrest]
  rfl

-- A token has no text exactly if it begins with such a digit.
theorem token_of_isForeignDigit {c : CodePoint} (cs : List CodePoint) (h : Text.isForeignDigit c = true) :
    token c cs = .ok (stalled (c :: cs)) := by
  have hdigit : Text.isDigit c = true := (Bool.and_eq_true _ _).mp h |>.1
  have hname : Text.beginsName c = false := by
    cases hcase : Text.beginsName c with
    | false => rfl
    | true =>
        rw [Text.isDigit_of_beginsName hcase] at hdigit
        cases hdigit
  simp [token, hname, beginsNumber, hdigit, number_of_isForeignDigit h]

theorem isForeignDigit_of_number {c : CodePoint} {cs : List CodePoint} (h : beginsNumber c cs = true)
    (hempty : (number (c :: cs)).text = []) : Text.isForeignDigit c = true := by
  rw [number_eq] at hempty
  obtain ⟨⟨⟨⟨hmark, hdigits⟩, hpoint⟩, -⟩, -⟩ := by
    simpa only [List.append_eq_nil_iff] using hempty
  have hrest : (baseMark (c :: cs)).2.2 = c :: cs := by
    have happend := baseMark_append (c :: cs)
    rwa [hmark, List.nil_append] at happend
  have hafter : afterDigits (c :: cs) = c :: cs := by
    have hsplit := List.takeWhile_append_dropWhile (p := digitsOf (c :: cs))
      (l := (baseMark (c :: cs)).2.2)
    rw [hdigits, List.nil_append] at hsplit
    exact hsplit.trans hrest
  have hnotpoint : c ≠ '.' := by
    rintro rfl
    simp [pointPart, hafter, fraction] at hpoint
  have hdecimal : isDecimalDigit c = false := by
    rw [hrest, List.takeWhile_eq_nil_iff] at hdigits
    have hnot := hdigits (by simp)
    apply Bool.eq_false_iff.mpr
    intro hdecimal
    refine hnot ?_
    unfold digitsOf
    split <;> simp [isHexDigit, hdecimal]
  have hdigit : Text.isDigit c = true := by simpa [beginsNumber, hnotpoint] using h
  exact Text.isForeignDigit_of_isDigit hdigit hdecimal

theorem isForeignDigit_of_token {c : CodePoint} {cs : List CodePoint} {scan : Scan}
    (h : token c cs = .ok scan) (hempty : scan.text = []) : Text.isForeignDigit c = true := by
  have hquoted : ∀ {literal what quote}, quoted literal what quote cs = .ok scan → False := by
    intro literal what quote hq
    unfold quoted at hq
    split at hq
    · rw [← Except.ok.inj hq] at hempty
      cases hempty
    · cases hq
  unfold token at h
  split at h
  · rename_i hname
    obtain rfl := Except.ok.inj h
    have hcontinues : Text.continuesName c = true := by
      simp only [Text.beginsName, Bool.or_eq_true, Text.continuesName] at hname ⊢
      rcases hname with hname | hname <;> simp [hname]
    simp [name, splitWhile, hcontinues] at hempty
  split at h
  · rename_i hnumber
    obtain rfl := Except.ok.inj h
    exact isForeignDigit_of_number hnumber hempty
  split at h
  · exact (hquoted h).elim
  split at h
  · simp only [rawString] at h
    split at h
    · rw [← Except.ok.inj h] at hempty
      cases hempty
    · cases h
  split at h
  · exact (hquoted h).elim
  · obtain ⟨o, ho⟩ := kind_operator h
    rw [text_operator h ho] at hempty
    exact absurd hempty (by cases o <;> decide)

end Scan

namespace Lexer

variable {source : List CodePoint} {s s' : Lexer} {t : Token}

-- What is left to read, with the pending end of a line.
def weight (s : Lexer) : Nat := 2 * s.rest.length + if s.pending then 1 else 0

-- A lexer that gives a number without text and stays before a digit outside ASCII.
structure Stuck (source : List CodePoint) (s : Lexer) (t : Token) : Prop where
  next : s.next = .ok (t, s)
  kind : t.kind = .literal .Integer
  text : t.text = ""
  span : t.endOffset = t.offset
  digit : ∃ c, source[t.offset]? = some c ∧ Text.isForeignDigit c = true

-- A step that gives a token and goes on: it takes something away, and does not stand before a digit
-- outside ASCII.
structure GoesOn (source : List CodePoint) (s : Lexer) (t : Token) (s' : Lexer) : Prop where
  kind : t.kind ≠ .eof
  weight : s'.weight < s.weight
  digit : ∀ c, source[t.offset]? = some c → Text.isForeignDigit c = false

theorem read_of_isForeignDigit {c : CodePoint} (cs : List CodePoint) (h : Text.isForeignDigit c = true) :
    Gap.read (c :: cs) = .none := by
  have hne : ∀ d : CodePoint, Text.isForeignDigit d = false → c ≠ d := by
    rintro d hd rfl
    rw [h] at hd
    cases hd
  rw [Gap.read_eq_none_iff]
  refine ⟨hne _ (by decide), ?_, fun hslash => absurd hslash (hne _ (by decide))⟩
  simp [Gap.isBlank, hne ' ' (by decide), hne '\t' (by decide), hne '\r' (by decide)]

theorem getElem?_offset (hs : s.Placed source) : source[s.offset]? = s.rest.head? := by
  rw [hs.rest, List.head?_drop]

theorem weight_pass_le {gaps : List Gap} {rest : List CodePoint} (h : Gap.Passed s.rest gaps rest) :
    (s.pass rest gaps).weight ≤ s.weight := by
  have hlength := congrArg List.length h.eq
  rw [List.length_append] at hlength
  rw [weight, weight, pass_rest h.eq, pass_pending]
  omega

-- Before a digit outside ASCII the lexer gives the same token again and again.
theorem stuck_of_isForeignDigit {c : CodePoint} {cs : List CodePoint} (hs : s.Placed source)
    (hrest : s.rest = c :: cs) (h : Text.isForeignDigit c = true) :
    Stuck source (s.scanned (Scan.stalled (c :: cs))).2 (s.scanned (Scan.stalled (c :: cs))).1 := by
  have hscan := Scan.token_of_isForeignDigit cs h
  have hgap := read_of_isForeignDigit cs h
  refine ⟨?_, rfl, rfl, rfl, c, ?_, h⟩
  · have hnext := next_of_cons (s := (s.scanned (Scan.stalled (c :: cs))).2) rfl hgap
    rw [hnext, hscan]
    rfl
  · change source[s.offset]? = _
    rw [getElem?_offset hs, hrest]
    rfl

theorem Given.goesOn (h : Given s t s') (hs : s.Placed source) :
    t.kind = .eof ∨ Stuck source s' t ∨ GoesOn source s t s' := by
  have hline : s.pending = true → ((∃ gap rest, Gap.read s.rest = .piece gap rest) ∨ s.rest = []) →
      GoesOn source s s.insertedSemicolon { s with pending := false } := by
    intro hpending hgap
    refine ⟨by rintro ⟨⟩, by simp [Lexer.weight, hpending], fun c hc => ?_⟩
    change source[s.offset]? = _ at hc
    rw [getElem?_offset hs] at hc
    cases hrest : s.rest with
    | nil => simp [hrest] at hc
    | cons d cs =>
        obtain rfl : d = c := by simpa [hrest] using hc
        apply Bool.eq_false_iff.mpr
        intro hforeign
        rw [hrest, read_of_isForeignDigit cs hforeign] at hgap
        rcases hgap with ⟨_, _, hgap⟩ | hgap <;> cases hgap
  cases h with
  | inserted hpending hgap hend => exact Or.inr (Or.inr (hline hpending (Or.inl ⟨_, _, hgap⟩)))
  | insertedLast hpending hrest => exact Or.inr (Or.inr (hline hpending (Or.inr hrest)))
  | ending => exact Or.inl rfl
  | @scanned c cs scan hrest hgap hscan =>
      by_cases hforeign : Text.isForeignDigit c = true
      · rw [Scan.token_of_isForeignDigit cs hforeign] at hscan
        obtain rfl := Except.ok.inj hscan
        exact Or.inr (Or.inl (stuck_of_isForeignDigit hs hrest hforeign))
      · have hne : scan.text ≠ [] := fun hempty =>
          hforeign (Scan.isForeignDigit_of_token hscan hempty)
        have hpos := List.length_pos_iff.mpr hne
        have hlength := congrArg List.length (hrest.trans (Scan.eq_of_token hscan))
        rw [List.length_append] at hlength
        refine Or.inr (Or.inr ⟨Scan.kind_ne_eof hscan, ?_, fun d hd => ?_⟩)
        · rw [weight, weight, rest_scanned]
          split <;> split <;> omega
        · change source[s.offset]? = _ at hd
          rw [getElem?_offset hs, hrest] at hd
          obtain rfl : c = d := by simpa using hd
          simpa using hforeign

-- What one step gives: the end, a token at which the stream stands still, or one after which less is
-- left.
theorem next_progress (hs : s.Placed source) (h : s.next = .ok (t, s')) :
    t.kind = .eof ∨ Stuck source s' t ∨ GoesOn source s t s' := by
  obtain ⟨gaps, rest, hpassed, -, hgiven⟩ := next_cases h
  have hweight := weight_pass_le hpassed
  rcases hgiven.goesOn (hs.pass hpassed).1 with hend | hstuck | hgoes
  · exact Or.inl hend
  · exact Or.inr (Or.inl hstuck)
  · exact Or.inr (Or.inr ⟨hgoes.kind, Nat.lt_of_lt_of_le hgoes.weight hweight, hgoes.digit⟩)

-- From the token after the first `k` on, a stream gives only numbers without text, all of them at the
-- same digit outside ASCII.
structure StandsStill (source : List CodePoint) (s : Lexer) (k : Nat) (t : Token) : Prop where
  kind : t.kind = .literal .Integer
  text : t.text = ""
  span : t.endOffset = t.offset
  digit : ∃ c, source[t.offset]? = some c ∧ Text.isForeignDigit c = true
  forever : ∀ j, (s.draw (k + j)).tokens = (s.draw k).tokens ++ List.replicate j t ∧
    (s.draw (k + j)).stop = .enough

theorem draw_succ (h : s.next = .ok (t, s')) (hkind : t.kind ≠ .eof) (n : Nat) :
    (s.draw (n + 1)).tokens = t :: (s'.draw n).tokens ∧
      (s.draw (n + 1)).stop = (s'.draw n).stop := by
  simp [draw, h, hkind]

theorem Stuck.draw (h : Stuck source s t) (n : Nat) :
    (s.draw n).tokens = List.replicate n t ∧ (s.draw n).stop = .enough := by
  have hkind : t.kind ≠ .eof := by simp [h.kind]
  induction n with
  | zero => exact ⟨rfl, rfl⟩
  | succ n ih =>
      obtain ⟨htokens, hstop⟩ := draw_succ h.next hkind n
      rw [htokens, hstop, ih.1, ih.2]
      exact ⟨rfl, rfl⟩

theorem Stuck.standsStill (hstuck : Stuck source s' t) (h : s.next = .ok (t, s')) :
    StandsStill source s 0 t := by
  refine ⟨hstuck.kind, hstuck.text, hstuck.span, hstuck.digit, fun j => ?_⟩
  cases j with
  | zero => exact ⟨rfl, rfl⟩
  | succ j =>
      obtain ⟨htokens, hstop⟩ := draw_succ h (by simp [hstuck.kind]) j
      obtain ⟨hrest, hend⟩ := hstuck.draw j
      rw [Nat.zero_add, htokens, hstop, hrest, hend]
      exact ⟨rfl, rfl⟩

theorem StandsStill.before {u : Token} {k : Nat} (hstill : StandsStill source s' k t)
    (h : s.next = .ok (u, s')) (hkind : u.kind ≠ .eof) : StandsStill source s (k + 1) t := by
  refine ⟨hstill.kind, hstill.text, hstill.span, hstill.digit, fun j => ?_⟩
  obtain ⟨htokens, hstop⟩ := hstill.forever j
  rw [Nat.add_right_comm, (draw_succ h hkind _).1, (draw_succ h hkind _).1, (draw_succ h hkind _).2,
    htokens, hstop]
  exact ⟨rfl, rfl⟩

-- A stream that is over: it ends with the end token, or in a fault.
def Over (drawn : Drawn) : Prop :=
  (drawn.stop = .ended ∧ ∃ front t, drawn.tokens = front ++ [t] ∧ t.kind = .eof) ∨
    ∃ d, drawn.stop = .failed d

theorem over_or_standsStill (hs : s.Placed source) {n : Nat} (hn : s.weight ≤ n) :
    Over (s.draw (n + 1)) ∨ ∃ k ≤ n, ∃ t, StandsStill source s k t := by
  induction n using Nat.strongRecOn generalizing s with
  | ind n ih =>
      cases hnext : s.next with
      | error d => exact Or.inl (Or.inr ⟨d, by simp [draw, hnext]⟩)
      | ok p =>
          obtain ⟨t, s'⟩ := p
          have hs' := (faithful_of_next hs hnext).2.2.1
          rcases next_progress hs hnext with hend | hstuck | hgoes
          · exact Or.inl (Or.inl ⟨by simp [draw, hnext, hend], [], t, by simp [draw, hnext, hend], hend⟩)
          · exact Or.inr ⟨0, Nat.zero_le _, t, hstuck.standsStill hnext⟩
          · have hless := hgoes.weight
            obtain ⟨m, rfl⟩ : ∃ m, n = m + 1 := ⟨n - 1, by omega⟩
            obtain ⟨htokens, hstop⟩ := draw_succ hnext hgoes.kind (m + 1)
            rcases ih m (Nat.lt_succ_self m) hs' (by omega) with hover | ⟨k, hk, u, hstill⟩
            · left
              rcases hover with ⟨hended, front, u, htail, hu⟩ | ⟨d, hfailed⟩
              · refine Or.inl ⟨hstop.trans hended, t :: front, u, ?_, hu⟩
                rw [htokens, htail]
                rfl
              · exact Or.inr ⟨d, hstop.trans hfailed⟩
            · exact Or.inr ⟨k + 1, by omega, u, hstill.before hnext hgoes.kind⟩

-- A token at a digit outside ASCII is the first of those with which the stream stands still.
theorem standsStill_of_mem (hs : s.Placed source) {n : Nat} {c : CodePoint} (h : t ∈ (s.draw n).tokens)
    (hc : source[t.offset]? = some c) (hforeign : Text.isForeignDigit c = true) :
    ∃ k u, StandsStill source s k u := by
  induction n generalizing s with
  | zero => simp [draw] at h
  | succ n ih =>
      cases hnext : s.next with
      | error d => simp [draw, hnext] at h
      | ok p =>
          obtain ⟨u, s'⟩ := p
          obtain ⟨hu, -, hs', -⟩ := faithful_of_next hs hnext
          rcases next_progress hs hnext with hend | hstuck | hgoes
          · obtain rfl : t = u := by simpa [draw, hnext, hend] using h
            rw [hu.ending hend] at hc
            simp at hc
          · exact ⟨0, u, hstuck.standsStill hnext⟩
          · rw [(draw_succ hnext hgoes.kind n).1] at h
            rcases List.mem_cons.mp h with rfl | h
            · rw [hgoes.digit c hc] at hforeign
              cases hforeign
            · obtain ⟨k, v, hstill⟩ := ih hs' h
              exact ⟨k + 1, v, hstill.before hnext hgoes.kind⟩

-- The stream of a source is over after two tokens for each character and one more, or it stands still
-- before a digit outside ASCII; and it stands still exactly if a token begins at such a digit.
theorem draw_progress (source : Text) (file : Option Text) :
    (Over ((new source file).draw (2 * source.length + 1)) ∨
      ∃ k ≤ 2 * source.length, ∃ t, StandsStill source.toList (new source file) k t) ∧
    ((∃ k t, StandsStill source.toList (new source file) k t) ↔
      ∃ n, ∃ t ∈ ((new source file).draw n).tokens, ∃ c, source.toList[t.offset]? = some c ∧
        Text.isDigit c = true ∧ Text.isAscii c = false) := by
  have hplaced := Placed.new source file
  have hforeign : ∀ c, Text.isForeignDigit c = true ↔
      Text.isDigit c = true ∧ Text.isAscii c = false := by
    simp [Text.isForeignDigit]
  refine ⟨over_or_standsStill hplaced ?_, ?_, ?_⟩
  · simp [weight, new, Text.length_toList]
  · rintro ⟨k, t, hstill⟩
    obtain ⟨c, hc, hdigit⟩ := hstill.digit
    refine ⟨k + 1, t, ?_, c, hc, (hforeign c).mp hdigit⟩
    rw [(hstill.forever 1).1]
    simp
  · rintro ⟨n, t, ht, c, hc, hdigit⟩
    exact standsStill_of_mem hplaced ht hc ((hforeign c).mpr hdigit)

end Lexer

end GoCompact
