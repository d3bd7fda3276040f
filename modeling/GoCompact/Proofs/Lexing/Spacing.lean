import GoCompact.Proofs.Lexing.Lossless

namespace GoCompact

open CodePoint (char)

namespace Text.Cut

theorem insertIdx {c : CodePoint} (hc : Gap.isBlank c = true) (cs : List CodePoint) (k : Nat) :
    Cut cs (cs.insertIdx k c) := by
  induction k generalizing cs with
  | zero => exact .blank hc
  | succ k ih =>
      cases cs with
      | nil => exact .nil
      | cons d cs => exact .cons (ih cs)

end Text.Cut

theorem insertIdx_append {α : Type} (xs ys : List α) (k : Nat) (a : α) :
    (xs ++ ys).insertIdx (xs.length + k) a = xs ++ ys.insertIdx k a := by
  induction xs with
  | nil => simp
  | cons x xs ih => simp [Nat.add_right_comm, ih]

-- The positions in a text where a token begins or ends. The end of the text begins no piece of a gap
-- either.
inductive Boundary : List CodePoint → Nat → Prop
  | front {cs : List CodePoint} (hgap : Gap.read cs = .none) : Boundary cs 0
  | back {c : CodePoint} {cs : List CodePoint} {scan : Scan} (hgap : Gap.read (c :: cs) = .none)
      (hscan : Scan.token c cs = .ok scan) : Boundary (c :: cs) scan.text.length
  | gap {cs rest : List CodePoint} {gap : Gap} {k : Nat} (hgap : Gap.read cs = .piece gap rest)
      (h : Boundary rest k) : Boundary cs (gap.text.length + k)
  | token {c : CodePoint} {cs : List CodePoint} {scan : Scan} {k : Nat} (hgap : Gap.read (c :: cs) = .none)
      (hscan : Scan.token c cs = .ok scan) (h : Boundary scan.rest k) :
      Boundary (c :: cs) (scan.text.length + k)

namespace Gap

theorem blockBody_append {body : List CodePoint} (h : ¬[char '*', char '/'] <:+: body)
    (s : List CodePoint) :
    blockBody (body ++ char '*' :: '/' :: s) = some (body, s) := by
  induction body with
  | nil => rfl
  | cons c body ih =>
      have hinside := ih fun hin => h (List.infix_cons hin)
      rw [List.cons_append, blockBody, hinside]
      · rfl
      · rintro tail rfl htail
        cases body with
        | nil => simp at htail
        | cons d body =>
            obtain ⟨rfl, -⟩ := List.cons.inj htail
            exact h ⟨[], body, rfl⟩

theorem read_blank {c : CodePoint} (hc : isBlank c = true) (cs : List CodePoint) :
    read (c :: cs) = .piece (.blank c) cs := by
  simp only [isBlank, Bool.or_eq_true, beq_iff_eq] at hc
  rcases hc with (rfl | rfl) | rfl <;> rfl

theorem read_lineComment {body s : List CodePoint} (hbody : char '\n' ∉ body)
    (hs : ∀ d ∈ s.head?, d = '\n') :
    read ((lineComment body).text ++ s) = .piece (.lineComment body) s := by
  have hall : ∀ c ∈ body, (c != '\n') = true := fun c hc => by
    rw [bne_iff_ne]
    rintro rfl
    exact hbody hc
  have hends : body.dropWhile (· != char '\n') = [] → ∀ d ∈ s.head?, (d != '\n') = false :=
    fun _ d hd => by simp [hs d hd]
  obtain ⟨ht, hd⟩ := Scan.span_append body hends
  rw [List.takeWhile_eq_self_iff.mpr hall] at ht
  rw [List.dropWhile_eq_nil_iff.mpr hall, List.nil_append] at hd
  simp only [text, List.cons_append, read, ht, hd]

-- A piece of a gap is read again before another text, but a line comment only at the end of a line.
theorem read_again {cs rest s : List CodePoint} {gap : Gap} (h : read cs = .piece gap rest)
    (hs : (∃ body, gap = .lineComment body) → ∀ d ∈ s.head?, d = '\n') :
    read (gap.text ++ s) = .piece gap s := by
  rcases read_cases h with ⟨c, rfl, hc⟩ | rfl | ⟨body, rfl, hbody, -⟩ | ⟨body, rfl, hbody⟩
  · exact read_blank hc s
  · rfl
  · exact read_lineComment hbody (hs ⟨body, rfl⟩)
  · simp only [text, List.cons_append, List.append_assoc, List.nil_append, read,
      blockBody_append hbody s]

-- Where a blank is put in after a piece of a gap, a piece is read that ends a line if the first one
-- does. It leaves what the first one left, with the blank or without.
theorem read_insertIdx {cs rest : List CodePoint} {gap : Gap} {k : Nat} {c : CodePoint}
    (hc : isBlank c = true) (h : read cs = .piece gap rest) (hk : Boundary rest k) :
    ∃ piece after, read (cs.insertIdx (gap.text.length + k) c) = .piece piece after ∧
      piece.endsLine = gap.endsLine ∧ (after = rest.insertIdx k c ∨ after = rest) := by
  rw [eq_of_read h, insertIdx_append]
  by_cases hline : (∃ body, gap = .lineComment body) → ∀ d ∈ (rest.insertIdx k c).head?, d = '\n'
  · exact ⟨gap, _, read_again h hline, rfl, .inl rfl⟩
  simp only [not_forall] at hline
  obtain ⟨⟨body, rfl⟩, d, hd, hne⟩ := hline
  obtain ⟨c, hgap, -⟩ | hgap | ⟨_, hgap, hbody, hend⟩ | ⟨_, hgap, -⟩ := read_cases h <;> cases hgap
  cases rest with
  | cons e rest =>
      -- at the end of a line stands no token
      obtain rfl := hend e rfl
      cases hk with
      | front hgap => cases hgap
      | back hgap => cases hgap
      | token hgap => cases hgap
      | gap hgap =>
          cases hgap
          simp [text, Nat.add_comm 1] at hd
          exact absurd hd.symm hne
  | nil =>
      obtain rfl : k = 0 := by cases hk <;> simp_all [read]
      have hcomment : char '\n' ∉ body ++ [c] := by
        simp only [List.mem_append, List.mem_singleton, not_or]
        exact ⟨hbody, by rintro rfl; cases hc⟩
      refine ⟨.lineComment (body ++ [c]), [], ?_, rfl, .inr rfl⟩
      simpa [text] using read_lineComment (s := []) hcomment (by simp)

end Gap

namespace Lexes

variable {pending : Bool} {ls : List Lexeme}

-- A token is read again before a cut of what follows it.
theorem again {c : CodePoint} {cs s : List CodePoint} {scan : Scan} (hgap : Gap.read (c :: cs) = .none)
    (hscan : Scan.token c cs = .ok scan) (hne : scan.text ≠ []) (hs : Text.Cut scan.rest s)
    (h : Lexes scan.kind.endsStatement scan.rest ls) (h' : Lexes scan.kind.endsStatement s ls) :
    Lexes pending (scan.text ++ s) (⟨scan.kind, Text.ofList scan.text⟩ :: ls) := by
  obtain ⟨hstands, d, ds, raw, htext, hagain⟩ :=
    Lexeme.stands_of_token hgap hscan hne (ne_point hscan h) hs
  simp only at hstands htext hagain
  have happend : scan.text ++ s = d :: (ds ++ s) := by
    rw [htext]
    rfl
  rw [happend] at hstands ⊢
  have hread : Lexes pending _ _ := .token hstands hagain hne h'
  exact hread

theorem blank {c : CodePoint} {cs : List CodePoint} (hc : Gap.isBlank c = true) (h : Lexes pending cs ls) :
    Lexes pending (c :: cs) ls :=
  .skip (Gap.read_blank hc cs) (by simp [Gap.endsLine]) h

-- A blank where a token begins or ends leaves the lexemes as they are.
theorem insertIdx {cs : List CodePoint} {k : Nat} {c : CodePoint} (hc : Gap.isBlank c = true)
    (hk : Boundary cs k) (h : Lexes pending cs ls) : Lexes pending (cs.insertIdx k c) ls := by
  induction hk generalizing pending ls with
  | front => simpa using h.blank hc
  | @back d cs scan hgap hscan =>
      rw [Scan.eq_of_token hscan, ← Nat.add_zero scan.text.length, insertIdx_append]
      cases h with
      | insert hgap' | skip hgap' => cases hgap.symm.trans hgap'
      | token _ hscan' hne h =>
          obtain rfl := Except.ok.inj (hscan.symm.trans hscan')
          exact again hgap hscan hne (.insertIdx hc _ 0) h (h.blank hc)
  | @token d cs scan k hgap hscan hk ih =>
      rw [Scan.eq_of_token hscan, insertIdx_append]
      cases h with
      | insert hgap' | skip hgap' => cases hgap.symm.trans hgap'
      | token _ hscan' hne h =>
          obtain rfl := Except.ok.inj (hscan.symm.trans hscan')
          exact again hgap hscan hne (.insertIdx hc _ k) h (ih h)
  | @gap cs rest gap k hgap hk ih =>
      obtain ⟨piece, after, hread, hend, hafter⟩ := Gap.read_insertIdx hc hgap hk
      -- what the piece leaves has the lexemes that it had
      have hskip : ∀ {p ms}, (p && gap.endsLine) = false → Lexes p rest ms →
          Lexes p (cs.insertIdx (gap.text.length + k) c) ms := by
        intro p ms hp hms
        refine .skip hread (hend ▸ hp) ?_
        rcases hafter with rfl | rfl
        · exact ih hms
        · exact hms
      cases h with
      | finish | finishLine => cases hgap
      | token hgap' => cases hgap.symm.trans hgap'
      | skip hgap' hp h =>
          obtain ⟨rfl, rfl⟩ := Gap.Reading.piece.inj (hgap.symm.trans hgap')
          exact hskip hp h
      | insert hgap' hline h =>
          obtain ⟨rfl, rfl⟩ := Gap.Reading.piece.inj (hgap.symm.trans hgap')
          refine .insert hread (hend.trans hline) ?_
          cases h with
          | finish => cases hgap
          | token hnone => cases hgap.symm.trans hnone
          | skip hfirst hp h =>
              obtain ⟨rfl, rfl⟩ := Gap.Reading.piece.inj (hgap.symm.trans hfirst)
              exact hskip hp h

end Lexes

namespace Lexer

variable {s s' : Lexer} {t : Token} {o : Nat}

-- The offsets from the lexer on where a token begins or ends.
def Meets (s : Lexer) (o : Nat) : Prop := ∃ k, Boundary s.rest k ∧ o = s.offset + k

theorem Meets.of_passed {cs rest : List CodePoint} {gaps : List Gap} (h : Gap.Passed cs gaps rest)
    {k : Nat} (hk : Boundary rest k) : Boundary cs ((Gap.textAll gaps).length + k) := by
  induction h with
  | nil => simpa using hk
  | cons hread _ ih =>
      rw [Gap.textAll_cons, List.length_append, Nat.add_assoc]
      exact .gap hread (ih hk)

theorem Meets.pass {rest : List CodePoint} {gaps : List Gap} (hpassed : Gap.Passed s.rest gaps rest)
    (h : (s.pass rest gaps).Meets o) : s.Meets o := by
  obtain ⟨k, hk, rfl⟩ := h
  rw [pass_rest hpassed.eq] at hk
  exact ⟨_, of_passed hpassed hk, by rw [pass_offset, Nat.add_assoc]⟩

-- A token that is not inserted meets the text, and so does all that is met after a token.
theorem Given.meets (h : Given s t s') :
    (t.isInserted = false → s.Meets t.offset ∧ s.Meets t.endOffset) ∧
      (s'.Meets o → s.Meets o) := by
  cases h with
  | inserted | insertedLast => exact ⟨nofun, id⟩
  | ending _ hrest =>
      have hend : s.Meets s.offset := ⟨0, hrest ▸ .front rfl, rfl⟩
      exact ⟨fun _ => ⟨hend, hend⟩, id⟩
  | scanned hrest hgap hscan =>
      simp only [Meets, hrest]
      refine ⟨fun _ => ⟨⟨0, .front hgap, rfl⟩, _, .back hgap hscan, rfl⟩, ?_⟩
      rintro ⟨k, hk, rfl⟩
      rw [rest_scanned] at hk
      exact ⟨_, .token hgap hscan hk, by rw [offset_scanned, Nat.add_assoc]⟩

theorem meets_of_draw {n : Nat} (ht : t ∈ (draw n s).tokens) (hplain : t.isInserted = false) :
    s.Meets t.offset ∧ s.Meets t.endOffset := by
  induction n generalizing s with
  | zero => cases ht
  | succ n ih =>
      unfold draw at ht
      cases hnext : s.next with
      | error d => simp [hnext] at ht
      | ok p =>
          obtain ⟨u, s'⟩ := p
          obtain ⟨gaps, rest, hpassed, -, hgiven⟩ := next_cases hnext
          have hfirst : t = u → s.Meets t.offset ∧ s.Meets t.endOffset := by
            rintro rfl
            obtain ⟨hstart, hstop⟩ := (hgiven.meets (o := 0)).1 hplain
            exact ⟨hstart.pass hpassed, hstop.pass hpassed⟩
          simp only [hnext] at ht
          split at ht
          · exact hfirst (List.mem_singleton.mp ht)
          · rcases List.mem_cons.mp ht with htu | ht
            · exact hfirst htu
            · obtain ⟨hstart, hstop⟩ := ih ht
              exact ⟨(hgiven.meets.2 hstart).pass hpassed, (hgiven.meets.2 hstop).pass hpassed⟩

-- A blank that is put in where a token of a text begins or ends leaves the tokens as they are, those
-- inserted included.
theorem tokens_insertIdx {source : Text} {file : Option Text} {ts : List Token} {c : CodePoint}
    (h : tokens source file = .ok ts) (ht : t ∈ ts) (hplain : t.isInserted = false)
    (ho : o = t.offset ∨ o = t.endOffset) (hc : c = ' ' ∨ c = '\t' ∨ c = '\r') :
    ∃ us, tokens (Text.ofList (source.toList.insertIdx o c)) file = .ok us ∧
      us.map (·.toLexeme) = ts.map (·.toLexeme) := by
  have hlexes := lexes_of_tokens h
  have hdrawn : t ∈ ((new source file).draw (2 * source.length + 2)).tokens := by
    simp only [tokens] at h
    split at h
    · rwa [Except.ok.inj h]
    · cases h
    · cases h
  obtain ⟨hstart, hstop⟩ := meets_of_draw hdrawn hplain
  have hmeets : (new source file).Meets o := by
    rcases ho with rfl | rfl
    · exact hstart
    · exact hstop
  obtain ⟨k, hk, rfl⟩ := hmeets
  have hblank : Gap.isBlank c = true := by rcases hc with rfl | rfl | rfl <;> rfl
  refine tokens_of_lexes ?_ file
  rw [Text.toList_ofList, show (new source file).offset + k = k from Nat.zero_add k]
  exact hlexes.insertIdx hblank hk

-- A blank between two points, in a text that ends in a comment.
theorem tokens_insertIdx_points :
    ∃ ts us, tokens "a..b//" none = .ok ts ∧ tokens "a. .b//" none = .ok us ∧
      us.map (·.toLexeme) = ts.map (·.toLexeme) := by
  have hpoint : ((tokens "a..b//" none).toOption.getD []).any
      (fun t => !t.isInserted && t.endOffset == 2) = true := rfl
  cases hts : tokens "a..b//" none with
  | error d => simp [hts, Except.toOption] at hpoint
  | ok ts =>
      simp only [hts, Except.toOption, Option.getD_some, List.any_eq_true, Bool.and_eq_true,
        Bool.not_eq_true', beq_iff_eq] at hpoint
      obtain ⟨t, ht, hplain, hstop⟩ := hpoint
      obtain ⟨us, hus, hmap⟩ := tokens_insertIdx hts ht hplain (.inr hstop.symm) (.inl rfl)
      exact ⟨ts, us, rfl, hus, hmap⟩

end Lexer

end GoCompact
