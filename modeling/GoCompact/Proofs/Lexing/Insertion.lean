import GoCompact.Proofs.Lexing.Lossless

namespace GoCompact

open CodePoint (char)

namespace TokenKind

-- Kinds of tokens that can end a statement.
def CanEnd (k : TokenKind) : Prop :=
  k = .ident ∨ (∃ l, k = .literal l) ∨
    k ∈ [.word .Break, .word .Continue, .word .Fallthrough, .word .Return, .op .Inc, .op .Dec,
      .op .RParen, .op .RBrack, .op .RBrace]

theorem endsStatement_iff (k : TokenKind) : k.endsStatement = true ↔ k.CanEnd := by
  cases k with
  | eof => simp [endsStatement, CanEnd]
  | ident => simp [endsStatement, CanEnd]
  | literal l => simp [endsStatement, CanEnd]
  | op o => cases o <;> simp [endsStatement, CanEnd]
  | word k => cases k <;> simp [endsStatement, CanEnd]

end TokenKind

namespace Gap

-- What ends no line holds no line end.
theorem not_mem_text {cs rest : List CodePoint} {gap : Gap} (h : read cs = .piece gap rest)
    (hend : gap.endsLine = false) : char '\n' ∉ gap.text := by
  rcases read_cases h with ⟨c, rfl, hc⟩ | rfl | ⟨body, rfl, -, -⟩ | ⟨body, rfl, -⟩
  · intro hmem
    obtain rfl : '\n' = c := by simpa [text] using hmem
    exact absurd hc (by decide)
  · cases hend
  · cases hend
  · simpa [text, endsLine] using hend

theorem not_mem_textAll {cs rest : List CodePoint} {gaps : List Gap} (h : Passed cs gaps rest)
    (hend : ∀ gap ∈ gaps, gap.endsLine = false) : char '\n' ∉ textAll gaps := by
  induction h with
  | nil => simp
  | cons hread _ ih =>
      obtain ⟨hgap, hgaps⟩ := List.forall_mem_cons.mp hend
      rw [textAll_cons, List.mem_append, not_or]
      exact ⟨not_mem_text hread hgap, ih hgaps⟩

-- Where pieces begin with one that ends a line, a line ends in them, or nothing follows them.
theorem mem_textAll {cs ds rest : List CodePoint} {gap : Gap} {gaps : List Gap}
    (h : Passed cs gaps rest) (hread : read cs = .piece gap ds) (hend : gap.endsLine = true)
    (hrest : ∀ gap ds, read rest ≠ .piece gap ds) : char '\n' ∈ textAll gaps ∨ rest = [] := by
  cases h with
  | nil => exact absurd hread (hrest _ _)
  | cons hread' hs =>
      rw [hread] at hread'
      obtain ⟨rfl, rfl⟩ := Reading.piece.inj hread'
      rw [textAll_cons, List.mem_append]
      rcases read_cases hread with ⟨c, rfl, -⟩ | rfl | ⟨body, rfl, -, hline⟩ | ⟨body, rfl, -⟩
      · cases hend
      · exact Or.inl (Or.inl (by simp [text]))
      · -- after a line comment there is the end of its line, or nothing
        cases hs with
        | nil =>
            cases ds with
            | nil => exact Or.inr rfl
            | cons d tail =>
                obtain rfl := hline d rfl
                exact absurd rfl (hrest .newline tail)
        | cons hread' _ =>
            cases ds with
            | nil => simp [read] at hread'
            | cons d tail =>
                obtain rfl := hline d rfl
                obtain ⟨rfl, rfl⟩ := Reading.piece.inj (hread'.symm.trans rfl)
                exact Or.inl (Or.inr (by simp [text]))
      · have hbody : char '\n' ∈ body := by simpa [endsLine] using hend
        exact Or.inl (Or.inl (by simp [text, hbody]))

end Gap

namespace Lexer

variable {source : List CodePoint} {s s' : Lexer} {t : Token}

-- The semicolons that are inserted before the next token of the text.
def insertions (pending line : Bool) : Nat := if pending && line then 1 else 0

-- Whether a line ends between two offsets.
def endsLine (source : List CodePoint) (start stop : Nat) : Bool :=
  (Text.between source start stop).contains '\n'

-- A stream of tokens from an offset on: before each token of the text there are the semicolons that
-- have to be inserted.
inductive Inserts (source : List CodePoint) : Bool → Nat → List Token → Prop
  | last {pending : Bool} {start : Nat} {mid : List Token} {u : Token} (hu : u.kind = .eof)
      (hmid : ∀ t ∈ mid, t.isInserted = true) (hlength : mid.length = insertions pending true) :
      Inserts source pending start (mid ++ [u])
  | cons {pending : Bool} {start : Nat} {mid ts : List Token} {u : Token} (hu : u.kind ≠ .eof)
      (hplain : u.isInserted = false) (hmid : ∀ t ∈ mid, t.isInserted = true)
      (hlength : mid.length = insertions pending (endsLine source start u.offset))
      (h : Inserts source u.kind.endsStatement u.endOffset ts) :
      Inserts source pending start (mid ++ u :: ts)

theorem pending_scanned (s : Lexer) (scan : Scan) :
    (s.scanned scan).2.pending = scan.kind.endsStatement := rfl

-- The text that a step passes over.
theorem Steps.between {gaps : List Gap} {rest : List CodePoint} (h : Steps s gaps rest t s')
    (hs : s.Placed source) : Text.between source s.offset t.offset = Gap.textAll gaps := by
  obtain ⟨hpass, -⟩ := hs.pass h.passed
  obtain ⟨-, hoffset, -, -⟩ := h.given.faithful hpass
  have htext := h.passed.eq
  rw [hs.rest] at htext
  rw [hoffset, pass_offset]
  exact (drop_of_append htext hs.within).1

-- A token that is not inserted stands at the end, or before a text that begins with no gap.
theorem Given.plain (h : Given s t s') (ht : t.isInserted = false) :
    (t.kind = .eof ∧ s.pending = false ∧ s.rest = []) ∨
      (t.kind ≠ .eof ∧ s'.pending = t.kind.endsStatement ∧ s.rest ≠ [] ∧
        ∀ gap rest, Gap.read s.rest ≠ .piece gap rest) := by
  cases h with
  | inserted => cases ht
  | insertedLast => cases ht
  | ending hpending hrest => exact Or.inl ⟨rfl, hpending, hrest⟩
  | scanned hrest hgap hscan =>
      refine Or.inr ⟨Scan.kind_ne_eof hscan, pending_scanned _ _, ?_, ?_⟩
      · rw [hrest]
        simp
      · intro gap rest hread
        rw [hrest, hgap] at hread
        cases hread

-- An inserted semicolon stands at the end, or before a piece that ends a line.
theorem Given.inserted_cases (h : Given s t s') (ht : t.isInserted = true) :
    s.pending = true ∧ t.kind ≠ .eof ∧ s' = { s with pending := false } ∧
      (s.rest = [] ∨ ∃ gap rest, Gap.read s.rest = .piece gap rest ∧ gap.endsLine = true) := by
  cases h with
  | inserted hpending hgap hend => exact ⟨hpending, by rintro ⟨⟩, rfl, Or.inr ⟨_, _, hgap, hend⟩⟩
  | insertedLast hpending hrest => exact ⟨hpending, by rintro ⟨⟩, rfl, Or.inl hrest⟩
  | ending => cases ht
  | scanned hrest hgap hscan =>
      -- a semicolon in the text is written with its own character
      obtain ⟨hkind, hline⟩ := by simpa [Lexeme.isInserted] using ht
      have hspelling := (Scan.text_of_token hscan).1 _ hkind
      have hline : Text.ofList _ = lineEnd := hline
      rw [hspelling] at hline
      exact absurd hline (by decide)

-- While the end of a line does not count, no semicolon is inserted.
theorem isInserted_of_next (hpending : s.pending = false) (h : s.next = .ok (t, s')) :
    t.isInserted = false := by
  obtain ⟨gaps, rest, hsteps⟩ := next_cases h
  cases hins : t.isInserted with
  | false => rfl
  | true =>
      have hpending' := (hsteps.given.inserted_cases hins).1
      rw [pass_pending, hpending] at hpending'
      cases hpending'

-- Before a piece that ends a line, or at the end, the next token of the text comes after the end of a
-- line or is the end.
theorem endsLine_of_next (hs : s.Placed source) (h : s.next = .ok (t, s'))
    (ht : t.isInserted = false)
    (hline : s.rest = [] ∨ ∃ gap rest, Gap.read s.rest = .piece gap rest ∧ gap.endsLine = true) :
    t.kind = .eof ∨ endsLine source s.offset t.offset = true := by
  obtain ⟨gaps, rest, hsteps⟩ := next_cases h
  have hrest := pass_rest hsteps.passed.eq
  rcases hsteps.given.plain ht with ⟨heof, -, -⟩ | ⟨-, -, hne, hread⟩
  · exact Or.inl heof
  rw [hrest] at hne hread
  rcases hline with hnil | ⟨gap, ds, hgap, hend⟩
  · have htext := hsteps.passed.eq
    rw [hnil] at htext
    exact absurd (List.append_eq_nil_iff.mp htext.symm).2 hne
  · rcases Gap.mem_textAll hsteps.passed hgap hend hread with hmem | hnil
    · refine Or.inr ?_
      rw [endsLine, hsteps.between hs]
      simpa using hmem
    · exact absurd hnil hne

-- A stream that comes to its end has a first token.
theorem next_of_ended {n : Nat} (h : (draw n s).stop = .ended) :
    ∃ u s', s.next = .ok (u, s') ∧ (draw n s).tokens.head? = some u := by
  cases n with
  | zero => cases h
  | succ n =>
      unfold draw at h ⊢
      cases hnext : s.next with
      | error d => simp [hnext] at h
      | ok p =>
          obtain ⟨u, s'⟩ := p
          refine ⟨u, s', rfl, ?_⟩
          dsimp only
          split <;> rfl

theorem endsLine_of_le {a b c : Nat} (hab : a ≤ b) (hbc : b ≤ c)
    (h : endsLine source b c = true) : endsLine source a c = true := by
  rw [endsLine, ← Text.between_append hab hbc]
  simp only [endsLine, List.contains_eq_mem, decide_eq_true_eq, List.mem_append] at h ⊢
  exact Or.inr h

-- The semicolon before a line end is the only one before the next token of the text.
theorem Inserts.insert {start : Nat} {ts : List Token} (ht : t.isInserted = true)
    (h : Inserts source false t.endOffset ts)
    (hline : ∀ u ∈ ts.head?, u.kind = .eof ∨ endsLine source start u.offset = true) :
    Inserts source true start (t :: ts) := by
  generalize hpending : false = pending at h
  cases h with
  | @last _ _ mid u hu hmid hlength =>
      subst hpending
      obtain rfl := List.length_eq_zero_iff.mp hlength
      change Inserts source true start ([t] ++ [u])
      exact .last hu (by simpa using ht) rfl
  | @cons _ _ mid ts u hu hplain hmid hlength hts =>
      subst hpending
      obtain rfl := List.length_eq_zero_iff.mp hlength
      have hends := (hline u rfl).resolve_left hu
      change Inserts source true start ([t] ++ u :: ts)
      exact .cons hu hplain (by simpa using ht) (by rw [hends]; rfl) hts

theorem inserts_of_draw {n : Nat} (hs : s.Placed source) (h : (draw n s).stop = .ended) :
    Inserts source s.pending s.offset (draw n s).tokens := by
  induction n generalizing s with
  | zero => simp [draw] at h
  | succ n ih =>
      unfold draw at h ⊢
      cases hnext : s.next with
      | error d => simp [hnext] at h
      | ok p =>
          obtain ⟨t, s'⟩ := p
          obtain ⟨-, -, hs', hend⟩ := faithful_of_next hs hnext
          obtain ⟨gaps, rest, hsteps⟩ := next_cases hnext
          simp only [hnext] at h ⊢
          have hquiet : s.pending = true → endsLine source s.offset t.offset = false := by
            intro hpending
            rw [endsLine, hsteps.between hs]
            simpa using Gap.not_mem_textAll hsteps.passed (hsteps.quiet hpending)
          have hnone : insertions s.pending (endsLine source s.offset t.offset) = 0 := by
            cases hpending : s.pending with
            | false => rfl
            | true => simp [insertions, hquiet hpending]
          cases hins : t.isInserted with
          | false =>
              rcases hsteps.given.plain hins with ⟨heof, hpending, -⟩ | ⟨hne, hpending, -, -⟩
              · rw [pass_pending] at hpending
                rw [if_pos heof, hpending]
                change Inserts source false s.offset ([] ++ [t])
                exact .last heof (by simp) rfl
              · rw [if_neg hne] at h ⊢
                have hrest := ih hs' h
                rw [hpending, hend] at hrest
                change Inserts source s.pending s.offset ([] ++ t :: _)
                exact .cons hne hins (by simp) hnone.symm hrest
          | true =>
              obtain ⟨hpending, hne, hstate, hline⟩ := hsteps.given.inserted_cases hins
              rw [pass_pending] at hpending
              rw [if_neg hne] at h ⊢
              have hrest := ih hs' h
              obtain ⟨u, s'', hnext', hhead⟩ := next_of_ended h
              have hline' : s'.rest = [] ∨
                  ∃ gap rest, Gap.read s'.rest = .piece gap rest ∧ gap.endsLine = true := by
                rw [hstate]
                exact hline
              rw [show s'.pending = false by rw [hstate], hend] at hrest
              rw [hpending]
              refine hrest.insert hins fun v hv => ?_
              obtain rfl : u = v := Option.some.inj (hhead.symm.trans hv)
              have hplain := isInserted_of_next (by rw [hstate]) hnext'
              refine (endsLine_of_next hs' hnext' hplain hline').imp_right ?_
              obtain ⟨ht, hbefore, -, -⟩ := faithful_of_next hs hnext
              obtain ⟨-, hafter, -, -⟩ := faithful_of_next hs' hnext'
              have hspan := ht.span
              exact endsLine_of_le (by have := hbefore.1; omega) hafter.1

-- Tokens up to the first one of the text are told apart from it in one way only.
theorem split_unique {mid mid' : List Token} {u u' : Token} {ts ts' : List Token}
    (h : mid ++ u :: ts = mid' ++ u' :: ts') (hmid : ∀ t ∈ mid, t.isInserted = true)
    (hmid' : ∀ t ∈ mid', t.isInserted = true) (hu : u.isInserted = false)
    (hu' : u'.isInserted = false) : mid = mid' ∧ u = u' ∧ ts = ts' := by
  induction mid generalizing mid' with
  | nil =>
      cases mid' with
      | nil =>
          obtain ⟨hhead, htail⟩ := List.cons.inj h
          exact ⟨rfl, hhead, htail⟩
      | cons v mid' =>
          obtain ⟨rfl, -⟩ := List.cons.inj h
          simp [hu] at hmid'
  | cons v mid ih =>
      cases mid' with
      | nil =>
          obtain ⟨rfl, -⟩ := List.cons.inj h
          simp [hu'] at hmid
      | cons v' mid' =>
          obtain ⟨rfl, htail⟩ := List.cons.inj h
          obtain ⟨rfl, hrest⟩ := ih htail (fun t ht => hmid t (by simp [ht]))
            (fun t ht => hmid' t (by simp [ht]))
          exact ⟨rfl, hrest⟩

theorem isInserted_of_eof (h : t.kind = .eof) : t.isInserted = false := by
  simp [Lexeme.isInserted, h]

-- The semicolons before the first token of the text.
theorem Inserts.first {pending : Bool} {start : Nat} {mid after : List Token} {u : Token}
    (h : Inserts source pending start (mid ++ u :: after))
    (hmid : ∀ t ∈ mid, t.isInserted = true) (hu : u.isInserted = false) :
    mid.length = insertions pending (u.kind == .eof || endsLine source start u.offset) := by
  generalize hts : mid ++ u :: after = ts at h
  cases h with
  | last hu' hmid' hlength =>
      obtain ⟨rfl, rfl, rfl⟩ := split_unique hts hmid hmid' hu (isInserted_of_eof hu')
      rw [hu']
      exact hlength
  | cons hu' hplain hmid' hlength _ =>
      obtain ⟨rfl, rfl, rfl⟩ := split_unique hts hmid hmid' hu hplain
      rw [beq_false_of_ne hu', Bool.false_or]
      exact hlength

-- After a token of the text the stream goes on from its end.
theorem Inserts.after {pending : Bool} {start : Nat} {before rest : List Token}
    (h : Inserts source pending start (before ++ t :: rest)) (ht : t.isInserted = false)
    (hrest : rest ≠ []) : Inserts source t.kind.endsStatement t.endOffset rest := by
  generalize hts : before ++ t :: rest = ts at h
  induction h generalizing before with
  | @last _ _ mid u hu hmid _ =>
      -- the end is the only token of the text here, and it is the last one
      exfalso
      rcases List.append_eq_append_iff.mp hts with ⟨as, rfl, has⟩ | ⟨as, rfl, has⟩
      · cases as with
        | nil => exact hrest (List.cons.inj has).2
        | cons v as =>
            obtain ⟨rfl, -⟩ := List.cons.inj has
            rw [hmid t (by simp)] at ht
            cases ht
      · cases as with
        | nil => exact hrest (List.cons.inj has).2.symm
        | cons v as => simp at has
  | @cons _ _ mid ts u _ hplain hmid _ hts' ih =>
      rcases List.append_eq_append_iff.mp hts with ⟨as, rfl, has⟩ | ⟨as, rfl, has⟩
      · cases as with
        | nil =>
            obtain ⟨rfl, rfl⟩ := List.cons.inj has
            exact hts'
        | cons v as =>
            obtain ⟨rfl, -⟩ := List.cons.inj has
            rw [hmid t (by simp)] at ht
            cases ht
      · cases as with
        | nil =>
            obtain ⟨rfl, rfl⟩ := List.cons.inj has
            exact hts'
        | cons v as =>
            obtain ⟨-, htail⟩ := List.cons.inj has
            exact ih htail.symm

-- Two tokens of the text that come after each other, and the inserted semicolons between them.
structure Adjacent (ts : List Token) (t : Token) (mid : List Token) (u : Token) : Prop where
  split : ∃ before after, ts = before ++ t :: (mid ++ u :: after)
  left : t.isInserted = false
  right : u.isInserted = false
  inserted : ∀ v ∈ mid, v.isInserted = true

-- No semicolon is inserted before the first token. Between two tokens there is one if the first of
-- them can end a statement and a line ends between them, and otherwise none; before the end there is
-- one if the last token can end a statement, and otherwise none.
theorem tokens_insertion {source : Text} {file : Option Text} {ts : List Token}
    (h : tokens source file = .ok ts) :
    (∀ mid u after, ts = mid ++ u :: after → (∀ v ∈ mid, v.isInserted = true) →
      u.isInserted = false → mid = []) ∧
    ∀ t mid u, Adjacent ts t mid u →
      (u.kind ≠ .eof →
        (t.kind.CanEnd ∧ char '\n' ∈ Text.between source.toList t.endOffset u.offset →
          mid.length = 1) ∧
        (¬(t.kind.CanEnd ∧ char '\n' ∈ Text.between source.toList t.endOffset u.offset) →
          mid = [])) ∧
      (u.kind = .eof → (t.kind.CanEnd → mid.length = 1) ∧ (¬t.kind.CanEnd → mid = [])) := by
  have hinserts : Inserts source.toList false 0 ts := by
    unfold tokens at h
    dsimp only at h
    split at h
    · rename_i hstop
      obtain rfl := Except.ok.inj h
      exact inserts_of_draw (Placed.new source file) hstop
    · cases h
    · cases h
  constructor
  · rintro mid u after rfl hmid hu
    exact List.length_eq_zero_iff.mp (hinserts.first hmid hu)
  · rintro t mid u ⟨⟨before, after, rfl⟩, ht, hu, hmid⟩
    have hlength := (hinserts.after ht (by simp)).first hmid hu
    simp only [← TokenKind.endsStatement_iff, ← List.length_eq_zero_iff, hlength, insertions,
      endsLine, List.contains_eq_mem]
    constructor
    · intro hne
      simp [hne]
    · intro heof
      simp [heof]

-- A line that ends inside a comment after a name.
theorem tokens_insertion_inComment :
    ∃ x newline y lineEnd ending,
      tokens "x/*\n*/y" none = .ok [x, newline, y, lineEnd, ending] ∧
        Adjacent [x, newline, y, lineEnd, ending] x [newline] y ∧
        ∀ mid, Adjacent [x, newline, y, lineEnd, ending] x mid y → mid.length = 1 := by
  have htokens : tokens "x/*\n*/y" none =
      .ok [⟨⟨.ident, "x"⟩, 1, 1, 0, 1, none⟩, ⟨.newline, 1, 2, 1, 1, none⟩,
        ⟨⟨.ident, "y"⟩, 2, 3, 6, 7, none⟩, ⟨.newline, 2, 4, 7, 7, none⟩,
        ⟨.ending, 2, 4, 7, 7, none⟩] :=
    rfl
  refine ⟨_, _, _, _, _, htokens, ⟨⟨[], _, rfl⟩, rfl, rfl, by decide⟩, fun mid hmid => ?_⟩
  exact (((tokens_insertion htokens).2 _ mid _ hmid).1 (by decide)).1 ⟨Or.inl rfl, by decide⟩

end Lexer

end GoCompact
