import GoCompact.Proofs.Lexing.Stream

namespace GoCompact

open CodePoint (char)

namespace Gap

-- The pieces that are read from a text, one after the other, and what they leave.
inductive Passed : List CodePoint → List Gap → List CodePoint → Prop
  | nil {cs : List CodePoint} : Passed cs [] cs
  | cons {cs ds rest : List CodePoint} {gap : Gap} {gaps : List Gap} (h : read cs = .piece gap ds)
      (hs : Passed ds gaps rest) : Passed cs (gap :: gaps) rest

-- The text of several pieces.
def textAll (gaps : List Gap) : List CodePoint := gaps.flatMap text

@[simp]
theorem textAll_nil : textAll [] = [] := rfl

@[simp]
theorem textAll_cons (gap : Gap) (gaps : List Gap) :
    textAll (gap :: gaps) = gap.text ++ textAll gaps :=
  rfl

theorem Passed.eq {cs rest : List CodePoint} {gaps : List Gap} (h : Passed cs gaps rest) :
    cs = textAll gaps ++ rest := by
  induction h with
  | nil => rfl
  | cons hread _ ih => rw [eq_of_read hread, ih, textAll_cons, List.append_assoc]

-- The inside of a block comment ends where it can end first.
theorem not_infix_of_blockBody {cs body rest : List CodePoint} (h : blockBody cs = some (body, rest)) :
    ¬[char '*', char '/'] <:+: body := by
  fun_induction blockBody cs generalizing body with
  | case1 tail =>
      obtain ⟨rfl, rfl⟩ := Prod.mk.inj (Option.some.inj h)
      simp
  | case2 c tail hnot ih =>
      obtain ⟨⟨inner, after⟩, hi, he⟩ := Option.map_eq_some_iff.mp h
      obtain ⟨rfl, rfl⟩ := Prod.mk.inj he
      rw [List.infix_cons_iff]
      rintro (hstart | hinside)
      · obtain ⟨rfl, hhead⟩ := List.cons_prefix_cons.mp hstart
        obtain ⟨tail', rfl⟩ := hhead
        exact hnot _ rfl (by rw [eq_of_blockBody hi]; rfl)
      · exact ih hi hinside
  | case3 => simp at h

-- What the pieces that are read look like. A line comment goes on to the end of its line.
theorem read_cases {cs rest : List CodePoint} {gap : Gap} (h : read cs = .piece gap rest) :
    (∃ c, gap = .blank c ∧ isBlank c = true) ∨ gap = .newline ∨
      (∃ body, gap = .lineComment body ∧ char '\n' ∉ body ∧ ∀ d ∈ rest.head?, d = '\n') ∨
      ∃ body, gap = .blockComment body ∧ ¬[char '*', char '/'] <:+: body := by
  unfold read at h
  split at h
  · obtain ⟨rfl, rfl⟩ := Reading.piece.inj h
    exact Or.inr (Or.inl rfl)
  · rename_i tail
    obtain ⟨rfl, rfl⟩ := Reading.piece.inj h
    refine Or.inr (Or.inr (Or.inl ⟨_, rfl, ?_, ?_⟩))
    · intro hmem
      simpa using List.all_eq_true.mp (List.all_takeWhile (p := (· != char '\n')) (l := tail)) _ hmem
    · intro d hd
      have hnot := List.head?_dropWhile_not (· != char '\n') tail
      rw [Option.mem_def.mp hd] at hnot
      simpa using hnot
  · split at h
    · rename_i hbody
      obtain ⟨rfl, rfl⟩ := Reading.piece.inj h
      exact Or.inr (Or.inr (Or.inr ⟨_, rfl, not_infix_of_blockBody hbody⟩))
    · cases h
  · split at h
    · rename_i hblank
      obtain ⟨rfl, rfl⟩ := Reading.piece.inj h
      exact Or.inl ⟨_, rfl, hblank⟩
    · cases h
  · cases h

end Gap

namespace Lexer

variable {s s' : Lexer} {t : Token}

-- The lexer after pieces of a gap, before a text that they leave.
def pass (s : Lexer) (rest : List CodePoint) : List Gap → Lexer
  | [] => s
  | gap :: gaps => (s.move gap.text (Gap.textAll gaps ++ rest)).pass rest gaps

theorem pass_pending (s : Lexer) (rest : List CodePoint) (gaps : List Gap) :
    (s.pass rest gaps).pending = s.pending := by
  induction gaps generalizing s with
  | nil => rfl
  | cons gap gaps ih => exact ih _

theorem pass_offset (s : Lexer) (rest : List CodePoint) (gaps : List Gap) :
    (s.pass rest gaps).offset = s.offset + (Gap.textAll gaps).length := by
  induction gaps generalizing s with
  | nil => rfl
  | cons gap gaps ih =>
      rw [pass, ih, Gap.textAll_cons, List.length_append, ← Nat.add_assoc]
      rfl

theorem pass_rest {rest : List CodePoint} {gaps : List Gap} (h : s.rest = Gap.textAll gaps ++ rest) :
    (s.pass rest gaps).rest = rest := by
  induction gaps generalizing s with
  | nil => exact h
  | cons gap gaps ih => exact ih rfl

-- Why the lexer goes no further than `r` before it gives a token.
inductive Given (r : Lexer) : Token → Lexer → Prop
  -- The end of a line counts, and the piece that ends it is still there.
  | inserted {gap : Gap} {rest : List CodePoint} (hpending : r.pending = true)
      (hgap : Gap.read r.rest = .piece gap rest) (hend : gap.endsLine = true) :
      Given r r.insertedSemicolon { r with pending := false }
  | insertedLast (hpending : r.pending = true) (hrest : r.rest = []) :
      Given r r.insertedSemicolon { r with pending := false }
  | ending (hpending : r.pending = false) (hrest : r.rest = []) :
      Given r (r.tokenHere .eof "" 0) r
  | scanned {c : CodePoint} {cs : List CodePoint} {scan : Scan} (hrest : r.rest = c :: cs)
      (hgap : Gap.read (c :: cs) = .none) (hscan : Scan.token c cs = .ok scan) :
      Given r (r.scanned scan).1 (r.scanned scan).2

-- A step: pieces of a gap that end no line that counts, and the token.
structure Steps (s : Lexer) (gaps : List Gap) (rest : List CodePoint) (t : Token) (s' : Lexer) :
    Prop where
  passed : Gap.Passed s.rest gaps rest
  quiet : s.pending = true → ∀ gap ∈ gaps, gap.endsLine = false
  given : Given (s.pass rest gaps) t s'

theorem next_cases (h : s.next = .ok (t, s')) : ∃ gaps rest, Steps s gaps rest t s' := by
  generalize hn : s.rest.length = n
  induction n using Nat.strongRecOn generalizing s with
  | ind n ih =>
      cases hgap : Gap.read s.rest with
      | unfinished =>
          cases hrest : s.rest with
          | nil => simp [hrest, Gap.read] at hgap
          | cons c cs =>
              rw [hrest] at hgap
              simp [next, hrest, nextWithin, hgap] at h
      | piece gap rest =>
          have hlt := Gap.length_lt_of_read hgap
          rw [next_of_piece hgap] at h
          split at h
          · rename_i hp
            obtain ⟨hpending, hend⟩ := (Bool.and_eq_true _ _).mp hp
            obtain ⟨rfl, rfl⟩ := Prod.mk.inj (Except.ok.inj h)
            exact ⟨[], s.rest, .nil, by simp, .inserted hpending hgap hend⟩
          · rename_i hp
            obtain ⟨gaps, after, hsteps⟩ := ih rest.length (by omega) h rfl
            have hafter : rest = Gap.textAll gaps ++ after := hsteps.passed.eq
            refine ⟨gap :: gaps, after, .cons hgap hsteps.passed, ?_, ?_⟩
            · intro hpending
              have hend : gap.endsLine = false := by simpa [hpending] using hp
              exact List.forall_mem_cons.mpr ⟨hend, hsteps.quiet hpending⟩
            · have hgiven := hsteps.given
              rw [hafter] at hgiven
              exact hgiven
      | none =>
          cases hrest : s.rest with
          | nil =>
              rw [next_of_nil hrest] at h
              have h := Except.ok.inj h
              unfold atEnd at h
              split at h <;> rename_i hp <;> obtain ⟨rfl, rfl⟩ := Prod.mk.inj h
              · exact ⟨[], [], hrest ▸ .nil, by simp, .insertedLast hp hrest⟩
              · have hp : s.pending = false := by simpa using hp
                exact ⟨[], [], hrest ▸ .nil, by simp, .ending hp hrest⟩
          | cons c cs =>
              rw [hrest] at hgap
              rw [next_of_cons hrest hgap] at h
              split at h
              · rename_i scan hscan
                obtain ⟨rfl, rfl⟩ := Prod.mk.inj (Except.ok.inj h)
                exact ⟨[], c :: cs, hrest ▸ .nil, by simp, .scanned hrest hgap hscan⟩
              · cases h

end Lexer

end GoCompact
