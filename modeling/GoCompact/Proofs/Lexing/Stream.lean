import Mathlib
import GoCompact.Token.Lexer

namespace GoCompact

open CodePoint (char)

namespace Lexeme

-- The end of a text, and the semicolon that stands for the end of a line.
def ending : Lexeme := ⟨.eof, ""⟩

def newline : Lexeme := ⟨.op .Semicolon, lineEnd⟩

end Lexeme

namespace Gap

theorem eq_of_blockBody {cs body rest : List CodePoint} (h : blockBody cs = some (body, rest)) :
    cs = body ++ char '*' :: '/' :: rest := by
  fun_induction blockBody cs generalizing body with
  | case1 tail =>
      obtain ⟨rfl, rfl⟩ := Prod.mk.inj (Option.some.inj h)
      rfl
  | case2 c tail _ ih =>
      obtain ⟨⟨inner, after⟩, hi, he⟩ := Option.map_eq_some_iff.mp h
      obtain ⟨rfl, rfl⟩ := Prod.mk.inj he
      rw [ih hi]
      rfl
  | case3 => simp at h

-- A piece of a gap is the beginning of the text, and it is not empty.
theorem eq_of_read {cs rest : List CodePoint} {gap : Gap} (h : read cs = .piece gap rest) :
    cs = gap.text ++ rest := by
  unfold read at h
  split at h
  · obtain ⟨rfl, rfl⟩ := Reading.piece.inj h
    rfl
  · rename_i tail
    obtain ⟨rfl, rfl⟩ := Reading.piece.inj h
    simp [text, List.takeWhile_append_dropWhile]
  · rename_i tail
    split at h
    · rename_i body after hb
      obtain ⟨rfl, rfl⟩ := Reading.piece.inj h
      rw [eq_of_blockBody hb]
      simp [text]
    · cases h
  · split at h
    · obtain ⟨rfl, rfl⟩ := Reading.piece.inj h
      rfl
    · cases h
  · cases h

theorem text_ne_nil (gap : Gap) : gap.text ≠ [] := by
  cases gap <;> simp [text]

theorem length_lt_of_read {cs rest : List CodePoint} {gap : Gap} (h : read cs = .piece gap rest) :
    rest.length < cs.length := by
  have hpos : 0 < gap.text.length := List.length_pos_iff.mpr gap.text_ne_nil
  rw [eq_of_read h, List.length_append]
  omega

end Gap

-- The lexemes of a text, the end last. While `pending` holds, the end of a line is a semicolon.
inductive Lexes : Bool → List CodePoint → List Lexeme → Prop
  | finish : Lexes false [] [.ending]
  | finishLine : Lexes true [] [.newline, .ending]
  | insert {cs rest : List CodePoint} {gap : Gap} {ls : List Lexeme}
      (hgap : Gap.read cs = .piece gap rest) (hend : gap.endsLine = true)
      (h : Lexes false cs ls) : Lexes true cs (.newline :: ls)
  | skip {pending : Bool} {cs rest : List CodePoint} {gap : Gap} {ls : List Lexeme}
      (hgap : Gap.read cs = .piece gap rest) (hend : (pending && gap.endsLine) = false)
      (h : Lexes pending rest ls) : Lexes pending cs ls
  | token {pending : Bool} {c : CodePoint} {cs : List CodePoint} {scan : Scan} {ls : List Lexeme}
      (hgap : Gap.read (c :: cs) = .none) (hscan : Scan.token c cs = .ok scan)
      (hne : scan.text ≠ []) (h : Lexes scan.kind.endsStatement scan.rest ls) :
      Lexes pending (c :: cs) (⟨scan.kind, Text.ofList scan.text⟩ :: ls)

namespace Lexes

-- A text has one list of lexemes: the rule that applies is told by the beginning of the text.
theorem unique {pending : Bool} {cs : List CodePoint} {ls ms : List Lexeme}
    (h : Lexes pending cs ls) (h' : Lexes pending cs ms) : ls = ms := by
  induction h generalizing ms with
  | finish => cases h' with
    | finish => rfl
    | skip hgap => simp [Gap.read] at hgap
  | finishLine => cases h' with
    | finishLine => rfl
    | insert hgap => simp [Gap.read] at hgap
    | skip hgap => simp [Gap.read] at hgap
  | insert hgap hend _ ih => cases h' with
    | finishLine => simp [Gap.read] at hgap
    | insert _ _ h => rw [ih h]
    | skip hgap' hend' =>
        rw [hgap] at hgap'
        obtain ⟨rfl, rfl⟩ := Gap.Reading.piece.inj hgap'
        simp [hend] at hend'
    | token hgap' => simp [hgap] at hgap'
  | skip hgap hend _ ih => cases h' with
    | finish => simp [Gap.read] at hgap
    | finishLine => simp [Gap.read] at hgap
    | insert hgap' hend' =>
        rw [hgap] at hgap'
        obtain ⟨rfl, rfl⟩ := Gap.Reading.piece.inj hgap'
        simp [hend'] at hend
    | skip hgap' _ h =>
        rw [hgap] at hgap'
        obtain ⟨rfl, rfl⟩ := Gap.Reading.piece.inj hgap'
        exact ih h
    | token hgap' => simp [hgap] at hgap'
  | token hgap hscan _ _ ih => cases h' with
    | insert hgap' => simp [hgap] at hgap'
    | skip hgap' => simp [hgap] at hgap'
    | token _ hscan' _ h =>
        rw [hscan] at hscan'
        obtain rfl := Except.ok.inj hscan'
        rw [ih h]

end Lexes

namespace Scan

theorem baseMark_append (cs : List CodePoint) : (baseMark cs).1 ++ (baseMark cs).2.2 = cs := by
  unfold baseMark
  split
  · split
    · rfl
    · split <;> rfl
  · rfl

theorem fraction_append (digit : CodePoint → Bool) (cs : List CodePoint) :
    (fraction digit cs).1 ++ (fraction digit cs).2 = cs := by
  unfold fraction
  split
  · simp [List.takeWhile_append_dropWhile]
  · rfl

theorem sign_append (cs : List CodePoint) : (sign cs).1 ++ (sign cs).2 = cs := by
  unfold sign
  split <;> rfl

-- The mark of an exponent.
def isExponentMark (hexadecimal : Bool) (c : CodePoint) : Bool :=
  if hexadecimal then c == 'p' || c == 'P' else c == 'e' || c == 'E'

theorem exponent_cons (hexadecimal : Bool) (c : CodePoint) (rest : List CodePoint) :
    exponent hexadecimal (c :: rest) =
      if isExponentMark hexadecimal c then
        (c :: (sign rest).1 ++ (sign rest).2.takeWhile isDecimalDigit,
          (sign rest).2.dropWhile isDecimalDigit)
      else ([], c :: rest) :=
  rfl

theorem exponent_append (hexadecimal : Bool) (cs : List CodePoint) :
    (exponent hexadecimal cs).1 ++ (exponent hexadecimal cs).2 = cs := by
  cases cs with
  | nil => rfl
  | cons c rest =>
      have hsign := sign_append rest
      have hdigits := List.takeWhile_append_dropWhile (p := isDecimalDigit) (l := (sign rest).2)
      rw [exponent_cons]
      split
      · simp only [List.cons_append, List.append_assoc, hdigits, hsign]
      · rfl

theorem imaginaryMark_append (cs : List CodePoint) :
    (imaginaryMark cs).1 ++ (imaginaryMark cs).2 = cs := by
  unfold imaginaryMark
  split <;> rfl

theorem number_append (cs : List CodePoint) : (number cs).text ++ (number cs).rest = cs := by
  simp only [number, splitWhile, List.append_assoc, imaginaryMark_append, exponent_append,
    fraction_append, List.takeWhile_append_dropWhile, baseMark_append]

theorem name_append (cs : List CodePoint) : (name cs).text ++ (name cs).rest = cs :=
  List.takeWhile_append_dropWhile

theorem eq_of_quotedBody {quote : CodePoint} {cs body rest : List CodePoint}
    (h : quotedBody quote cs = some (body, rest)) : cs = body ++ rest := by
  fun_induction quotedBody quote cs generalizing body with
  | case1 c tail ih =>
      obtain ⟨⟨inner, after⟩, hi, he⟩ := Option.map_eq_some_iff.mp h
      obtain ⟨rfl, rfl⟩ := Prod.mk.inj he
      rw [ih hi]
      rfl
  | case2 => simp at h
  | case3 =>
      obtain ⟨rfl, rfl⟩ := Prod.mk.inj (Option.some.inj h)
      rfl
  | case4 c tail _ _ _ ih =>
      obtain ⟨⟨inner, after⟩, hi, he⟩ := Option.map_eq_some_iff.mp h
      obtain ⟨rfl, rfl⟩ := Prod.mk.inj he
      rw [ih hi]
      rfl
  | case5 => simp at h

theorem eq_of_operator {c : CodePoint} {cs : List CodePoint} {scan : Scan}
    (h : operator c cs = .ok scan) : c :: cs = scan.text ++ scan.rest := by
  unfold operator at h
  split at h
  · rename_i o ho
    obtain rfl := Except.ok.inj h
    obtain ⟨n, _, hn⟩ := List.exists_of_findSome?_eq_some ho
    have hspell := List.find?_some hn
    have htake : o.spelling.toList = (c :: cs).take n := by
      rw [eq_of_beq hspell, Text.toList_ofList]
    have hlen : o.spelling.length = ((c :: cs).take n).length := by
      rw [← htake, Text.length_toList]
    change c :: cs = o.spelling.toList ++ (c :: cs).drop o.spelling.length
    rw [htake, hlen, List.length_take]
    rcases Nat.le_total n (c :: cs).length with hle | hle
    · rw [Nat.min_eq_left hle, List.take_append_drop]
    · rw [Nat.min_eq_right hle, List.take_of_length_le hle, List.drop_length, List.append_nil]
  · cases h

-- A token and what follows it make up the text.
theorem eq_of_token {c : CodePoint} {cs : List CodePoint} {scan : Scan} (h : token c cs = .ok scan) :
    c :: cs = scan.text ++ scan.rest := by
  have hquoted : ∀ {literal what quote}, quoted literal what quote cs = .ok scan → c = quote →
      c :: cs = scan.text ++ scan.rest := by
    intro literal what quote hq hc
    unfold quoted at hq
    split at hq
    · rename_i body rest hb
      obtain rfl := Except.ok.inj hq
      rw [eq_of_quotedBody hb, hc]
      rfl
    · cases hq
  unfold token at h
  split at h
  · obtain rfl := Except.ok.inj h
    exact (name_append _).symm
  split at h
  · obtain rfl := Except.ok.inj h
    exact (number_append _).symm
  split at h
  · rename_i hc
    exact hquoted h (by simpa using hc)
  split at h
  · rename_i hc
    have hc : c = backquote := by simpa using hc
    have hsplit := List.takeWhile_append_dropWhile (p := (· != backquote)) (l := cs)
    unfold rawString splitWhile at h
    dsimp only at h
    split at h
    · rename_i quote rest hrest
      obtain rfl := Except.ok.inj h
      rw [hrest] at hsplit
      simp only [List.cons_append, List.append_assoc, List.nil_append, hsplit, hc]
    · cases h
  split at h
  · rename_i hc
    exact hquoted h (by simpa using hc)
  · exact eq_of_operator h

theorem kind_ne_eof {c : CodePoint} {cs : List CodePoint} {scan : Scan} (h : token c cs = .ok scan) :
    scan.kind ≠ .eof := by
  have hquoted : ∀ {literal what quote}, quoted literal what quote cs = .ok scan →
      scan.kind ≠ .eof := by
    intro literal what quote hq
    unfold quoted at hq
    split at hq
    · obtain rfl := Except.ok.inj hq
      simp
    · cases hq
  unfold token at h
  split at h
  · obtain rfl := Except.ok.inj h
    simp only [name]
    split <;> simp
  split at h
  · obtain rfl := Except.ok.inj h
    simp [number]
  split at h
  · exact hquoted h
  split at h
  · unfold rawString at h
    dsimp only at h
    split at h
    · obtain rfl := Except.ok.inj h
      simp
    · cases h
  split at h
  · exact hquoted h
  · unfold operator at h
    split at h
    · obtain rfl := Except.ok.inj h
      simp
    · cases h

end Scan

-- Before a digit that begins an empty number no more lexemes are read.
theorem Lexes.false_of_empty {pending : Bool} {c : CodePoint} {cs : List CodePoint} {scan : Scan}
    {ls : List Lexeme} (h : Lexes pending (c :: cs) ls) (hgap : Gap.read (c :: cs) = .none)
    (hscan : Scan.token c cs = .ok scan) (hempty : scan.text = []) : False := by
  cases h with
  | insert hgap' => simp [hgap] at hgap'
  | skip hgap' => simp [hgap] at hgap'
  | token _ hscan' hne =>
      rw [hscan] at hscan'
      obtain rfl := Except.ok.inj hscan'
      exact hne hempty

theorem Lexes.ne_nil {pending : Bool} {cs : List CodePoint} {ls : List Lexeme}
    (h : Lexes pending cs ls) : ls ≠ [] := by
  induction h with
  | skip _ _ _ ih => exact ih
  | _ => simp

-- Each lexeme but the semicolon at the end of a line takes a character.
theorem Lexes.length_le {pending : Bool} {cs : List CodePoint} {ls : List Lexeme}
    (h : Lexes pending cs ls) : ls.length ≤ 2 * cs.length + if pending then 2 else 1 := by
  induction h with
  | finish => simp
  | finishLine => simp
  | insert _ _ _ ih => simpa using ih
  | @skip pending _ _ _ _ hgap _ _ ih =>
      have hlt := Gap.length_lt_of_read hgap
      cases pending <;> simp only [if_true, if_false, Bool.false_eq_true] at ih ⊢ <;> omega
  | @token pending c cs scan _ _ hscan hne _ ih =>
      have hsplit := congrArg List.length (Scan.eq_of_token hscan)
      have hpos := List.length_pos_iff.mpr hne
      simp only [List.length_cons, List.length_append] at hsplit ⊢
      cases pending <;> split at ih <;>
        simp only [if_true, if_false, Bool.false_eq_true] <;> omega

namespace Lexer

-- The rest is the same for every bound that is large enough.
theorem nextWithin_eq_next {bound : List CodePoint} {s : Lexer} (h : s.rest.length ≤ bound.length) :
    nextWithin bound s = s.next := by
  have main : ∀ (bound other : List CodePoint) (s : Lexer), s.rest.length ≤ bound.length →
      s.rest.length ≤ other.length → nextWithin bound s = nextWithin other s := by
    intro bound
    induction bound with
    | nil =>
        intro other s hb _
        have hrest : s.rest = [] := List.length_eq_zero_iff.mp (Nat.le_zero.mp hb)
        cases other with
        | nil => rfl
        | cons c other => simp [nextWithin, hrest, Gap.read]
    | cons c bound ih =>
        intro other s hb ho
        cases other with
        | nil =>
            have hrest : s.rest = [] := List.length_eq_zero_iff.mp (Nat.le_zero.mp ho)
            simp [nextWithin, hrest, Gap.read]
        | cons d other =>
            simp only [nextWithin]
            cases hgap : Gap.read s.rest with
            | unfinished => rfl
            | none => rfl
            | piece gap rest =>
                have hlt := Gap.length_lt_of_read hgap
                simp only [List.length_cons] at hb ho
                have heq := ih other (s.move gap.text rest)
                  (by simp only [move]; omega) (by simp only [move]; omega)
                simp only [heq]
  exact main bound s.rest s h (Nat.le_refl _)

theorem next_of_piece {s : Lexer} {gap : Gap} {rest : List CodePoint}
    (h : Gap.read s.rest = .piece gap rest) :
    s.next = if s.pending && gap.endsLine
      then .ok (s.insertedSemicolon, { s with pending := false })
      else (s.move gap.text rest).next := by
  have hlt := Gap.length_lt_of_read h
  unfold next
  cases hrest : s.rest with
  | nil => simp [hrest, Gap.read] at h
  | cons c cs =>
      rw [hrest] at hlt h
      simp only [nextWithin, hrest, h]
      rw [nextWithin_eq_next (by simp only [move, List.length_cons] at hlt ⊢; omega)]
      rfl

theorem next_of_nil {s : Lexer} (h : s.rest = []) : s.next = .ok s.atEnd := by
  simp [next, h, nextWithin]

theorem next_of_cons {s : Lexer} {c : CodePoint} {cs : List CodePoint} (h : s.rest = c :: cs)
    (hgap : Gap.read (c :: cs) = .none) :
    s.next = match Scan.token c cs with
      | .ok scan => .ok (s.scanned scan)
      | .error cause => .error (s.diagnose cause) := by
  cases hscan : Scan.token c cs <;> simp only [next, h, nextWithin, hgap, hscan]

-- What is read first, and that the rest of the stream follows it.
theorem lexes_of_next {s s' : Lexer} {t : Token} (h : s.next = .ok (t, s')) :
    (t.kind = .eof ∧ Lexes s.pending s.rest [t.toLexeme]) ∨
      (t.kind ≠ .eof ∧ ∀ ls, Lexes s'.pending s'.rest ls →
        Lexes s.pending s.rest (t.toLexeme :: ls)) := by
  generalize hn : s.rest.length = n
  induction n using Nat.strongRecOn generalizing s with
  | ind n ih =>
      cases hgap : Gap.read s.rest with
      | unfinished =>
          cases hrest : s.rest with
          | nil => simp [hrest, Gap.read] at hgap
          | cons c cs =>
              rw [hrest] at hgap
              simp [next, hrest, nextWithin, hgap] at h
      | piece gap rest =>
          have hlt := Gap.length_lt_of_read hgap
          rw [next_of_piece hgap] at h
          split at h
          · rename_i hp
            obtain ⟨hpending, hend⟩ := (Bool.and_eq_true _ _).mp hp
            obtain ⟨rfl, rfl⟩ := Prod.mk.inj (Except.ok.inj h)
            refine Or.inr ⟨by simp [insertedSemicolon, tokenHere], fun ls hls => ?_⟩
            rw [hpending]
            exact .insert hgap hend hls
          · rename_i hp
            have hp : (s.pending && gap.endsLine) = false := by simpa using hp
            rcases ih rest.length (by omega) h rfl with ⟨he, hl⟩ | ⟨he, hl⟩
            · exact Or.inl ⟨he, .skip hgap hp hl⟩
            · exact Or.inr ⟨he, fun ls hls => .skip hgap hp (hl ls hls)⟩
      | none =>
          cases hrest : s.rest with
          | nil =>
              rw [next_of_nil hrest] at h
              have h := Except.ok.inj h
              unfold atEnd at h
              split at h <;> rename_i hp <;> obtain ⟨rfl, rfl⟩ := Prod.mk.inj h
              · refine Or.inr ⟨by simp [insertedSemicolon, tokenHere], fun ls hls => ?_⟩
                obtain rfl := Lexes.unique .finish (by simpa [hrest] using hls)
                rw [hp]
                exact .finishLine
              · refine Or.inl ⟨rfl, ?_⟩
                have hp : s.pending = false := by simpa using hp
                rw [hp]
                exact .finish
          | cons c cs =>
              rw [hrest] at hgap
              rw [next_of_cons hrest hgap] at h
              split at h
              · rename_i scan hscan
                obtain ⟨rfl, rfl⟩ := Prod.mk.inj (Except.ok.inj h)
                refine Or.inr ⟨Scan.kind_ne_eof hscan, fun ls hls => ?_⟩
                have hls : Lexes scan.kind.endsStatement scan.rest ls := by
                  dsimp only at hls
                  split at hls <;> exact hls
                by_cases hempty : scan.text = []
                · have hsame := Scan.eq_of_token hscan
                  rw [hempty, List.nil_append] at hsame
                  rw [← hsame] at hls
                  exact (hls.false_of_empty hgap hscan hempty).elim
                · exact .token hgap hscan hempty hls
              · cases h

theorem lexes_of_draw {n : Nat} {s : Lexer} (h : (draw n s).stop = .ended) :
    Lexes s.pending s.rest ((draw n s).tokens.map (·.toLexeme)) := by
  induction n generalizing s with
  | zero => simp [draw] at h
  | succ n ih =>
      unfold draw at h ⊢
      cases hnext : s.next with
      | error d => simp [hnext] at h
      | ok p =>
          obtain ⟨t, s'⟩ := p
          simp only [hnext] at h ⊢
          rcases lexes_of_next hnext with ⟨he, hl⟩ | ⟨he, hl⟩
          · simpa [he] using hl
          · simp only [he, if_false] at h ⊢
            exact hl _ (ih h)

-- Drawing at least as many tokens as a text has lexemes gives all of them.
theorem draw_of_lexes {pending : Bool} {cs : List CodePoint} {ls : List Lexeme}
    (h : Lexes pending cs ls) {s : Lexer} (hpending : s.pending = pending) (hrest : s.rest = cs)
    {n : Nat} (hn : ls.length ≤ n) :
    (draw n s).stop = .ended ∧ (draw n s).tokens.map (·.toLexeme) = ls := by
  induction h generalizing s n with
  | finish =>
      obtain ⟨n, rfl⟩ : ∃ m, n = m + 1 := ⟨n - 1, by simp at hn; omega⟩
      simp [draw, next_of_nil hrest, atEnd, hpending, tokenHere, Lexeme.ending]
  | finishLine =>
      obtain ⟨n, rfl⟩ : ∃ m, n = m + 2 := ⟨n - 2, by simp at hn; omega⟩
      simp [draw, next_of_nil hrest, atEnd, hpending, insertedSemicolon, tokenHere,
        next_of_nil (s := { s with pending := false }) hrest, Lexeme.newline, Lexeme.ending]
  | insert hgap hend _ ih =>
      obtain ⟨n, rfl⟩ : ∃ m, n = m + 1 := ⟨n - 1, by simp at hn; omega⟩
      have hnext := next_of_piece (s := s) (hrest ▸ hgap)
      rw [hpending, hend] at hnext
      obtain ⟨hstop, hmap⟩ := ih (s := { s with pending := false }) rfl hrest
        (n := n) (by simp at hn; omega)
      simp only [Bool.and_self, if_true] at hnext
      simp [draw, hnext, insertedSemicolon, tokenHere, hstop, hmap, Lexeme.newline]
  | @skip _ _ rest gap _ hgap hend hls ih =>
      have hpos := List.length_pos_iff.mpr hls.ne_nil
      obtain ⟨n, rfl⟩ : ∃ m, n = m + 1 := ⟨n - 1, by omega⟩
      have hnext := next_of_piece (s := s) (hrest ▸ hgap)
      rw [hpending, hend] at hnext
      have hdraw := ih (s := s.move gap.text rest) hpending rfl hn
      simp only [Bool.false_eq_true, if_false] at hnext
      unfold draw at hdraw ⊢
      rw [hnext]
      split at hdraw
      · cases hdraw.1
      · exact hdraw
  | @token _ c cs scan ls hgap hscan _ _ ih =>
      obtain ⟨n, rfl⟩ : ∃ m, n = m + 1 := ⟨n - 1, by simp at hn; omega⟩
      have hnext := next_of_cons hrest hgap
      rw [hscan] at hnext
      have hmoved : (s.scanned scan).2.rest = scan.rest := by
        simp only [scanned]
        split <;> rfl
      obtain ⟨hstop, hmap⟩ := ih (s := (s.scanned scan).2) (by simp [scanned]) hmoved
        (n := n) (by simp at hn; omega)
      have hkind := Scan.kind_ne_eof hscan
      simp only [draw, hnext]
      have hfirst : (s.scanned scan).1.toLexeme = ⟨scan.kind, Text.ofList scan.text⟩ := rfl
      simp [hkind, hstop, hmap, hfirst]

-- The tokens of a text are those with its lexemes.
theorem lexes_of_tokens {source : Text} {file : Option Text} {ts : List Token}
    (h : tokens source file = .ok ts) : Lexes false source.toList (ts.map (·.toLexeme)) := by
  unfold tokens at h
  dsimp only at h
  split at h
  · rename_i hstop
    obtain rfl := Except.ok.inj h
    exact lexes_of_draw hstop
  · cases h
  · cases h

theorem tokens_of_lexes {source : Text} {ls : List Lexeme} (h : Lexes false source.toList ls)
    (file : Option Text) : ∃ ts, tokens source file = .ok ts ∧ ts.map (·.toLexeme) = ls := by
  have hlen := h.length_le
  rw [Text.length_toList] at hlen
  obtain ⟨hstop, hmap⟩ := draw_of_lexes h (s := new source file) rfl rfl
    (n := 2 * source.length + 2) (by simp at hlen; omega)
  refine ⟨_, ?_, hmap⟩
  simp only [tokens, hstop]

end Lexer

end GoCompact
