import GoCompact.Proofs.Lexing.Boundary

namespace GoCompact

open CodePoint (char)

namespace Lexeme

-- Whether a lexeme stands in the text, and not for the end of it or of a line.
def isWritten (l : Lexeme) : Bool := !l.isInserted && l.kind != .eof

-- An operator, and a keyword.
def ofOperator (o : Operator) : Lexeme := ⟨.op o, o.spelling⟩

def ofKeyword (k : Keyword) : Lexeme := ⟨.word k, k.spelling⟩

theorem Whole.kind_ne_eof {l : Lexeme} (h : l.Whole) : l.kind ≠ .eof := by
  obtain ⟨-, c, cs, raw, -, hscan⟩ := h
  exact Scan.kind_ne_eof hscan

theorem Whole.text_ne_nil {l : Lexeme} (h : l.Whole) : l.text.toList ≠ [] := by
  obtain ⟨-, c, cs, raw, htext, -⟩ := h
  simp [htext]

-- Whether a lexeme is read from its text. There is no other lexeme that is.
def isWhole (l : Lexeme) : Bool :=
  match l.text.toList with
  | [] => false
  | c :: cs =>
    decide (Gap.read (c :: cs) = .none) &&
      (match Scan.token c cs with
       | .ok scan => scan.kind == l.kind && scan.text == c :: cs && scan.rest == []
       | .error _ => false)

theorem whole_of_isWhole {l : Lexeme} (h : l.isWhole = true) : l.Whole := by
  unfold isWhole at h
  split at h
  · cases h
  · rename_i c cs htext
    simp only [Bool.and_eq_true, decide_eq_true_eq] at h
    obtain ⟨hgap, hscan⟩ := h
    split at hscan
    · rename_i scan hok
      simp only [Bool.and_eq_true, beq_iff_eq] at hscan
      obtain ⟨⟨hkind, hcs⟩, hrest⟩ := hscan
      refine ⟨by rw [htext, List.append_nil]; exact hgap, c, cs, scan.raw, htext, ?_⟩
      rw [List.append_nil, hok, htext, ← hkind, ← hcs, ← hrest]
    · cases hscan

theorem whole_ofOperator (o : Operator) : (ofOperator o).Whole :=
  whole_of_isWhole (by cases o <;> rfl)

theorem whole_ofKeyword (k : Keyword) : (ofKeyword k).Whole :=
  whole_of_isWhole (by cases k <;> rfl)

end Lexeme

namespace Keyword

theorem spelling_of_ofSpelling? {s : Text} {k : Keyword} (h : ofSpelling? s = some k) :
    k.spelling = s := by
  unfold ofSpelling? at h
  simpa using List.find?_some h

end Keyword

namespace Scan

theorem kind_quoted {literal : Literal} {what : Unfinished} {quote : CodePoint} {cs : List CodePoint}
    {scan : Scan} (h : quoted literal what quote cs = .ok scan) : scan.kind = .literal literal := by
  unfold quoted at h
  split at h
  · rw [← Except.ok.inj h]
  · cases h

theorem kind_rawString {cs : List CodePoint} {scan : Scan} (h : rawString cs = .ok scan) :
    scan.kind = .literal .Text := by
  simp only [rawString] at h
  split at h
  · rw [← Except.ok.inj h]
  · cases h

-- The text of an operator or a keyword is its spelling.
theorem text_of_token {c : CodePoint} {cs : List CodePoint} {scan : Scan} (h : token c cs = .ok scan) :
    (∀ o, scan.kind = .op o → scan.text = o.spelling.toList) ∧
      ∀ k, scan.kind = .word k → scan.text = k.spelling.toList := by
  have hliteral : ∀ l, scan.kind = .literal l →
      (∀ o, scan.kind = .op o → scan.text = o.spelling.toList) ∧
        ∀ k, scan.kind = .word k → scan.text = k.spelling.toList := by
    intro l hl
    simp [hl]
  unfold token at h
  split at h
  · obtain rfl := Except.ok.inj h
    simp only [name]
    split
    · rename_i k hk
      simp [Keyword.spelling_of_ofSpelling? hk]
    · simp
  split at h
  · exact hliteral _ (by rw [← Except.ok.inj h]; rfl)
  split at h
  · exact hliteral _ (kind_quoted h)
  split at h
  · exact hliteral _ (kind_rawString h)
  split at h
  · exact hliteral _ (kind_quoted h)
  · obtain ⟨o, ho⟩ := kind_operator h
    refine ⟨fun p hp => text_operator h hp, ?_⟩
    simp [ho]

-- Only what begins like a number is read as one.
theorem number_of_token {c : CodePoint} {cs : List CodePoint} {scan : Scan} {kind : Literal}
    (h : token c cs = .ok scan) (hkind : scan.kind = .literal kind)
    (hnumber : kind = .Integer ∨ kind = .Floating) :
    Text.beginsName c = false ∧ beginsNumber c cs = true ∧ number (c :: cs) = scan := by
  have hother : ∀ {l : Literal}, l ≠ .Integer → l ≠ .Floating → scan.kind ≠ .literal l := by
    rintro l hint hfloat hl
    rw [hkind] at hl
    obtain rfl := TokenKind.literal.inj hl
    rcases hnumber with rfl | rfl <;> contradiction
  unfold token at h
  split at h
  · obtain rfl := Except.ok.inj h
    rcases kind_name (c :: cs) with hname | ⟨k, hname⟩ <;> rw [hname] at hkind <;> cases hkind
  rename_i hname
  split at h
  · rename_i hbegins
    exact ⟨by simpa using hname, hbegins, Except.ok.inj h⟩
  split at h
  · exact absurd (kind_quoted h) (hother (by simp) (by simp))
  split at h
  · exact absurd (kind_rawString h) (hother (by simp) (by simp))
  split at h
  · exact absurd (kind_quoted h) (hother (by simp) (by simp))
  · obtain ⟨o, ho⟩ := kind_operator h
    rw [hkind] at ho
    cases ho

-- What begins like a number still does when more text follows.
theorem token_append_number {c : CodePoint} {cs : List CodePoint} (rest : List CodePoint)
    (hname : Text.beginsName c = false) (hnumber : beginsNumber c cs = true) :
    Gap.read (c :: (cs ++ rest)) = .none ∧
      token c (cs ++ rest) = .ok (number (c :: cs ++ rest)) := by
  have hnumber' : beginsNumber c (cs ++ rest) = true := by
    cases cs with
    | nil => simp_all [beginsNumber]
    | cons d ds => exact hnumber
  have hplain : ∀ d : CodePoint, Text.isDigit d = false → d ≠ '.' → c ≠ d := by
    rintro d hdigit hpoint rfl
    simp [beginsNumber, hdigit, hpoint] at hnumber
  constructor
  · rw [Gap.read_eq_none_iff]
    refine ⟨hplain _ (by decide) (by decide), ?_, fun hslash => ?_⟩
    · simp [Gap.isBlank, hplain ' ' (by decide) (by decide), hplain '\t' (by decide) (by decide),
        hplain '\r' (by decide) (by decide)]
    · exact absurd hslash (hplain _ (by decide) (by decide))
  · simp [token, hname, hnumber']

end Scan

namespace Lexeme

theorem Whole.eq_ofOperator {l : Lexeme} {o : Operator} (h : l.Whole) (hkind : l.kind = .op o) :
    l = ofOperator o := by
  obtain ⟨kind, text⟩ := l
  obtain ⟨-, c, cs, raw, -, hscan⟩ := h
  obtain rfl : kind = .op o := hkind
  have htext : text = o.spelling := Text.toList_inj.mp ((Scan.text_of_token hscan).1 o rfl)
  rw [htext]
  rfl

theorem Whole.eq_ofKeyword {l : Lexeme} {k : Keyword} (h : l.Whole) (hkind : l.kind = .word k) :
    l = ofKeyword k := by
  obtain ⟨kind, text⟩ := l
  obtain ⟨-, c, cs, raw, -, hscan⟩ := h
  obtain rfl : kind = .word k := hkind
  have htext : text = k.spelling := Text.toList_inj.mp ((Scan.text_of_token hscan).2 k rfl)
  rw [htext]
  rfl

theorem Whole.isWritten {l : Lexeme} (h : l.Whole) : l.isWritten = true := by
  have hinserted : l.isInserted = false := by
    by_cases hkind : l.kind = .op .Semicolon
    · rw [h.eq_ofOperator hkind]
      decide
    · simp [isInserted, hkind]
  simp [Lexeme.isWritten, hinserted, h.kind_ne_eof]

theorem isWritten_newline : newline.isWritten = false := by decide

theorem isWritten_ending : ending.isWritten = false := by decide

end Lexeme

-- A text that holds lexemes with blanks between them, before another text.
inductive Strung : List CodePoint → List Lexeme → List CodePoint → Prop
  | nil {rest : List CodePoint} : Strung [] [] rest
  | blank {cs rest : List CodePoint} {ls : List Lexeme} (h : Strung cs ls rest) :
      Strung (' ' :: cs) ls rest
  | token {cs rest : List CodePoint} {l : Lexeme} {ls : List Lexeme} (hl : l.Whole)
      (hend : ∀ d ∈ (cs ++ rest).head?, l.endsBefore d = true) (h : Strung cs ls rest) :
      Strung (l.text.toList ++ cs) (l :: ls) rest

namespace Strung

variable {pending : Bool} {cs ds rest : List CodePoint} {ls ms : List Lexeme}

theorem append (h : Strung cs ls (ds ++ rest)) (h' : Strung ds ms rest) :
    Strung (cs ++ ds) (ls ++ ms) rest := by
  generalize hfollow : ds ++ rest = follow at h
  induction h with
  | nil => exact h'
  | blank _ ih => exact .blank (ih hfollow)
  | token hl hend _ ih =>
      subst hfollow
      rw [List.append_assoc, List.cons_append]
      rw [← List.append_assoc] at hend
      exact .token hl hend (ih rfl)

theorem whole (h : Strung cs ls rest) : ∀ l ∈ ls, l.Whole := by
  induction h with
  | nil => simp
  | blank _ ih => exact ih
  | token hl _ _ ih => exact List.forall_mem_cons.mpr ⟨hl, ih⟩

-- Only the last lexeme meets what follows the text, and that only if no blank stands between.
theorem before (h : Strung cs ls [])
    (hend : ∀ l ∈ ls.getLast?, l.text.toList <:+ cs → ∀ d ∈ rest.head?, l.endsBefore d = true) :
    Strung cs ls rest := by
  generalize hnil : ([] : List CodePoint) = follow at h
  induction h with
  | nil => exact .nil
  | blank _ ih =>
      refine .blank (ih (fun l hl hsuffix => hend l hl ?_) hnil)
      exact hsuffix.trans (List.suffix_cons _ _)
  | @token cs _ l ls hl hbefore hls ih =>
      subst hnil
      rw [List.append_nil] at hbefore
      have hrest : Strung cs ls rest := by
        refine ih (fun m hm hsuffix => hend m ?_ ?_) rfl
        · cases ls with
          | nil => cases hm
          | cons n ls => simpa using hm
        · exact hsuffix.trans (List.suffix_append _ _)
      refine .token hl ?_ hrest
      cases cs with
      | cons c cs => exact hbefore
      | nil =>
          obtain rfl : ls = [] := by
            generalize hcs : ([] : List CodePoint) = cs at hls
            cases hls with
            | nil => rfl
            | blank => cases hcs
            | token hm =>
                exact absurd (List.append_eq_nil_iff.mp hcs.symm).1 hm.text_ne_nil
          exact hend l rfl (by simp)

-- Whether the end of a line after some lexemes is a semicolon.
def pendingAfter (pending : Bool) (ls : List Lexeme) : Bool :=
  ls.foldl (fun _ l => l.kind.endsStatement) pending

-- The lexemes of such a text come first, and then those of what follows.
theorem lexes (h : Strung cs ls rest) (hrest : Lexes (pendingAfter pending ls) rest ms) :
    Lexes pending (cs ++ rest) (ls ++ ms) := by
  induction h generalizing pending with
  | nil => exact hrest
  | @blank cs rest _ _ ih =>
      have hgap : Gap.read (' ' :: (cs ++ rest)) = .piece (.blank ' ') (cs ++ rest) := rfl
      exact .skip hgap (by simp [Gap.endsLine]) (ih hrest)
  | @token cs _ l ls hl hend _ ih =>
      obtain ⟨hgap, c, tail, raw, htext, hscan⟩ := hl.stands hend
      rw [List.append_assoc]
      rw [htext, List.cons_append] at hgap ⊢
      have htoken : Lexes pending _ (⟨_, Text.ofList l.text.toList⟩ :: _) :=
        .token hgap hscan (by simp [htext]) (ih hrest)
      rwa [Text.ofList_toList] at htoken

-- A text that begins with such a text has no other lexemes there.
theorem split_lexes (h : Strung cs ls rest) (hlexes : Lexes pending (cs ++ rest) ms) :
    ∃ ns, ms = ls ++ ns ∧ Lexes (pendingAfter pending ls) rest ns := by
  induction h generalizing pending ms with
  | nil => exact ⟨ms, rfl, hlexes⟩
  | @blank cs rest _ _ ih =>
      have hgap : Gap.read (' ' :: (cs ++ rest)) = .piece (.blank ' ') (cs ++ rest) := rfl
      rw [List.cons_append] at hlexes
      cases hlexes with
      | insert hgap' hend =>
          rw [hgap] at hgap'
          obtain ⟨rfl, rfl⟩ := Gap.Reading.piece.inj hgap'
          simp [Gap.endsLine] at hend
      | skip hgap' _ hskip =>
          rw [hgap] at hgap'
          obtain ⟨rfl, rfl⟩ := Gap.Reading.piece.inj hgap'
          exact ih hskip
      | token hgap' =>
          rw [hgap] at hgap'
          cases hgap'
  | @token cs _ l ls hl hend _ ih =>
      obtain ⟨hgap, c, tail, raw, htext, hscan⟩ := hl.stands hend
      rw [List.append_assoc] at hlexes
      rw [htext, List.cons_append] at hgap hlexes
      cases hlexes with
      | insert hgap' => simp [hgap] at hgap'
      | skip hgap' => simp [hgap] at hgap'
      | token _ hscan' _ hafter =>
          rw [hscan] at hscan'
          obtain rfl := Except.ok.inj hscan'
          obtain ⟨ns, rfl, hns⟩ := ih hafter
          refine ⟨ns, ?_, hns⟩
          rw [Text.ofList_toList]
          rfl

end Strung

namespace Lexer

-- The lexemes that stand in a text.
def written (source : Text) : Except Diagnostic (List Lexeme) :=
  (tokens source none).map fun ts => (ts.map (·.toLexeme)).filter Lexeme.isWritten

theorem written_of_lexes {source : Text} {ls : List Lexeme} (h : Lexes false source.toList ls) :
    written source = .ok (ls.filter Lexeme.isWritten) := by
  obtain ⟨ts, hts, rfl⟩ := tokens_of_lexes h none
  simp only [written, hts]
  rfl

theorem lexes_of_written {source : Text} {ls : List Lexeme} (h : written source = .ok ls) :
    ∃ ms, Lexes false source.toList ms ∧ ms.filter Lexeme.isWritten = ls := by
  unfold written at h
  cases hts : tokens source none with
  | error d =>
      rw [hts] at h
      cases h
  | ok ts =>
      rw [hts] at h
      exact ⟨_, lexes_of_tokens hts, Except.ok.inj h⟩

end Lexer

namespace Strung

theorem filter_isWritten {cs rest : List CodePoint} {ls : List Lexeme} (h : Strung cs ls rest) :
    ls.filter Lexeme.isWritten = ls :=
  List.filter_eq_self.mpr fun l hl => (h.whole l hl).isWritten

-- At the end of the text a semicolon may be inserted.
def ending (pending : Bool) : List Lexeme := if pending then [.newline, .ending] else [.ending]

theorem lexes_all {cs : List CodePoint} {ls : List Lexeme} (h : Strung cs ls []) :
    Lexes false cs (ls ++ ending (pendingAfter false ls)) := by
  have hend : Lexes (pendingAfter false ls) [] (ending (pendingAfter false ls)) := by
    cases pendingAfter false ls
    · exact .finish
    · exact .finishLine
  simpa using h.lexes hend

theorem written {s : Text} {ls : List Lexeme} (h : Strung s.toList ls []) :
    Lexer.written s = .ok ls := by
  rw [Lexer.written_of_lexes h.lexes_all, List.filter_append, h.filter_isWritten]
  cases pendingAfter false ls <;> simp [ending, Lexeme.isWritten_newline, Lexeme.isWritten_ending]

end Strung

namespace Text

-- The lexemes of a text that can be read.
def lexemes (s : Text) : List Lexeme := (Lexer.written s).toOption.getD []

-- A piece of a text, which holds whole lexemes with blanks between them.
structure Piece (w : Text) : Prop where
  ne_empty : w ≠ ""
  strung : Strung w.toList (lexemes w) []

-- Whether the last lexeme of a piece ends before the next piece.
def Fits (w v : Text) : Prop :=
  ∀ l ∈ (lexemes w).getLast?, l.text.toList <:+ w.toList →
    ∀ d ∈ v.toList.head?, l.endsBefore d = true

-- Whether a piece is a literal of a kind.
def IsLiteral (kind : Literal) (w : Text) : Prop := Lexer.written w = .ok [⟨.literal kind, w⟩]

-- A number that goes on in the next piece: an integer before a point, or a floating-point number
-- that ends in the mark of its exponent before a sign.
def Clashes (w v : Text) : Prop :=
  (IsLiteral .Integer w ∧ v.toList.head? = some (char '.')) ∨
    (IsLiteral .Floating w ∧ Scan.endsInMark w.toList = true ∧
      (v.toList.head? = some (char '+') ∨ v.toList.head? = some (char '-')))

theorem lexemes_eq {s : Text} {ls : List Lexeme} (h : Lexer.written s = .ok ls) :
    lexemes s = ls := by
  simp [lexemes, h, Except.toOption]

theorem piece_of_strung {w : Text} {ls : List Lexeme} (hne : w ≠ "")
    (h : Strung w.toList ls []) : Piece w :=
  ⟨hne, by rw [lexemes_eq h.written]; exact h⟩

theorem written_of_piece {w : Text} (h : Piece w) : Lexer.written w = .ok (lexemes w) :=
  h.strung.written

theorem strung_join {ws : List Text} (hpiece : ∀ w ∈ ws, Piece w) (hfits : ws.IsChain Fits) :
    Strung (Text.join ws).toList (ws.flatMap lexemes) [] := by
  induction ws with
  | nil => exact .nil
  | cons w ws ih =>
      have hrest := ih (fun v hv => hpiece v (by simp [hv])) hfits.tail
      rw [Text.join_cons, Text.toList_append, List.flatMap_cons]
      refine Strung.append ?_ hrest
      rw [List.append_nil]
      refine (hpiece w (by simp)).strung.before fun l hl hsuffix d hd => ?_
      cases ws with
      | nil => simp at hd
      | cons v ws =>
          have hv : v.toList ≠ [] := by
            simpa using (hpiece v (by simp)).ne_empty
          rw [Text.join_cons, Text.toList_append, List.head?_append_of_ne_nil _ hv] at hd
          exact (List.isChain_cons_cons.mp hfits).1 l hl hsuffix d hd

theorem IsLiteral.kind_unique {kind other : Literal} {w : Text} (h : IsLiteral kind w)
    (h' : IsLiteral other w) : kind = other := by
  unfold IsLiteral at h h'
  rw [h] at h'
  simpa using h'

-- A number that goes on in what follows is not read as itself.
theorem ne_of_clashes {pending : Bool} {w v : Text} {rest : List CodePoint} {ms : List Lexeme}
    {l : Lexeme} (hw : Piece w) (hclash : Clashes w v) (hrest : rest.head? = v.toList.head?)
    (h : Lexes pending (w.toList ++ rest) ms) (hl : l ∈ lexemes w) :
    (ms.filter Lexeme.isWritten).head? ≠ some l := by
  have hliteral : ∃ kind, (kind = .Integer ∨ kind = .Floating) ∧ IsLiteral kind w := by
    rcases hclash with ⟨hw, -⟩ | ⟨hw, -, -⟩
    · exact ⟨_, Or.inl rfl, hw⟩
    · exact ⟨_, Or.inr rfl, hw⟩
  obtain ⟨kind, hkind, hliteral⟩ := hliteral
  have hlexemes := lexemes_eq hliteral
  obtain rfl : l = ⟨.literal kind, w⟩ := by simpa [hlexemes] using hl
  obtain ⟨-, c, cs, raw, htext, hscan⟩ := hw.strung.whole _ hl
  rw [List.append_nil] at hscan
  obtain ⟨hname, hbegins, hnumber⟩ := Scan.number_of_token hscan rfl hkind
  obtain ⟨hgap, htoken⟩ := Scan.token_append_number rest hname hbegins
  change w.toList = c :: cs at htext
  have hself : Scan.number (c :: cs) = ⟨.literal kind, c :: cs, [], false⟩ := by
    have hraw : raw = false := congrArg Scan.raw hnumber.symm
    rw [hnumber, hraw, htext]
  rw [htext, List.cons_append] at h
  cases h with
  | insert hgap' => simp [hgap] at hgap'
  | skip hgap' => simp [hgap] at hgap'
  | token _ hscan' hne hafter =>
      rw [htoken] at hscan'
      obtain rfl := Except.ok.inj hscan'
      have hwritten : (⟨(Scan.number (c :: cs ++ rest)).kind,
          Text.ofList (Scan.number (c :: cs ++ rest)).text⟩ : Lexeme).isWritten = true := by
        simp [Lexeme.isWritten, Lexeme.isInserted, Scan.number]
      intro hhead
      rw [List.filter_cons_of_pos hwritten, List.head?_cons, Option.some.injEq,
        Lexeme.mk.injEq] at hhead
      obtain ⟨hkind', htext'⟩ := hhead
      rcases hclash with ⟨hint, hv⟩ | ⟨hfloat, hmark, hv⟩
      · obtain rfl : kind = .Integer := hliteral.kind_unique hint
        rw [hv] at hrest
        obtain ⟨tail, rfl⟩ := List.head?_eq_some_iff.mp hrest
        exact Scan.numberKind_append_point (by simp) hself (TokenKind.literal.inj hkind')
      · obtain rfl : kind = .Floating := hliteral.kind_unique hfloat
        have hsign : ∃ d tail, (d = char '+' ∨ d = char '-') ∧ rest = d :: tail := by
          rcases hv with hv | hv <;> rw [hv] at hrest <;>
            obtain ⟨tail, rfl⟩ := List.head?_eq_some_iff.mp hrest
          · exact ⟨_, tail, Or.inl rfl, rfl⟩
          · exact ⟨_, tail, Or.inr rfl, rfl⟩
        obtain ⟨d, tail, hd, rfl⟩ := hsign
        rw [htext] at hmark
        have hsame : (Scan.number (c :: cs ++ d :: tail)).text = c :: cs :=
          (congrArg Text.toList htext').trans htext
        exact Scan.number_append_sign (by simp) hd hmark hself hsame

-- Pieces that are read as they stand do not clash.
theorem not_clashes_of_lexes {pending : Bool} {ws : List Text} {ms : List Lexeme}
    (hpiece : ∀ w ∈ ws, Piece w) (hchain : ws.IsChain fun w v => Fits w v ∨ Clashes w v)
    (h : Lexes pending (Text.join ws).toList ms)
    (hms : ms.filter Lexeme.isWritten = ws.flatMap lexemes) :
    ws.IsChain fun w v => ¬Clashes w v := by
  induction ws generalizing pending ms with
  | nil => exact .nil
  | cons w ws ih =>
      cases ws with
      | nil => exact .singleton w
      | cons v ws =>
          have hw : Piece w := hpiece w (by simp)
          have hv : v.toList ≠ [] := by simpa using (hpiece v (by simp)).ne_empty
          have hhead : (Text.join (v :: ws)).toList.head? = v.toList.head? := by
            rw [Text.join_cons, Text.toList_append, List.head?_append_of_ne_nil _ hv]
          rw [Text.join_cons, Text.toList_append] at h
          rw [List.flatMap_cons] at hms
          obtain ⟨hseam, hchain⟩ := List.isChain_cons_cons.mp hchain
          have hnot : ¬Clashes w v := by
            intro hclash
            have hnonempty : ∃ l, l ∈ lexemes w ∧ (lexemes w).head? = some l := by
              rcases hclash with ⟨hw, -⟩ | ⟨hw, -, -⟩ <;> rw [lexemes_eq hw] <;> simp
            obtain ⟨l, hl, hfirst⟩ := hnonempty
            refine ne_of_clashes hw hclash hhead h hl ?_
            rw [hms, List.head?_append, hfirst]
            rfl
          have hstrung : Strung w.toList (lexemes w) (Text.join (v :: ws)).toList := by
            refine hw.strung.before fun l hl hsuffix d hd => ?_
            rw [hhead] at hd
            exact (hseam.resolve_right hnot) l hl hsuffix d hd
          obtain ⟨ns, rfl, hns⟩ := hstrung.split_lexes h
          rw [List.filter_append, hstrung.filter_isWritten, List.append_cancel_left_eq] at hms
          exact List.isChain_cons_cons.mpr
            ⟨hnot, ih (fun u hu => hpiece u (by simp [hu])) hchain hns hms⟩

-- The lexemes of a text are those of its pieces exactly when no two pieces clash.
theorem written_join_iff {ws : List Text} (hpiece : ∀ w ∈ ws, Piece w)
    (hchain : ws.IsChain fun w v => Fits w v ∨ Clashes w v) :
    Lexer.written (Text.join ws) = .ok (ws.flatMap lexemes) ↔
      ws.IsChain fun w v => ¬Clashes w v := by
  constructor
  · intro h
    obtain ⟨ms, hlexes, hms⟩ := Lexer.lexes_of_written h
    exact not_clashes_of_lexes hpiece hchain hlexes hms
  · intro h
    have hfits : ws.IsChain Fits := by
      rw [List.isChain_iff_forall_rel_of_append_cons_cons] at hchain h ⊢
      intro w v us vs hws
      exact (hchain hws).resolve_right (h hws)
    exact (strung_join hpiece hfits).written

end Text

end GoCompact
