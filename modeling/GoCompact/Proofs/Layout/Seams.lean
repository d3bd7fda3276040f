import GoCompact.Proofs.Layout.Words

namespace GoCompact

open CodePoint (char)

namespace Operator

-- Operators that no longer operator begins with.
def isLast (o : Operator) : Bool :=
  o != .Quo && all.all fun q => q == o || !o.spelling.toList.isPrefixOf q.spelling.toList

theorem joins_eq_false {o : Operator} (h : o.isLast = true) (d : CodePoint) : o.joins d = false := by
  simp only [isLast, Bool.and_eq_true, bne_iff_ne, List.all_eq_true] at h
  obtain ⟨hquo, hall⟩ := h
  rw [joins, Bool.or_eq_false_iff, List.any_eq_false]
  refine ⟨fun q hq hlonger => ?_, by simp [hquo]⟩
  obtain ⟨tail, htail⟩ := List.isPrefixOf_iff_prefix.mp hlonger
  have hbegins : o.spelling.toList.isPrefixOf q.spelling.toList = true :=
    List.isPrefixOf_iff_prefix.mpr ⟨d :: tail, by rw [← htail]; simp⟩
  have hsame : q = o := by simpa [hbegins] using hall q hq
  have hlength := congrArg List.length htail
  rw [hsame] at hlength
  simp at hlength

-- Those that are written as punctuation.
def isMark : Operator → Bool
  | .LParen | .RParen | .LBrack | .RBrack | .LBrace | .RBrace | .Comma | .Semicolon
  | .Ellipsis => true
  | _ => false

theorem joins_mark {o : Operator} (h : o.isMark = true) (d : CodePoint) :
    o.joins d = false ∧ o ≠ .Period := by
  have hlast : o.isLast = true ∧ o ≠ .Period := by
    revert h
    cases o <;> decide
  exact ⟨joins_eq_false hlast.1 d, hlast.2⟩

-- The characters that go on with some operator.
def joiners : List CodePoint := ['=', '+', '-', '<', '>', '&', '|', '^', '.', '/', '*']

theorem mem_joiners {o : Operator} {d : CodePoint} (h : o.joins d = true) : d ∈ joiners := by
  have htails : ∀ q : Operator, q.spelling.toList.tail.all (joiners.contains ·) = true := by
    intro q
    cases q <;> rfl
  rw [joins, Bool.or_eq_true, List.any_eq_true] at h
  rcases h with ⟨q, -, hlonger⟩ | h
  · obtain ⟨tail, htail⟩ := List.isPrefixOf_iff_prefix.mp hlonger
    refine List.contains_iff_mem.mp (List.all_eq_true.mp (htails q) d ?_)
    cases hs : o.spelling.toList with
    | nil =>
        have hlength := o.length_spelling
        simp [hs] at hlength
    | cons c cs =>
        rw [hs] at htail
        rw [← htail]
        simp
  · simp only [Bool.and_eq_true, Bool.or_eq_true, beq_iff_eq] at h
    rcases h with ⟨-, rfl | rfl⟩ <;> decide

-- Only a point goes on with a point.
theorem joins_point {o : Operator} (h : o ≠ .Period) : o.joins '.' = false := by
  have htails : ∀ q : Operator, q ≠ .Ellipsis → char '.' ∉ q.spelling.toList.tail := by
    intro q
    cases q <;> decide
  have hshort : ∀ o : Operator, o ≠ .Period →
      ¬(o.spelling.toList ++ [char '.']).isPrefixOf Operator.Ellipsis.spelling.toList = true := by
    intro o
    cases o <;> decide
  rw [joins, Bool.or_eq_false_iff, List.any_eq_false]
  refine ⟨fun q _ hlonger => ?_, by simp⟩
  by_cases hq : q = .Ellipsis
  · rw [hq] at hlonger
    exact hshort o h hlonger
  · obtain ⟨tail, htail⟩ := List.isPrefixOf_iff_prefix.mp hlonger
    refine htails q hq ?_
    cases hs : o.spelling.toList with
    | nil =>
        have hlength := o.length_spelling
        simp [hs] at hlength
    | cons c cs =>
        rw [hs] at htail
        rw [← htail]
        simp

-- What an operator and a character go on to is itself an operator, points apart.
theorem exists_spelling_of_joins {o : Operator} {d : CodePoint} (ho : o ≠ .Period)
    (h : o.joins d = true) (hcomment : o ≠ .Quo ∨ (d ≠ '/' ∧ d ≠ '*')) :
    ∃ q : Operator, q.spelling.toList = o.spelling.toList ++ [d] := by
  have hbetween : ∀ q : Operator, q ≠ .Ellipsis → q.spelling.toList.length = 3 →
      (ofSpelling? (Text.ofList (q.spelling.toList.take 2))).isSome = true := by
    intro q
    cases q <;> decide
  rw [joins, Bool.or_eq_true, List.any_eq_true] at h
  rcases h with ⟨q, -, hlonger⟩ | h
  · obtain ⟨tail, htail⟩ := List.isPrefixOf_iff_prefix.mp hlonger
    cases tail with
    | nil => exact ⟨q, by rw [← htail, List.append_nil]⟩
    | cons e tail =>
        have hlength := congrArg List.length htail
        simp only [List.length_append, List.length_cons, List.length_nil] at hlength
        have hq := q.length_spelling
        have ho' := o.length_spelling
        have htake : q.spelling.toList.take 2 = o.spelling.toList ++ [d] := by
          rw [← htail, List.take_append_of_le_length (by simp; omega), List.take_of_length_le]
          simp
          omega
        have hellipsis : q ≠ .Ellipsis := by
          rintro rfl
          have htwo : o.spelling.toList ++ [d] = [char '.'] ++ [char '.'] := htake.symm
          have hpoint : o.spelling.toList = [char '.'] := (List.append_inj' htwo rfl).1
          revert ho hpoint
          cases o <;> decide
        obtain ⟨r, hr⟩ := Option.isSome_iff_exists.mp (hbetween q hellipsis (by omega))
        exact ⟨r, by rw [spelling_of_ofSpelling? hr, Text.toList_ofList, htake]⟩
  · simp only [Bool.and_eq_true, Bool.or_eq_true, beq_iff_eq] at h
    rcases hcomment with hquo | ⟨hslash, hstar⟩
    · exact absurd h.1 hquo
    · rcases h.2 with h | h
      · exact absurd h hslash
      · exact absurd h hstar

-- Only an equals sign goes on with a colon or with an equals sign.
theorem joins_notEquals {o : Operator} {d : CodePoint} (ho : o = .Colon ∨ o = .Assign) (hd : d ≠ '=') :
    o.joins d = false := by
  have htails : ∀ q : Operator,
      (q.spelling.toList.take 1 = [char ':'] ∨ q.spelling.toList.take 1 = [char '=']) →
      q.spelling.toList.drop 1 = [] ∨ q.spelling.toList.drop 1 = [char '='] := by
    intro q
    cases q <;> decide
  by_contra h
  obtain ⟨q, hq⟩ := exists_spelling_of_joins (o := o) (d := d)
    (by rcases ho with rfl | rfl <;> decide) (by simpa using h)
    (Or.inl (by rcases ho with rfl | rfl <;> decide))
  have htail := htails q
  rw [hq] at htail
  rcases ho with rfl | rfl <;> exact hd (by simpa [spelling] using htail)

-- An operator that goes on with the character after it is not the longest one there.
theorem munch?_ne {o q : Operator} {d : CodePoint} (h : q.spelling.toList = o.spelling.toList ++ [d])
    (tail : List CodePoint) : munch? (o.spelling.toList ++ d :: tail) ≠ some o := by
  have hcs : o.spelling.toList ++ d :: tail = q.spelling.toList ++ tail := by simp [h]
  have hlonger : q.spelling.toList.length = o.spelling.toList.length + 1 := by simp [h]
  have hq := q.length_spelling
  have htake : ofSpelling? (Text.ofList ((q.spelling.toList ++ tail).take
      q.spelling.toList.length)) = some q := by
    simp [ofSpelling?_spelling]
  have hlong : ∀ n r, q.spelling.toList.length ≤ n →
      ofSpelling? (Text.ofList ((q.spelling.toList ++ tail).take n)) = some r → r ≠ o := by
    rintro n r hn hr rfl
    have hlength := congrArg (·.toList.length) (spelling_of_ofSpelling? hr)
    simp only [List.length_take, List.length_append] at hlength
    omega
  have ho := o.length_spelling
  rw [hcs, munch?, List.findSome?_cons]
  cases hthree : ofSpelling? (Text.ofList ((q.spelling.toList ++ tail).take 3)) with
  | some r => simpa using hlong 3 r (by omega) hthree
  | none =>
      have htwo : q.spelling.toList.length = 2 := by
        by_contra hne
        have heq : q.spelling.toList.length = 3 := by omega
        rw [heq, hthree] at htake
        cases htake
      rw [htwo] at htake
      rw [List.findSome?_cons, htake]
      simpa using hlong 2 q (by omega) htake

-- The character that an operator begins with.
def head (o : Operator) : CodePoint := o.spelling.toList.headD ' '

theorem head?_spelling (o : Operator) : o.spelling.toList.head? = some o.head := by
  cases o <;> rfl

-- No operator begins like a name goes on.
theorem continuesName_head (o : Operator) : Text.continuesName o.head = false := by
  cases o <;> decide

end Operator

-- An operator before a text is read as itself if it does not go on with the first character of it.
theorem punctuation_append_iff {o : Operator} {d : CodePoint} (ho : o ≠ .Period) (tail : List CodePoint) :
    punctuation (o.spelling.toList ++ d :: tail) = o.spelling ↔ o.joins d = false := by
  have hcomment : beginsComment (o.spelling.toList ++ d :: tail) = true →
      o = .Quo ∧ (d = '/' ∨ d = '*') := by
    cases o <;> simp [beginsComment, Operator.spelling]
  refine ⟨fun h => ?_, fun hjoins => ?_⟩
  · by_contra hjoins
    have hjoins : o.joins d = true := by simpa using hjoins
    by_cases hopens : o = .Quo ∧ (d = '/' ∨ d = '*')
    · have hlength := congrArg Text.length h
      obtain ⟨rfl, rfl | rfl⟩ := hopens
      · simp [punctuation, beginsComment, Operator.spelling, Text.length] at hlength
      · simp [punctuation, beginsComment, Operator.spelling, Text.length] at hlength
    · obtain ⟨q, hq⟩ := Operator.exists_spelling_of_joins ho hjoins
        (by rwa [not_and_or, not_or] at hopens)
      have hne := Operator.munch?_ne hq tail
      rw [punctuation, if_neg (fun hbegins => hopens (hcomment hbegins))] at h
      split at h
      · rename_i r hr
        have hsame : r = o := by
          have hr' := r.ofSpelling?_spelling
          rw [h, o.ofSpelling?_spelling] at hr'
          exact (Option.some.inj hr').symm
        exact hne (by rw [hr, hsame])
      · have hlength := o.length_spelling
        rw [← h] at hlength
        simp at hlength
  · have hmunch : Operator.munch? (o.spelling.toList ++ d :: tail) = some o :=
      Operator.munch?_append (by rintro e ⟨⟩; exact hjoins)
    have hplain : ¬beginsComment (o.spelling.toList ++ d :: tail) = true := by
      intro hbegins
      obtain ⟨rfl, hd⟩ := hcomment hbegins
      rcases hd with rfl | rfl <;> exact absurd hjoins (by decide)
    rw [punctuation, if_neg hplain, hmunch]

-- Two operators fuse if the first goes on with the second.
theorem fuses_eq_joins {o p : Operator} {d : CodePoint} (ho : o ≠ .Period)
    (hd : d ∈ p.spelling.toList.head?) : fuses o.spelling p.spelling = o.joins d := by
  obtain ⟨tail, hp⟩ := List.head?_eq_some_iff.mp hd
  have hsame := punctuation_append_iff (d := d) ho tail
  rw [fuses, hp]
  cases hjoins : o.joins d with
  | false => simpa using hsame.mpr hjoins
  | true =>
      rw [bne_iff_ne]
      intro heq
      rw [hsame.mp heq] at hjoins
      cases hjoins

namespace Keyword

def head (k : Keyword) : CodePoint := k.spelling.toList.headD ' '

theorem head?_spelling (k : Keyword) : k.spelling.toList.head? = some k.head := by
  cases k <;> rfl

-- What a text begins with that begins with a keyword.
theorem head?_append (k : Keyword) (s : Text) :
    (k.spelling ++ s).toList.head? = some k.head := by
  rw [Text.toList_append, List.head?_append, head?_spelling]
  rfl

end Keyword

-- What a name or a literal begins with goes on with no operator but a point.
open Scan in
theorem Scan.head_of_token {c : CodePoint} {cs : List CodePoint} {scan : Scan} (h : token c cs = .ok scan)
    (hkind : scan.kind.isLiteral = true) : c = '.' ∨ c ∉ Operator.joiners := by
  have hclass : Operator.joiners.all (fun d => !Text.beginsName d && !Text.isDigit d && d != '"' &&
      d != backquote && d != '\'') = true := by
    decide
  rw [or_iff_not_imp_left]
  intro hpoint hd
  have hc := List.all_eq_true.mp hclass c hd
  simp only [Bool.and_eq_true, Bool.not_eq_true', bne_iff_ne] at hc
  obtain ⟨⟨⟨⟨hname, hdigit⟩, hquote⟩, hback⟩, hrune⟩ := hc
  have hnumber : beginsNumber c cs = false := by simp [beginsNumber, hdigit, hpoint]
  simp only [token, hname, hnumber, Bool.false_eq_true, if_false, beq_iff_eq, hquote, hback,
    hrune] at h
  obtain ⟨o, ho⟩ := kind_operator h
  rw [ho] at hkind
  cases hkind

theorem Lexeme.Whole.head_of_isLiteral {l : Lexeme} (h : l.Whole) (hkind : l.kind.isLiteral = true) :
    ∀ d ∈ l.text.toList.head?, d = '.' ∨ d ∉ Operator.joiners := by
  obtain ⟨-, c, cs, raw, htext, hscan⟩ := h
  rw [htext]
  rintro d ⟨⟩
  exact Scan.head_of_token hscan hkind

-- A name begins with a letter.
open Scan in
theorem Lexeme.Whole.beginsName {x : Text} (h : (⟨.ident, x⟩ : Lexeme).Whole) :
    ∀ d ∈ x.toList.head?, Text.beginsName d = true := by
  obtain ⟨-, c, cs, raw, htext, hscan⟩ := h
  dsimp only at htext hscan
  rw [htext]
  rintro d ⟨⟩
  unfold token at hscan
  split at hscan
  · assumption
  split at hscan
  · exact absurd (congrArg Scan.kind (Except.ok.inj hscan)) (by simp [number])
  split at hscan
  · exact absurd (kind_quoted hscan) (by simp)
  split at hscan
  · exact absurd (kind_rawString hscan) (by simp)
  split at hscan
  · exact absurd (kind_quoted hscan) (by simp)
  · obtain ⟨o, ho⟩ := kind_operator hscan
    cases ho

-- A string begins with a quotation mark.
open Scan in
theorem Lexeme.Whole.head_of_text {x : Text} (h : (⟨.literal .Text, x⟩ : Lexeme).Whole) :
    ∀ d ∈ x.toList.head?, d = '"' ∨ d = backquote := by
  obtain ⟨-, c, cs, raw, htext, hscan⟩ := h
  dsimp only at htext hscan
  rw [htext]
  rintro d ⟨⟩
  unfold token at hscan
  split at hscan
  · have hkind := congrArg Scan.kind (Except.ok.inj hscan)
    rcases kind_name (c :: (cs ++ [])) with h | ⟨k, h⟩ <;> rw [h] at hkind <;> cases hkind
  split at hscan
  · have hkind := congrArg Scan.kind (Except.ok.inj hscan)
    obtain ⟨h, -, hne⟩ := kind_number (c :: (cs ++ []))
    rw [h] at hkind
    exact absurd (TokenKind.literal.inj hkind) hne
  split at hscan
  · rename_i hquote
    exact Or.inl (beq_iff_eq.mp hquote)
  split at hscan
  · rename_i hquote
    exact Or.inr (beq_iff_eq.mp hquote)
  split at hscan
  · exact absurd (kind_quoted hscan) (by simp)
  · obtain ⟨o, ho⟩ := kind_operator hscan
    cases ho

namespace Text

-- Two pieces that may be written side by side.
def Seam (w v : Text) : Prop := Fits w v ∨ Clashes w v

-- A word may stand before characters before which its last lexeme ends.
theorem Word.fits {w v : Text} (ls : List Lexeme) {l : Lexeme} (h : Word w (ls ++ [l]))
    (hend : ∀ d ∈ v.toList.head?, l.endsBefore d = true) : Fits w v := by
  intro m hm _ d hd
  rw [h.lexemes, List.getLast?_concat, Option.mem_some_iff] at hm
  rw [← hm]
  exact hend d hd

-- A word that ends in a blank may stand before everything.
theorem Word.fits_blank {w v : Text} {ls : List Lexeme} (h : Word w ls)
    (hblank : ∀ l ∈ ls.getLast?, ¬l.text.toList <:+ w.toList) : Fits w v := by
  intro l hl hsuffix
  rw [h.lexemes] at hl
  exact absurd hsuffix (hblank l hl)

end Text

namespace Emission

open Text

-- Each text that is written is a piece, and each may be written before the next. The first one begins
-- with a character for which `P` holds, and the last one may be followed by those for which `Q` holds.
structure WritesPieces (P Q : CodePoint → Prop) (e : Emission) : Prop where
  fault : e.fault = none
  pieces : ∀ w ∈ e.writes, Piece w
  seams : e.writes.IsChain Seam
  begins : ∀ w ∈ e.writes.head?, ∀ d ∈ w.toList.head?, P d
  ends : ∀ w ∈ e.writes.getLast?, ∀ v : Text, (∀ d ∈ v.toList.head?, Q d) → Seam w v

-- Something is written.
structure WritesSome (P Q : CodePoint → Prop) (e : Emission) : Prop extends WritesPieces P Q e where
  nonempty : e.writes ≠ []

variable {P Q M : CodePoint → Prop} {a b : Emission}

theorem WritesPieces.nothing : WritesPieces P Q Emission.nothing :=
  ⟨rfl, by simp, .nil, by simp, by simp⟩

theorem WritesPieces.mono {P' Q' : CodePoint → Prop} (h : WritesPieces P Q a) (hP : ∀ d, P d → P' d)
    (hQ : ∀ d, Q' d → Q d) : WritesPieces P' Q' a where
  fault := h.fault
  pieces := h.pieces
  seams := h.seams
  begins w hw d hd := hP d (h.begins w hw d hd)
  ends w hw v hv := h.ends w hw v fun d hd => hQ d (hv d hd)

theorem WritesSome.mono {P' Q' : CodePoint → Prop} (h : WritesSome P Q a) (hP : ∀ d, P d → P' d)
    (hQ : ∀ d, Q' d → Q d) : WritesSome P' Q' a :=
  ⟨h.toWritesPieces.mono hP hQ, h.nonempty⟩

-- One emission after another. If one of them writes nothing, the other stands in its place.
theorem WritesPieces.append (ha : WritesPieces P M a) (hb : WritesPieces M Q b)
    (hP : a.writes = [] → ∀ d, M d → P d) (hQ : b.writes = [] → ∀ d, Q d → M d) : WritesPieces P Q (a ++ b) where
  fault := by rw [fault_append ha.fault, hb.fault]
  pieces := by
    rw [writes_append ha.fault]
    exact List.forall_mem_append.mpr ⟨ha.pieces, hb.pieces⟩
  seams := by
    rw [writes_append ha.fault]
    refine List.IsChain.append ha.seams hb.seams fun w hw v hv => ?_
    exact ha.ends w hw v (hb.begins v hv)
  begins := by
    rw [writes_append ha.fault]
    by_cases h : a.writes = []
    · rw [h, List.nil_append]
      exact fun w hw d hd => hP h d (hb.begins w hw d hd)
    · rw [List.head?_append_of_ne_nil _ h]
      exact ha.begins
  ends := by
    rw [writes_append ha.fault]
    by_cases h : b.writes = []
    · rw [h, List.append_nil]
      exact fun w hw v hv => ha.ends w hw v fun d hd => hQ h d (hv d hd)
    · rw [List.getLast?_append_of_ne_nil _ h]
      exact hb.ends

theorem WritesSome.append (ha : WritesSome P M a) (hb : WritesSome M Q b) : WritesSome P Q (a ++ b) := by
  refine ⟨ha.toWritesPieces.append hb.toWritesPieces (fun h => absurd h ha.nonempty)
    fun h => absurd h hb.nonempty, ?_⟩
  rw [writes_append ha.fault]
  exact List.append_ne_nil_of_left_ne_nil ha.nonempty _

theorem WritesSome.append_pieces (ha : WritesSome P M a) (hb : WritesPieces M Q b) (hQ : ∀ d, Q d → M d) :
    WritesSome P Q (a ++ b) := by
  refine ⟨ha.toWritesPieces.append hb (fun h => absurd h ha.nonempty) fun _ => hQ, ?_⟩
  rw [writes_append ha.fault]
  exact List.append_ne_nil_of_left_ne_nil ha.nonempty _

theorem WritesPieces.append_some (ha : WritesPieces P M a) (hb : WritesSome M Q b) (hP : ∀ d, M d → P d) :
    WritesSome P Q (a ++ b) := by
  refine ⟨ha.append hb.toWritesPieces (fun _ => hP) fun h => absurd h hb.nonempty, ?_⟩
  rw [writes_append ha.fault]
  exact List.append_ne_nil_of_right_ne_nil _ hb.nonempty

-- A single text.
theorem WritesSome.write {w : Text} {ls : List Lexeme} (h : Word w ls)
    (hP : ∀ d ∈ w.toList.head?, P d)
    (hQ : ∀ v : Text, (∀ d ∈ v.toList.head?, Q d) → Seam w v) :
    WritesSome P Q (Emission.write w) where
  fault := rfl
  pieces := by simpa using h.piece
  seams := .singleton w
  begins := by simpa using hP
  ends := by simpa using hQ
  nonempty := by simp

theorem WritesSome.operator {o : Operator} (hP : P o.head)
    (hQ : ∀ d, Q d → (Lexeme.ofOperator o).endsBefore d = true) : WritesSome P Q (Emission.operator o) :=
  .write (word_operator o) (by simpa [o.head?_spelling] using hP) fun _ hv =>
    Or.inl ((word_operator o).fits [] fun d hd => hQ d (hv d hd))

-- Punctuation ends before everything.
theorem WritesSome.mark {o : Operator} (h : o.isMark = true) (hP : P o.head) :
    WritesSome P Q (Emission.operator o) :=
  .operator hP fun d _ => by
    obtain ⟨hjoins, hpoint⟩ := Operator.joins_mark h d
    simp [Lexeme.endsBefore, Lexeme.ofOperator, hjoins, hpoint]

theorem WritesSome.keyword {k : Keyword} (hP : P k.head) (hQ : ∀ d, Q d → continuesName d = false) :
    WritesSome P Q (Emission.keyword k) :=
  .write (word_keyword k) (by simpa [k.head?_spelling] using hP) fun _ hv =>
    Or.inl ((word_keyword k).fits [] fun d hd => by
      simp [Lexeme.endsBefore, Lexeme.ofKeyword, hQ d (hv d hd)])

theorem WritesSome.spaced {k : Keyword} (hP : P k.head) : WritesSome P Q (Emission.spaced k) := by
  refine .write (word_spaced k) ?_ fun _ _ => Or.inl ((word_spaced k).fits_blank ?_)
  · rw [k.head?_append]
    simpa using hP
  · rintro l ⟨⟩
    cases k <;> decide

theorem WritesSome.blank (hP : P ' ') : WritesSome P Q Emission.blank :=
  .write word_blank (by simpa using hP) fun _ _ => Or.inl (word_blank.fits_blank (by simp))

theorem WritesSome.joined {k : Keyword} {o : Operator} (hP : P k.head)
    (hQ : ∀ d, Q d → (Lexeme.ofOperator o).endsBefore d = true) : WritesSome P Q (Emission.joined k o) :=
  .write (word_joined k o) (by rw [k.head?_append]; simpa using hP) fun _ hv =>
    Or.inl ((word_joined k o).fits [.ofKeyword k] fun d hd => hQ d (hv d hd))

theorem WritesSome.assertion (hP : P '.') : WritesSome P Q Emission.assertion :=
  .write word_assertion (by simpa using hP) fun _ _ => Or.inl (word_assertion.fits
    [.ofOperator .Period] fun d _ => by
      simp [Lexeme.endsBefore, Lexeme.ofOperator, Operator.joins_mark (o := .LParen) rfl])

-- The characters that may follow an operand: all that do not go on with a name.
def EndsName (d : CodePoint) : Prop := continuesName d = false

instance : DecidablePred EndsName := fun d => inferInstanceAs (Decidable (continuesName d = false))

theorem WritesSome.name {x : Text} (h : (⟨.ident, x⟩ : Lexeme).Whole)
    (hP : ∀ d ∈ x.toList.head?, P d) : WritesSome P EndsName (Emission.write x) :=
  .write (word_single h) hP fun _ hv => Or.inl ((word_single h).fits [] fun d hd => by
    simp [Lexeme.endsBefore, show continuesName d = false from hv d hd])

-- Only a number can go on in what follows an operand.
theorem WritesSome.literal {x : Text} {k : Literal} (h : (⟨.literal k, x⟩ : Lexeme).Whole)
    (hP : ∀ d ∈ x.toList.head?, P d) : WritesSome P EndsName (Emission.write x) := by
  refine .write (word_single h) hP fun v hv => ?_
  have hword : IsLiteral k x := (strung_single h).written
  have hfits : (∀ d ∈ v.toList.head?, (⟨.literal k, x⟩ : Lexeme).endsBefore d = true) → Seam x v :=
    fun hend => Or.inl ((word_single h).fits [] hend)
  have hparts : ∀ d ∈ v.toList.head?, continuesName d = false := hv
  cases k with
  | Integer =>
      by_cases hpoint : v.toList.head? = some (char '.')
      · exact Or.inr (Or.inl ⟨hword, hpoint⟩)
      · refine hfits fun d hd => ?_
        have hne : d ≠ '.' := by
          rintro rfl
          exact hpoint hd
        simp [Lexeme.endsBefore, hparts d hd, hne]
  | Floating =>
      by_cases hmark : Scan.endsInMark x.toList = true ∧
          (v.toList.head? = some (char '+') ∨ v.toList.head? = some (char '-'))
      · exact Or.inr (Or.inr ⟨hword, hmark⟩)
      · refine hfits fun d hd => ?_
        rw [Option.mem_def] at hd
        simp only [hd, Option.some.injEq, not_and, not_or] at hmark
        cases h : Scan.endsInMark x.toList with
        | false => simp [Lexeme.endsBefore, hparts d hd, h]
        | true => simp [Lexeme.endsBefore, hparts d hd, hmark h]
  | Imaginary => exact hfits fun d hd => by simp [Lexeme.endsBefore, hparts d hd]
  | Rune => exact hfits fun d hd => rfl
  | Text => exact hfits fun d hd => rfl

-- A point before a name.
theorem WritesSome.point (hP : P '.') :
    WritesSome P (fun d => beginsName d = true) (Emission.operator .Period) := by
  refine .operator hP fun d hd => ?_
  have hjoins : Operator.Period.joins d = false := by
    by_contra h
    have hmem := Operator.mem_joiners (by simpa using h)
    have hclass : Operator.joiners.all (!beginsName ·) = true := by decide
    simpa [hd] using List.all_eq_true.mp hclass d hmem
  simp [Lexeme.endsBefore, Lexeme.ofOperator, hjoins, isDigit_of_beginsName hd]

section Lists

variable {R : CodePoint → Prop} {o : Operator} {e : Emission} {es : List Emission}

-- Emissions with a separator between them. How the first begins is how all of them begin.
theorem WritesSome.separated (he : WritesSome P Q e) (hes : ∀ f ∈ es, WritesSome R Q f)
    (ho : o.isMark = true) (hQ : Q o.head) : WritesSome P Q (Emission.separated o.spelling (e :: es)) := by
  induction es generalizing P e with
  | nil => exact he
  | cons f fs ih =>
      obtain ⟨hf, hfs⟩ := List.forall_mem_cons.mp hes
      exact he.append ((WritesSome.mark ho hQ).append (ih hf hfs))

theorem WritesPieces.separated (hes : ∀ f ∈ es, WritesSome P Q f) (ho : o.isMark = true)
    (hQ : Q o.head) : WritesPieces P Q (Emission.separated o.spelling es) := by
  cases es with
  | nil => exact .nothing
  | cons e es =>
      obtain ⟨he, hes⟩ := List.forall_mem_cons.mp hes
      exact (WritesSome.separated he hes ho hQ).toWritesPieces

end Lists

end Emission

end GoCompact
