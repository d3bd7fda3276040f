import GoCompact.Proofs.Lexing.Number

namespace GoCompact

open CodePoint (char)

namespace Text

-- Whether the bounds of a class stand in order.
def ascends : List Nat → Bool
  | a :: b :: bounds => Nat.ble a b && ascends (b :: bounds)
  | _ => true

theorem le_of_ascends {a x : Nat} {bounds : List Nat} (h : ascends (a :: bounds) = true)
    (hx : x ∈ bounds) : a ≤ x := by
  induction bounds generalizing a with
  | nil => cases hx
  | cons b bounds ih =>
      simp only [ascends, Bool.and_eq_true, Nat.ble_eq] at h
      rcases List.mem_cons.mp hx with rfl | hx
      · exact h.1
      · exact Nat.le_trans h.1 (ih h.2 hx)

theorem ascends_tail {a : Nat} {bounds : List Nat} (h : ascends (a :: bounds) = true) :
    ascends bounds = true := by
  cases bounds with
  | nil => rfl
  | cons b bounds =>
      simp only [ascends, Bool.and_eq_true] at h
      exact h.2

-- Whether two classes have no member in common, found by going through their ranges in order.
def apart : Nat → List Nat → List Nat → Bool
  | _, [], _ => true
  | _, _, [] => true
  | n + 1, a :: b :: first, c :: d :: second =>
    if Nat.ble b c then apart n first (c :: d :: second)
    else Nat.ble d a && apart n (a :: b :: first) second
  | _, _, _ => false

theorem countP_eq_zero_of_lt {n a : Nat} {bounds : List Nat} (h : ascends (a :: bounds) = true)
    (hn : n < a) : (a :: bounds).countP (· ≤ n) = 0 := by
  rw [List.countP_eq_zero]
  intro x hx
  have hax : a ≤ x := by
    rcases List.mem_cons.mp hx with rfl | hx
    · exact Nat.le_refl _
    · exact le_of_ascends h hx
  simp only [decide_eq_true_eq]
  omega

-- Past a range its two bounds cancel out.
theorem countP_range {n a b : Nat} {bounds : List Nat} (ha : a ≤ n) (hb : b ≤ n) :
    (a :: b :: bounds).countP (· ≤ n) = bounds.countP (· ≤ n) + 2 := by
  simp [ha, hb]

theorem not_odd_both {k n : Nat} {first second : List Nat} (hf : ascends first = true)
    (hs : ascends second = true) (h : apart k first second = true) :
    ¬(first.countP (· ≤ n) % 2 = 1 ∧ second.countP (· ≤ n) % 2 = 1) := by
  fun_induction apart k first second with
  | case1 => simp
  | case2 => simp
  | case3 k a b first c d second hbc ih =>
      have hbc : b ≤ c := by simpa using hbc
      have hab : a ≤ b := le_of_ascends hf (by simp)
      by_cases hn : b ≤ n
      · rw [countP_range (by omega) hn, Nat.add_mod_right]
        exact ih (ascends_tail (ascends_tail hf)) hs h
      · rw [countP_eq_zero_of_lt hs (by omega)]
        simp
  | case4 k a b first c d second _ ih =>
      simp only [Bool.and_eq_true, Nat.ble_eq] at h
      have hcd : c ≤ d := le_of_ascends hs (by simp)
      by_cases hn : d ≤ n
      · rw [countP_range (a := c) (by omega) hn, Nat.add_mod_right]
        exact ih hf (ascends_tail (ascends_tail hs)) h.2
      · rw [countP_eq_zero_of_lt hf (by omega)]
        simp
  | case5 => simp at h

set_option maxRecDepth 20000 in
theorem not_letter_and_digit (c : CodePoint) :
    ¬(within letterBounds c = true ∧ within digitBounds c = true) := by
  have hl : ascends letterBounds = true := rfl
  have hd : ascends digitBounds = true := rfl
  have h : apart 1000 letterBounds digitBounds = true := rfl
  simpa only [within, beq_iff_eq] using not_odd_both (n := c.toNat) hl hd h

-- No name begins with a digit.
theorem isDigit_of_beginsName {c : CodePoint} (h : beginsName c = true) : isDigit c = false := by
  have hdisjoint := not_letter_and_digit c
  by_cases hascii : isAscii c = true
  · simp only [beginsName, isLetter, hascii, if_true, Bool.or_eq_true, beq_iff_eq] at h
    simp only [isDigit, hascii, if_true]
    rcases h with h | rfl
    · simp only [CodePoint.isAlpha, CodePoint.isUpper, CodePoint.isLower, Bool.or_eq_true, Bool.and_eq_true,
        decide_eq_true_eq, CodePoint.le_def] at h
      simp only [CodePoint.isDigit, Bool.and_eq_false_iff, decide_eq_false_iff_not, CodePoint.le_def]
      rcases h with h | h <;> right <;> simp at h ⊢ <;> omega
    · rfl
  · have hunderscore : c ≠ '_' := by
      rintro rfl
      exact hascii rfl
    simp only [beginsName, isLetter, hascii, Bool.or_eq_true, beq_iff_eq, hunderscore,
      or_false, Bool.false_eq_true, if_false] at h
    simp only [isDigit, hascii, Bool.false_eq_true, if_false]
    simpa [h] using hdisjoint

end Text

namespace Operator

-- Whether a character after an operator is read together with it, as a longer operator or as the
-- beginning of a comment.
def joins (o : Operator) (d : CodePoint) : Bool :=
  all.any (fun q => (o.spelling.toList ++ [d]).isPrefixOf q.spelling.toList) ||
    (o == .Quo && (d == '/' || d == '*'))

theorem mem_all (o : Operator) : o ∈ all := by
  cases o <;> decide

theorem ofSpelling?_spelling (o : Operator) : ofSpelling? o.spelling = some o := by
  cases o <;> rfl

theorem spelling_of_ofSpelling? {s : Text} {o : Operator} (h : ofSpelling? s = some o) :
    o.spelling = s := by
  unfold ofSpelling? at h
  simpa using List.find?_some h

theorem length_spelling (o : Operator) :
    o.spelling.toList.length = 1 ∨ o.spelling.toList.length = 2 ∨
      o.spelling.toList.length = 3 := by
  cases o <;> decide

-- An operator at the beginning of a text is found at its length.
theorem ofSpelling?_take {cs : List CodePoint} {o : Operator} (h : o.spelling.toList <+: cs) :
    ofSpelling? (Text.ofList (cs.take o.spelling.toList.length)) = some o := by
  rw [← List.prefix_iff_eq_take.mp h, Text.ofList_toList, ofSpelling?_spelling]

-- What is read begins the text, and no longer operator does.
theorem prefix_of_munch? {cs : List CodePoint} {o : Operator} (h : munch? cs = some o) :
    o.spelling.toList <+: cs ∧ ∀ q : Operator, q.spelling.toList <+: cs →
      q.spelling.toList.length ≤ o.spelling.toList.length := by
  obtain ⟨before, n, after, hsplit, hn, hnone⟩ := List.findSome?_eq_some_iff.mp h
  have htake : o.spelling.toList = cs.take n := by
    rw [spelling_of_ofSpelling? hn, Text.toList_ofList]
  refine ⟨htake ▸ List.take_prefix n cs, fun q hq => ?_⟩
  by_contra hlt
  have hlonger : n < q.spelling.toList.length := by
    have hlength := congrArg List.length htake
    rw [List.length_take] at hlength
    have hle := hq.length_le
    omega
  -- the lengths go down, so that a longer operator was looked for before
  have hmem : q.spelling.toList.length ∈ before := by
    have hdown : List.Pairwise (· > ·) (before ++ n :: after) := hsplit ▸ by decide
    have hany : q.spelling.toList.length ∈ before ++ n :: after := by
      rw [← hsplit]
      simpa [or_comm, or_assoc, or_left_comm] using q.length_spelling
    rcases List.mem_append.mp hany with hbefore | hrest
    · exact hbefore
    · rcases List.mem_cons.mp hrest with heq | hafter
      · omega
      · have hlater := (List.pairwise_cons.mp (List.pairwise_append.mp hdown).2.1).1 _ hafter
        omega
  have hnot := hnone _ hmem
  rw [ofSpelling?_take hq] at hnot
  cases hnot

theorem munch?_eq_some_iff {cs : List CodePoint} {o : Operator} :
    munch? cs = some o ↔ o.spelling.toList <+: cs ∧ ∀ q : Operator, q.spelling.toList <+: cs →
      q.spelling.toList.length ≤ o.spelling.toList.length := by
  refine ⟨prefix_of_munch?, fun ⟨ho, hmax⟩ => ?_⟩
  cases hq : munch? cs with
  | none =>
      rw [munch?, List.findSome?_eq_none_iff] at hq
      have hnone := hq o.spelling.toList.length (by have := o.length_spelling; simp; omega)
      rw [ofSpelling?_take ho] at hnone
      cases hnone
  | some q =>
      obtain ⟨hqcs, hqmax⟩ := prefix_of_munch? hq
      have hlength : q.spelling.toList.length = o.spelling.toList.length :=
        Nat.le_antisymm (hmax q hqcs) (hqmax o ho)
      have hspell : q.spelling = o.spelling := by
        rw [← Text.toList_inj]
        exact (List.prefix_of_prefix_length_le hqcs ho (Nat.le_of_eq hlength)).eq_of_length hlength
      rw [← ofSpelling?_spelling q, hspell, ofSpelling?_spelling]

-- The longest operator at the beginning of a text that goes on with something else.
theorem munch?_append {o : Operator} {rest : List CodePoint}
    (h : ∀ d ∈ rest.head?, o.joins d = false) :
    munch? (o.spelling.toList ++ rest) = some o := by
  refine munch?_eq_some_iff.mpr ⟨List.prefix_append _ _, fun q hq => ?_⟩
  by_contra hlt
  obtain ⟨t, ht⟩ := List.prefix_of_prefix_length_le (List.prefix_append _ _) hq (by omega)
  rw [← ht, List.prefix_append_right_inj] at hq
  cases t with
  | nil => simp [← ht] at hlt
  | cons d t =>
      obtain ⟨after, rfl⟩ := hq
      have hd := h d rfl
      simp only [joins, Bool.or_eq_false_iff, List.any_eq_false] at hd
      refine absurd (List.isPrefixOf_iff_prefix.mpr ⟨t, ?_⟩) (hd.1 q q.mem_all)
      simpa using ht

-- No operator has a blank.
theorem not_isBlank_of_mem {o : Operator} {c : CodePoint} (h : c ∈ o.spelling.toList) :
    Gap.isBlank c = false := by
  have hall : o.spelling.toList.all (!Gap.isBlank ·) = true := by cases o <;> decide
  simpa using List.all_eq_true.mp hall c h

-- A cut after an operator leaves no longer one.
theorem munch?_cut {o : Operator} {r s : List CodePoint} (hs : Text.Cut r s)
    (h : munch? (o.spelling.toList ++ r) = some o) :
    munch? (o.spelling.toList ++ s) = some o := by
  refine munch?_eq_some_iff.mpr ⟨List.prefix_append _ _, fun q hq => ?_⟩
  exact (munch?_eq_some_iff.mp h).2 q ((hs.append _).prefix_of_cut hq fun c => not_isBlank_of_mem)

end Operator

namespace Scan

theorem quotedBody_append_rest {quote : CodePoint} {cs body left : List CodePoint}
    (h : quotedBody quote cs = some (body, left)) (rest : List CodePoint) :
    quotedBody quote (cs ++ rest) = some (body, left ++ rest) := by
  fun_induction quotedBody quote cs generalizing body with
  | case1 c tail ih =>
      obtain ⟨⟨inner, after⟩, hi, he⟩ := Option.map_eq_some_iff.mp h
      obtain ⟨rfl, rfl⟩ := Prod.mk.inj he
      simp [quotedBody, ih hi]
  | case2 => simp at h
  | case3 c tail _ hc hq =>
      obtain ⟨rfl, rfl⟩ := Prod.mk.inj (Option.some.inj h)
      simp_all [quotedBody]
  | case4 c tail _ hc hq ih =>
      obtain ⟨⟨inner, after⟩, hi, he⟩ := Option.map_eq_some_iff.mp h
      obtain ⟨rfl, rfl⟩ := Prod.mk.inj he
      simp_all [quotedBody]
  | case5 => simp at h

end Scan

namespace Lexeme

-- A lexeme that is read as itself where it stands directly before a text.
structure Stands (l : Lexeme) (rest : List CodePoint) : Prop where
  gap : Gap.read (l.text.toList ++ rest) = .none
  scan : ∃ c cs raw, l.text.toList = c :: cs ∧
    Scan.token c (cs ++ rest) = .ok ⟨l.kind, l.text.toList, rest, raw⟩

-- A lexeme whose text is read as that lexeme alone.
def Whole (l : Lexeme) : Prop := l.Stands []

-- Whether a character after a lexeme is no part of it.
def endsBefore (l : Lexeme) (d : CodePoint) : Bool :=
  match l.kind with
  | .eof => false
  | .ident | .word _ => !Text.continuesName d
  | .literal .Integer => !Text.continuesName d && d != '.'
  | .literal .Floating =>
    !Text.continuesName d && !(Scan.endsInMark l.text.toList && (d == '+' || d == '-'))
  | .literal .Imaginary => !Text.continuesName d
  | .literal .Rune | .literal .Text => true
  | .op o => !o.joins d && !(o == .Period && Text.isDigit d)

end Lexeme

namespace Gap

-- Whether a text begins with a gap is told by its first two characters.
theorem read_eq_none_iff {c : CodePoint} {cs : List CodePoint} :
    read (c :: cs) = .none ↔
      c ≠ '\n' ∧ isBlank c = false ∧ (c = '/' → ∀ d ∈ cs.head?, d ≠ '/' ∧ d ≠ '*') := by
  unfold read
  split
  · simp_all
  · simp_all
  · split <;> simp_all
  · rename_i d ds hnewline hline hblock heq
    obtain ⟨rfl, rfl⟩ := List.cons.inj heq
    have hslash : c = '/' → ∀ d ∈ cs.head?, d ≠ '/' ∧ d ≠ '*' := by
      rintro rfl d hd
      cases cs with
      | nil => cases hd
      | cons e es =>
          obtain rfl : e = d := by simpa using hd
          exact ⟨fun he => hline es rfl (by rw [he]), fun he => hblock es rfl (by rw [he])⟩
    have hne : c ≠ '\n' := hnewline
    cases hb : isBlank c <;> simp [hne]
    exact hslash
  · simp_all

end Gap

namespace Scan

theorem name_append_rest {cs rest : List CodePoint} {kind : TokenKind}
    (h : name cs = ⟨kind, cs, [], false⟩)
    (hname : ∀ d ∈ rest.head?, Text.continuesName d = false) :
    name (cs ++ rest) = ⟨kind, cs, rest, false⟩ := by
  obtain ⟨ht, hd⟩ := span_append cs (p := Text.continuesName) fun _ => hname
  simp only [name, splitWhile] at h ⊢
  obtain ⟨hkind, htext, hrest, -⟩ := Scan.mk.inj h
  rw [ht, hd, hrest, htext, List.nil_append]
  rw [htext] at hkind
  rw [hkind]

theorem quoted_append_rest {literal : Literal} {what : Unfinished} {quote : CodePoint}
    {cs rest : List CodePoint} {kind : TokenKind} {text : List CodePoint} {raw : Bool}
    (h : quoted literal what quote cs = .ok ⟨kind, text, [], raw⟩) :
    quoted literal what quote (cs ++ rest) = .ok ⟨kind, text, rest, raw⟩ := by
  unfold quoted at h ⊢
  split at h
  · rename_i body left hb
    obtain ⟨hkind, htext, hleft, hraw⟩ := Scan.mk.inj (Except.ok.inj h)
    rw [quotedBody_append_rest hb rest]
    simp only [hkind, htext, hleft, hraw, List.nil_append]
  · cases h

theorem rawString_append_rest {cs rest : List CodePoint} {kind : TokenKind} {text : List CodePoint}
    {raw : Bool} (h : rawString cs = .ok ⟨kind, text, [], raw⟩) :
    rawString (cs ++ rest) = .ok ⟨kind, text, rest, raw⟩ := by
  simp only [rawString, splitWhile] at h ⊢
  split at h
  · rename_i quote left hleft
    obtain ⟨hkind, htext, hrest, hraw⟩ := Scan.mk.inj (Except.ok.inj h)
    have hends : cs.dropWhile (· != backquote) = [] →
        ∀ d ∈ rest.head?, (d != backquote) = false := fun hnil => by simp [hnil] at hleft
    obtain ⟨ht, hd⟩ := span_append cs hends
    rw [ht, hd, hleft, hrest]
    simp only [List.cons_append, List.nil_append, ← hkind, ← htext, ← hraw]
  · cases h

theorem operator_append_rest {c : CodePoint} {cs rest : List CodePoint} {o : Operator} {raw : Bool}
    (h : operator c cs = .ok ⟨.op o, c :: cs, [], raw⟩)
    (hjoin : ∀ d ∈ rest.head?, o.joins d = false) :
    operator c (cs ++ rest) = .ok ⟨.op o, c :: cs, rest, raw⟩ := by
  unfold operator at h
  split at h
  · rename_i p hp
    obtain ⟨hkind, htext, -, hraw⟩ := Scan.mk.inj (Except.ok.inj h)
    obtain rfl : p = o := TokenKind.op.inj hkind
    have hmunch := Operator.munch?_append hjoin
    rw [htext, List.cons_append] at hmunch
    have hlength : p.spelling.length = (c :: cs).length := by
      rw [← htext, Text.length_toList]
    unfold operator
    rw [hmunch]
    simp only [htext, hlength, ← hraw]
    rw [← List.cons_append, List.drop_left]
  · cases h

end Scan

namespace Lexeme

-- What follows a word, a number or an operator that it does not belong to.
theorem not_continuesName_of_endsBefore {kind : TokenKind} {text : Text} {d : CodePoint}
    (hkind : kind = .ident ∨ (∃ k, kind = .word k) ∨
      ∃ l, kind = .literal l ∧ l ≠ .Rune ∧ l ≠ .Text)
    (h : (⟨kind, text⟩ : Lexeme).endsBefore d = true) : Text.continuesName d = false := by
  rcases hkind with rfl | ⟨k, rfl⟩ | ⟨l, rfl, hrune, htext⟩
  · simpa [endsBefore] using h
  · simpa [endsBefore] using h
  · cases l <;> simp_all [endsBefore]

end Lexeme

namespace Scan

theorem kind_name (cs : List CodePoint) :
    (name cs).kind = .ident ∨ ∃ k, (name cs).kind = .word k := by
  simp only [name]
  split <;> simp

theorem kind_number (cs : List CodePoint) :
    (number cs).kind = .literal (numberKind cs) ∧ numberKind cs ≠ .Rune ∧ numberKind cs ≠ .Text := by
  refine ⟨rfl, ?_⟩
  unfold numberKind
  split
  · simp
  · split <;> simp

theorem kind_operator {c : CodePoint} {cs : List CodePoint} {scan : Scan} (h : operator c cs = .ok scan) :
    ∃ o, scan.kind = .op o := by
  unfold operator at h
  split at h
  · rename_i o _
    exact ⟨o, by rw [← Except.ok.inj h]⟩
  · cases h

theorem text_operator {c : CodePoint} {cs : List CodePoint} {scan : Scan} {o : Operator}
    (h : operator c cs = .ok scan) (hkind : scan.kind = .op o) :
    scan.text = o.spelling.toList := by
  unfold operator at h
  split at h
  · obtain rfl := Except.ok.inj h
    obtain rfl := TokenKind.op.inj hkind
    rfl
  · cases h

-- A token that is a whole text is read before every text that does not go on with it.
theorem token_append_rest {c : CodePoint} {cs rest : List CodePoint} {kind : TokenKind} {raw : Bool}
    (h : token c cs = .ok ⟨kind, c :: cs, [], raw⟩)
    (hend : ∀ d ∈ rest.head?, (⟨kind, Text.ofList (c :: cs)⟩ : Lexeme).endsBefore d = true) :
    token c (cs ++ rest) = .ok ⟨kind, c :: cs, rest, raw⟩ := by
  have htoken := h
  unfold token at h ⊢
  by_cases hbegin : Text.beginsName c = true
  · rw [if_pos hbegin] at h ⊢
    have hname := Except.ok.inj h
    have hkind := kind_name (c :: cs)
    rw [hname] at hkind
    obtain rfl : raw = false := congrArg Scan.raw hname.symm
    rw [← List.cons_append, name_append_rest hname]
    intro d hd
    exact Lexeme.not_continuesName_of_endsBefore (hkind.imp id Or.inl) (hend d hd)
  rw [if_neg hbegin] at h ⊢
  by_cases hnumber : beginsNumber c cs = true
  · have hnumber' : beginsNumber c (cs ++ rest) = true := by
      cases cs with
      | nil => simp_all [beginsNumber]
      | cons e es => exact hnumber
    rw [if_pos hnumber] at h
    rw [if_pos hnumber']
    have hnum := Except.ok.inj h
    obtain ⟨hkind, hrune, htext⟩ := kind_number (c :: cs)
    rw [hnum] at hkind
    dsimp only at hkind
    subst hkind
    obtain rfl : raw = false := congrArg Scan.raw hnum.symm
    rw [← List.cons_append, number_append_rest (by simp) hnum]
    · intro d hd
      exact Lexeme.not_continuesName_of_endsBefore (Or.inr (Or.inr ⟨_, rfl, hrune, htext⟩))
        (hend d hd)
    · intro hint d hd
      have hd := hend d hd
      simp only [hint, Lexeme.endsBefore, Bool.and_eq_true, bne_iff_ne] at hd
      exact hd.2
    · intro hfloat hmark d hd
      have hd := hend d hd
      simp only [hfloat, Lexeme.endsBefore, hmark, Bool.true_and,
        Bool.and_eq_true, Bool.not_eq_true', Bool.or_eq_false_iff, beq_eq_false_iff_ne] at hd
      exact hd.2
  have hnumber' : ¬beginsNumber c (cs ++ rest) = true := by
    cases cs with
    | cons e es => exact hnumber
    | nil =>
        simp only [beginsNumber, List.head?_nil, Option.any_none, Bool.and_false,
          Bool.or_false] at hnumber
        simp only [beginsNumber, hnumber, List.nil_append, Bool.false_or, Bool.and_eq_true,
          beq_iff_eq, Option.any_eq_true, not_and, not_exists]
        -- a point alone is followed by no digit
        rintro rfl d hd hdigit
        rw [show token '.' [] = .ok ⟨.op .Period, ['.'], [], false⟩ by rfl] at htoken
        obtain ⟨hkind, -⟩ := Scan.mk.inj (Except.ok.inj htoken)
        have hd := hend d hd
        simp [← hkind, Lexeme.endsBefore, hdigit] at hd
  rw [if_neg hnumber] at h
  rw [if_neg hnumber']
  by_cases hstring : (c == '"') = true
  · rw [if_pos hstring] at h ⊢
    exact quoted_append_rest h
  rw [if_neg hstring] at h ⊢
  by_cases hraw : (c == backquote) = true
  · rw [if_pos hraw] at h ⊢
    exact rawString_append_rest h
  rw [if_neg hraw] at h ⊢
  by_cases hrune : (c == '\'') = true
  · rw [if_pos hrune] at h ⊢
    exact quoted_append_rest h
  rw [if_neg hrune] at h ⊢
  obtain ⟨o, rfl⟩ := kind_operator h
  refine operator_append_rest h fun d hd => ?_
  have hd := hend d hd
  simp only [Lexeme.endsBefore, Bool.and_eq_true, Bool.not_eq_true'] at hd
  exact hd.1

end Scan

namespace Lexeme

-- A lexeme is read before every text that does not go on with it.
theorem Whole.stands {l : Lexeme} {rest : List CodePoint} (h : l.Whole)
    (hend : ∀ d ∈ rest.head?, l.endsBefore d = true) : l.Stands rest := by
  obtain ⟨kind, text⟩ := l
  obtain ⟨hgap, c, cs, raw, htext, hscan⟩ := h
  dsimp only at htext hgap hscan
  rw [List.append_nil, htext] at hgap hscan
  have hofList : text = Text.ofList (c :: cs) := by rw [← htext, Text.ofList_toList]
  rw [hofList] at hend
  refine ⟨?_, c, cs, raw, htext, by rw [htext]; exact Scan.token_append_rest hscan hend⟩
  obtain ⟨hline, hblank, hslash⟩ := Gap.read_eq_none_iff.mp hgap
  dsimp only
  rw [htext, List.cons_append, Gap.read_eq_none_iff]
  refine ⟨hline, hblank, ?_⟩
  rintro rfl d hd
  cases cs with
  | cons e es => exact hslash rfl d hd
  | nil =>
      rw [show Scan.token '/' [] = .ok ⟨.op .Quo, ['/'], [], false⟩ by rfl] at hscan
      obtain ⟨rfl, -⟩ := Scan.mk.inj (Except.ok.inj hscan)
      have hd := hend d hd
      simp only [endsBefore, Operator.joins, Bool.and_eq_true, Bool.not_eq_true',
        Bool.or_eq_false_iff, beq_self_eq_true, Bool.true_and, beq_eq_false_iff_ne] at hd
      exact hd.1.2

end Lexeme

namespace Scan

open Text (Cut)

theorem name_cut {cs s : List CodePoint} (h : Cut (name cs).rest s) :
    name ((name cs).text ++ s) = ⟨(name cs).kind, (name cs).text, s, false⟩ := by
  obtain ⟨ht, hd⟩ := takeWhile_cut (fun _ h => h) h
  simp only [name, splitWhile] at ht hd ⊢
  simp only [ht, hd]

theorem quotedBody_text {quote : CodePoint} {cs body rest : List CodePoint}
    (h : quotedBody quote cs = some (body, rest)) : quotedBody quote body = some (body, []) := by
  fun_induction quotedBody quote cs generalizing body with
  | case1 c tail ih =>
      obtain ⟨⟨inner, after⟩, hi, he⟩ := Option.map_eq_some_iff.mp h
      obtain ⟨rfl, rfl⟩ := Prod.mk.inj he
      simp [quotedBody, ih hi]
  | case2 => simp at h
  | case3 c tail _ hc hq =>
      obtain ⟨rfl, rfl⟩ := Prod.mk.inj (Option.some.inj h)
      simp_all [quotedBody]
  | case4 c tail _ hc hq ih =>
      obtain ⟨⟨inner, after⟩, hi, he⟩ := Option.map_eq_some_iff.mp h
      obtain ⟨rfl, rfl⟩ := Prod.mk.inj he
      have hslash : c ≠ '\\' := by
        rintro rfl
        simp at hc
      simp_all [quotedBody]
  | case5 => simp at h

-- The text of a token, read again before another text.
def Again (c : CodePoint) (scan : Scan) (s : List CodePoint) : Prop :=
  ∃ cs, scan.text = c :: cs ∧ token c (cs ++ s) = .ok { scan with rest := s }

variable {c : CodePoint} {cs s : List CodePoint} {scan : Scan}

theorem again_of_quoted {literal : Literal} {what : Unfinished} {quote : CodePoint}
    (h : quoted literal what quote cs = .ok scan)
    (htoken : ∀ cs, token quote cs = quoted literal what quote cs) : Again quote scan s := by
  unfold quoted at h
  split at h
  · rename_i body rest hb
    obtain rfl := Except.ok.inj h
    have hagain := quotedBody_append_rest (quotedBody_text hb) s
    exact ⟨body, rfl, by simp only [htoken, quoted, hagain, List.nil_append]⟩
  · cases h

theorem again_of_rawString (h : rawString cs = .ok scan) : Again backquote scan s := by
  have htoken : ∀ cs, token backquote cs = rawString cs := fun cs => by
    have hname : Text.beginsName backquote = false := by decide
    have hdigit : Text.isDigit backquote = false := by decide
    have hpoint : (backquote == '.') = false := by decide
    have hstring : (backquote == '"') = false := by decide
    simp [token, beginsNumber, hname, hdigit, hpoint, hstring]
  simp only [rawString, splitWhile] at h
  split at h
  · rename_i quote rest hrest
    obtain rfl := Except.ok.inj h
    refine ⟨cs.takeWhile (· != backquote) ++ [quote], rfl, ?_⟩
    have hquote : (quote != backquote) = false := by
      have hnot := List.head?_dropWhile_not (· != backquote) cs
      rw [hrest] at hnot
      simpa using hnot
    obtain ⟨ht, hd⟩ := takeWhile_again (p := (· != backquote)) (s := quote :: s) cs
      (by simpa using hquote)
    simp only [htoken, rawString, splitWhile, List.append_assoc, List.singleton_append, ht, hd]
  · cases h

theorem beginsNumber_cut {r : List CodePoint} (h : Cut r s) (hr : beginsNumber c r = false) :
    beginsNumber c s = false := by
  simp only [beginsNumber, Bool.or_eq_false_iff, Bool.and_eq_false_imp, Option.any_eq_false]
    at hr ⊢
  refine ⟨hr.1, fun hpoint => h.not_of_head (hr.2 hpoint) fun d hd => ?_⟩
  simp only [Gap.isBlank, Bool.or_eq_true, beq_iff_eq] at hd
  rcases hd with (rfl | rfl) | rfl <;> decide

theorem again_of_operator (h : operator c cs = .ok scan) (hs : Cut scan.rest s)
    (htoken : ∀ cs, beginsNumber c cs = false → token c cs = operator c cs)
    (hnumber : beginsNumber c cs = false) : Again c scan s := by
  obtain ⟨o, hkind⟩ := kind_operator h
  have htext := text_operator h hkind
  have happend := eq_of_operator h
  obtain ⟨tail, htail⟩ : ∃ tail, scan.text = c :: tail := by
    cases hcs : scan.text with
    | nil =>
        have hlength := o.length_spelling
        rw [← htext, hcs] at hlength
        simp at hlength
    | cons d ds =>
        rw [hcs] at happend
        obtain ⟨rfl, -⟩ := List.cons.inj happend
        exact ⟨ds, rfl⟩
  have hcs : cs = tail ++ scan.rest := by
    rw [htail] at happend
    exact (List.cons.inj happend).2
  refine ⟨tail, htail, ?_⟩
  rw [htoken _ (beginsNumber_cut (hcs ▸ hs.append tail) hnumber)]
  have hmunch : Operator.munch? (c :: (tail ++ s)) = some o := by
    have hfirst : Operator.munch? (c :: cs) = some o := by
      unfold operator at h
      split at h
      · rename_i q hq
        rw [← Except.ok.inj h] at hkind
        rw [hq, TokenKind.op.inj hkind]
      · cases h
    rw [happend, htext] at hfirst
    rw [← List.cons_append, ← htail, htext]
    exact Operator.munch?_cut hs hfirst
  have hraw : scan.raw = false := by
    unfold operator at h
    split at h
    · rw [← Except.ok.inj h]
    · cases h
  have hdrop : (c :: (tail ++ s)).drop o.spelling.length = s := by
    rw [← List.cons_append, ← htail, htext, ← Text.length_toList, List.drop_left]
  simp only [operator, hmunch, hdrop]
  rw [← htext, ← hkind, ← hraw]

theorem again_of_number (hname : Text.beginsName c = false)
    (hnumber : beginsNumber c cs = true) (hne : (number (c :: cs)).text ≠ [])
    (hpoint : (number (c :: cs)).kind = .literal .Floating → (number (c :: cs)).text ≠ [char '.'])
    (hs : Cut (number (c :: cs)).rest s) : Again c (number (c :: cs)) s := by
  have hself := number_text (c :: cs)
  have hcut := number_cut hs
  have happend := number_append (c :: cs)
  cases htext : (number (c :: cs)).text with
  | nil => exact absurd htext hne
  | cons d ds =>
      rw [htext] at hself hcut happend hpoint
      obtain ⟨rfl, hds⟩ := List.cons.inj happend
      refine ⟨ds, htext, ?_⟩
      have hnumber' : beginsNumber d (ds ++ s) = true := by
        cases ds with
        | nil =>
            simp only [beginsNumber, Bool.or_eq_true, Bool.and_eq_true, beq_iff_eq] at hnumber
            rcases hnumber with hdigit | ⟨rfl, -⟩
            · simp [beginsNumber, hdigit]
            · -- a point alone is a number of the wrong kind
              have hkind := congrArg Scan.kind hself
              rw [show (number ['.']).kind = .literal .Floating by rfl] at hkind
              exact absurd rfl (hpoint hkind.symm)
        | cons e es =>
            rw [← hds] at hnumber
            exact hnumber
      simp only [token, hname, Bool.false_eq_true, if_false, hnumber', if_true]
      rw [← List.cons_append, hcut, htext]
      rfl

-- A token is read again before a cut of what follows it, but for a point before a digit that is no
-- part of it.
theorem token_cut (h : token c cs = .ok scan) (hne : scan.text ≠ [])
    (hpoint : scan.kind = .literal .Floating → scan.text ≠ [char '.']) (hs : Cut scan.rest s) :
    Again c scan s := by
  unfold token at h
  by_cases hname : Text.beginsName c = true
  · rw [if_pos hname] at h
    obtain rfl := Except.ok.inj h
    have hcontinues : Text.continuesName c = true := by
      simp only [Text.beginsName, Bool.or_eq_true, Text.continuesName] at hname ⊢
      rcases hname with hname | hname <;> simp [hname]
    have htext : (name (c :: cs)).text = c :: cs.takeWhile Text.continuesName := by
      simp [name, splitWhile, hcontinues]
    have hself := name_cut hs
    rw [htext, List.cons_append] at hself
    refine ⟨_, htext, ?_⟩
    simp only [token, hname, if_true, hself, htext]
    rfl
  have hname : Text.beginsName c = false := by simpa using hname
  simp only [hname, Bool.false_eq_true, if_false] at h
  by_cases hnumber : beginsNumber c cs = true
  · rw [if_pos hnumber] at h
    obtain rfl := Except.ok.inj h
    exact again_of_number hname hnumber hne hpoint hs
  rw [if_neg hnumber] at h
  by_cases hstring : (c == '"') = true
  · rw [if_pos hstring] at h
    obtain rfl : c = '"' := by simpa using hstring
    exact again_of_quoted h fun cs => rfl
  rw [if_neg hstring] at h
  by_cases hraw : (c == backquote) = true
  · rw [if_pos hraw] at h
    obtain rfl : c = backquote := by simpa using hraw
    exact again_of_rawString h
  rw [if_neg hraw] at h
  by_cases hrune : (c == '\'') = true
  · rw [if_pos hrune] at h
    obtain rfl : c = '\'' := by simpa using hrune
    exact again_of_quoted h fun cs => rfl
  rw [if_neg hrune] at h
  refine again_of_operator h hs (fun cs hcs => ?_) (by simpa using hnumber)
  simp only [token, hname, hcs, hstring, hraw, hrune, Bool.false_eq_true, if_false]

end Scan

-- A point that is read as a number stands before a digit at which no more lexemes are read.
theorem Lexes.ne_point {pending : Bool} {c : CodePoint} {cs : List CodePoint} {scan : Scan}
    {ls : List Lexeme} (hscan : Scan.token c cs = .ok scan) (h : Lexes pending scan.rest ls)
    (hkind : scan.kind = .literal .Floating) : scan.text ≠ [char '.'] := by
  intro htext
  have happend := Scan.eq_of_token hscan
  rw [htext, List.singleton_append] at happend
  obtain ⟨rfl, hrest⟩ := List.cons.inj happend
  have hname : Text.beginsName '.' = false := by decide
  have hoperator : ∀ cs, Scan.beginsNumber '.' cs = false →
      Scan.token '.' cs = Scan.operator '.' cs := fun cs hcs => by
    simp [Scan.token, hname, hcs, Scan.backquote]
  cases hnumber : Scan.beginsNumber '.' cs with
  | false =>
      rw [hoperator cs hnumber] at hscan
      obtain ⟨o, ho⟩ := Scan.kind_operator hscan
      rw [hkind] at ho
      cases ho
  | true =>
      simp only [Scan.token, hname, hnumber, Bool.false_eq_true, if_false, if_true] at hscan
      obtain rfl := Except.ok.inj hscan
      rw [← hrest] at h
      cases cs with
      | nil => exact absurd hnumber (by decide)
      | cons d ds =>
          have hdigit : Text.isDigit d = true := by
            simpa [Scan.beginsNumber, show Text.isDigit '.' = false by decide] using hnumber
          have hdecimal := Scan.head_of_text_point htext d rfl
          have hbegin : Text.beginsName d = false := by
            cases hd : Text.beginsName d with
            | false => rfl
            | true =>
                rw [Text.isDigit_of_beginsName hd] at hdigit
                cases hdigit
          have htoken : Scan.token d ds = .ok (Scan.number (d :: ds)) := by
            simp [Scan.token, hbegin, Scan.beginsNumber, hdigit]
          have hgap : Gap.read (d :: ds) = .none := by
            rw [Gap.read_eq_none_iff]
            refine ⟨?_, ?_, ?_⟩
            · rintro rfl
              exact absurd hdigit (by decide)
            · simp only [Gap.isBlank, Bool.or_eq_false_iff, beq_eq_false_iff_ne]
              refine ⟨⟨?_, ?_⟩, ?_⟩ <;> rintro rfl <;> exact absurd hdigit (by decide)
            · rintro rfl
              exact absurd hdigit (by decide)
          exact h.false_of_empty hgap htoken (Scan.text_number_eq_nil hdigit hdecimal)

-- The lexemes of a text: each is read from its own text, the end stands last, and the end of a line
-- only after what can end a statement.
inductive Sourced : Bool → List Lexeme → Prop
  | finish {pending : Bool} : Sourced pending [.ending]
  | newline {ls : List Lexeme} (h : Sourced false ls) : Sourced true (.newline :: ls)
  | token {pending : Bool} {l : Lexeme} {ls : List Lexeme} (hl : l.Whole)
      (h : Sourced l.kind.endsStatement ls) : Sourced pending (l :: ls)

-- A token stands before a cut of what follows it.
theorem Lexeme.stands_of_token {c : CodePoint} {cs s : List CodePoint} {scan : Scan}
    (hgap : Gap.read (c :: cs) = .none) (hscan : Scan.token c cs = .ok scan)
    (hne : scan.text ≠ []) (hpoint : scan.kind = .literal .Floating → scan.text ≠ [char '.'])
    (hs : Text.Cut scan.rest s) : (⟨scan.kind, Text.ofList scan.text⟩ : Lexeme).Stands s := by
  obtain ⟨tail, htext, hagain⟩ := Scan.token_cut hscan hne hpoint hs
  have happend := Scan.eq_of_token hscan
  rw [htext, List.cons_append] at happend
  obtain ⟨-, rfl⟩ := List.cons.inj happend
  refine ⟨?_, c, tail, scan.raw, by simp [htext], by simpa [htext] using hagain⟩
  obtain ⟨hline, hblank, hslash⟩ := Gap.read_eq_none_iff.mp hgap
  simp only [htext, List.cons_append, Gap.read_eq_none_iff]
  have hcut := hs.append tail
  refine ⟨hline, hblank, fun hc d hd => ⟨?_, ?_⟩⟩
  · rintro rfl
    exact hcut.ne_of_head (fun he => (hslash hc '/' he).1 rfl) (by decide) hd
  · rintro rfl
    exact hcut.ne_of_head (fun he => (hslash hc '*' he).2 rfl) (by decide) hd

theorem Lexeme.whole_of_token {c : CodePoint} {cs : List CodePoint} {scan : Scan}
    (hgap : Gap.read (c :: cs) = .none) (hscan : Scan.token c cs = .ok scan)
    (hne : scan.text ≠ []) (hpoint : scan.kind = .literal .Floating → scan.text ≠ [char '.']) :
    (⟨scan.kind, Text.ofList scan.text⟩ : Lexeme).Whole :=
  stands_of_token hgap hscan hne hpoint .nil

theorem Lexes.sourced {pending : Bool} {cs : List CodePoint} {ls : List Lexeme}
    (h : Lexes pending cs ls) : Sourced pending ls := by
  induction h with
  | finish => exact .finish
  | finishLine => exact .newline .finish
  | insert _ _ _ ih => exact .newline ih
  | skip _ _ _ ih => exact ih
  | token hgap hscan hne h ih =>
      exact .token (Lexeme.whole_of_token hgap hscan hne (Lexes.ne_point hscan h)) ih

end GoCompact
