import GoCompact.Proofs.Lexing.Stream
import Mathlib.Data.List.Chain
import Mathlib.Data.List.TakeWhile

namespace GoCompact

open CodePoint (char)

namespace Text

theorem isAscii_of_isAlphanum {c : CodePoint} (h : c.isAlpha = true ∨ c.isDigit = true) :
    isAscii c = true := by
  simp only [CodePoint.isAlpha, CodePoint.isUpper, CodePoint.isLower, CodePoint.isDigit, Bool.or_eq_true,
    Bool.and_eq_true, decide_eq_true_eq, CodePoint.le_def] at h
  simp only [isAscii, decide_eq_true_eq]
  simp at h
  omega

theorem continuesName_of_isAlphanum {c : CodePoint} (h : c.isAlpha = true ∨ c.isDigit = true) :
    continuesName c = true := by
  have hascii := isAscii_of_isAlphanum h
  simp only [continuesName, isLetter, isNumeral, hascii, if_true, Bool.or_eq_true]
  exact Or.inl h

end Text

namespace Scan

theorem continuesName_of_isDecimalDigit {c : CodePoint} (h : isDecimalDigit c = true) :
    Text.continuesName c = true := by
  simp only [isDecimalDigit, Bool.or_eq_true, beq_iff_eq] at h
  rcases h with h | rfl
  · exact Text.continuesName_of_isAlphanum (Or.inr h)
  · decide

theorem continuesName_of_isHexDigit {c : CodePoint} (h : isHexDigit c = true) :
    Text.continuesName c = true := by
  simp only [isHexDigit, Bool.or_eq_true, Bool.and_eq_true, decide_eq_true_eq] at h
  rcases h with (h | h) | h
  · exact continuesName_of_isDecimalDigit h
  all_goals
    apply Text.continuesName_of_isAlphanum
    left
    simp only [CodePoint.isAlpha, CodePoint.isUpper, CodePoint.isLower, Bool.or_eq_true, Bool.and_eq_true,
      decide_eq_true_eq]
    simp only [CodePoint.le_def] at h ⊢
    simp at h ⊢
    omega

theorem continuesName_of_isExponentMark {hexadecimal : Bool} {c : CodePoint}
    (h : isExponentMark hexadecimal c = true) : Text.continuesName c = true := by
  cases hexadecimal <;> simp only [isExponentMark, if_true, if_false, Bool.false_eq_true,
    Bool.or_eq_true, beq_iff_eq] at h <;> rcases h with rfl | rfl <;> decide

theorem not_isDecimalDigit {c : CodePoint} (h : Text.continuesName c = false) :
    isDecimalDigit c = false :=
  Bool.eq_false_iff.mpr fun hc => by simp [continuesName_of_isDecimalDigit hc] at h

theorem not_isHexDigit {c : CodePoint} (h : Text.continuesName c = false) : isHexDigit c = false :=
  Bool.eq_false_iff.mpr fun hc => by simp [continuesName_of_isHexDigit hc] at h

theorem not_isExponentMark {hexadecimal : Bool} {c : CodePoint} (h : Text.continuesName c = false) :
    isExponentMark hexadecimal c = false :=
  Bool.eq_false_iff.mpr fun hc => by simp [continuesName_of_isExponentMark hc] at h

-- What follows a text is split off at the same place, if it does not begin with more of the class.
theorem span_append {p : CodePoint → Bool} (cs : List CodePoint) {rest : List CodePoint}
    (h : cs.dropWhile p = [] → ∀ d ∈ rest.head?, p d = false) :
    (cs ++ rest).takeWhile p = cs.takeWhile p ∧
      (cs ++ rest).dropWhile p = cs.dropWhile p ++ rest := by
  induction cs with
  | nil =>
      cases rest with
      | nil => simp
      | cons d rest => simp [h rfl d rfl]
  | cons c cs ih =>
      by_cases hc : p c = true
      · simp only [List.dropWhile_cons_of_pos hc] at h
        obtain ⟨ht, hd⟩ := ih h
        simp [hc, ht, hd]
      · simp [hc]

theorem baseMark_append_rest {cs rest : List CodePoint} (hcs : cs ≠ [])
    (h : ∀ d ∈ rest.head?, Text.continuesName d = false) :
    baseMark (cs ++ rest) = ((baseMark cs).1, (baseMark cs).2.1, (baseMark cs).2.2 ++ rest) := by
  have hmark : ∀ d ∈ rest.head?, d ≠ 'x' ∧ d ≠ 'X' ∧ d ≠ 'b' ∧ d ≠ 'B' ∧ d ≠ 'o' ∧ d ≠ 'O' := by
    intro d hd
    have hd := h d hd
    refine ⟨?_, ?_, ?_, ?_, ?_, ?_⟩ <;> rintro rfl <;> exact absurd hd (by decide)
  match cs with
  | [c] =>
      cases rest with
      | nil => simp
      | cons d rest =>
          have hd := hmark d rfl
          by_cases hc : c = '0'
          · subst hc
            simp [baseMark, hd]
          · simp [baseMark, hc]
  | c :: d :: tail =>
      by_cases hc : c = '0'
      · subst hc
        simp only [List.cons_append, baseMark]
        split
        · rfl
        · split <;> rfl
      · simp [baseMark, hc]

theorem fraction_append_rest {digit : CodePoint → Bool} {cs rest : List CodePoint}
    (hdigit : ∀ d ∈ rest.head?, digit d = false) (hpoint : cs = [] → ∀ d ∈ rest.head?, d ≠ '.') :
    fraction digit (cs ++ rest) = ((fraction digit cs).1, (fraction digit cs).2 ++ rest) := by
  cases cs with
  | nil =>
      cases rest with
      | nil => rfl
      | cons d rest => simp [fraction, hpoint rfl d rfl]
  | cons c cs =>
      by_cases hc : c = '.'
      · subst hc
        obtain ⟨ht, hd⟩ := span_append cs fun _ => hdigit
        simp [fraction, ht, hd]
      · simp [fraction, hc]

theorem sign_append_rest {cs rest : List CodePoint}
    (h : cs = [] → ∀ d ∈ rest.head?, d ≠ '+' ∧ d ≠ '-') :
    sign (cs ++ rest) = ((sign cs).1, (sign cs).2 ++ rest) := by
  cases cs with
  | nil =>
      cases rest with
      | nil => rfl
      | cons d rest => simp [sign, h rfl d rfl]
  | cons c cs =>
      by_cases hplus : c = '+'
      · subst hplus
        rfl
      · by_cases hminus : c = '-'
        · subst hminus
          rfl
        · simp [sign, hplus, hminus]

theorem exponent_append_rest {hexadecimal : Bool} {cs rest : List CodePoint}
    (hname : ∀ d ∈ rest.head?, Text.continuesName d = false)
    (hsign : ∀ c, cs = [c] → isExponentMark hexadecimal c = true →
      ∀ d ∈ rest.head?, d ≠ '+' ∧ d ≠ '-') :
    exponent hexadecimal (cs ++ rest) =
      ((exponent hexadecimal cs).1, (exponent hexadecimal cs).2 ++ rest) := by
  have hdigit : ∀ d ∈ rest.head?, isDecimalDigit d = false :=
    fun d hd => not_isDecimalDigit (hname d hd)
  cases cs with
  | nil =>
      cases rest with
      | nil => rfl
      | cons d rest =>
          rw [List.nil_append, exponent_cons, not_isExponentMark (hname d rfl)]
          rfl
  | cons c cs =>
      rw [List.cons_append, exponent_cons, exponent_cons]
      split
      · rename_i hmark
        have hs : sign (cs ++ rest) = ((sign cs).1, (sign cs).2 ++ rest) :=
          sign_append_rest fun he => hsign c (by rw [he]) hmark
        obtain ⟨ht, hd⟩ := span_append (sign cs).2 fun _ => hdigit
        simp [hs, ht, hd]
      · rfl

theorem imaginaryMark_append_rest {cs rest : List CodePoint}
    (h : cs = [] → ∀ d ∈ rest.head?, d ≠ 'i') :
    imaginaryMark (cs ++ rest) = ((imaginaryMark cs).1, (imaginaryMark cs).2 ++ rest) := by
  cases cs with
  | nil =>
      cases rest with
      | nil => rfl
      | cons d rest => simp [imaginaryMark, h rfl d rfl]
  | cons c cs =>
      by_cases hc : c = 'i'
      · subst hc
        rfl
      · simp [imaginaryMark, hc]

-- Whether a number ends right after the mark of its exponent.
def endsInMark (cs : List CodePoint) : Bool :=
  cs.getLast?.any (isExponentMark (baseMark cs).2.1)

-- The digits of a number, those of the base that its mark tells.
def digitsOf (cs : List CodePoint) : CodePoint → Bool :=
  if (baseMark cs).2.1 then isHexDigit else isDecimalDigit

theorem not_digitsOf (cs : List CodePoint) {c : CodePoint} (h : Text.continuesName c = false) :
    digitsOf cs c = false := by
  unfold digitsOf
  split
  · exact not_isHexDigit h
  · exact not_isDecimalDigit h

-- The parts of a number after its digits, each with what is left after it.
def afterDigits (cs : List CodePoint) : List CodePoint := (baseMark cs).2.2.dropWhile (digitsOf cs)

def pointPart (cs : List CodePoint) : List CodePoint × List CodePoint :=
  fraction (digitsOf cs) (afterDigits cs)

def powerPart (cs : List CodePoint) : List CodePoint × List CodePoint :=
  exponent (baseMark cs).2.1 (pointPart cs).2

def unitPart (cs : List CodePoint) : List CodePoint × List CodePoint := imaginaryMark (powerPart cs).2

def numberKind (cs : List CodePoint) : Literal :=
  if !(unitPart cs).1.isEmpty then .Imaginary
  else if !(pointPart cs).1.isEmpty || !(powerPart cs).1.isEmpty then .Floating
  else .Integer

theorem number_eq (cs : List CodePoint) :
    number cs = ⟨.literal (numberKind cs), (baseMark cs).1 ++
      (baseMark cs).2.2.takeWhile (digitsOf cs) ++ (pointPart cs).1 ++ (powerPart cs).1 ++
      (unitPart cs).1, (unitPart cs).2, false⟩ :=
  rfl

-- A number that is a text by itself goes no further when something else follows it.
theorem number_append_rest {cs rest : List CodePoint} {kind : Literal} (hcs : cs ≠ [])
    (h : number cs = ⟨.literal kind, cs, [], false⟩)
    (hname : ∀ d ∈ rest.head?, Text.continuesName d = false)
    (hpoint : kind = .Integer → ∀ d ∈ rest.head?, d ≠ '.')
    (hsign : kind = .Floating → endsInMark cs = true → ∀ d ∈ rest.head?, d ≠ '+' ∧ d ≠ '-') :
    number (cs ++ rest) = ⟨.literal kind, cs, rest, false⟩ := by
  rw [number_eq] at h
  obtain ⟨hkind, htext, hleft, -⟩ := Scan.mk.inj h
  have hkind : numberKind cs = kind := TokenKind.literal.inj hkind
  have hbase := baseMark_append_rest hcs hname
  have hdigits : digitsOf (cs ++ rest) = digitsOf cs := by simp only [digitsOf, hbase]
  obtain ⟨htake, hdrop⟩ := span_append (baseMark cs).2.2 (p := digitsOf cs)
    fun _ d hd => not_digitsOf cs (hname d hd)
  have hafter : afterDigits (cs ++ rest) = afterDigits cs ++ rest := by
    simp only [afterDigits, hdigits, hbase, hdrop]
  have hpointPart : pointPart (cs ++ rest) = ((pointPart cs).1, (pointPart cs).2 ++ rest) := by
    simp only [pointPart, hdigits, hafter]
    refine fraction_append_rest (fun d hd => not_digitsOf cs (hname d hd)) fun hnil => ?_
    -- nothing is left after the digits only of a whole number
    apply hpoint
    simp [← hkind, numberKind, unitPart, powerPart, pointPart, hnil, fraction, exponent,
      imaginaryMark]
  have hpowerPart : powerPart (cs ++ rest) = ((powerPart cs).1, (powerPart cs).2 ++ rest) := by
    simp only [powerPart, hbase, hpointPart]
    refine exponent_append_rest hname fun c hc hmark => ?_
    have hpower : powerPart cs = ([c], []) := by
      simp [powerPart, hc, exponent_cons, hmark, sign]
    have hunit : unitPart cs = ([], []) := by simp [unitPart, hpower, imaginaryMark]
    apply hsign
    · simp [← hkind, numberKind, hpower, hunit]
    · rw [hpower, hunit, List.append_nil] at htext
      have hlast := (congrArg List.getLast? htext).symm
      rw [List.getLast?_concat] at hlast
      simp [endsInMark, hlast, hmark]
  have hunitPart : unitPart (cs ++ rest) = ((unitPart cs).1, (unitPart cs).2 ++ rest) := by
    simp only [unitPart, hpowerPart]
    refine imaginaryMark_append_rest fun _ d hd => ?_
    rintro rfl
    exact absurd (hname _ hd) (by decide)
  rw [number_eq, hbase, hdigits, htake, hpointPart, hpowerPart, hunitPart, hleft]
  have hkind' : numberKind (cs ++ rest) = kind := by
    rw [← hkind]
    simp only [numberKind, hpointPart, hpowerPart, hunitPart]
  simp only [hkind', htext, List.nil_append]

-- A whole number takes a point that follows it, and is no whole number then.
theorem numberKind_append_point {cs rest : List CodePoint} (hcs : cs ≠ [])
    (h : number cs = ⟨.literal .Integer, cs, [], false⟩) :
    numberKind (cs ++ char '.' :: rest) ≠ .Integer := by
  rw [number_eq] at h
  obtain ⟨hkind, -, hleft, -⟩ := Scan.mk.inj h
  have hname : ∀ d ∈ (char '.' :: rest).head?, Text.continuesName d = false := by
    rintro d ⟨⟩
    decide
  have hbase := baseMark_append_rest hcs hname
  have hdigits : digitsOf (cs ++ char '.' :: rest) = digitsOf cs := by simp only [digitsOf, hbase]
  obtain ⟨-, hdrop⟩ := span_append (baseMark cs).2.2 (p := digitsOf cs)
    fun _ d hd => not_digitsOf cs (hname d hd)
  -- nothing is left of the number after its digits
  have hnil : afterDigits cs = [] := by
    have hkind : numberKind cs = .Integer := TokenKind.literal.inj hkind
    unfold numberKind at hkind
    split at hkind
    · cases hkind
    split at hkind
    · cases hkind
    · rename_i hunit hrest
      simp only [Bool.or_eq_true, Bool.not_eq_true', not_or, Bool.not_eq_false,
        List.isEmpty_iff] at hunit hrest
      have hpoint := fraction_append (digitsOf cs) (afterDigits cs)
      have hpower := exponent_append (baseMark cs).2.1 (pointPart cs).2
      have himag := imaginaryMark_append (powerPart cs).2
      change (pointPart cs).1 ++ (pointPart cs).2 = _ at hpoint
      change (powerPart cs).1 ++ (powerPart cs).2 = _ at hpower
      change (unitPart cs).1 ++ (unitPart cs).2 = _ at himag
      rw [hrest.1, List.nil_append] at hpoint
      rw [hrest.2, List.nil_append] at hpower
      rw [hunit, List.nil_append] at himag
      rw [← hpoint, ← hpower, ← himag, hleft]
  have hafter : afterDigits (cs ++ char '.' :: rest) = char '.' :: rest := by
    simp only [afterDigits, hdigits, hbase, hdrop]
    rw [← afterDigits, hnil]
    rfl
  have hpoint : (pointPart (cs ++ char '.' :: rest)).1.isEmpty = false := by
    simp [pointPart, hafter, fraction]
  unfold numberKind
  split
  · simp
  · simp [hpoint]

theorem not_isExponentMark_of_digitsOf {cs : List CodePoint} {c : CodePoint} (h : digitsOf cs c = true) :
    isExponentMark (baseMark cs).2.1 c = false := by
  unfold digitsOf at h
  apply Bool.eq_false_iff.mpr
  intro hmark
  split at h <;> rename_i hhex <;> simp only [isExponentMark, hhex, if_true, if_false,
    Bool.false_eq_true, Bool.or_eq_true, beq_iff_eq] at hmark <;>
    rcases hmark with rfl | rfl <;> exact absurd h (by decide)

theorem mem_fraction {digit : CodePoint → Bool} {cs : List CodePoint} {c : CodePoint}
    (h : c ∈ (fraction digit cs).1) : c = '.' ∨ digit c = true := by
  unfold fraction at h
  split at h
  · rcases List.mem_cons.mp h with rfl | h
    · exact Or.inl rfl
    · exact Or.inr (List.mem_takeWhile_imp h)
  · cases h

theorem not_isExponentMark_of_isDecimalDigit {hexadecimal : Bool} {c : CodePoint}
    (h : isDecimalDigit c = true) : isExponentMark hexadecimal c = false := by
  apply Bool.eq_false_iff.mpr
  intro hmark
  cases hexadecimal <;> simp only [isExponentMark, if_true, if_false, Bool.false_eq_true,
    Bool.or_eq_true, beq_iff_eq] at hmark <;>
    rcases hmark with rfl | rfl <;> exact absurd h (by decide)

-- The part with the exponent that ends in a mark is the mark alone.
theorem exponent_of_getLast {hexadecimal : Bool} {cs : List CodePoint} {c : CodePoint}
    (hlast : (exponent hexadecimal cs).1.getLast? = some c)
    (hmark : isExponentMark hexadecimal c = true) : (exponent hexadecimal cs).1 = [c] := by
  cases cs with
  | nil => simp [exponent] at hlast
  | cons first tail =>
      rw [exponent_cons] at hlast ⊢
      split at hlast
      · rename_i hfirst
        simp only [hfirst, if_true] at hlast ⊢
        -- neither a sign nor a digit is a mark
        have hdigits : (sign tail).2.takeWhile isDecimalDigit = [] := by
          by_cases hnil : (sign tail).2.takeWhile isDecimalDigit = []
          · exact hnil
          · rw [List.getLast?_append_of_ne_nil _ hnil] at hlast
            have hc := List.mem_takeWhile_imp (List.mem_of_getLast? hlast)
            simp [not_isExponentMark_of_isDecimalDigit hc] at hmark
        rw [hdigits, List.append_nil] at hlast ⊢
        have hsign : (sign tail).1 = [] ∨ (sign tail).1 = [char '+'] ∨ (sign tail).1 = [char '-'] := by
          unfold sign
          split <;> simp
        rcases hsign with hsign | hsign | hsign <;> rw [hsign] at hlast ⊢
        · simpa using hlast
        · obtain rfl : '+' = c := by simpa using hlast
          cases hexadecimal <;> exact absurd hmark (by decide)
        · obtain rfl : '-' = c := by simpa using hlast
          cases hexadecimal <;> exact absurd hmark (by decide)
      · simp at hlast

-- A number that ends in the mark of its exponent takes a sign that follows it.
theorem number_append_sign {cs rest : List CodePoint} {d : CodePoint} (hcs : cs ≠ [])
    (hd : d = '+' ∨ d = '-') (hmark : endsInMark cs = true)
    (h : number cs = ⟨.literal .Floating, cs, [], false⟩) :
    (number (cs ++ d :: rest)).text ≠ cs := by
  rw [number_eq] at h
  obtain ⟨hkind, htext, hleft, -⟩ := Scan.mk.inj h
  have hkind : numberKind cs = .Floating := TokenKind.literal.inj hkind
  have hname : ∀ e ∈ (d :: rest).head?, Text.continuesName e = false := by
    rintro e ⟨⟩
    rcases hd with rfl | rfl <;> decide
  have hunit : (unitPart cs).1 = [] := by
    unfold numberKind at hkind
    split at hkind
    · cases hkind
    · rename_i hempty
      simpa using hempty
  obtain ⟨c, hlast, hc⟩ := (Option.any_eq_true _ _).mp hmark
  rw [hunit, List.append_nil] at htext
  have hpower : (powerPart cs).1 = [c] := by
    rw [← htext] at hlast
    by_cases hnil : (powerPart cs).1 = []
    · have hpoint : (pointPart cs).1 ≠ [] := by
        intro hpoint
        simp [numberKind, hunit, hnil, hpoint] at hkind
      rw [hnil, List.append_nil, List.getLast?_append_of_ne_nil _ hpoint] at hlast
      rcases mem_fraction (List.mem_of_getLast? hlast) with rfl | hdigit
      · cases hhex : (baseMark cs).2.1 <;> rw [hhex] at hc <;> exact absurd hc (by decide)
      · simp [not_isExponentMark_of_digitsOf hdigit] at hc
    · rw [List.getLast?_append_of_ne_nil _ hnil] at hlast
      exact exponent_of_getLast hlast hc
  -- the mark is all that is left after the point, so that the sign is taken with it
  have hafterPoint : (pointPart cs).2 = [c] := by
    have hsplit := exponent_append (baseMark cs).2.1 (pointPart cs).2
    have himag := imaginaryMark_append (powerPart cs).2
    change (powerPart cs).1 ++ (powerPart cs).2 = _ at hsplit
    change (unitPart cs).1 ++ (unitPart cs).2 = _ at himag
    rw [hunit, hleft] at himag
    rw [← hsplit, hpower, ← himag]
    rfl
  have hbase := baseMark_append_rest hcs hname
  have hdigits : digitsOf (cs ++ d :: rest) = digitsOf cs := by simp only [digitsOf, hbase]
  obtain ⟨htake, hdrop⟩ := span_append (baseMark cs).2.2 (p := digitsOf cs)
    fun _ e he => not_digitsOf cs (hname e he)
  have hpointPart : pointPart (cs ++ d :: rest) = ((pointPart cs).1, c :: d :: rest) := by
    simp only [pointPart, hdigits, afterDigits, hbase, hdrop]
    rw [← afterDigits, fraction_append_rest (fun e he => not_digitsOf cs (hname e he))]
    · rw [← pointPart, hafterPoint]
      rfl
    · intro hnil
      simp [pointPart, hnil, fraction] at hafterPoint
  have hsign : sign (d :: rest) = ([d], rest) := by
    rcases hd with rfl | rfl <;> rfl
  have hlonger : (powerPart (cs ++ d :: rest)).1 = c :: d :: rest.takeWhile isDecimalDigit := by
    simp only [powerPart, hbase, hpointPart]
    simp [exponent_cons, hc, hsign]
  intro hsame
  have hlength := congrArg List.length hsame
  have htext := congrArg List.length htext
  rw [number_eq] at hlength
  simp only [hbase, hdigits, htake, hpointPart, hlonger, List.length_append, List.length_cons,
    hpower, List.length_nil] at hlength htext
  omega

end Scan

namespace Text

-- A text that goes on like another one up to where it ends or has a blank.
inductive Cut : List CodePoint → List CodePoint → Prop
  | nil {r : List CodePoint} : Cut r []
  | blank {r s : List CodePoint} {c : CodePoint} (hc : Gap.isBlank c = true) : Cut r (c :: s)
  | cons {r s : List CodePoint} {c : CodePoint} (h : Cut r s) : Cut (c :: r) (c :: s)

theorem not_continuesName_of_isBlank {c : CodePoint} (h : Gap.isBlank c = true) :
    continuesName c = false := by
  simp only [Gap.isBlank, Bool.or_eq_true, beq_iff_eq] at h
  rcases h with (rfl | rfl) | rfl <;> decide

theorem ne_of_isBlank {c d : CodePoint} (h : Gap.isBlank c = true) (hd : Gap.isBlank d = false) :
    c ≠ d := by
  rintro rfl
  rw [h] at hd
  cases hd

namespace Cut

variable {r s : List CodePoint}

theorem append (h : Cut r s) (cs : List CodePoint) : Cut (cs ++ r) (cs ++ s) := by
  induction cs with
  | nil => exact h
  | cons c cs ih => exact .cons ih

-- What cannot stand next in a text cannot after a cut either, unless it is a blank.
theorem not_of_head {p : CodePoint → Bool} (h : Cut r s) (hr : ∀ c ∈ r.head?, p c = false)
    (hblank : ∀ c, Gap.isBlank c = true → p c = false) : ∀ c ∈ s.head?, p c = false := by
  cases h with
  | nil => simp
  | blank hc => simpa using hblank _ hc
  | cons => exact hr

theorem ne_of_head {d : CodePoint} (h : Cut r s) (hr : r.head? ≠ some d)
    (hblank : Gap.isBlank d = false) : s.head? ≠ some d := by
  cases h with
  | nil => simp
  | blank hc => simpa using ne_of_isBlank hc hblank
  | cons => exact hr

-- What begins a cut text and has no blank begins the text.
theorem prefix_of_cut {t : List CodePoint} (h : Cut r s) (ht : t <+: s)
    (hblank : ∀ c ∈ t, Gap.isBlank c = false) : t <+: r := by
  induction h generalizing t with
  | nil =>
      obtain rfl := List.prefix_nil.mp ht
      exact List.nil_prefix
  | blank hc =>
      cases t with
      | nil => exact List.nil_prefix
      | cons d t =>
          obtain ⟨rfl, -⟩ := List.cons_prefix_cons.mp ht
          simp [hblank d List.mem_cons_self] at hc
  | cons _ ih =>
      cases t with
      | nil => exact List.nil_prefix
      | cons d t =>
          obtain ⟨rfl, ht'⟩ := List.cons_prefix_cons.mp ht
          exact List.cons_prefix_cons.mpr
            ⟨rfl, ih ht' fun c hc => hblank c (List.mem_cons_of_mem _ hc)⟩

end Cut

end Text

namespace Scan

open Text (Cut)

variable {hexadecimal : Bool} {digit : CodePoint → Bool} {cs s : List CodePoint}

-- A part of a number is found again when the text is cut somewhere after it.
theorem takeWhile_again {p : CodePoint → Bool} (cs : List CodePoint) (h : ∀ d ∈ s.head?, p d = false) :
    (cs.takeWhile p ++ s).takeWhile p = cs.takeWhile p ∧
      (cs.takeWhile p ++ s).dropWhile p = s := by
  have hall : ∀ c ∈ cs.takeWhile p, p c = true := fun c hc => List.mem_takeWhile_imp hc
  have hhead : s.takeWhile p = [] ∧ s.dropWhile p = s := by
    cases s with
    | nil => simp
    | cons d ds => simp [h d rfl]
  rw [List.takeWhile_append_of_pos hall, List.dropWhile_append_of_pos hall, hhead.1, hhead.2]
  simp

theorem takeWhile_cut {p : CodePoint → Bool}
    (hname : ∀ c, Text.continuesName c = false → p c = false) (h : Cut (cs.dropWhile p) s) :
    (cs.takeWhile p ++ s).takeWhile p = cs.takeWhile p ∧
      (cs.takeWhile p ++ s).dropWhile p = s := by
  refine takeWhile_again cs (h.not_of_head (fun d hd => ?_) fun c hc => ?_)
  · have hnot := List.head?_dropWhile_not p cs
    rw [Option.mem_def.mp hd] at hnot
    simpa using hnot
  · exact hname c (Text.not_continuesName_of_isBlank hc)

theorem baseMark_cut (h : Cut (baseMark cs).2.2 s) :
    baseMark ((baseMark cs).1 ++ s) = ((baseMark cs).1, (baseMark cs).2.1, s) := by
  have hplain : baseMark cs = ([], false, cs) →
      baseMark ((baseMark cs).1 ++ s) = ((baseMark cs).1, (baseMark cs).2.1, s) := by
    intro hcs
    rw [hcs] at h ⊢
    cases h with
    | nil => rfl
    | @blank _ s c hc =>
        have hzero : c ≠ '0' := Text.ne_of_isBlank hc (by decide)
        cases s <;> simp [baseMark, hzero]
    | @cons r s c h =>
        by_cases hc : c = '0'
        · subst hc
          cases h with
          | nil => rfl
          | @blank _ s d hd =>
              have hmark : ∀ e, Gap.isBlank e = false → d ≠ e := fun e => Text.ne_of_isBlank hd
              simp [baseMark, hmark 'x' (by decide), hmark 'X' (by decide), hmark 'b' (by decide),
                hmark 'B' (by decide), hmark 'o' (by decide), hmark 'O' (by decide)]
          | @cons r s d =>
              simp only [List.nil_append, baseMark] at hcs ⊢
              split at hcs <;> rename_i hx
              · simp at hcs
              · rw [if_neg hx]
                split at hcs <;> rename_i hb
                · simp at hcs
                · rw [if_neg hb]
        · cases s <;> simp [baseMark, hc]
  match cs with
  | [] => exact hplain rfl
  | [c] => exact hplain (by simp [baseMark])
  | c :: d :: rest =>
      by_cases hc : c = '0'
      · subst hc
        by_cases hx : (d == 'x' || d == 'X') = true
        · simp only [baseMark, hx, if_true, List.cons_append, List.nil_append]
        · by_cases hb : (d == 'b' || d == 'B' || d == 'o' || d == 'O') = true
          · simp only [baseMark, hx, hb, if_true, List.cons_append, List.nil_append,
              Bool.false_eq_true, if_false]
          · exact hplain (by simp only [baseMark, hx, hb, Bool.false_eq_true, if_false])
      · exact hplain (by simp [baseMark, hc])

theorem fraction_cut (hname : ∀ c, Text.continuesName c = false → digit c = false)
    (h : Cut (fraction digit cs).2 s) :
    fraction digit ((fraction digit cs).1 ++ s) = ((fraction digit cs).1, s) := by
  have hplain : ∀ t : List CodePoint, t.head? ≠ some (char '.') → fraction digit t = ([], t) := by
    intro t ht
    unfold fraction
    split
    · simp at ht
    · rfl
  by_cases hpoint : cs.head? = some (char '.')
  · obtain ⟨rest, rfl⟩ := List.head?_eq_some_iff.mp hpoint
    have hrest : Cut (rest.dropWhile digit) s := h
    obtain ⟨ht, hd⟩ := takeWhile_cut hname hrest
    simp [fraction, ht, hd]
  · rw [hplain cs hpoint] at h ⊢
    exact hplain s (h.ne_of_head hpoint (by decide))

theorem sign_cut (h : Cut (sign cs).2 s) : sign ((sign cs).1 ++ s) = ((sign cs).1, s) := by
  have hplain : ∀ t : List CodePoint, t.head? ≠ some (char '+') → t.head? ≠ some (char '-') →
      sign t = ([], t) := by
    intro t hplus hminus
    unfold sign
    split <;> simp_all
  by_cases hplus : cs.head? = some (char '+')
  · obtain ⟨rest, rfl⟩ := List.head?_eq_some_iff.mp hplus
    rfl
  · by_cases hminus : cs.head? = some (char '-')
    · obtain ⟨rest, rfl⟩ := List.head?_eq_some_iff.mp hminus
      rfl
    · rw [hplain cs hplus hminus] at h ⊢
      exact hplain s (h.ne_of_head hplus (by decide)) (h.ne_of_head hminus (by decide))

theorem exponent_cut (h : Cut (exponent hexadecimal cs).2 s) :
    exponent hexadecimal ((exponent hexadecimal cs).1 ++ s) =
      ((exponent hexadecimal cs).1, s) := by
  have hplain : ∀ t : List CodePoint, (∀ c ∈ t.head?, isExponentMark hexadecimal c = false) →
      exponent hexadecimal t = ([], t) := by
    intro t ht
    cases t with
    | nil => rfl
    | cons c t => rw [exponent_cons, if_neg (by simp [ht c rfl])]
  cases cs with
  | nil => exact hplain s (h.not_of_head (by simp [exponent])
      fun c hc => not_isExponentMark (Text.not_continuesName_of_isBlank hc))
  | cons c rest =>
      by_cases hc : isExponentMark hexadecimal c = true
      · have hdigits : Cut (sign rest).2 ((sign rest).2.takeWhile isDecimalDigit ++ s) := by
          rw [exponent_cons, if_pos hc] at h
          conv => arg 1; rw [← List.takeWhile_append_dropWhile (p := isDecimalDigit)
            (l := (sign rest).2)]
          exact h.append _
        rw [exponent_cons, if_pos hc] at h ⊢
        obtain ⟨ht, hd⟩ := takeWhile_cut (fun _ => not_isDecimalDigit) h
        simp only [List.cons_append, List.append_assoc, exponent_cons, hc, if_true,
          sign_cut hdigits, ht, hd]
      · have hmark : isExponentMark hexadecimal c = false := by simpa using hc
        rw [hplain (c :: rest) (by simpa using hmark)] at h ⊢
        exact hplain s (h.not_of_head (by simpa using hmark)
          fun c hc => not_isExponentMark (Text.not_continuesName_of_isBlank hc))

theorem imaginaryMark_cut (h : Cut (imaginaryMark cs).2 s) :
    imaginaryMark ((imaginaryMark cs).1 ++ s) = ((imaginaryMark cs).1, s) := by
  have hplain : ∀ t : List CodePoint, t.head? ≠ some (char 'i') → imaginaryMark t = ([], t) := by
    intro t ht
    unfold imaginaryMark
    split <;> simp_all
  by_cases hmark : cs.head? = some (char 'i')
  · obtain ⟨rest, rfl⟩ := List.head?_eq_some_iff.mp hmark
    rfl
  · rw [hplain cs hmark] at h ⊢
    exact hplain s (h.ne_of_head hmark (by decide))

-- The text of a number is read as the same number.
theorem number_cut (h : Cut (number cs).rest s) :
    number ((number cs).text ++ s) = ⟨(number cs).kind, (number cs).text, s, false⟩ := by
  have hunit : Cut (unitPart cs).2 s := h
  have hpower : Cut (powerPart cs).2 ((unitPart cs).1 ++ s) := by
    rw [← imaginaryMark_append (powerPart cs).2]
    exact hunit.append _
  have hpoint : Cut (pointPart cs).2 ((powerPart cs).1 ++ ((unitPart cs).1 ++ s)) := by
    rw [← exponent_append (baseMark cs).2.1 (pointPart cs).2]
    exact hpower.append _
  have hafter : Cut (afterDigits cs)
      ((pointPart cs).1 ++ ((powerPart cs).1 ++ ((unitPart cs).1 ++ s))) := by
    rw [← fraction_append (digitsOf cs) (afterDigits cs)]
    exact hpoint.append _
  have hwhole : Cut (baseMark cs).2.2 ((baseMark cs).2.2.takeWhile (digitsOf cs) ++
      ((pointPart cs).1 ++ ((powerPart cs).1 ++ ((unitPart cs).1 ++ s)))) := by
    conv => arg 1; rw [← List.takeWhile_append_dropWhile (p := digitsOf cs) (l := (baseMark cs).2.2)]
    exact hafter.append _
  generalize ht : (number cs).text ++ s = t
  have htext : t = (baseMark cs).1 ++ ((baseMark cs).2.2.takeWhile (digitsOf cs) ++
      ((pointPart cs).1 ++ ((powerPart cs).1 ++ ((unitPart cs).1 ++ s)))) := by
    simp only [← ht, number_eq, List.append_assoc]
  have hbase := baseMark_cut hwhole
  rw [← htext] at hbase
  have hdigits : digitsOf t = digitsOf cs := by simp only [digitsOf, hbase]
  have hclass : ∀ c, Text.continuesName c = false → digitsOf cs c = false :=
    fun _ => not_digitsOf cs
  obtain ⟨htake, hdrop⟩ := takeWhile_cut hclass hafter
  have hafterPart : afterDigits t =
      (pointPart cs).1 ++ ((powerPart cs).1 ++ ((unitPart cs).1 ++ s)) := by
    simp only [afterDigits, hdigits, hbase, hdrop]
  have hpointPart : pointPart t = ((pointPart cs).1, (powerPart cs).1 ++ ((unitPart cs).1 ++ s)) := by
    simp only [pointPart, hdigits, hafterPart]
    exact fraction_cut hclass hpoint
  have hpowerPart : powerPart t = ((powerPart cs).1, (unitPart cs).1 ++ s) := by
    simp only [powerPart, hbase, hpointPart]
    exact exponent_cut hpower
  have hunitPart : unitPart t = ((unitPart cs).1, s) := by
    simp only [unitPart, hpowerPart]
    exact imaginaryMark_cut hunit
  have hkind : numberKind t = numberKind cs := by
    simp only [numberKind, hpointPart, hpowerPart, hunitPart]
  rw [number_eq t, hkind, hbase, hdigits, htake, hpointPart, hpowerPart, hunitPart]
  rfl

theorem number_text (cs : List CodePoint) :
    number (number cs).text = ⟨(number cs).kind, (number cs).text, [], false⟩ := by
  have hnil : Cut (number cs).rest [] := .nil
  simpa using number_cut hnil

-- A digit outside ASCII begins a number without text.
theorem text_number_eq_nil {c : CodePoint} {cs : List CodePoint} (hdigit : Text.isDigit c = true)
    (hdecimal : isDecimalDigit c = false) : (number (c :: cs)).text = [] := by
  have hne : ∀ d : CodePoint, Text.isDigit d = false ∨ isDecimalDigit d = true → c ≠ d := by
    rintro d hd rfl
    rcases hd with hd | hd
    · rw [hdigit] at hd
      cases hd
    · rw [hdecimal] at hd
      cases hd
  have hzero := hne '0' (by decide)
  have hpoint := hne '.' (by decide)
  have hunit := hne 'i' (by decide)
  have hmark : isExponentMark false c = false := by
    simp [isExponentMark, hne 'e' (by decide), hne 'E' (by decide)]
  have hbase : baseMark (c :: cs) = ([], false, c :: cs) := by
    cases cs <;> simp [baseMark, hzero]
  have hdigits : digitsOf (c :: cs) = isDecimalDigit := by simp [digitsOf, hbase]
  have hafter : afterDigits (c :: cs) = c :: cs := by
    simp [afterDigits, hbase, hdigits, hdecimal]
  have hpointPart : pointPart (c :: cs) = ([], c :: cs) := by
    simp [pointPart, hafter, fraction, hpoint]
  have hpowerPart : powerPart (c :: cs) = ([], c :: cs) := by
    simp [powerPart, hpointPart, hbase, exponent_cons, hmark]
  have hunitPart : unitPart (c :: cs) = ([], c :: cs) := by
    simp [unitPart, hpowerPart, imaginaryMark, hunit]
  simp [number_eq, hbase, hdigits, hdecimal, hpointPart, hpowerPart, hunitPart]

-- A point alone is no number unless a digit outside ASCII follows it.
theorem head_of_text_point {cs : List CodePoint} (h : (number ('.' :: cs)).text = [char '.']) :
    ∀ d ∈ cs.head?, isDecimalDigit d = false := by
  intro d hd
  cases cs with
  | nil => cases hd
  | cons e ds =>
      obtain rfl : e = d := by simpa using hd
      cases hdecimal : isDecimalDigit e with
      | false => rfl
      | true =>
          have hlength := congrArg List.length h
          have hbase : baseMark ('.' :: e :: ds) = ([], false, char '.' :: e :: ds) := rfl
          have hdigits : digitsOf ('.' :: e :: ds) = isDecimalDigit := by simp [digitsOf, hbase]
          have hpoint : isDecimalDigit '.' = false := by decide
          have hafter : afterDigits ('.' :: e :: ds) = char '.' :: e :: ds := by
            simp [afterDigits, hbase, hdigits, hpoint]
          have hpart : (pointPart ('.' :: e :: ds)).1 =
              char '.' :: e :: ds.takeWhile isDecimalDigit := by
            simp [pointPart, hafter, hdigits, fraction, hdecimal]
          simp [number_eq, hbase, hdigits, hpoint, hpart] at hlength

end Scan

end GoCompact
