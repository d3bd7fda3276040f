import Mathlib
import GoCompact.Json.Printer
import GoCompact.Json.Reader

namespace GoCompact

open CodePoint (char)

namespace Text

theorem hexValue?_hexDigit {n : Nat} (h : n < 16) : hexValue? (hexDigit n) = some n := by
  revert n
  decide

-- Four digits write every number below 2^16.
theorem hex_four (n : Nat) :
    hex 4 n = [hexDigit (n / 4096 % 16), hexDigit (n / 256 % 16), hexDigit (n / 16 % 16),
      hexDigit (n % 16)] := by
  simp only [hex, List.nil_append, List.cons_append, Nat.div_div_eq_div_mul]

theorem hexQuad?_hexDigit {n : Nat} (h : n < 65536) :
    hexQuad? (hexDigit (n / 4096 % 16)) (hexDigit (n / 256 % 16)) (hexDigit (n / 16 % 16))
      (hexDigit (n % 16)) = some n := by
  have hdigit : ∀ m, hexValue? (hexDigit (m % 16)) = some (m % 16) :=
    fun m => hexValue?_hexDigit (Nat.mod_lt m (by decide))
  simp only [hexQuad?, hdigit]
  change some _ = some n
  congr 1
  omega

end Text

namespace Json

-- The characters with an escape of their own.
def special : List CodePoint := ['"', '\\', '\n', '\r', '\t', '\x0c', '\x08']

-- What a code point is written as: itself, its number, or the numbers of two surrogates.
def unitsOf (c : CodePoint) : List StringUnit :=
  if c ∈ special ∨ 32 ≤ c.toNat ∧ c.toNat < 127 then [.plain c]
  else if c.toNat < 0x10000 then [.escape c.toNat]
  else
    [.escape (0xD800 + (c.toNat - 0x10000) / 0x400), .escape (0xDC00 + (c.toNat - 0x10000) % 0x400)]

theorem stringUnits_unitEscape {n : Nat} (h : n < 65536) (rest : List CodePoint) :
    stringUnits (unitEscape n ++ rest) = (stringUnits rest).map fun r => (.escape n :: r.1, r.2) := by
  rw [unitEscape, Text.hex_four]
  simp only [List.cons_append, List.nil_append, stringUnits, Text.hexQuad?_hexDigit h]
  cases stringUnits rest <;> rfl

-- The two-character escapes.
theorem stringUnits_escape {c d : CodePoint} (hc : c ≠ 'u') (hd : simpleEscape? c = some d)
    (rest : List CodePoint) :
    stringUnits ('\\' :: c :: rest) = (stringUnits rest).map fun r => (.plain d :: r.1, r.2) := by
  rw [stringUnits.eq_4 _ _ (fun _ _ _ _ _ h _ => hc h), hd]
  cases stringUnits rest <;> rfl

-- The characters that stand for themselves.
theorem stringUnits_plain {c : CodePoint} (hlow : 32 ≤ c.toNat) (hquote : c ≠ '"') (hslash : c ≠ '\\')
    (rest : List CodePoint) :
    stringUnits (c :: rest) = (stringUnits rest).map fun r => (.plain c :: r.1, r.2) := by
  rw [stringUnits.eq_5 _ _ hquote (fun _ _ _ _ _ h _ => hslash h) (fun _ _ h _ => hslash h)]
  rw [if_neg (by simp [hslash]; omega)]
  cases stringUnits rest <;> rfl

theorem stringUnits_special {c : CodePoint} (hc : c ∈ special) (rest : List CodePoint) :
    stringUnits (escapeChar c ++ rest) = (stringUnits rest).map fun r => (.plain c :: r.1, r.2) := by
  simp only [special, List.mem_cons, List.not_mem_nil, or_false] at hc
  rcases hc with rfl | rfl | rfl | rfl | rfl | rfl | rfl
  · exact stringUnits_escape (c := '"') (by decide) rfl rest
  · exact stringUnits_escape (c := '\\') (by decide) rfl rest
  · exact stringUnits_escape (c := 'n') (by decide) rfl rest
  · exact stringUnits_escape (c := 'r') (by decide) rfl rest
  · exact stringUnits_escape (c := 't') (by decide) rfl rest
  · exact stringUnits_escape (c := 'f') (by decide) rfl rest
  · exact stringUnits_escape (c := 'b') (by decide) rfl rest

theorem not_special_of_le {c : CodePoint} (h : 127 ≤ c.toNat) : c ∉ special := by
  simp only [special, List.mem_cons, List.not_mem_nil, or_false]
  rintro (rfl | rfl | rfl | rfl | rfl | rfl | rfl) <;> exact absurd h (by decide)

theorem escapeChar_of_not_special {c : CodePoint} (hc : c ∉ special) :
    escapeChar c =
      if 32 ≤ c.toNat ∧ c.toNat < 127 then [c]
      else if c.toNat < 0x10000 then unitEscape c.toNat
      else unitEscape (0xD800 + (c.toNat - 0x10000) / 0x400) ++
        unitEscape (0xDC00 + (c.toNat - 0x10000) % 0x400) := by
  simp only [special, List.mem_cons, List.not_mem_nil, or_false, not_or] at hc
  simp [escapeChar, hc]

-- A code point is read as it was written.
theorem stringUnits_escapeChar (c : CodePoint) (rest : List CodePoint) :
    stringUnits (escapeChar c ++ rest) =
      (stringUnits rest).map fun r => (unitsOf c ++ r.1, r.2) := by
  by_cases hspecial : c ∈ special
  · rw [unitsOf, if_pos (.inl hspecial)]
    exact stringUnits_special hspecial rest
  · have hquote : c ≠ '"' := fun h => hspecial (h ▸ by decide)
    have hslash : c ≠ '\\' := fun h => hspecial (h ▸ by decide)
    have hlt := c.toNat_lt
    simp only [escapeChar_of_not_special hspecial, unitsOf, hspecial, false_or]
    split_ifs with hprinted hbasic
    · exact stringUnits_plain hprinted.1 hquote hslash rest
    · exact stringUnits_unitEscape hbasic rest
    · rw [List.append_assoc, stringUnits_unitEscape (by omega), stringUnits_unitEscape (by omega),
        Option.map_map]
      rfl

-- The code points of a string up to its closing quote.
theorem stringUnits_flatMap (cs rest : List CodePoint) :
    stringUnits (cs.flatMap escapeChar ++ char '"' :: rest) = some (cs.flatMap unitsOf, rest) := by
  induction cs with
  | nil => rfl
  | cons c cs ih =>
      rw [List.flatMap_cons, List.append_assoc, stringUnits_escapeChar, ih]
      rfl

-- Whether two code points are the surrogates of a pair.
def IsPair (c d : CodePoint) : Prop :=
  isHighSurrogate c.toNat = true ∧ isLowSurrogate d.toNat = true

instance (c d : CodePoint) : Decidable (IsPair c d) := inferInstanceAs (Decidable (_ ∧ _))

theorem isPair_iff {c d : CodePoint} :
    IsPair c d ↔ (0xD800 ≤ c.toNat ∧ c.toNat < 0xDC00) ∧ 0xDC00 ≤ d.toNat ∧ d.toNat < 0xE000 := by
  simp [IsPair, isHighSurrogate, isLowSurrogate]

-- What is read for code points that were written: two surrogates that make a pair are the character
-- they stand for.
def joinPairs : List CodePoint → List CodePoint
  | c :: d :: rest =>
    if IsPair c d then CodePoint.ofNat (joinSurrogates c.toNat d.toNat) :: joinPairs rest
    else c :: joinPairs (d :: rest)
  | [c] => [c]
  | [] => []

-- What a code point is written as begins with a low surrogate only if the code point is one.
theorem isLowSurrogate_of_unitsOf {c : CodePoint} {n : Nat} {units : List StringUnit}
    (h : (unitsOf c ++ units).head? = some (.escape n)) (hn : isLowSurrogate n = true) :
    n = c.toNat := by
  have hlt := c.toNat_lt
  unfold unitsOf at h
  split_ifs at h with hplain hbasic
  · cases h
  · simpa using h.symm
  · simp only [List.cons_append, List.head?_cons, Option.some.injEq, StringUnit.escape.injEq] at h
    simp only [isLowSurrogate, Bool.and_eq_true, decide_eq_true_eq] at hn
    omega

-- A code point comes back from what it was written as, unless it makes a pair with what follows.
theorem codePointsOfUnits_unitsOf {c : CodePoint} {units : List StringUnit}
    (h : ∀ n, units.head? = some (.escape n) → isHighSurrogate c.toNat = true →
      isLowSurrogate n = false) :
    codePointsOfUnits (unitsOf c ++ units) = c :: codePointsOfUnits units := by
  have hlt := c.toNat_lt
  unfold unitsOf
  split_ifs with hplain hbasic
  · rw [List.singleton_append, codePointsOfUnits]
  · rw [List.singleton_append]
    match units, h with
    | [], _ => rw [codePointsOfUnits, CodePoint.ofNat_toNat]; simp
    | .plain d :: units, _ => rw [codePointsOfUnits, CodePoint.ofNat_toNat]; simp
    | .escape n :: units, h =>
        have hnone : (isHighSurrogate c.toNat && isLowSurrogate n) = false := by
          cases hhigh : isHighSurrogate c.toNat with
          | false => rfl
          | true => exact h n rfl hhigh
        rw [codePointsOfUnits, hnone, if_neg (by decide), CodePoint.ofNat_toNat]
  · generalize hhigh : 0xD800 + (c.toNat - 0x10000) / 0x400 = high
    generalize hlow : 0xDC00 + (c.toNat - 0x10000) % 0x400 = low
    have hpair : (isHighSurrogate high && isLowSurrogate low) = true := by
      simp only [isHighSurrogate, isLowSurrogate, Bool.and_eq_true, decide_eq_true_eq]
      omega
    have hjoin : joinSurrogates high low = c.toNat := by
      unfold joinSurrogates
      omega
    rw [List.cons_append, List.singleton_append, codePointsOfUnits, if_pos hpair, hjoin,
      CodePoint.ofNat_toNat]

-- Surrogates are written by their numbers.
theorem unitsOf_surrogate {c : CodePoint} (h : 0xD800 ≤ c.toNat ∧ c.toNat < 0xE000) :
    unitsOf c = [.escape c.toNat] := by
  have hspecial := not_special_of_le (c := c) (by omega)
  rw [unitsOf, if_neg (by simp [hspecial]; omega), if_pos (by omega)]

theorem codePointsOfUnits_flatMap (cs : List CodePoint) :
    codePointsOfUnits (cs.flatMap unitsOf) = joinPairs cs := by
  induction cs using joinPairs.induct with
  | case1 c d rest hpair ih =>
      obtain ⟨hc, hd⟩ := isPair_iff.mp hpair
      rw [joinPairs, if_pos hpair, List.flatMap_cons, List.flatMap_cons, unitsOf_surrogate (by omega),
        unitsOf_surrogate (by omega)]
      simp only [List.cons_append, List.nil_append, codePointsOfUnits, hpair.1, hpair.2, Bool.and_self,
        if_true, ih]
  | case2 c d rest hpair ih =>
      rw [joinPairs, if_neg hpair, List.flatMap_cons, codePointsOfUnits_unitsOf, ih]
      intro n hn hhigh
      rw [List.flatMap_cons] at hn
      rw [← Bool.not_eq_true]
      intro hlow
      exact hpair ⟨hhigh, isLowSurrogate_of_unitsOf hn hlow ▸ hlow⟩
  | case3 c =>
      rw [joinPairs, List.flatMap_cons, List.flatMap_nil, codePointsOfUnits_unitsOf (by simp)]
      rfl
  | case4 => rfl

end Json

-- The text that is read for a text.
def Text.merged (t : Text) : Text := ⟨Json.joinPairs t.toList⟩

namespace Json

-- A string is read as it was written, with its pairs merged.
theorem readString_writeString (s : Text) (rest : List CodePoint) :
    readString (s.toList.flatMap escapeChar ++ char '"' :: rest) = .ok (s.merged, rest) := by
  rw [readString, stringUnits_flatMap]
  change Except.ok (Text.ofList (codePointsOfUnits (s.toList.flatMap unitsOf)), rest) = _
  rw [codePointsOfUnits_flatMap]
  rfl

-- The characters after which a whole number does not go on.
def Closes (rest : List CodePoint) : Prop :=
  ∀ c ∈ rest.head?, c.isDigit = false ∧ c ≠ '.' ∧ c ≠ 'e' ∧ c ≠ 'E'

namespace Closes

variable {rest : List CodePoint}

theorem takeWhile_isDigit (h : Closes rest) : rest.takeWhile CodePoint.isDigit = [] := by
  cases rest with
  | nil => rfl
  | cons c rest => rw [List.takeWhile_cons_of_neg (by simp [h c rfl])]

theorem dropWhile_isDigit (h : Closes rest) : rest.dropWhile CodePoint.isDigit = rest := by
  cases rest with
  | nil => rfl
  | cons c rest => rw [List.dropWhile_cons_of_neg (by simp [h c rfl])]

theorem fractionPart (h : Closes rest) : Json.fractionPart rest = ([], rest) := by
  cases rest with
  | nil => rfl
  | cons c rest => exact Json.fractionPart.eq_2 _ fun r hr => (h c rfl).2.1 (List.cons.inj hr).1

theorem exponentPart (h : Closes rest) : Json.exponentPart rest = (none, rest) := by
  cases rest with
  | nil => rfl
  | cons c rest => simp [Json.exponentPart, (h c rfl).2.2]

end Closes

-- The digits of a number.
def decimal (n : Nat) : List CodePoint := (Nat.toDigits 10 n).map .char

theorem isDigit_of_mem_decimal {n : Nat} {d : CodePoint} (h : d ∈ decimal n) : d.isDigit = true := by
  obtain ⟨c, hc, rfl⟩ := List.mem_map.mp h
  have hdigit := Nat.isDigit_of_mem_toDigits (by decide) (by decide) hc
  exact CodePoint.isDigit_iff_toNat.mpr (Char.isDigit_iff_toNat.mp hdigit)

theorem decimal_ne_nil {n : Nat} : decimal n ≠ [] := by
  simp [decimal, Nat.toDigits_ne_nil]

theorem decimal_of_lt {n : Nat} (h : n < 10) : decimal n = [char (Nat.digitChar n)] := by
  rw [decimal, Nat.toDigits_of_lt_base h, List.map_singleton]

theorem decimal_of_le {n : Nat} (h : 10 ≤ n) :
    decimal n = decimal (n / 10) ++ [char (Nat.digitChar (n % 10))] := by
  rw [decimal, Nat.toDigits_of_base_le (by decide) h, List.map_append, List.map_singleton, decimal]

theorem length_decimal_le_iff {n k : Nat} (hk : 0 < k) : (decimal n).length ≤ k ↔ n < 10 ^ k := by
  rw [decimal, List.length_map, Nat.length_toDigits_le_iff (by decide) hk]

theorem natOfDigits_decimal (n : Nat) : natOfDigits (decimal n) = n := by
  have hstep : (fun (n : Nat) (c : Char) => n * 10 + ((char c).toNat - 48)) =
      fun n c => 10 * n + (c.toNat - '0'.toNat) := by
    funext n c
    rw [Nat.mul_comm]
    rfl
  rw [natOfDigits, decimal, List.foldl_map, hstep]
  exact Nat.ofDigitChars_toDigits (by decide) (by decide)

-- The digits of a number begin with a zero only if it is zero.
theorem decimal_eq_zero_cons {n : Nat} {ds : List CodePoint} (h : decimal n = char '0' :: ds) :
    ds = [] := by
  induction n using Nat.strong_induction_on generalizing ds with
  | _ n ih =>
      rcases Nat.lt_or_ge n 10 with hsmall | hlarge
      · rw [decimal_of_lt hsmall] at h
        exact (List.cons.inj h).2.symm
      · rw [decimal_of_le hlarge] at h
        have hq : 0 < n / 10 := Nat.div_pos hlarge (by decide)
        cases hd : decimal (n / 10) with
        | nil => exact absurd hd decimal_ne_nil
        | cons d ds' =>
            rw [hd, List.cons_append] at h
            obtain ⟨rfl, -⟩ := List.cons.inj h
            have hnil := ih (n / 10) (Nat.div_lt_self (by omega) (by decide)) hd
            rw [hnil] at hd
            have hzero := natOfDigits_decimal (n / 10)
            rw [hd] at hzero
            change 0 = n / 10 at hzero
            omega

theorem wholePart_decimal (n : Nat) {rest : List CodePoint} (h : Closes rest) :
    wholePart (decimal n ++ rest) = some (decimal n, rest) := by
  have hdigits : ∀ d ∈ decimal n, d.isDigit = true := fun _ => isDigit_of_mem_decimal
  have htake : (decimal n ++ rest).takeWhile CodePoint.isDigit = decimal n := by
    rw [List.takeWhile_append_of_pos hdigits, h.takeWhile_isDigit, List.append_nil]
  have hdrop : (decimal n ++ rest).dropWhile CodePoint.isDigit = rest := by
    rw [List.dropWhile_append_of_pos hdigits, h.dropWhile_isDigit]
  cases hd : decimal n with
  | nil => exact absurd hd decimal_ne_nil
  | cons d ds =>
      rw [hd] at htake hdrop
      by_cases hzero : d = '0'
      · obtain rfl := hzero
        obtain rfl := decimal_eq_zero_cons hd
        rfl
      · rw [List.cons_append] at htake hdrop ⊢
        rw [wholePart.eq_2 _ (fun r hr => hzero (List.cons.inj hr).1), htake, hdrop]

theorem number_decimal (negative : Bool) (n : Nat) {rest : List CodePoint} (hn : n < 10 ^ mostDigits)
    (h : Closes rest) :
    number negative (decimal n ++ rest) =
      .ok (.int (if negative then -n else n), rest) := by
  have hlength : ¬ mostDigits < (decimal n).length :=
    Nat.not_lt.mpr ((length_decimal_le_iff (by decide)).mpr hn)
  rw [number, wholePart_decimal n h]
  simp only [orMalformed, Option.elim, pure, Except.pure, bind, Except.bind, h.fractionPart,
    h.exponentPart]
  rw [List.append_nil, natOfDigits_decimal, if_neg hlength]

end Json

end GoCompact
