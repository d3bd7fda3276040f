namespace GoCompact

-- What a text is made of: characters, and surrogates. Two surrogates side by side that would make a pair
-- are still not the character that the pair stands for.
inductive CodePoint
  | char (c : Char)
  | surrogate (n : Fin 2048)
deriving DecidableEq, Repr, Inhabited

namespace CodePoint

instance : Coe Char CodePoint := ⟨.char⟩

def toNat : CodePoint → Nat
  | .char c => c.toNat
  | .surrogate n => 0xD800 + n

def ofNat (n : Nat) : CodePoint :=
  if h : 0xD800 ≤ n ∧ n < 0xE000 then .surrogate ⟨n - 0xD800, by omega⟩ else .char (Char.ofNat n)

instance : LE CodePoint := ⟨fun a b => a.toNat ≤ b.toNat⟩

instance (a b : CodePoint) : Decidable (a ≤ b) := inferInstanceAs (Decidable (a.toNat ≤ b.toNat))

-- The digits and letters of ASCII.
def isDigit (c : CodePoint) : Bool := '0' ≤ c && c ≤ '9'

def isUpper (c : CodePoint) : Bool := 'A' ≤ c && c ≤ 'Z'

def isLower (c : CodePoint) : Bool := 'a' ≤ c && c ≤ 'z'

def isAlpha (c : CodePoint) : Bool := c.isUpper || c.isLower

@[simp]
theorem toNat_char (c : Char) : (char c).toNat = c.toNat := rfl

theorem le_def {a b : CodePoint} : a ≤ b ↔ a.toNat ≤ b.toNat := Iff.rfl

theorem isDigit_iff_toNat {c : CodePoint} : c.isDigit = true ↔ 48 ≤ c.toNat ∧ c.toNat ≤ 57 := by
  simp only [isDigit, Bool.and_eq_true, decide_eq_true_eq, le_def]
  rfl

@[simp]
theorem isDigit_char {c : Char} : (char c).isDigit = c.isDigit := by
  rw [Bool.eq_iff_iff, isDigit_iff_toNat, Char.isDigit_iff_toNat]
  rfl

theorem toNat_lt (c : CodePoint) : c.toNat < 0x110000 := by
  cases c with
  | char c =>
    have h : c.toNat < 0xD800 ∨ 0xDFFF < c.toNat ∧ c.toNat < 0x110000 := c.valid
    simp only [toNat]
    omega
  | surrogate n => simp only [toNat]; omega

@[simp]
theorem ofNat_toNat (c : CodePoint) : ofNat c.toNat = c := by
  cases c with
  | char c =>
    have h : c.toNat < 0xD800 ∨ 0xDFFF < c.toNat ∧ c.toNat < 0x110000 := c.valid
    rw [toNat, ofNat, dif_neg (by omega), Char.ofNat_toNat]
  | surrogate n =>
    have h : 0xD800 ≤ 0xD800 + n.val ∧ 0xD800 + n.val < 0xE000 := by omega
    rw [toNat, ofNat, dif_pos h]
    exact congrArg surrogate (Fin.ext (Nat.add_sub_cancel_left ..))

theorem toNat_ofNat {n : Nat} (h : n < 0x110000) : (ofNat n).toNat = n := by
  unfold ofNat
  split
  · simp only [toNat]
    omega
  · have hvalid : n.isValidChar := by
      unfold Nat.isValidChar
      omega
    rw [toNat_char, Char.ofNat, dif_pos hvalid]
    rfl

end CodePoint

structure Text where
  ofList ::
  toList : List CodePoint
deriving DecidableEq, Repr, Inhabited

namespace Text

def ofString (s : String) : Text := ⟨s.toList.map .char⟩

instance : Coe String Text := ⟨ofString⟩

instance : Append Text := ⟨fun s t => ⟨s.toList ++ t.toList⟩⟩

def length (t : Text) : Nat := t.toList.length

def join (ts : List Text) : Text := ⟨(ts.map toList).flatten⟩

def intercalate (separator : Text) (ts : List Text) : Text :=
  ⟨separator.toList.intercalate (ts.map toList)⟩

variable {s t u : Text}

@[simp]
theorem toList_ofList {cs : List CodePoint} : (ofList cs).toList = cs := rfl

@[simp]
theorem ofList_toList : ofList t.toList = t := rfl

theorem length_toList : t.toList.length = t.length := rfl

theorem toList_inj : s.toList = t.toList ↔ s = t := ⟨fun h => congrArg ofList h, fun h => by rw [h]⟩

@[simp]
theorem toList_append : (s ++ t).toList = s.toList ++ t.toList := rfl

@[simp]
theorem length_append : (s ++ t).length = s.length + t.length := List.length_append

theorem append_assoc : s ++ t ++ u = s ++ (t ++ u) := congrArg ofList (List.append_assoc _ _ _)

@[simp]
theorem toList_ofString {w : String} : (ofString w).toList = w.toList.map .char := rfl

@[simp]
theorem ofString_inj {v w : String} : ofString v = ofString w ↔ v = w := by
  rw [ofString, ofString, ofList.injEq, List.map_inj_right (fun _ _ => CodePoint.char.inj),
    String.toList_inj]

@[simp]
theorem ofString_beq {v w : String} : (ofString v == ofString w) = (v == w) := by
  rw [Bool.eq_iff_iff, beq_iff_eq, beq_iff_eq, ofString_inj]

@[simp]
theorem toList_eq_nil_iff : t.toList = [] ↔ t = "" := toList_inj (t := "")

@[simp]
theorem append_empty : t ++ "" = t := congrArg ofList (List.append_nil _)

@[simp]
theorem empty_append : "" ++ t = t := rfl

@[simp]
theorem join_nil : join [] = "" := rfl

@[simp]
theorem join_cons {ts : List Text} : join (t :: ts) = t ++ join ts := rfl

theorem join_append {ts us : List Text} : join (ts ++ us) = join ts ++ join us := by
  simp only [join, List.map_append, List.flatten_append]
  rfl

theorem toList_join {ts : List Text} : (join ts).toList = ts.flatMap toList := rfl

end Text

end GoCompact
