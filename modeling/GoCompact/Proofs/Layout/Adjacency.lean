import GoCompact.Proofs.Document.Declared
import GoCompact.Proofs.Layout.Placement
import GoCompact.Proofs.Layout.Seams
import GoCompact.Proofs.Lexing.Steps

namespace GoCompact

namespace Operator

-- The lengths at which a text is looked at, the longest first.
def lengths : Nat → List Nat
  | 0 => []
  | n + 1 => (n + 1) :: lengths n

-- A beginning of a text that is shorter than it should be is the whole text, and is looked at again at
-- its own length.
theorem found_eq (cs : List CodePoint) (n : Nat) :
    Text.ofList ((((lengths n).find? fun n => (cs.take n).length == n &&
        (ofSpelling? (Text.ofList (cs.take n))).isSome).map cs.take).getD []) =
      match (lengths n).findSome? fun n => ofSpelling? (Text.ofList (cs.take n)) with
      | some o => o.spelling
      | none => "" := by
  have hempty : ofSpelling? (Text.ofList []) = none := by decide
  induction n with
  | zero => rfl
  | succ n ih =>
      rw [lengths, List.find?_cons, List.findSome?_cons]
      cases h : ofSpelling? (Text.ofList (cs.take (n + 1))) with
      | none => simpa using ih
      | some o =>
          rcases Nat.lt_or_ge n cs.length with hlength | hlength
          · rw [List.length_take, Nat.min_eq_left hlength]
            simpa using (spelling_of_ofSpelling? h).symm
          · have hshort : ((cs.take (n + 1)).length == n + 1) = false := by
              rw [List.length_take, beq_eq_false_iff_ne]
              omega
            rw [hshort, Bool.false_and]
            dsimp only
            rw [ih]
            rw [List.take_of_length_le (by omega)] at h
            cases n with
            | zero =>
                rw [List.eq_nil_of_length_eq_zero (Nat.le_zero.mp hlength), hempty] at h
                cases h
            | succ n => rw [lengths, List.findSome?_cons, List.take_of_length_le hlength, h]

end Operator

-- The punctuation at the beginning of a text.
theorem punctuationAt_zero (cs : List CodePoint) : punctuationAt cs 0 = punctuation cs := by
  have hslice : ∀ n : Nat, Text.slice cs 0 (0 + (n : Int)) = cs.take n := by
    intro n
    have hposition : Text.position cs.length (n : Int) = n := by
      rw [Text.position, if_neg (by omega), Int.toNat_natCast]
    rw [Int.zero_add, Text.slice, hposition]
    rfl
  have hstart : cs.drop (Text.position cs.length 0) = cs := rfl
  simp only [punctuationAt, punctuation, hslice, hstart]
  split
  · rfl
  · exact Operator.found_eq cs 3

namespace Lexer

variable {s : Lexer} {t : Token}

-- A token that is drawn is given where the lexer stood.
theorem given_of_draw {n : Nat} (h : t ∈ (s.draw n).tokens) : ∃ r r', Given r t r' := by
  induction n generalizing s with
  | zero => simp [draw] at h
  | succ n ih =>
      unfold draw at h
      cases hnext : s.next with
      | error d => simp [hnext] at h
      | ok p =>
          obtain ⟨u, s'⟩ := p
          obtain ⟨gaps, rest, hsteps⟩ := next_cases hnext
          have hmem : t = u ∨ t ∈ (s'.draw n).tokens := by
            simp only [hnext] at h
            split at h
            · exact Or.inl (List.mem_singleton.mp h)
            · exact List.mem_cons.mp h
          rcases hmem with rfl | hmem
          · exact ⟨_, _, hsteps.given⟩
          · exact ih hmem

end Lexer

namespace Lexeme

-- A lexeme that is read from some source.
def Occurs (l : Lexeme) : Prop :=
  ∃ source file n, ∃ t ∈ ((Lexer.new source file).draw n).tokens, t.toLexeme = l

theorem Occurs.head {l : Lexeme} (h : l.Occurs) (hkind : l.kind.isLiteral = true) :
    ∀ d ∈ l.text.toList.head?, d = '.' ∨ d ∉ Operator.joiners := by
  obtain ⟨source, file, n, t, ht, rfl⟩ := h
  obtain ⟨r, r', hgiven⟩ := Lexer.given_of_draw ht
  cases hgiven with
  | inserted => cases hkind
  | insertedLast => cases hkind
  | ending => cases hkind
  | @scanned c cs scan hrest hgap hscan =>
      intro d hd
      have hd : d ∈ scan.text.head? := by
        change d ∈ (Text.ofList scan.text).toList.head? at hd
        rwa [Text.toList_ofList] at hd
      obtain ⟨tail, htext⟩ := List.head?_eq_some_iff.mp hd
      have happend := Scan.eq_of_token hscan
      rw [htext] at happend
      obtain ⟨rfl, -⟩ := List.cons.inj happend
      exact Scan.head_of_token hscan hkind

end Lexeme

namespace Tree

open Emission

-- A tree and its parts, those of its parts included.
inductive Within : Tree → Tree → Prop
  | self {t : Tree} : Within t t
  | field {t u place : Tree} {k : NodeKind} {fields : List Tree} (hu : u ∈ fields)
      (h : Within t u) : Within t (.node k place fields)
  | member {t u : Tree} {items : List Tree} (hu : u ∈ items) (h : Within t u) :
      Within t (.tuple items)

@[simp]
theorem within_node_iff {t place : Tree} {k : NodeKind} {fields : List Tree} :
    Within t (.node k place fields) ↔ t = .node k place fields ∨ ∃ u ∈ fields, Within t u := by
  refine ⟨fun h => ?_, ?_⟩
  · cases h with
    | self => exact Or.inl rfl
    | field hu h => exact Or.inr ⟨_, hu, h⟩
  · rintro (rfl | ⟨u, hu, h⟩)
    · exact .self
    · exact .field hu h

@[simp]
theorem within_datum_iff {t : Tree} {v : Json} : Within t (.datum v) ↔ t = .datum v := by
  refine ⟨fun h => ?_, ?_⟩
  · cases h with
    | self => rfl
  · rintro rfl
    exact .self

-- The operators that an expression with one operand is written with.
def signs : List Operator := [.Add, .Sub, .Not, .Xor, .And, .Arrow, .Tilde]

-- Names and literals hold the text of such tokens, and the operators before operands are signs.
structure Spelled (y : Tree) : Prop where
  name : ∀ p s, Within (.ident p (.text s)) y → s ≠ "" ∧ Lexeme.Occurs ⟨.ident, s⟩
  literal : ∀ p k s, Within (.basicLit p k (.text s)) y →
    s ≠ "" ∧ ∃ kind, Lexeme.Occurs ⟨.literal kind, s⟩
  sign : ∀ p k x, Within (.unary p (.token k) x) y → ∃ o ∈ signs, k = .op o

theorem Spelled.part {y u : Tree} (h : y.Spelled) (hu : ∀ t, Within t u → Within t y) : u.Spelled :=
  ⟨fun p s hs => h.name p s (hu _ hs), fun p k s hs => h.literal p k s (hu _ hs),
    fun p k x hs => h.sign p k x (hu _ hs)⟩

-- The first character of an expression: that of the operator it begins with, or one that goes on with
-- no operator but a point.
def FirstChar (y : Tree) (d : CodePoint) : Prop :=
  (∃ p : Operator, y.leadingOperator? = some p.spelling ∧ d = p.head) ∨
    (y.leadingOperator? = none ∧ (d = '.' ∨ d ∉ Operator.joiners))

-- What is written for an expression, if all of it is, begins as the tree tells.
def Leads (y : Tree) (e : Emission) : Prop :=
  e.fault = none → ∃ d ∈ e.text.toList.head?, y.FirstChar d

variable {x y : Tree} {e rest : Emission} {d : CodePoint}

theorem Leads.append (h : y.Leads e) : y.Leads (e ++ rest) := by
  intro hfault
  have hnone := fault_of_append hfault
  obtain ⟨d, hd, hbegins⟩ := h hnone
  refine ⟨d, ?_, hbegins⟩
  rw [Emission.text, writes_append hnone, Text.join_append, Text.toList_append,
    List.head?_append, ← Emission.text, Option.mem_def.mp hd]
  rfl

theorem Leads.congr (h : x.Leads e) (heq : y.leadingOperator? = x.leadingOperator?) : y.Leads e := by
  intro hfault
  obtain ⟨d, hd, hbegins⟩ := h hfault
  refine ⟨d, hd, ?_⟩
  rwa [FirstChar, heq]

theorem leads_write {s : Text} (hd : d ∈ s.toList.head?) (h : y.FirstChar d) : y.Leads (write s) := by
  intro _
  refine ⟨d, ?_, h⟩
  rw [Emission.text, writes_write]
  simpa [Text.join] using hd

theorem leads_operator (o : Operator) (h : y.leadingOperator? = some o.spelling) :
    y.Leads (write o.spelling) :=
  leads_write o.head?_spelling (Or.inl ⟨o, h, rfl⟩)

-- A text that does not begin with a character that operators go on with.
theorem leads_plain {s : Text} (h : y.leadingOperator? = none)
    (hs : s.toList.head?.any (fun d : CodePoint => d == '.' || !Operator.joiners.contains d) = true) :
    y.Leads (write s) := by
  cases hd : s.toList.head? with
  | none => simp [hd] at hs
  | some d => exact leads_write hd (Or.inr ⟨h, by simpa [hd] using hs⟩)

theorem leads_lexeme {s : Text} {kind : TokenKind} (h : y.leadingOperator? = none) (hne : s ≠ "")
    (hs : Lexeme.Occurs ⟨kind, s⟩) (hkind : kind.isLiteral = true) : y.Leads (write s) := by
  cases hcs : s.toList with
  | nil => exact absurd (Text.toList_eq_nil_iff.mp hcs) hne
  | cons d cs =>
      have hd : d ∈ s.toList.head? := by rw [hcs]; rfl
      exact leads_write hd (Or.inr ⟨h, hs.head hkind d hd⟩)

-- The rest of an expression follows the part that is written first.
theorem Leads.after (h : x.Leads e) (heq : y.leadingOperator? = x.leadingOperator?) :
    y.Leads (e ++ rest) :=
  (h.congr heq).append

theorem leads_signature {params results typeParams : Tree} {c : NodeClass}
    (h : y.leadingOperator? = none) (hparams : (Slot.optional c).Holds typeParams) :
    y.Leads (emittedSignature params results typeParams) := by
  have hopen : y.Leads (typeParams.emittedIf (operator .LBrack ++
      typeParams.emittedAs (.fieldList ",") ++ operator .RBrack) ++ operator .LParen) := by
    cases hparams with
    | none => exact leads_plain (s := "(") h (by decide)
    | some hone =>
        cases hone with
        | one => exact (leads_plain (s := "[") h (by decide)).append.append.append
  exact hopen.append.append.append

section Holds

variable {p params results typeParams keyword typ elts op dir value name kind : Tree}

-- A literal begins as its type does, or with a brace.
theorem leads_compositeLit (h : (Slot.optional .expression).Holds typ)
    (htyp : typ.isAbsent = false → typ.Leads (typ.emittedAs .expression)) :
    (Tree.compositeLit p typ elts).Leads ((Tree.compositeLit p typ elts).emittedAs .expression) := by
  change Leads _ (typ.emittedIf (typ.emittedAs .expression) ++ _ ++ _ ++ _)
  cases h with
  | none => exact (leads_plain (s := "\x7b") rfl (by decide)).append.append
  | some h =>
      cases h with
      | one hkind =>
          refine ((htyp rfl).after ?_).append.append
          rw [leadingOperator?_compositeLit]
          exact if_pos hkind

theorem leads_unary (h : Slot.token.Holds op) (hs : (Tree.unary p op x).Spelled) :
    (Tree.unary p op x).Leads ((Tree.unary p op x).emittedAs .expression) := by
  cases h with
  | token =>
      obtain ⟨o, -, rfl⟩ := hs.sign _ _ _ .self
      exact (leads_operator o rfl).append.append

-- Without a direction nothing is written.
theorem leads_chanType (h : Slot.direction.Holds dir) :
    (Tree.chanType p dir value).Leads ((Tree.chanType p dir value).emittedAs .expression) := by
  cases h with
  | @direction d =>
      cases d with
      | neither =>
          intro hfault
          exact absurd (show some RenderFault.noSuchEntry = none from hfault) (by simp)
      | both => exact (leads_plain (s := "chan ") rfl (by decide)).append
      | send => exact (leads_plain (s := "chan<- ") rfl (by decide)).append
      | receive =>
          refine Leads.append (leads_write (s := "<-chan ") (d := '<') rfl ?_)
          exact Or.inl ⟨.Arrow, rfl, rfl⟩

theorem leads_funcType {c : NodeClass} (h : Slot.flag.Holds keyword)
    (hparams : (Slot.optional c).Holds typeParams) :
    (Tree.funcType p params results typeParams keyword).Leads
      ((Tree.funcType p params results typeParams keyword).emittedAs .expression) := by
  cases h with
  | @flag b =>
      rw [emitted_funcType]
      cases b with
      | true => exact (leads_plain (s := "func") rfl (by decide)).append
      | false => exact leads_signature rfl hparams

theorem leads_ident (h : Slot.text.Holds name) (hs : (Tree.ident p name).Spelled) :
    (Tree.ident p name).Leads ((Tree.ident p name).emittedAs .expression) := by
  cases h with
  | text =>
      obtain ⟨hne, hoccurs⟩ := hs.name _ _ .self
      exact leads_lexeme rfl hne hoccurs rfl

theorem leads_basicLit (h : Slot.text.Holds value) (hs : (Tree.basicLit p kind value).Spelled) :
    (Tree.basicLit p kind value).Leads ((Tree.basicLit p kind value).emittedAs .expression) := by
  cases h with
  | text =>
      obtain ⟨hne, literal, hoccurs⟩ := hs.literal _ _ _ .self
      exact leads_lexeme rfl hne hoccurs (by cases literal <;> rfl)

end Holds

theorem leads_of_holds {slot : Slot} (h : slot.Holds y)
    (hslot : slot = .one .expression ∨ (slot = .optional .expression ∧ y.isAbsent = false))
    (hs : y.Spelled) : y.Leads (y.emittedAs .expression) := by
  induction h with
  | text | flag | token | noToken | someToken | direction | many => simp at hslot
  | none => simp [isAbsent] at hslot
  | @some c t _ ih =>
      have hclass : c = .expression ∧ t.isAbsent = false := by simpa using hslot
      exact ih (Or.inl (congrArg Slot.one hclass.1)) hs
  | @one c k l fields hkind _ hlength hfields ih =>
      obtain rfl : c = .expression := by simpa using hslot
      have hparts : ∀ u ∈ fields, u.Spelled := fun u hu => hs.part fun t ht => .field hu ht
      cases k <;> try exact absurd hkind (by decide)
      -- what is written first is the first part
      case BinaryExpr =>
        obtain ⟨x, op, y, rfl⟩ := List.length_eq_three.mp hlength
        have hx := ih _ (.head _) (Or.inl rfl) (hparts x (by simp))
        change Leads _ (x.emittedAs (.operand _))
        rw [emitted_operand]
        exact hx.after rfl
      case SelectorExpr =>
        obtain ⟨x, sel, rfl⟩ := List.length_eq_two.mp hlength
        have hx := ih _ (.head _) (Or.inl rfl) (hparts x (by simp))
        exact (hx.after rfl).append
      case IndexExpr =>
        obtain ⟨x, indices, rfl⟩ := List.length_eq_two.mp hlength
        have hx := ih _ (.head _) (Or.inl rfl) (hparts x (by simp))
        exact (hx.after rfl).append.append
      case SliceExpr =>
        obtain ⟨x, bounds, rfl⟩ := List.exists_cons_of_length_eq_add_one hlength
        obtain ⟨low, high, max, rfl⟩ := List.length_eq_three.mp (Nat.succ.inj hlength)
        have hx := ih _ (.head _) (Or.inl rfl) (hparts x (by simp))
        exact (hx.after rfl).append.append.append.append.append
      case TypeAssertExpr =>
        obtain ⟨x, typ, rfl⟩ := List.length_eq_two.mp hlength
        have hx := ih _ (.head _) (Or.inl rfl) (hparts x (by simp))
        exact (hx.after rfl).append.append
      case CallExpr =>
        obtain ⟨x, args, spread, rfl⟩ := List.length_eq_three.mp hlength
        have hx := ih _ (.head _) (Or.inl rfl) (hparts x (by simp))
        exact (hx.after rfl).append.append.append
      case KeyValueExpr =>
        obtain ⟨key, value, rfl⟩ := List.length_eq_two.mp hlength
        have hkey := ih _ (.head _) (Or.inl rfl) (hparts key (by simp))
        exact (hkey.after rfl).append
      case CompositeLit =>
        obtain ⟨typ, elts, rfl⟩ := List.length_eq_two.mp hlength
        exact leads_compositeLit (hfields _ (.head _)) fun habsent =>
          ih _ (.head _) (Or.inr ⟨rfl, habsent⟩) (hparts typ (by simp))
      -- what is written first is the operator
      case UnaryExpr =>
        obtain ⟨op, x, rfl⟩ := List.length_eq_two.mp hlength
        exact leads_unary (hfields _ (.head _)) hs
      case StarExpr =>
        obtain ⟨x, rfl⟩ := List.length_eq_one_iff.mp hlength
        exact (leads_operator .Mul rfl).append.append
      case ChanType =>
        obtain ⟨dir, value, rfl⟩ := List.length_eq_two.mp hlength
        exact leads_chanType (hfields _ (.head _))
      -- what is written first is a name, a literal, a keyword or a bracket
      case Ident =>
        obtain ⟨name, rfl⟩ := List.length_eq_one_iff.mp hlength
        exact leads_ident (hfields _ (.head _)) hs
      case BasicLit =>
        obtain ⟨kind, value, rfl⟩ := List.length_eq_two.mp hlength
        exact leads_basicLit (hfields _ (.tail _ (.head _))) hs
      case FuncType =>
        obtain ⟨params, rest, rfl⟩ := List.exists_cons_of_length_eq_add_one hlength
        obtain ⟨results, typeParams, keyword, rfl⟩ := List.length_eq_three.mp (Nat.succ.inj hlength)
        exact leads_funcType (hfields _ (.tail _ (.tail _ (.tail _ (.head _)))))
          (hfields _ (.tail _ (.tail _ (.head _))))
      case Ellipsis =>
        obtain ⟨elt, rfl⟩ := List.length_eq_one_iff.mp hlength
        exact (leads_plain (s := "...") rfl (by decide)).append
      case ParenExpr =>
        obtain ⟨x, rfl⟩ := List.length_eq_one_iff.mp hlength
        exact (leads_plain (s := "(") rfl (by decide)).append.append
      case FuncLit =>
        obtain ⟨typ, body, rfl⟩ := List.length_eq_two.mp hlength
        exact (leads_plain (s := "func") rfl (by decide)).append.append
      case ArrayType =>
        obtain ⟨len, elt, rfl⟩ := List.length_eq_two.mp hlength
        exact (leads_plain (s := "[") rfl (by decide)).append.append.append
      case MapType =>
        obtain ⟨key, value, rfl⟩ := List.length_eq_two.mp hlength
        exact (leads_plain (s := "map[") rfl (by decide)).append.append.append
      case StructType =>
        obtain ⟨list, rfl⟩ := List.length_eq_one_iff.mp hlength
        exact (leads_plain (s := "struct\x7b") rfl (by decide)).append.append
      case InterfaceType =>
        obtain ⟨list, rfl⟩ := List.length_eq_one_iff.mp hlength
        exact (leads_plain (s := "interface\x7b") rfl (by decide)).append.append

theorem emission_of_holds (h : (Slot.one .expression).Holds y) :
    y.emission = y.emittedAs .expression := by
  cases h with
  | @one _ k _ _ hkind =>
      cases k <;> first | rfl | exact absurd hkind (by decide)

-- Between an operator and an expression that is written a blank is needed exactly if the operator,
-- directly before the text of the expression, is read as something else.
theorem needsBlank_iff {text : Text} {o : Operator} (hy : (Slot.one .expression).Holds y)
    (hs : y.Spelled) (htext : y.render = .ok text) (ho : o ≠ .Period) :
    y.needsBlank o.spelling = true ↔
      punctuationAt (o.spelling.toList ++ text.toList) 0 ≠ o.spelling := by
  rw [render, emission_of_holds hy] at htext
  split at htext
  · rename_i hfault
    obtain rfl := Except.ok.inj htext
    obtain ⟨d, hd, hbegins⟩ := leads_of_holds hy (Or.inl rfl) hs hfault
    obtain ⟨tail, hcs⟩ := List.head?_eq_some_iff.mp hd
    rw [punctuationAt_zero, hcs, Ne, punctuation_append_iff ho, Bool.not_eq_false]
    rcases hbegins with ⟨p, hlead, rfl⟩ | ⟨hlead, hplain⟩
    · rw [needsBlank, hlead, Option.any_some, fuses_eq_joins ho p.head?_spelling]
    · have hnot : o.joins d = false := by
        rcases hplain with rfl | hplain
        · exact Operator.joins_point ho
        · by_contra hjoins
          exact hplain (Operator.mem_joiners (by simpa using hjoins))
      rw [needsBlank, hlead, hnot]
      simp
  · cases htext

-- A slash before a dereferenced name would begin a comment, and a plus sign would not.
theorem needsBlank_iff_star :
    let name (s : Text) : Tree := .ident (.location ⟨.int 1, .int 1, .int 0, .int 1, .null⟩) (.text s)
    let y : Tree := .selector (.location ⟨.int 1, .int 1, .int 0, .int 4, .null⟩)
      (.star (.location ⟨.int 1, .int 1, .int 0, .int 2, .null⟩) (name "a")) (name "b")
    y.render = .ok "*a.b" ∧ y.needsBlank Operator.Quo.spelling = true ∧
      punctuationAt (Operator.Quo.spelling.toList ++ Text.toList "*a.b") 0 ≠ Operator.Quo.spelling ∧
      y.needsBlank Operator.Add.spelling = false ∧
      punctuationAt (Operator.Add.spelling.toList ++ Text.toList "*a.b") 0 = Operator.Add.spelling := by
  intro name y
  have hname : ∀ s c, (c = .expression ∨ c = .only .Ident) → (Slot.one c).Holds (name s) :=
    fun s c hc => .one (by rcases hc with rfl | rfl <;> rfl) (.mk 1 1 0 1 none) rfl
      (List.forall_mem_singleton.mpr .text)
  have hy : (Slot.one .expression).Holds y := by
    refine .one rfl (.mk 1 1 0 4 none) rfl (List.forall_mem_cons.mpr ⟨?_, ?_⟩)
    · exact .one rfl (.mk 1 1 0 2 none) rfl
        (List.forall_mem_singleton.mpr (hname "a" _ (Or.inl rfl)))
    · exact List.forall_mem_singleton.mpr (hname "b" _ (Or.inr rfl))
  have hoccurs : ∀ s : Text, s = "a" ∨ s = "b" → s ≠ "" ∧ Lexeme.Occurs ⟨.ident, s⟩ := by
    rintro s (rfl | rfl)
    · exact ⟨by decide, "a", none, 1, _, List.mem_of_getElem? (i := 0) rfl, rfl⟩
    · exact ⟨by decide, "b", none, 1, _, List.mem_of_getElem? (i := 0) rfl, rfl⟩
  have hs : y.Spelled := by
    refine ⟨fun p s hs => hoccurs s ?_, fun p k s hs => ?_, fun p k x hs => ?_⟩ <;>
      simp [y, name] at hs
    rcases hs with ⟨-, hs⟩ | ⟨-, hs⟩
    · exact Or.inl hs
    · exact Or.inr hs
  have htext : y.render = .ok "*a.b" := rfl
  have hquo : y.needsBlank Operator.Quo.spelling = true := by decide
  have hadd : y.needsBlank Operator.Add.spelling = false := by decide
  have hplain := not_congr (needsBlank_iff (o := .Add) hy hs htext (by decide))
  rw [hadd, not_not] at hplain
  exact ⟨htext, hquo, (needsBlank_iff (o := .Quo) hy hs htext (by decide)).mp hquo, hadd,
    hplain.mp (by simp)⟩

end Tree

end GoCompact
