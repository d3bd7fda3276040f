import GoCompact.Proofs.Layout.Placement
import GoCompact.Proofs.Layout.Seams

namespace GoCompact

open GoCompact.Tree Emission

-- The classes of characters that parts begin with and that may follow them.
def AnyChar (_ : CodePoint) : Prop := True

def NotEquals (d : CodePoint) : Prop := d ≠ '='

instance : DecidablePred NotEquals := fun d => inferInstanceAs (Decidable (d ≠ '='))

-- What follows the bounds of a slice.
def FollowsBound (d : CodePoint) : Prop := d = ':' ∨ d = ']'

theorem FollowsBound.endsName {d : CodePoint} (h : FollowsBound d) : EndsName d := by
  rcases h with rfl | rfl <;> decide

theorem FollowsBound.notEquals {d : CodePoint} (h : FollowsBound d) : NotEquals d := by
  rcases h with rfl | rfl <;> decide

-- What a string begins with.
def BeginsText (d : CodePoint) : Prop := d = '"' ∨ d = Scan.backquote

theorem BeginsText.endsName {d : CodePoint} (h : BeginsText d) : EndsName d := by
  rcases h with rfl | rfl <;> decide

-- What ends a statement.
def EndsStatement (d : CodePoint) : Prop := d = ';' ∨ d = '}'

theorem EndsStatement.endsName {d : CodePoint} (h : EndsStatement d) : EndsName d := by
  rcases h with rfl | rfl <;> decide

theorem EndsStatement.notEquals {d : CodePoint} (h : EndsStatement d) : NotEquals d := by
  rcases h with rfl | rfl <;> decide

namespace Tree

-- What an expression may begin with: a character that goes on with no operator before it, unless a
-- blank is written between them.
def MayBegin (t : Tree) (d : CodePoint) : Prop :=
  d ≠ '=' ∧ ∀ o : Operator, o ≠ .Period → t.needsBlank o.spelling = false → o.joins d = false

-- What may follow a statement: anything but an equals sign if it ends in itself, and otherwise what
-- ends it.
def Precedes (t : Tree) (d : CodePoint) : Prop :=
  if t.isSelfTerminated then NotEquals d else EndsStatement d

variable {t u : Tree} {d : CodePoint}

theorem mayBegin_eq (h : t.leadingOperator? = u.leadingOperator?) : t.MayBegin = u.MayBegin := by
  funext d
  simp only [MayBegin, needsBlank, h]

theorem mayBegin_of_not_joins (hd : d = '.' ∨ d ∉ Operator.joiners) : t.MayBegin d := by
  refine ⟨?_, fun o ho _ => ?_⟩
  · rintro rfl
    revert hd
    decide
  · rcases hd with rfl | hd
    · exact Operator.joins_point ho
    · by_contra hjoins
      exact hd (Operator.mem_joiners (by simpa using hjoins))

-- Where no blank is written, the operator that an expression begins with does not go on with the one
-- before it.
theorem mayBegin_of_leading {p : Operator} (h : t.leadingOperator? = some p.spelling)
    (hne : p.head ≠ '=') : t.MayBegin p.head :=
  ⟨hne, fun o ho hblank => by
    rw [← fuses_eq_joins ho p.head?_spelling]
    simpa [needsBlank, h] using hblank⟩

theorem mayBegin_mark {o : Operator} (h : o.isMark = true) : t.MayBegin o.head := by
  refine mayBegin_of_not_joins ?_
  revert h
  cases o <;> decide

theorem mayBegin_keyword (k : Keyword) : t.MayBegin k.head := by
  refine mayBegin_of_not_joins (Or.inr ?_)
  cases k <;> decide

end Tree

-- What is written for a tree of a category.
def Category.Separates (k : Category) (t : Tree) (e : Emission) : Prop :=
  match k with
  | .name | .text | .expression _ | .length | .element | .fieldType => WritesSome t.MayBegin EndsName e
  | .parameters _ | .typeParameters => WritesPieces AnyChar EndsName e
  | .statement | .caseClause _ | .commClause => WritesPieces NotEquals t.Precedes e
  | .block => WritesSome (· = '\x7b') AnyChar e ∧
      ∀ p ts, t = .block p (.tuple ts) → WritesPieces NotEquals EndsStatement (emittedStatements ts)
  | .simple _ | .declaration => WritesSome NotEquals EndsName e
  | _ => WritesSome AnyChar EndsName e

namespace Tree

-- What is written for an expression, for a statement, for a simple statement and for a block.
abbrev WritesOperand (t : Tree) : Prop := WritesSome t.MayBegin EndsName (t.emittedAs .expression)

abbrev WritesStatement (t : Tree) : Prop :=
  WritesPieces NotEquals t.Precedes (t.emittedAs .statement)

abbrev WritesSimple (t : Tree) : Prop := WritesSome NotEquals EndsName (t.emittedAs .statement)

abbrev WritesBlock (t : Tree) : Prop := WritesSome (· = '\x7b') AnyChar (t.emittedAs .block)

-- What is written for a list of fields.
abbrev WritesFields (t : Tree) : Prop := WritesPieces AnyChar EndsName (t.emittedAs (.fieldList ","))

end Tree

section Parts

variable {P Q : CodePoint → Prop} {o : Operator}

theorem Emission.WritesSome.any {e : Emission} (h : WritesSome P Q e) : WritesSome AnyChar Q e :=
  h.mono (fun _ _ => trivial) fun _ h => h

theorem Emission.WritesPieces.any {e : Emission} (h : WritesPieces P Q e) : WritesPieces AnyChar Q e :=
  h.mono (fun _ _ => trivial) fun _ h => h

theorem Emission.WritesSome.mayBegin {t u : Tree} {e : Emission} (h : WritesSome u.MayBegin Q e)
    (heq : t.leadingOperator? = u.leadingOperator?) : WritesSome t.MayBegin Q e := by
  rwa [mayBegin_eq heq]

theorem Emission.WritesSome.notEquals {t : Tree} {e : Emission} (h : WritesSome t.MayBegin Q e) :
    WritesSome NotEquals Q e :=
  h.mono (fun _ h => h.1) fun _ h => h

-- Punctuation after a part.
theorem Emission.WritesSome.close {e : Emission} (he : WritesSome P EndsName e) (h : o.isMark = true) :
    WritesSome P Q (e ++ Emission.operator o) :=
  he.append (.mark h o.continuesName_head)

-- A keyword with an opening bracket.
theorem Emission.WritesSome.opening {k : Keyword} (h : o.isMark = true) (hP : P k.head) :
    WritesSome P Q (Emission.joined k o) :=
  .joined hP fun d _ => by
    obtain ⟨hjoins, hpoint⟩ := Operator.joins_mark h d
    simp [Lexeme.endsBefore, Lexeme.ofOperator, hjoins, hpoint]

-- A block wherever a brace may stand.
theorem Emission.WritesSome.braced {e : Emission} (h : WritesSome (· = '\x7b') AnyChar e) (hP : P '\x7b') :
    WritesSome P Q e :=
  h.mono (fun _ h => h ▸ hP) fun _ _ => trivial

theorem Emission.WritesSome.colon (hP : P ':') : WritesSome P NotEquals (Emission.operator .Colon) :=
  .operator hP fun d hd => by
    simp [Lexeme.endsBefore, Lexeme.ofOperator, Operator.joins_notEquals (Or.inl rfl) hd]

theorem Emission.WritesSome.equals (hP : P '=') : WritesSome P NotEquals (Emission.operator .Assign) :=
  .operator hP fun d hd => by
    simp [Lexeme.endsBefore, Lexeme.ofOperator, Operator.joins_notEquals (Or.inr rfl) hd]

-- What may be left out, after punctuation.
theorem Emission.WritesSome.append_any {a b : Emission} {R : CodePoint → Prop}
    (ha : WritesSome P AnyChar a)
    (hb : WritesPieces R Q b) : WritesSome P Q (a ++ b) :=
  ha.append_pieces hb.any fun _ _ => trivial

theorem Emission.WritesPieces.when {e : Emission} {condition : Bool}
    (h : condition = true → WritesSome P Q e) : WritesPieces P Q (Emission.when condition e) := by
  cases condition with
  | false => exact .nothing
  | true => exact (h rfl).toWritesPieces

-- A part that may be left out.
theorem Emission.WritesPieces.optional {x : Option Tree} {f : Tree → Emission}
    (h : ∀ t ∈ x, t.isAbsent = false ∧ WritesSome P Q (f t)) :
    WritesPieces P Q ((Tree.ofOption x).emittedIf (f (.ofOption x))) := by
  cases x with
  | none => exact .nothing
  | some t =>
      rw [ofOption_some, emittedIf_of (h t rfl).1]
      exact (h t rfl).2.toWritesPieces

-- What begins like an operand after an operator.
theorem pieces_operator {x : Tree} {e : Emission} (hpoint : o ≠ .Period)
    (hP : P o.head) (he : WritesSome x.MayBegin Q e) :
    WritesSome P Q (operator o ++ when (x.needsBlank o.spelling) blank ++ e) := by
  have hblank : (Lexeme.ofOperator o).endsBefore ' ' = true := by
    have hjoins : o.joins ' ' = false := by
      by_contra h
      exact absurd (Operator.mem_joiners (by simpa using h)) (by decide)
    simp [Lexeme.endsBefore, Lexeme.ofOperator, hjoins, hpoint]
  rw [append_assoc]
  cases hneeds : x.needsBlank o.spelling with
  | true =>
      have hrest : WritesSome (· = ' ') Q (blank ++ e) :=
        (WritesSome.blank (P := (· = ' ')) rfl).append he
      refine (WritesSome.operator hP ?_).append hrest
      rintro d rfl
      exact hblank
  | false =>
      refine (WritesSome.operator hP fun d hd => ?_).append he
      simp [Lexeme.endsBefore, Lexeme.ofOperator, hd.2 o hpoint hneeds, hpoint]

-- A list of expressions.
theorem pieces_list {y : Tree} {ys : List Tree}
    (h : ∀ t ∈ y :: ys, t.WritesOperand) :
    WritesSome y.MayBegin EndsName (emittedList (y :: ys)) := by
  obtain ⟨hy, hys⟩ := List.forall_mem_cons.mp h
  refine WritesSome.separated (o := .Comma) (R := AnyChar) hy ?_ rfl (Operator.continuesName_head _)
  intro f hf
  obtain ⟨t, ht, rfl⟩ := List.mem_map.mp hf
  exact (hys t ht).any

theorem pieces_items {ts : List Tree}
    (h : ∀ t ∈ ts, t.WritesOperand) :
    WritesPieces AnyChar EndsName (emittedList ts) := by
  cases ts with
  | nil => exact .nothing
  | cons y ys => exact (pieces_list h).any.toWritesPieces

theorem pieces_name {n : Tree} (h : Built .name n) : WritesSome NotEquals EndsName (Rule.nameOf n) := by
  cases h with
  | name h =>
      refine .name h fun d hd => ?_
      rintro rfl
      exact absurd (h.beginsName '=' hd) (by decide)

theorem pieces_literal {t : Tree} (h : Built .text t) :
    WritesSome BeginsText EndsName (Rule.fieldText "value" t) := by
  cases h with
  | text h => exact .literal h h.head_of_text

-- EndsName that are written in the same way with a separator between them.
theorem pieces_separated {ts : List Tree} {f : Tree → Emission} (h : ∀ t ∈ ts, WritesSome P EndsName (f t))
    (ho : o.isMark = true) : WritesPieces P EndsName (separated o.spelling (ts.map f)) := by
  refine WritesPieces.separated ?_ ho o.continuesName_head
  intro e he
  obtain ⟨t, ht, rfl⟩ := List.mem_map.mp he
  exact h t ht

-- Statements with semicolons between them. What follows the last one may follow all of them.
theorem pieces_statements {t : Tree} {ts : List Tree}
    (h : ∀ u ∈ t :: ts, u.WritesStatement) :
    WritesPieces NotEquals EndsStatement (emittedStatements (t :: ts)) := by
  induction ts generalizing t with
  | nil =>
      refine (h t (by simp)).mono (fun _ h => h) fun d hd => ?_
      unfold Precedes
      split
      · exact hd.notEquals
      · exact hd
  | cons u us ih =>
      obtain ⟨ht, hus⟩ := List.forall_mem_cons.mp h
      have hrest := ih hus
      rw [emittedStatements]
      cases hself : t.isSelfTerminated with
      | true =>
          have hnext : t.Precedes = NotEquals := by
            funext d
            simp [Precedes, hself]
          rw [WritesStatement, hnext] at ht
          exact ht.append hrest (fun _ _ h => h) fun _ _ h => h.notEquals
      | false =>
          have hnext : t.Precedes = EndsStatement := by
            funext d
            simp [Precedes, hself]
          rw [WritesStatement, hnext] at ht
          have hsemicolon : WritesSome EndsStatement EndsStatement
              (operator .Semicolon ++ emittedStatements (u :: us)) :=
            (WritesSome.mark rfl (Or.inl rfl)).append_any hrest
          exact (ht.append_some hsemicolon fun _ h => h.notEquals).toWritesPieces

theorem pieces_body {ts : List Tree}
    (h : ∀ u ∈ ts, u.WritesStatement) :
    WritesPieces NotEquals EndsStatement (emittedStatements ts) := by
  cases ts with
  | nil => exact .nothing
  | cons t ts => exact pieces_statements h

theorem pieces_braces {ts : List Tree} (hbody : WritesPieces NotEquals EndsStatement (emittedStatements ts)) :
    WritesSome (· = '\x7b') Q (emittedBraces ts) :=
  ((WritesSome.mark (P := (· = '\x7b')) (o := .LBrace) rfl rfl).append_any hbody).append
    (.mark (o := .RBrace) rfl (Or.inr rfl))

-- The clauses of a statement in braces.
theorem pieces_clauses (p : Tree) {clauses : List Tree}
    (h : ∀ t ∈ clauses, t.WritesStatement) :
    WritesSome EndsName EndsName ((Tree.block p (.tuple clauses)).emittedAs .block) := by
  rw [emitted_block]
  exact WritesSome.braced (pieces_braces (pieces_body h)) (by decide)

-- An expression that may be absent.
theorem pieces_optional {k : Category} {o : Option Tree} (hbuilt : ∀ t ∈ o, Built k t)
    (h : ∀ t ∈ o, t.WritesOperand) :
    WritesPieces AnyChar EndsName ((Tree.ofOption o).emittedIf ((Tree.ofOption o).emittedAs .expression)) :=
  WritesPieces.optional (f := (·.emittedAs .expression)) fun t ht => ⟨(hbuilt t ht).isAbsent, (h t ht).any⟩

-- Parameters and results after the name of a function or its keyword.
theorem pieces_signature {k : Category} {params : Tree} {results : Option Tree}
    (typeParams : Option Tree) (hparams : params.WritesFields)
    (hbuilt : ∀ t ∈ results, Built k t)
    (hresults : ∀ t ∈ results, WritesPieces AnyChar EndsName (t.emittedAs .results))
    (htypeParams : ∀ t ∈ typeParams, t.isAbsent = false ∧ t.WritesFields) :
    WritesSome EndsName EndsName (emittedSignature params (.ofOption results) (.ofOption typeParams)) := by
  have htypes : WritesPieces EndsName EndsName ((Tree.ofOption typeParams).emittedIf (operator .LBrack ++
      (Tree.ofOption typeParams).emittedAs (.fieldList ",") ++ operator .RBrack)) := by
    refine WritesPieces.optional
      (f := fun t => operator .LBrack ++ t.emittedAs (.fieldList ",") ++ operator .RBrack)
      fun t ht => ⟨(htypeParams t ht).1, ?_⟩
    exact ((WritesSome.mark rfl (Operator.continuesName_head _)).append_any (htypeParams t ht).2).close rfl
  have hopen := htypes.append_some (b := operator .LParen) (Q := AnyChar)
    (WritesSome.mark rfl (Operator.continuesName_head _)) fun _ h => h
  refine ((hopen.append_any hparams).close rfl).append_any (R := AnyChar) ?_
  cases results with
  | none => exact .nothing
  | some t =>
      rw [ofOption_some, emittedIf_of (hbuilt t rfl).isAbsent]
      exact hresults t rfl

-- The results of a function: one type alone, or fields in parentheses.
theorem pieces_results {p : Tree} {fields : List Tree}
    (hfields : ∀ t ∈ fields, ∃ q names typ, t = .field q (.tuple names) typ .absent)
    (h : ∀ t ∈ fields, WritesSome AnyChar EndsName (t.emittedAs .field)) :
    WritesPieces AnyChar EndsName ((Tree.fieldList p (.tuple fields)).emittedAs .results) := by
  by_cases hlone : ∃ q typ tag, fields = [.field q (.tuple []) typ tag]
  · obtain ⟨q, typ, tag, rfl⟩ := hlone
    obtain ⟨q', names, typ', heq⟩ := hfields _ (List.mem_singleton.mpr rfl)
    cases heq
    have htyp := h _ (List.mem_singleton.mpr rfl)
    rw [emitted_field] at htyp
    rw [emitted_lone]
    simpa [emittedIf, Emission.when] using htyp.toWritesPieces
  · rw [emitted_results]
    · have hlist := pieces_separated (o := .Comma) h rfl
      exact (((WritesSome.mark rfl trivial).append_any hlist).close rfl).toWritesPieces
    · rintro q typ tag rfl
      exact hlone ⟨q, typ, tag, rfl⟩
    · intro t ht
      obtain ⟨q, names, typ, rfl⟩ := hfields t ht
      exact ⟨q, names, typ, _, rfl⟩

theorem pieces_names {n : Tree} {ns : List Tree} (h : ∀ m ∈ n :: ns, Built .name m) :
    WritesSome AnyChar EndsName (emittedNames (n :: ns)) := by
  obtain ⟨hn, hns⟩ := List.forall_mem_cons.mp h
  refine WritesSome.separated (o := .Comma) (R := AnyChar) (pieces_name hn).any ?_ rfl
    (Operator.continuesName_head _)
  intro f hf
  obtain ⟨m, hm, rfl⟩ := List.mem_map.mp hf
  exact (pieces_name (hns m hm)).any

-- A field: names, a type and a tag.
theorem pieces_field {p t : Tree} (names : List Tree) (tag : Option Tree)
    (hnames : ∀ n ∈ names, Built .name n) (ht : t.WritesOperand)
    (htag : ∀ u ∈ tag, Built .text u) :
    WritesSome AnyChar EndsName ((Tree.field p (.tuple names) t (.ofOption tag)).emittedAs .field) := by
  have hstart : WritesSome AnyChar EndsName
      (when (!names.isEmpty) (emittedNames names ++ blank) ++ t.emittedAs .expression) := by
    cases names with
    | nil => exact ht.any
    | cons n ns => exact ((pieces_names hnames).append (WritesSome.blank (by decide))).append ht.any
  refine hstart.append_pieces ?_ fun _ h => h
  refine WritesPieces.optional (f := Rule.fieldText "value") fun u hu => ⟨(htag u hu).isAbsent, ?_⟩
  exact (pieces_literal (htag u hu)).mono (fun _ h => h.endsName) fun _ h => h

end Parts

-- A statement that does not end in itself.
theorem Emission.WritesSome.stopped {t : Tree} {e : Emission} (h : WritesSome NotEquals EndsStatement e)
    (hself : t.isSelfTerminated = false) : WritesPieces NotEquals t.Precedes e := by
  refine h.toWritesPieces.mono (fun _ h => h) fun d hd => ?_
  rw [Precedes, hself] at hd
  exact hd

theorem Emission.WritesSome.statement {t : Tree} {e : Emission} (h : WritesSome NotEquals EndsName e)
    (hself : t.isSelfTerminated = false) : WritesPieces NotEquals t.Precedes e :=
  (h.mono (fun _ h => h) fun _ h => h.endsName).stopped hself

theorem Tree.Precedes.notEquals {t : Tree} {d : CodePoint} (h : t.Precedes d) : NotEquals d := by
  unfold Precedes at h
  split at h
  · exact h
  · exact h.notEquals

theorem notEquals_keyword (k : Keyword) : NotEquals k.head := (mayBegin_keyword (t := .absent) k).1

-- The statement before a condition or a value.
theorem pieces_init {Q : CodePoint → Prop} {init : Option Tree}
    (hinit : ∀ t ∈ init, Built (.simple false) t)
    (h : ∀ t ∈ init, t.WritesSimple) :
    WritesPieces NotEquals Q ((Tree.ofOption init).emittedIf
      ((Tree.ofOption init).emittedAs .statement ++ operator .Semicolon)) :=
  WritesPieces.optional (f := fun t => t.emittedAs .statement ++ operator .Semicolon)
    fun t ht => ⟨(hinit t ht).isAbsent, (h t ht).close rfl⟩

-- The other branch of a conditional statement.
theorem pieces_otherwise {o : Option Tree} (hkind : ∀ t ∈ o, t.is .IfStmt = true ∨ t.is .BlockStmt = true)
    (hbuilt : ∀ t ∈ o, Built .statement t)
    (h : ∀ t ∈ o, t.WritesStatement) :
    WritesPieces AnyChar EndsStatement (Rule.otherwise ⟨.ofOption o, (Tree.ofOption o).emittedAs⟩) := by
  cases o with
  | none => exact .nothing
  | some t =>
      have ht := h t rfl
      rcases hkind t rfl with hif | hblock
      · have hnext : t.Precedes = EndsStatement := by
          obtain ⟨p, fields, rfl⟩ := Grammar.eq_node_of_is hif
          funext d
          simp [Precedes, isSelfTerminated]
        rw [WritesStatement, hnext] at ht
        rw [ofOption_some, Grammar.otherwise_if hif]
        exact ((WritesSome.spaced trivial).append_any ht).toWritesPieces
      · cases (hbuilt t rfl).isBlock hblock with
        | @block p ts _ _ _ =>
            have hnext : (Tree.block p (.tuple ts)).Precedes = EndsStatement := rfl
            rw [WritesStatement, hnext, emitted_blockStmt] at ht
            rw [ofOption_some, Grammar.otherwise_block rfl, emitted_block]
            have hbraces : WritesPieces EndsName EndsStatement (emittedBraces ts) := by
              refine ⟨ht.fault, ht.pieces, ht.seams, ?_, ht.ends⟩
              rw [emittedBraces, append_assoc, writes_append (fault_operator _)]
              rintro w ⟨⟩ d ⟨⟩
              decide
            exact ((WritesSome.keyword trivial fun _ h => h).append_pieces hbraces
              fun _ h => h.endsName).toWritesPieces

theorem pieces_loop {init cond post : Option Tree} (hinit : ∀ t ∈ init, Built (.simple false) t)
    (hcond : ∀ t ∈ cond, Built (.expression false) t) (hpost : ∀ t ∈ post, Built (.simple false) t)
    (ihinit : ∀ t ∈ init, t.WritesSimple)
    (ihcond : ∀ t ∈ cond, t.WritesOperand)
    (ihpost : ∀ t ∈ post, t.WritesSimple) :
    WritesSome NotEquals EndsName (emittedLoop (.ofOption init) (.ofOption cond) (.ofOption post)) := by
  unfold emittedLoop
  split
  · split
    · exact .keyword (notEquals_keyword _) fun _ h => h
    · rename_i hpresent
      cases cond with
      | none => exact absurd rfl hpresent
      | some x => exact (WritesSome.spaced (notEquals_keyword _)).append (ihcond x rfl)
  · have hinit' : WritesPieces NotEquals EndsName _ := WritesPieces.optional (f := (·.emittedAs .statement))
      fun t ht => ⟨(hinit t ht).isAbsent, ihinit t ht⟩
    have hcond' := pieces_optional hcond ihcond
    have hpost' : WritesPieces NotEquals EndsName _ := WritesPieces.optional (f := (·.emittedAs .statement))
      fun t ht => ⟨(hpost t ht).isAbsent, ihpost t ht⟩
    exact (((((WritesSome.spaced (notEquals_keyword _)).append_any hinit').close rfl).append_any
      hcond').close rfl).append_any hpost'

theorem pieces_default : WritesSome NotEquals NotEquals (joined .Default .Colon) :=
  .joined (notEquals_keyword _) fun d hd => by
    simp [Lexeme.endsBefore, Lexeme.ofOperator, Operator.joins_notEquals (Or.inl rfl) hd]

-- A clause without statements is followed by the next one.
theorem pieces_clause {t : Tree} {e : Emission} {body : List Tree} (he : WritesSome NotEquals NotEquals e)
    (hself : t.isSelfTerminated = body.isEmpty)
    (hbody : WritesPieces NotEquals EndsStatement (emittedStatements body)) :
    WritesPieces NotEquals t.Precedes (e ++ emittedStatements body) := by
  cases body with
  | nil =>
      have hclause := he.append_pieces (WritesPieces.nothing (Q := NotEquals)) fun _ h => h
      exact hclause.toWritesPieces.mono (fun _ h => h) fun _ h => h.notEquals
  | cons u us =>
      have hnext : t.Precedes = EndsStatement := by
        funext d
        simp [Precedes, hself]
      rw [hnext]
      exact (he.append_pieces hbody fun _ h => h.notEquals).toWritesPieces

theorem Built.isExpression {b : Bool} {t : Tree} (h : Built (.expression b) t) :
    t.kind?.any NodeKind.isExpression = true := by
  cases h <;> rfl

namespace Tree

variable {p x y : Tree}

theorem WritesOperand.selector {sel : Tree} (hx : x.WritesOperand) (hsel : Built .name sel) :
    (Tree.selector p x sel).WritesOperand := by
  cases hsel with
  | name h =>
      refine WritesSome.mayBegin (u := x) ?_ rfl
      rw [emitted_selector]
      exact (hx.append (.point (by decide))).append (.name h h.beginsName)

theorem WritesOperand.index {items : List Tree} (hx : x.WritesOperand)
    (hitems : ∀ t ∈ items, t.WritesOperand) : (Tree.index p x (.tuple items)).WritesOperand := by
  refine WritesSome.mayBegin (u := x) ?_ rfl
  rw [emitted_index]
  exact ((hx.close rfl).append_any (pieces_items hitems)).close rfl

-- After the second bound of a slice stands what follows a bound, or what does not go on with a name.
theorem WritesOperand.slice {k : Category} {low high max : Option Tree} (hx : x.WritesOperand)
    (hlow : ∀ t ∈ low, Built k t) (hhigh : ∀ t ∈ high, Built k t) (hmax : ∀ t ∈ max, Built k t)
    (ihlow : ∀ t ∈ low, t.WritesOperand) (ihhigh : ∀ t ∈ high, t.WritesOperand)
    (ihmax : ∀ t ∈ max, t.WritesOperand) :
    (Tree.slice p x (.ofOption low) (.ofOption high) (.ofOption max)).WritesOperand := by
  refine WritesSome.mayBegin (u := x) ?_ rfl
  rw [emitted_slice]
  have hlow' := pieces_optional hlow ihlow
  have hhigh' : WritesPieces NotEquals FollowsBound _ :=
    WritesPieces.optional (f := (·.emittedAs .expression)) fun t ht =>
      ⟨(hhigh t ht).isAbsent, (ihhigh t ht).notEquals.mono (fun _ h => h) fun _ h => h.endsName⟩
  have hmax' : WritesPieces FollowsBound EndsName _ :=
    WritesPieces.optional (f := fun t => operator .Colon ++ t.emittedAs .expression) fun t ht =>
      ⟨(hmax t ht).isAbsent, (WritesSome.colon (Or.inl rfl)).append (ihmax t ht).notEquals⟩
  have hbounds := ((hx.close (o := .LBrack) rfl).append_any hlow').append
    (WritesSome.colon (by decide))
  have hall := (hbounds.append_pieces hhigh' fun _ h => h.notEquals).append_pieces
    (hmax'.mono (fun _ h => h) fun _ (h : FollowsBound _) => h.endsName) fun _ h => h
  exact hall.append (.mark rfl (Or.inr rfl))

theorem WritesOperand.typeAssert {k : Category} {typ : Option Tree} (hx : x.WritesOperand)
    (htyp : ∀ t ∈ typ, Built k t) (ihtyp : ∀ t ∈ typ, t.WritesOperand) :
    (Tree.typeAssert p x (.ofOption typ)).WritesOperand := by
  refine WritesSome.mayBegin (u := x) ?_ rfl
  rw [emitted_typeAssert]
  have hstart := hx.append (WritesSome.assertion (Q := AnyChar) (by decide))
  refine WritesSome.close (hstart.append ?_) rfl
  cases typ with
  | none => exact WritesSome.keyword trivial fun _ h => h
  | some typ =>
      rw [if_neg (by simp [(htyp typ rfl).isAbsent])]
      exact (ihtyp typ rfl).any

theorem WritesOperand.call {args : List Tree} {spread : Bool} (hx : x.WritesOperand)
    (hargs : ∀ t ∈ args, t.WritesOperand) :
    (Tree.call p x (.tuple args) (.flag spread)).WritesOperand := by
  refine WritesSome.mayBegin (u := x) ?_ rfl
  rw [emitted_call]
  have hspread : WritesPieces EndsName EndsName (when spread (operator .Ellipsis)) :=
    WritesPieces.when fun _ => .mark rfl (by decide)
  exact (((hx.close rfl).append_any (pieces_items hargs)).append_pieces hspread fun _ h => h).close rfl

theorem WritesOperand.compositeLit {b : Bool} {typ : Tree} {elts : List Tree}
    (hbuilt : Built (.expression b) typ) (htyp : typ.WritesOperand)
    (helts : ∀ t ∈ elts, t.WritesOperand) :
    (Tree.compositeLit p typ (.tuple elts)).WritesOperand := by
  rw [WritesOperand, emitted_compositeLit, emittedIf_of hbuilt.isAbsent]
  refine WritesSome.mayBegin (u := typ) ?_ ?_
  · exact ((htyp.close rfl).append_any (pieces_items helts)).close rfl
  · rw [leadingOperator?_compositeLit, if_pos hbuilt.isExpression]

theorem writesOperand_bareLiteral {elts : List Tree} (helts : ∀ t ∈ elts, t.WritesOperand) :
    (Tree.compositeLit p .absent (.tuple elts)).WritesOperand := by
  rw [WritesOperand, emitted_compositeLit]
  exact ((WritesSome.mark (o := .LBrace) rfl (mayBegin_mark rfl)).append_any
    (pieces_items helts)).close rfl

theorem WritesOperand.keyValue (hx : x.WritesOperand) (hy : y.WritesOperand) :
    (Tree.keyValue p x y).WritesOperand := by
  refine WritesSome.mayBegin (u := x) ?_ rfl
  rw [emitted_keyValue]
  exact (hx.append (WritesSome.colon (by decide))).append hy.notEquals

theorem WritesOperand.unary {o : Operator} (ho : o.isPrefix = true) (hx : x.WritesOperand) :
    (Tree.unary p (.token (.op o)) x).WritesOperand := by
  have hne : o ≠ .Period ∧ o.head ≠ '=' := by
    revert ho
    cases o <;> decide
  rw [WritesOperand, emitted_unary]
  exact pieces_operator hne.1 (mayBegin_of_leading rfl hne.2) hx

theorem WritesOperand.binary {o : Operator} (ho : o ≠ .Period) (hx : x.WritesOperand)
    (hy : y.WritesOperand) : (Tree.binary p x (.token (.op o)) y).WritesOperand := by
  refine WritesSome.mayBegin (u := x) ?_ rfl
  rw [emitted_binary]
  exact hx.append (pieces_operator ho (Operator.continuesName_head _) hy)

-- The mark of a channel ends in a blank.
theorem WritesOperand.chanType {d : Direction} (hd : d ≠ .neither) (hx : x.WritesOperand) :
    (Tree.chanType p (.direction d) x).WritesOperand := by
  rw [WritesOperand, emitted_chanType]
  refine WritesSome.append ?_ hx
  cases d with
  | neither => exact absurd rfl hd
  | both => exact .spaced (mayBegin_keyword .Chan)
  | send =>
      refine .write Text.word_sender ?_ fun _ _ => Or.inl (Text.word_sender.fits_blank ?_)
      · rintro d ⟨⟩
        exact mayBegin_keyword .Chan
      · rintro l ⟨⟩
        decide
  | receive =>
      refine .write Text.word_receiver ?_ fun _ _ => Or.inl (Text.word_receiver.fits_blank ?_)
      · rintro d ⟨⟩
        exact mayBegin_of_leading (p := .Arrow) rfl (by decide)
      · rintro l ⟨⟩
        decide

theorem writesOperand_ellipsis : (Tree.ellipsis p .absent).WritesOperand :=
  WritesSome.mark (o := .Ellipsis) rfl (mayBegin_mark rfl)

-- The fields of a parameter list, and of a list of results.
theorem pieces_fieldList {role : Role} {fields : List Tree} (hrole : role = .fieldList "," ∨ role = .results)
    (hfields : ∀ t ∈ fields, ∃ q names typ, t = .field q (.tuple names) typ .absent)
    (h : ∀ t ∈ fields, WritesSome AnyChar EndsName (t.emittedAs .field)) :
    WritesPieces AnyChar EndsName ((Tree.fieldList p (.tuple fields)).emittedAs role) := by
  rcases hrole with rfl | rfl
  · rw [emitted_fieldList]
    exact pieces_separated (o := .Comma) h rfl
  · exact pieces_results hfields h

theorem pieces_listAfter {o : Operator} {ys : List Tree} (ho : o ≠ .Period)
    (hys : ∀ t ∈ y :: ys, t.WritesOperand) : WritesSome EndsName EndsName (emittedListAfter o y ys) :=
  pieces_operator ho (Operator.continuesName_head _) (pieces_list hys)

theorem writesSimple_assign {lhs rhs : List Tree} {o : Operator} (ho : o ≠ .Period) (hlne : lhs ≠ [])
    (hrne : rhs ≠ []) (hlhs : ∀ t ∈ lhs, t.WritesOperand) (hrhs : ∀ t ∈ rhs, t.WritesOperand) :
    (Tree.assign p (.tuple lhs) (.token (.op o)) (.tuple rhs)).WritesSimple := by
  obtain ⟨x, xs, rfl⟩ := List.exists_cons_of_ne_nil hlne
  obtain ⟨y, ys, rfl⟩ := List.exists_cons_of_ne_nil hrne
  rw [WritesSimple, emitted_assign]
  exact (pieces_list hlhs).notEquals.append (pieces_listAfter ho hrhs)

theorem WritesOperand.incDec {o : Operator} (ho : o = .Inc ∨ o = .Dec) (hx : x.WritesOperand) :
    (Tree.incDec p x (.token (.op o))).WritesSimple := by
  rw [WritesSimple, emitted_incDec]
  refine hx.notEquals.append (WritesSome.operator o.continuesName_head fun d _ => ?_)
  have hlast : o.isLast = true ∧ o ≠ .Period := by rcases ho with rfl | rfl <;> decide
  simp [Lexeme.endsBefore, Lexeme.ofOperator, Operator.joins_eq_false hlast.1, hlast.2]

-- A block stands for itself, as a statement, and as the statements of a clause.
theorem writesBlock {role : Role} {ts : List Tree} (hrole : role = .block ∨ role = .statement)
    (hts : ∀ t ∈ ts, t.WritesStatement) :
    WritesSome (· = '\x7b') AnyChar ((Tree.block p (.tuple ts)).emittedAs role) := by
  rcases hrole with rfl | rfl
  · rw [emitted_block]
    exact pieces_braces (pieces_body hts)
  · rw [emitted_blockStmt]
    exact pieces_braces (pieces_body hts)

theorem WritesStatement.labeled {label stmt : Tree} (hlabel : Built .name label)
    (hstmt : stmt.WritesStatement) : (Tree.labeled p label stmt).WritesStatement := by
  have hstart := (pieces_name hlabel).append (WritesSome.colon (by decide))
  rw [WritesStatement, emitted_labeled]
  exact (hstart.append_pieces hstmt fun _ h => h.notEquals).toWritesPieces

theorem writesStatement_returnStmt {results : List Tree} (h : ∀ t ∈ results, t.WritesOperand) :
    (Tree.returnStmt p (.tuple results)).WritesStatement := by
  have hresults : WritesPieces EndsName EndsName (when (!results.isEmpty) (blank ++ emittedList results)) :=
    WritesPieces.when fun _ => (WritesSome.blank (by decide)).append_any (pieces_items h)
  rw [WritesStatement, emitted_returnStmt]
  exact ((WritesSome.keyword (notEquals_keyword _) fun _ h => h).append_pieces hresults
    fun _ h => h).statement rfl

theorem writesStatement_branch {k : Keyword} {label : Option Tree}
    (hlabel : ∀ t ∈ label, Built .name t) :
    (Tree.branch p (.token (.word k)) (.ofOption label)).WritesStatement := by
  have hname : WritesPieces EndsName EndsName _ :=
    WritesPieces.optional (f := fun t => blank ++ Rule.nameOf t) fun t ht =>
      ⟨(hlabel t ht).isAbsent, (WritesSome.blank (by decide)).append (pieces_name (hlabel t ht))⟩
  rw [WritesStatement, emitted_branch]
  exact ((WritesSome.keyword (notEquals_keyword _) fun _ h => h).append_pieces hname
    fun _ h => h).statement rfl

theorem WritesOperand.ifStmt {init otherwise : Option Tree} (hinit : ∀ t ∈ init, Built (.simple false) t)
    (helse : ∀ t ∈ otherwise, Built .statement t)
    (hkind : ∀ t ∈ otherwise, t.is .IfStmt = true ∨ t.is .BlockStmt = true)
    (ihinit : ∀ t ∈ init, t.WritesSimple) (hx : x.WritesOperand) (hy : y.WritesBlock)
    (ihelse : ∀ t ∈ otherwise, t.WritesStatement) :
    (Tree.ifStmt p (.ofOption init) x y (.ofOption otherwise)).WritesStatement := by
  rw [WritesStatement, emitted_ifStmt]
  have hinit' := pieces_init (Q := x.MayBegin) hinit ihinit
  have hheader := ((WritesSome.spaced (notEquals_keyword .If)).append_any hinit').append hx
  exact ((hheader.append (WritesSome.braced hy (by decide))).append_any
    (pieces_otherwise hkind helse ihelse)).stopped rfl

theorem writesStatement_switchStmt {q : Tree} {k : Category} {init tag : Option Tree} {clauses : List Tree}
    (hinit : ∀ t ∈ init, Built (.simple false) t) (htag : ∀ t ∈ tag, Built k t)
    (ihinit : ∀ t ∈ init, t.WritesSimple) (ihtag : ∀ t ∈ tag, t.WritesOperand)
    (hclauses : ∀ t ∈ clauses, t.WritesStatement) :
    (Tree.switchStmt p (.ofOption init) (.ofOption tag) (.block q (.tuple clauses))).WritesStatement := by
  rw [WritesStatement, emitted_switchStmt]
  refine WritesSome.statement (WritesSome.append ?_ (pieces_clauses q hclauses)) rfl
  split
  · exact .keyword (notEquals_keyword _) fun _ h => h
  · exact ((WritesSome.spaced (notEquals_keyword _)).append_any
      (pieces_init (Q := AnyChar) hinit ihinit)).append_any (pieces_optional htag ihtag)

theorem WritesSimple.typeSwitch {q : Tree} {init : Option Tree} {clauses : List Tree}
    (hinit : ∀ t ∈ init, Built (.simple false) t) (ihinit : ∀ t ∈ init, t.WritesSimple)
    (hx : x.WritesSimple) (hclauses : ∀ t ∈ clauses, t.WritesStatement) :
    (Tree.typeSwitch p (.ofOption init) x (.block q (.tuple clauses))).WritesStatement := by
  rw [WritesStatement, emitted_typeSwitch]
  have hheader := ((WritesSome.spaced (notEquals_keyword .Switch)).append_any
    (pieces_init (Q := NotEquals) hinit ihinit)).append hx
  exact (hheader.append (pieces_clauses q hclauses)).statement rfl

theorem WritesOperand.rangeAll (hx : x.WritesOperand) (hy : y.WritesBlock) :
    (Tree.rangeStmt p .absent .absent .absent x y).WritesStatement := by
  have hword : WritesSome NotEquals x.MayBegin (write "for range ") := by
    refine .write Text.word_forRange ?_ fun _ _ => Or.inl (Text.word_forRange.fits_blank ?_)
    · rintro d ⟨⟩
      exact notEquals_keyword .For
    · rintro l ⟨⟩
      decide
  rw [WritesStatement, emitted_rangeAll]
  exact ((hword.append hx).append (WritesSome.braced hy (by decide))).statement rfl

theorem WritesOperand.rangeStmt {k : Category} {z : Tree} {value : Option Tree} {o : Operator}
    (hbuilt : Built k z) (hvalue : ∀ t ∈ value, Built k t) (ho : Grammar.bindsRange (.op o) = true)
    (hz : z.WritesOperand) (ihvalue : ∀ t ∈ value, t.WritesOperand) (hx : x.WritesOperand)
    (hy : y.WritesBlock) :
    (Tree.rangeStmt p z (.ofOption value) (.token (.op o)) x y).WritesStatement := by
  rw [WritesStatement, emitted_rangeStmt _ _ _ _ _ _ hbuilt.isAbsent]
  have hvalue' : WritesPieces EndsName EndsName _ :=
    WritesPieces.optional (f := fun t => operator .Comma ++ t.emittedAs .expression) fun t ht =>
      ⟨(hvalue t ht).isAbsent, (WritesSome.mark rfl (by decide)).append (ihvalue t ht).any⟩
  have hoperator : WritesSome EndsName (· = Keyword.head .Range) (operator o) := by
    refine WritesSome.operator o.continuesName_head ?_
    rintro d rfl
    revert ho
    cases o <;> decide
  have hvars := ((WritesSome.spaced (notEquals_keyword .For)).append hz).append_pieces hvalue' fun _ h => h
  have hheader := ((hvars.append hoperator).append (WritesSome.spaced rfl)).append hx
  exact (hheader.append (WritesSome.braced hy (by decide))).statement rfl

theorem writesStatement_caseClause {values body : List Tree} (hvalues : ∀ t ∈ values, t.WritesOperand)
    (hbody : WritesPieces NotEquals EndsStatement (emittedStatements body)) :
    (Tree.caseClause p (.tuple values) (.tuple body)).WritesStatement := by
  rw [WritesStatement, emitted_caseClause]
  refine pieces_clause ?_ (by cases body <;> rfl) hbody
  split
  · exact pieces_default
  · exact ((WritesSome.spaced (notEquals_keyword _)).append_any (pieces_items hvalues)).append
      (WritesSome.colon (by decide))

theorem writesStatement_commClause {k : Category} {comm : Option Tree} {body : List Tree}
    (hbuilt : ∀ t ∈ comm, Built k t) (hcomm : ∀ t ∈ comm, t.WritesSimple)
    (hbody : WritesPieces NotEquals EndsStatement (emittedStatements body)) :
    (Tree.commClause p (.ofOption comm) (.tuple body)).WritesStatement := by
  rw [WritesStatement, emitted_commClause]
  refine pieces_clause ?_ (by cases body <;> rfl) hbody
  cases comm with
  | none => exact pieces_default
  | some t =>
      rw [ofOption_some, if_neg (by simp [(hbuilt t rfl).isAbsent])]
      exact ((WritesSome.spaced (notEquals_keyword _)).append (hcomm t rfl)).append
        (WritesSome.colon (by decide))

theorem pieces_importSpec {path : Tree} {name : Option Tree} (hname : ∀ t ∈ name, Built .name t)
    (hpath : Built .text path) :
    WritesSome AnyChar EndsName ((Tree.importSpec p (.ofOption name) path).emittedAs .spec) := by
  have hname' : WritesPieces AnyChar BeginsText _ := WritesPieces.optional (f := Rule.nameOf) fun t ht =>
    ⟨(hname t ht).isAbsent, (pieces_name (hname t ht)).any.mono (fun _ h => h) fun _ h => h.endsName⟩
  rw [emitted_importSpec]
  exact hname'.append_some (pieces_literal hpath) fun _ _ => trivial

theorem pieces_importAll {q path : Tree} (hpath : Built .text path) :
    WritesSome AnyChar EndsName ((Tree.importSpec p (.ident q (.text ".")) path).emittedAs .spec) := by
  rw [emitted_importSpec]
  refine WritesSome.append (M := BeginsText) (WritesSome.operator (o := .Period) trivial ?_)
    (pieces_literal hpath)
  rintro d (rfl | rfl) <;> decide

theorem pieces_values {values : List Tree} (h : ∀ t ∈ values, t.WritesOperand) :
    WritesPieces EndsName EndsName (emittedValues values) := by
  cases values with
  | nil => exact .nothing
  | cons y ys => exact (pieces_listAfter (by decide) h).toWritesPieces

theorem pieces_valueSpec {k : Category} {names values : List Tree} {typ : Option Tree} (hne : names ≠ [])
    (hnames : ∀ n ∈ names, Built .name n) (htyp : ∀ t ∈ typ, Built k t)
    (ihtyp : ∀ t ∈ typ, t.WritesOperand) (hvalues : ∀ t ∈ values, t.WritesOperand) :
    WritesSome AnyChar EndsName
      ((Tree.valueSpec p (.tuple names) (.ofOption typ) (.tuple values)).emittedAs .spec) := by
  obtain ⟨n, ns, rfl⟩ := List.exists_cons_of_ne_nil hne
  have htyp' : WritesPieces EndsName EndsName _ :=
    WritesPieces.optional (f := fun t => blank ++ t.emittedAs .expression) fun t ht =>
      ⟨(htyp t ht).isAbsent, (WritesSome.blank (by decide)).append (ihtyp t ht)⟩
  rw [emitted_valueSpec]
  exact ((pieces_names hnames).append_pieces htyp' fun _ h => h).append_pieces (pieces_values hvalues)
    fun _ h => h

theorem pieces_typeSpec {name : Tree} {isAlias : Bool} (hname : Built .name name) (hx : x.WritesOperand) :
    WritesSome AnyChar EndsName ((Tree.typeSpec p name x .absent (.flag isAlias)).emittedAs .spec) := by
  have hstart := (pieces_name hname).any.append_pieces
    (WritesPieces.nothing (P := EndsName) (Q := EndsName)) fun _ h => h
  rw [emitted_typeSpec]
  cases isAlias with
  | true => exact (hstart.append (WritesSome.equals (by decide))).append hx.notEquals
  | false => exact (hstart.append (WritesSome.blank (by decide))).append hx

theorem pieces_genericSpec {k : Category} {name params : Tree} {isAlias : Bool} (hname : Built .name name)
    (hbuilt : Built k params) (hparams : params.WritesFields) (hx : x.WritesOperand) :
    WritesSome AnyChar EndsName ((Tree.typeSpec p name x params (.flag isAlias)).emittedAs .spec) := by
  rw [emitted_typeSpec, emittedIf_of hbuilt.isAbsent]
  have hcomma : WritesPieces EndsName EndsName (when params.readsAsLength (operator .Comma)) :=
    WritesPieces.when fun _ => .mark rfl (by decide)
  have hopening : WritesSome EndsName AnyChar (operator .LBrack) := .mark rfl (by decide)
  have hbrackets := ((hopening.append_any hparams).append_pieces hcomma fun _ h => h).close
    (Q := AnyChar) (o := .RBrack) rfl
  have hopen := (pieces_name hname).any.append hbrackets
  cases isAlias with
  | true => exact (hopen.append (WritesSome.equals trivial)).append hx.notEquals
  | false =>
      rw [hbuilt.isAbsent]
      exact (hopen.append_pieces WritesPieces.nothing fun _ h => h).append hx.any

theorem pieces_genDecl {k : Keyword} {specs : List Tree} {grouped : Bool}
    (hsingle : grouped = false → specs.length = 1)
    (h : ∀ t ∈ specs, WritesSome AnyChar EndsName (t.emittedAs .spec)) :
    WritesSome NotEquals EndsName
      ((Tree.genDecl p (.token (.word k)) (.tuple specs) (.flag grouped)).emittedAs .declaration) := by
  cases grouped with
  | true =>
      rw [emitted_grouped]
      have hspecs := pieces_separated (o := .Semicolon) h rfl
      exact (WritesSome.keyword (notEquals_keyword _) fun _ h => h).append
        (((WritesSome.mark rfl (by decide)).append_any hspecs).close rfl)
  | false =>
      obtain ⟨spec, rfl⟩ := List.length_eq_one_iff.mp (hsingle rfl)
      rw [emitted_genDecl]
      exact (WritesSome.keyword (notEquals_keyword _) fun _ h => h).append
        ((WritesSome.blank (by decide)).append (h spec (by simp)))

theorem pieces_funcDecl {j k : Category} {q name params : Tree} {recv results typeParams body : Option Tree}
    {funcKeyword : Tree} (hrecv : ∀ t ∈ recv, Built j t) (hname : Built .name name)
    (htypeParams : ∀ t ∈ typeParams, t.isAbsent = false ∧ t.WritesFields)
    (hresults : ∀ t ∈ results, Built k t) (hbody : ∀ t ∈ body, t.isAbsent = false ∧ t.WritesBlock)
    (ihrecv : ∀ t ∈ recv, t.WritesFields) (hparams : params.WritesFields)
    (ihresults : ∀ t ∈ results, WritesPieces AnyChar EndsName (t.emittedAs .results)) :
    WritesSome NotEquals EndsName ((Tree.funcDecl p (.ofOption recv) name (.funcType q params
      (.ofOption results) (.ofOption typeParams) funcKeyword) (.ofOption body)).emittedAs .declaration) := by
  have hsignature := pieces_signature typeParams hparams hresults ihresults htypeParams
  have hbody' : WritesPieces EndsName EndsName _ := WritesPieces.optional (f := (·.emittedAs .block))
    fun t ht => ⟨(hbody t ht).1, WritesSome.braced (hbody t ht).2 (by decide)⟩
  rw [emitted_funcDecl]
  refine WritesSome.append_pieces (WritesSome.append (WritesSome.append (M := NotEquals) ?_
    (pieces_name hname)) hsignature) hbody' fun _ h => h
  cases recv with
  | none => exact .spaced (notEquals_keyword _)
  | some t =>
      rw [ofOption_some, if_neg (by simp [(hrecv t rfl).isAbsent])]
      exact ((WritesSome.opening rfl (notEquals_keyword _)).append_any (ihrecv t rfl)).close rfl

end Tree

theorem Built.separates {k : Category} {t : Tree} {role : Role} (h : Built k t) (hrole : k.Takes role) :
    k.Separates t (t.emittedAs role) := by
  induction h generalizing role with
  | name h =>
      cases hrole
      exact .name h fun d hd => mayBegin_of_not_joins (h.head_of_isLiteral rfl d hd)
  | text h =>
      cases hrole
      exact .literal h fun d hd => mayBegin_of_not_joins (h.head_of_isLiteral rfl d hd)
  | ident h =>
      cases hrole
      exact .name h fun d hd => mayBegin_of_not_joins (h.head_of_isLiteral rfl d hd)
  | literal h =>
      cases hrole
      exact .literal h fun d hd => mayBegin_of_not_joins (h.head_of_isLiteral rfl d hd)
  | paren _ ih =>
      cases hrole
      rw [emitted_paren]
      exact ((WritesSome.mark rfl (mayBegin_mark rfl)).append (ih rfl)).close rfl
  | selector _ _ hsel ih _ =>
      cases hrole
      exact WritesOperand.selector (ih rfl) hsel
  | index _ _ _ _ _ ih ihfirst ihothers =>
      cases hrole
      exact WritesOperand.index (ih rfl) (List.forall_mem_cons.mpr
        ⟨ihfirst rfl, fun t ht => ihothers t ht rfl⟩)
  | slice _ _ hlow hhigh hmax _ ih ihlow ihhigh ihmax =>
      cases hrole
      exact WritesOperand.slice (ih rfl) hlow hhigh hmax (fun t ht => ihlow t ht rfl)
        (fun t ht => ihhigh t ht rfl) fun t ht => ihmax t ht rfl
  | typeAssert _ _ htyp _ ih ihtyp =>
      cases hrole
      exact WritesOperand.typeAssert (ih rfl) htyp fun t ht => ihtyp t ht rfl
  | call _ _ _ _ ih ihargs =>
      cases hrole
      exact WritesOperand.call (ih rfl) fun t ht => ihargs t ht rfl
  | compositeLit htyp _ _ ih ihelts =>
      cases hrole
      exact WritesOperand.compositeLit htyp (ih rfl) fun t ht => ihelts t ht rfl
  | funcLit _ hresults _ ihparams ihresults ihbody =>
      cases hrole
      rw [emitted_funcLit]
      have hsignature := pieces_signature none (ihparams (Or.inl rfl)) hresults
        (fun t ht => ihresults t ht (Or.inr rfl)) (by simp)
      exact ((WritesSome.keyword (mayBegin_keyword _) fun _ h => h).append hsignature).append
        (WritesSome.braced (ihbody (Or.inl rfl)).1 (by decide))
  | unary ho _ _ _ ih =>
      cases hrole
      exact WritesOperand.unary ho (ih rfl)
  | star _ _ ih =>
      cases hrole
      rw [emitted_star]
      exact pieces_operator (by decide) (mayBegin_of_leading rfl (by decide)) (ih rfl)
  | binary ho _ _ _ _ ihx ihy =>
      cases hrole
      exact WritesOperand.binary (by rintro rfl; cases ho) (ihx rfl) (ihy rfl)
  | arrayType hlen _ _ ihlen ihelt =>
      cases hrole
      have hlen' := pieces_optional hlen fun t ht => ihlen t ht rfl
      rw [emitted_arrayType]
      exact (((WritesSome.mark rfl (mayBegin_mark rfl)).append_any hlen').close rfl).append (ihelt rfl)
  | mapType _ _ _ _ ihkey ihvalue =>
      cases hrole
      rw [emitted_mapType]
      exact (((WritesSome.opening rfl (mayBegin_keyword _)).append (ihkey rfl)).close rfl).append
        (ihvalue rfl)
  | chanType hd _ _ _ ih =>
      cases hrole
      exact WritesOperand.chanType hd (ih rfl)
  | funcType _ hresults ihparams ihresults =>
      cases hrole
      rw [emitted_funcType]
      have hsignature := pieces_signature none (ihparams (Or.inl rfl)) hresults
        (fun t ht => ihresults t ht (Or.inr rfl)) (by simp)
      exact (WritesSome.keyword (mayBegin_keyword _) fun _ h => h).append hsignature
  | structType _ ih =>
      cases hrole
      rw [emitted_structType]
      have hfields := pieces_separated (o := .Semicolon) (fun t ht => ih t ht rfl) rfl
      exact ((WritesSome.opening rfl (mayBegin_keyword _)).append_any hfields).close rfl
  | interfaceType _ ih =>
      cases hrole
      rw [emitted_interfaceType]
      have hfields := pieces_separated (o := .Semicolon) (fun t ht => ih t ht rfl) rfl
      exact ((WritesSome.opening rfl (mayBegin_keyword _)).append_any hfields).close rfl
  | openLength =>
      cases hrole
      exact writesOperand_ellipsis
  | length _ ih => exact ih hrole
  | element _ ih => exact ih hrole
  | bareLiteral _ ihelts =>
      cases hrole
      exact writesOperand_bareLiteral fun t ht => ihelts t ht rfl
  | keyValue _ _ _ _ ihkey ihvalue =>
      cases hrole
      exact WritesOperand.keyValue (ihkey rfl) (ihvalue rfl)
  | fieldType _ ih => exact ih hrole
  | variadic h _ ih =>
      cases hrole
      rw [emitted_ellipsis, emittedIf_of h.isAbsent]
      exact (WritesSome.mark rfl (mayBegin_mark rfl)).append (ih rfl)
  | openIndex _ _ _ ih ihothers =>
      cases hrole
      exact WritesOperand.index (ih rfl) (List.forall_mem_cons.mpr
        ⟨writesOperand_ellipsis, fun t ht => ihothers t ht rfl⟩)
  | openUnion _ _ _ _ ihx ihy =>
      cases hrole
      exact WritesOperand.binary (by decide) (ihx rfl) (ihy rfl)
  | unnamedField _ _ ih =>
      cases hrole
      exact pieces_field [] none (by simp) (ih rfl) (by simp)
  | namedField _ hnames _ _ _ ih =>
      cases hrole
      exact pieces_field _ none hnames (ih rfl) (by simp)
  | unnamedList hfields ih =>
      exact pieces_fieldList hrole (fun t ht => Built.isField (Or.inl (hfields t ht)))
        fun t ht => ih t ht rfl
  | namedList hfields ih =>
      exact pieces_fieldList hrole (fun t ht => Built.isField (Or.inr (hfields t ht)))
        fun t ht => ih t ht rfl
  | @unnamedTypeParameters _ q _ _ _ _ _ ih ihfields =>
      cases hrole
      have hfirst := pieces_field (p := q) [] none (by simp) (ih rfl) (by simp)
      rw [emitted_fieldList]
      exact pieces_separated (o := .Comma) (List.forall_mem_cons.mpr
        ⟨hfirst, fun t ht => ihfields t ht rfl⟩) rfl
  | namedTypeParameters _ _ ih =>
      cases hrole
      rw [emitted_fieldList]
      exact pieces_separated (o := .Comma) (fun t ht => ih t ht rfl) rfl
  | @takenApart _ q name t _ hname _ _ _ _ ih ihfields =>
      cases hrole
      have hfirst := pieces_field (p := q) [name] none (by simpa using hname)
        (ih rfl) (by simp)
      rw [emitted_fieldList]
      exact pieces_separated (o := .Comma) (List.forall_mem_cons.mpr
        ⟨hfirst, fun t ht => ihfields t ht rfl⟩) rfl
  | embeddedField _ _ htag ih _ =>
      cases hrole
      exact pieces_field [] _ (by simp) (ih rfl) htag
  | structField _ hnames _ _ htag _ ih _ =>
      cases hrole
      exact pieces_field _ _ hnames (ih rfl) htag
  | method hname _ hresults _ ihparams ihresults =>
      cases hrole
      have hsignature := pieces_signature none (ihparams (Or.inl rfl)) hresults
        (fun t ht => ihresults t ht (Or.inr rfl)) (by simp)
      rw [emitted_method]
      exact (pieces_name hname).any.append hsignature
  | embeddedUnion _ _ ih =>
      cases hrole
      rw [emitted_embedded]
      exact (ih rfl).any
  | exprStmt _ ih =>
      cases hrole
      rw [emitted_exprStmt]
      exact (ih rfl).notEquals
  | assign hlne _ ho hrne _ ihlhs ihrhs =>
      cases hrole
      exact writesSimple_assign (by rintro rfl; cases ho) hlne hrne (fun t ht => ihlhs t ht rfl)
        fun t ht => ihrhs t ht rfl
  | send _ _ ihchan ihvalue =>
      cases hrole
      rw [emitted_send]
      exact (ihchan rfl).notEquals.append (pieces_operator (by decide) (by decide) (ihvalue rfl))
  | incDec _ ho ih =>
      cases hrole
      exact WritesOperand.incDec ho (ih rfl)
  | block _ _ _ ih =>
      refine ⟨writesBlock hrole fun t ht => ih t ht rfl, ?_⟩
      rintro p ts heq
      cases heq
      exact pieces_body fun t ht => ih t ht rfl
  | simpleStmt h ih => exact (ih hrole).statement (by cases h <;> rfl)
  | labeled hlabel _ _ ih =>
      cases hrole
      exact WritesStatement.labeled hlabel (ih rfl)
  | emptyStmt =>
      cases hrole
      rw [emitted_emptyStmt]
      exact WritesPieces.when fun _ => .mark rfl (by decide)
  | declStmt _ _ ih =>
      cases hrole
      rw [emitted_declStmt]
      exact (ih rfl).statement rfl
  | goStmt _ _ ih =>
      cases hrole
      rw [emitted_goStmt]
      exact ((WritesSome.spaced (notEquals_keyword _)).append (ih rfl)).statement rfl
  | deferStmt _ _ ih =>
      cases hrole
      rw [emitted_deferStmt]
      exact ((WritesSome.spaced (notEquals_keyword _)).append (ih rfl)).statement rfl
  | returnStmt _ ih =>
      cases hrole
      exact writesStatement_returnStmt fun t ht => ih t ht rfl
  | branch _ hlabel _ _ =>
      cases hrole
      exact writesStatement_branch hlabel
  | blockStmt h ih =>
      exact (WritesSome.braced (ih (Or.inr hrole)).1 (by decide)).statement (by cases h; rfl)
  | ifStmt hinit _ _ _ helse hkind ihinit ihcond ihbody ihelse =>
      cases hrole
      exact WritesOperand.ifStmt hinit helse hkind (fun t ht => ihinit t ht rfl) (ihcond rfl)
        (ihbody (Or.inl rfl)).1 fun t ht => ihelse t ht rfl
  | switchStmt hinit htag _ _ _ _ ihinit ihtag ihclauses =>
      cases hrole
      exact writesStatement_switchStmt hinit htag (fun t ht => ihinit t ht rfl)
        (fun t ht => ihtag t ht rfl) fun t ht => ihclauses t ht rfl
  | typeSwitch hinit _ _ _ _ ihinit ihguard ihclauses =>
      cases hrole
      exact WritesSimple.typeSwitch hinit (fun t ht => ihinit t ht rfl) (ihguard rfl)
        fun t ht => ihclauses t ht rfl
  | @selectStmt _ q _ _ _ ihclauses =>
      cases hrole
      rw [emitted_selectStmt]
      exact ((WritesSome.keyword (notEquals_keyword _) fun _ h => h).append
        (pieces_clauses q fun t ht => ihclauses t ht rfl)).statement rfl
  | forStmt hinit hcond hpost _ _ ihinit ihcond ihpost ihbody =>
      cases hrole
      rw [emitted_forStmt]
      have hloop := pieces_loop hinit hcond hpost (fun t ht => ihinit t ht rfl)
        (fun t ht => ihcond t ht rfl) fun t ht => ihpost t ht rfl
      exact (hloop.append (WritesSome.braced (ihbody (Or.inl rfl)).1 (by decide))).statement rfl
  | rangeAll _ _ _ ih ihbody =>
      cases hrole
      exact WritesOperand.rangeAll (ih rfl) (ihbody (Or.inl rfl)).1
  | rangeStmt hkey hvalue ho _ _ _ ihkey ihvalue ih ihbody =>
      cases hrole
      exact WritesOperand.rangeStmt hkey hvalue ho (ihkey rfl) (fun t ht => ihvalue t ht rfl) (ih rfl)
        (ihbody (Or.inl rfl)).1
  | caseClause _ _ _ ihvalues ihbody =>
      cases hrole
      exact writesStatement_caseClause (fun t ht => ihvalues t ht rfl)
        ((ihbody (Or.inl rfl)).2 _ _ rfl)
  | commClause hcomm _ _ ihcomm ihbody =>
      cases hrole
      exact writesStatement_commClause hcomm (fun t ht => ihcomm t ht rfl)
        ((ihbody (Or.inl rfl)).2 _ _ rfl)
  | importSpec hname hpath _ _ =>
      cases hrole
      exact pieces_importSpec hname hpath
  | importAll hpath _ =>
      cases hrole
      exact pieces_importAll hpath
  | valueSpec _ hne hnames htyp _ _ _ _ ihtyp ihvalues =>
      cases hrole
      exact pieces_valueSpec hne hnames htyp (fun t ht => ihtyp t ht rfl) fun t ht => ihvalues t ht rfl
  | typeSpec hname _ _ _ _ ih =>
      cases hrole
      exact pieces_typeSpec hname (ih rfl)
  | genericSpec hname _ _ hparams _ ih ihparams =>
      cases hrole
      exact pieces_genericSpec hname hparams (ihparams rfl) (ih rfl)
  | genDecl _ _ hsingle ih =>
      cases hrole
      exact pieces_genDecl hsingle fun t ht => ih t ht rfl
  | funcDecl hrecv hname htypeParams _ _ hresults hbody ihrecv _ ihtypeParams ihparams ihresults ihbody =>
      cases hrole
      exact pieces_funcDecl hrecv hname
        (fun t ht => ⟨(htypeParams t ht).isAbsent, ihtypeParams t ht (Or.inl rfl)⟩) hresults
        (fun t ht => ⟨(hbody t ht).isAbsent, (ihbody t ht (Or.inl rfl)).1⟩)
        (fun t ht => ihrecv t ht (Or.inl rfl)) (ihparams (Or.inl rfl))
        fun t ht => ihresults t ht (Or.inr rfl)
  | file hpackage _ _ ih =>
      cases hrole
      rw [emitted_file]
      have hdecls := pieces_separated (o := .Semicolon) (fun t ht => ih t ht rfl) rfl
      exact (((WritesSome.spaced trivial).append (pieces_name hpackage)).close rfl).append_any hdecls

end GoCompact
