import GoCompact.Layout.Render
import GoCompact.Proofs.Lexing.Pieces

namespace GoCompact

namespace Emission

variable {a b : Emission}

@[simp]
theorem fault_nothing : nothing.fault = none := rfl

@[simp]
theorem writes_nothing : nothing.writes = [] := rfl

@[simp]
theorem fault_write (s : Text) : (write s).fault = none := rfl

@[simp]
theorem writes_write (s : Text) : (write s).writes = [s] := rfl

theorem hasSize_of_joins {w : Write} (h : w.joins) : w.hasSize := by
  cases w with
  | text s => rfl
  | other t => simp [Write.hasSize, eq_of_beq h]

-- What is written without a fault comes to an end, and each write can stand among the texts.
theorem fault_eq_none : a.fault = none ↔ a.ending = none ∧ ∀ w ∈ a.made, w.joins := by
  unfold fault
  constructor
  · intro h
    split at h
    · cases hending : a.ending <;> simp_all
    · cases h
  · rintro ⟨hending, hjoins⟩
    rw [if_pos (List.all_eq_true.mpr fun w hw => hasSize_of_joins (hjoins w hw)), hending,
      if_pos (List.all_eq_true.mpr hjoins)]
    rfl

theorem append_eq (h : a.ending = none) : a ++ b = ⟨a.made ++ b.made, b.ending⟩ := by
  change andThen a b = _
  rw [andThen, h]

theorem append_of_ending {f : RenderFault} (h : a.ending = some f) : a ++ b = a := by
  change andThen a b = _
  rw [andThen, h]

theorem fault_append (h : a.fault = none) : (a ++ b).fault = b.fault := by
  obtain ⟨hending, hjoins⟩ := fault_eq_none.mp h
  have hsizes : a.made.all Write.hasSize = true :=
    List.all_eq_true.mpr fun w hw => hasSize_of_joins (hjoins w hw)
  have hjoins : a.made.all Write.joins = true := List.all_eq_true.mpr hjoins
  simp only [append_eq hending, fault, List.all_append, hsizes, hjoins, Bool.true_and]

theorem writes_append (h : a.fault = none) : (a ++ b).writes = a.writes ++ b.writes := by
  rw [append_eq (fault_eq_none.mp h).1, writes, List.map_append, writes, writes]

-- What begins something that is written without a fault is written without one itself.
theorem fault_of_append (h : (a ++ b).fault = none) : a.fault = none := by
  cases hending : a.ending with
  | some f => rwa [append_of_ending hending] at h
  | none =>
      rw [append_eq hending] at h
      exact fault_eq_none.mpr ⟨hending, (List.forall_mem_append.mp (fault_eq_none.mp h).2).1⟩

@[simp]
theorem nothing_append (e : Emission) : nothing ++ e = e := rfl

@[simp]
theorem append_nothing (e : Emission) : e ++ nothing = e := by
  obtain ⟨made, ending⟩ := e
  cases ending with
  | none => rw [append_eq rfl, nothing, List.append_nil]
  | some f => exact append_of_ending rfl

theorem append_assoc (a b c : Emission) : a ++ b ++ c = a ++ (b ++ c) := by
  cases ha : a.ending with
  | some f => rw [append_of_ending ha, append_of_ending ha, append_of_ending ha]
  | none =>
      cases hb : b.ending with
      | some f => rw [append_of_ending hb, append_of_ending (by rw [append_eq ha, hb])]
      | none =>
          rw [append_eq ha, append_eq hb, append_eq (by rw [hb]), append_eq ha, List.append_assoc]

-- An operator, a keyword, a keyword with a blank after it or an operator, and a blank.
def operator (o : Operator) : Emission := write o.spelling

def keyword (k : Keyword) : Emission := write k.spelling

def spaced (k : Keyword) : Emission := write (k.spelling ++ " ")

def joined (k : Keyword) (o : Operator) : Emission := write (k.spelling ++ o.spelling)

def blank : Emission := write " "

-- The beginning of a type assertion.
def assertion : Emission := write ".("

@[simp]
theorem fault_operator (o : Operator) : (operator o).fault = none := rfl

@[simp]
theorem fault_keyword (k : Keyword) : (keyword k).fault = none := rfl

@[simp]
theorem fault_spaced (k : Keyword) : (spaced k).fault = none := rfl

@[simp]
theorem fault_joined (k : Keyword) (o : Operator) : (joined k o).fault = none := rfl

@[simp]
theorem fault_blank : blank.fault = none := rfl

@[simp]
theorem fault_assertion : assertion.fault = none := rfl

@[simp]
theorem fault_when {condition : Bool} (h : a.fault = none) : (when condition a).fault = none := by
  cases condition
  · rfl
  · exact h

-- What follows the last of several emissions may be taken out of them.
theorem separated_append_right (separator : Text) (es : List Emission) (a b : Emission) :
    separated separator (es ++ [a ++ b]) = separated separator (es ++ [a]) ++ b := by
  induction es with
  | nil => rfl
  | cons e es ih =>
      cases es with
      | nil => simp [separated, append_assoc]
      | cons f es =>
          simp only [List.cons_append, separated] at ih ⊢
          rw [ih]
          simp only [append_assoc]

theorem separated_cons (separator : Text) (e : Emission) {es : List Emission} (h : es ≠ []) :
    separated separator (e :: es) = e ++ (write separator ++ separated separator es) := by
  cases es with
  | nil => exact absurd rfl h
  | cons f es => rfl

theorem separated_append (separator : Text) {es fs : List Emission} (hes : es ≠ [])
    (hfs : fs ≠ []) :
    separated separator (es ++ fs) =
      separated separator es ++ (write separator ++ separated separator fs) := by
  induction es with
  | nil => exact absurd rfl hes
  | cons e es ih =>
      cases es with
      | nil => exact separated_cons separator e hfs
      | cons e' es =>
          simp only [List.cons_append, separated] at ih ⊢
          rw [ih (by simp)]
          simp only [append_assoc]

-- The lexemes that are written.
def words (e : Emission) : List Lexeme := e.writes.flatMap Text.lexemes

@[simp]
theorem words_nothing : nothing.words = [] := rfl

@[simp]
theorem words_write (s : Text) : (write s).words = Text.lexemes s := by
  simp [words]

theorem words_append (h : a.fault = none) : (a ++ b).words = a.words ++ b.words := by
  simp only [words, writes_append h, List.flatMap_append]

end Emission

namespace Tree

open Emission

theorem parts_eq_map (ts : List Tree) : parts ts = ts.map fun t => ⟨t, t.emittedAs⟩ := by
  induction ts with
  | nil => rfl
  | cons t ts ih => rw [parts, ih, List.map_cons]

-- What follows an operand is written after it. A chain of operators is followed down its left sides.
theorem emitted_operand (t : Tree) (rest : Emission) :
    t.emittedAs (.operand rest) = t.emittedAs .expression ++ rest := by
  generalize hn : sizeOf t = n
  induction n using Nat.strongRecOn generalizing t rest with
  | ind n ih =>
      cases t with
      | node k p fields =>
          simp only [emittedAs, Rule.node, Rule.operand]
          split
          · rename_i x op y hparts
            rw [parts_eq_map] at hparts
            match fields, hparts with
            | [x', op', y'], hparts =>
                simp only [List.map_cons, List.cons.injEq] at hparts
                obtain ⟨rfl, rfl, rfl, -⟩ := hparts
                have hx : ∀ e : Emission,
                    x'.emittedAs (.operand e) = x'.emittedAs .expression ++ e :=
                  fun e => ih (sizeOf x') (by simp at hn; omega) x' e rfl
                dsimp only
                rw [hx, ← append_assoc, ← hx]
                rfl
          · rfl
      | _ => rfl

theorem emitted_ident (p : Tree) (s : Text) :
    (Tree.ident p (.text s)).emittedAs .expression = write s :=
  rfl

theorem emitted_paren (p x : Tree) :
    (Tree.paren p x).emittedAs .expression = operator .LParen ++ x.emittedAs .expression ++ operator .RParen :=
  rfl

-- An operand after an operator.
def emittedAfter (o : Operator) (x : Tree) : Emission :=
  operator o ++ when (x.needsBlank o.spelling) blank ++ x.emittedAs .expression

theorem emitted_unary (p x : Tree) (o : Operator) :
    (Tree.unary p (.token (.op o)) x).emittedAs .expression = x.emittedAfter o :=
  rfl

theorem emitted_star (p x : Tree) :
    (Tree.star p x).emittedAs .expression = x.emittedAfter .Mul :=
  rfl

theorem emitted_binary (p x y : Tree) (o : Operator) :
    (Tree.binary p x (.token (.op o)) y).emittedAs .expression =
      x.emittedAs .expression ++ y.emittedAfter o := by
  rw [← emitted_operand]
  rfl

theorem emitted_selector (p x q : Tree) (s : Text) :
    (Tree.selector p x (.ident q (.text s))).emittedAs .expression =
      x.emittedAs .expression ++ operator .Period ++ write s :=
  rfl

-- A list of expressions.
def emittedList (ts : List Tree) : Emission := separated "," (ts.map (·.emittedAs .expression))

theorem emitted_tuple (ts : List Tree) :
    (Tree.tuple ts).emittedAs (.each .expression) = emittedList ts := by
  simp only [emittedAs, Rule.tuple, Rule.sequence, parts_eq_map, List.map_map]
  rfl

theorem emitted_index (p x : Tree) (ts : List Tree) :
    (Tree.index p x (.tuple ts)).emittedAs .expression =
      x.emittedAs .expression ++ operator .LBrack ++ emittedList ts ++ operator .RBrack := by
  rw [← emitted_tuple]
  rfl

-- A part that may be left out.
def emittedIf (t : Tree) (e : Emission) : Emission := when (!t.isAbsent) e

theorem emitted_slice (p x low high max : Tree) :
    (Tree.slice p x low high max).emittedAs .expression =
      x.emittedAs .expression ++ operator .LBrack ++ low.emittedIf (low.emittedAs .expression) ++
        operator .Colon ++ high.emittedIf (high.emittedAs .expression) ++
        max.emittedIf (operator .Colon ++ max.emittedAs .expression) ++ operator .RBrack :=
  rfl

theorem emitted_typeAssert (p x typ : Tree) :
    (Tree.typeAssert p x typ).emittedAs .expression =
      x.emittedAs .expression ++ assertion ++
        (if typ.isAbsent then keyword .Type else typ.emittedAs .expression) ++ operator .RParen :=
  rfl

theorem emitted_call (p x : Tree) (args : List Tree) (spread : Bool) :
    (Tree.call p x (.tuple args) (.flag spread)).emittedAs .expression =
      x.emittedAs .expression ++ operator .LParen ++ emittedList args ++ when spread (operator .Ellipsis) ++
        operator .RParen := by
  rw [← emitted_tuple]
  rfl

theorem emitted_compositeLit (p typ : Tree) (elts : List Tree) :
    (Tree.compositeLit p typ (.tuple elts)).emittedAs .expression =
      typ.emittedIf (typ.emittedAs .expression) ++ operator .LBrace ++ emittedList elts ++
        operator .RBrace := by
  rw [← emitted_tuple]
  rfl

theorem emitted_keyValue (p key value : Tree) :
    (Tree.keyValue p key value).emittedAs .expression =
      key.emittedAs .expression ++ operator .Colon ++ value.emittedAs .expression :=
  rfl

-- Parameters and results, with the type parameters before them.
def emittedSignature (params results typeParams : Tree) : Emission :=
  typeParams.emittedIf (operator .LBrack ++ typeParams.emittedAs (.fieldList ",") ++ operator .RBrack) ++
    operator .LParen ++ params.emittedAs (.fieldList ",") ++ operator .RParen ++
    results.emittedIf (results.emittedAs .results)

theorem emitted_funcType (p params results typeParams : Tree) (funcKeyword : Bool) :
    (Tree.funcType p params results typeParams (.flag funcKeyword)).emittedAs .expression =
      when funcKeyword (keyword .Func) ++ emittedSignature params results typeParams :=
  rfl

theorem emitted_funcLit (p q params results typeParams funcKeyword body : Tree) :
    (Tree.funcLit p (.funcType q params results typeParams funcKeyword) body).emittedAs
        .expression =
      keyword .Func ++ emittedSignature params results typeParams ++ body.emittedAs .block :=
  rfl

theorem emitted_ellipsis (p elt : Tree) :
    (Tree.ellipsis p elt).emittedAs .expression =
      operator .Ellipsis ++ elt.emittedIf (elt.emittedAs .expression) :=
  rfl

theorem emitted_arrayType (p len elt : Tree) :
    (Tree.arrayType p len elt).emittedAs .expression =
      operator .LBrack ++ len.emittedIf (len.emittedAs .expression) ++ operator .RBrack ++
        elt.emittedAs .expression :=
  rfl

theorem emitted_mapType (p key value : Tree) :
    (Tree.mapType p key value).emittedAs .expression =
      joined .Map .LBrack ++ key.emittedAs .expression ++ operator .RBrack ++ value.emittedAs .expression :=
  rfl

theorem emitted_chanType (p value : Tree) (d : Direction) :
    (Tree.chanType p (.direction d) value).emittedAs .expression =
      Rule.channelMark ⟨.direction d, (Tree.direction d).emittedAs⟩ ++
        value.emittedAs .expression :=
  rfl

theorem fault_channelMark {d : Direction} (h : d ≠ .neither) (f : Role → Emission) :
    (Rule.channelMark ⟨.direction d, f⟩).fault = none := by
  cases d with
  | neither => exact absurd rfl h
  | _ => rfl

-- Fields with a separator between them.
def emittedFields (separator : Text) (fields : List Tree) : Emission :=
  separated separator (fields.map (·.emittedAs .field))

theorem emitted_fieldList (p : Tree) (fields : List Tree) (separator : Text) :
    (Tree.fieldList p (.tuple fields)).emittedAs (.fieldList separator) =
      emittedFields separator fields := by
  change Rule.sequence (.field separator) (parts fields) = _
  simp only [Rule.sequence, parts_eq_map, List.map_map]
  rfl

theorem emitted_methods (p : Tree) (fields : List Tree) :
    (Tree.fieldList p (.tuple fields)).emittedAs .methods =
      separated ";" (fields.map (·.emittedAs .interfaceElement)) := by
  change Rule.sequence .interfaceElement (parts fields) = _
  simp only [Rule.sequence, parts_eq_map, List.map_map]
  rfl

-- A single result without a name stands alone, and all others in parentheses.
theorem emitted_lone (p q typ tag : Tree) :
    (Tree.fieldList p (.tuple [.field q (.tuple []) typ tag])).emittedAs .results =
      typ.emittedAs .expression :=
  rfl

theorem emitted_results (p : Tree) (fields : List Tree)
    (h : ∀ q typ tag, fields ≠ [.field q (.tuple []) typ tag])
    (hfields : ∀ t ∈ fields, ∃ q names typ tag, t = .field q (.tuple names) typ tag) :
    (Tree.fieldList p (.tuple fields)).emittedAs .results =
      operator .LParen ++ emittedFields "," fields ++ operator .RParen := by
  have hlone : Rule.isLoneType ⟨.tuple fields, (Tree.tuple fields).emittedAs⟩ = .ok false := by
    match fields with
    | [] => rfl
    | [t] =>
        obtain ⟨q, names, typ, tag, rfl⟩ := hfields t (by simp)
        cases names with
        | nil => exact absurd rfl (h q typ tag)
        | cons n ns => rfl
    | t :: u :: ts =>
        have hsize : Rule.isSingle ⟨.tuple (t :: u :: ts), (Tree.tuple (t :: u :: ts)).emittedAs⟩ =
            .ok false := by
          simp [Rule.isSingle, Tree.size?]
        simp only [Rule.isLoneType, hsize]
        rfl
  rw [← emitted_fieldList p]
  change Rule.results ⟨.tuple fields, (Tree.tuple fields).emittedAs⟩ = _
  simp only [Rule.results, hlone]
  rfl

theorem emitted_structType (p q : Tree) (fields : List Tree) :
    (Tree.structType p (.fieldList q (.tuple fields))).emittedAs .expression =
      joined .Struct .LBrace ++ emittedFields ";" fields ++ operator .RBrace := by
  rw [← emitted_fieldList q]
  rfl

theorem emitted_interfaceType (p q : Tree) (methods : List Tree) :
    (Tree.interfaceType p (.fieldList q (.tuple methods))).emittedAs .expression =
      joined .Interface .LBrace ++ separated ";" (methods.map (·.emittedAs .interfaceElement)) ++
        operator .RBrace := by
  rw [← emitted_methods q]
  rfl

-- Names with commas between them.
def emittedNames (names : List Tree) : Emission := separated "," (names.map Rule.nameOf)

theorem nameOf_ident (p : Tree) (s : Text) : Rule.nameOf (.ident p (.text s)) = write s := rfl

theorem literalOf_basicLit (p k : Tree) (s : Text) :
    Rule.fieldText "value" (.basicLit p k (.text s)) = write s :=
  rfl

theorem emitted_field (p typ tag : Tree) (names : List Tree) :
    (Tree.field p (.tuple names) typ tag).emittedAs .field =
      when (!names.isEmpty) (emittedNames names ++ blank) ++ typ.emittedAs .expression ++
        tag.emittedIf (Rule.fieldText "value" tag) :=
  rfl

theorem emitted_method (p q name params results typeParams funcKeyword tag : Tree) :
    (Tree.field p (.tuple [name]) (.funcType q params results typeParams funcKeyword)
        tag).emittedAs .interfaceElement =
      Rule.nameOf name ++ emittedSignature params results typeParams :=
  rfl

theorem emitted_embedded (p typ tag : Tree) :
    (Tree.field p (.tuple []) typ tag).emittedAs .interfaceElement =
      typ.emittedAs .expression :=
  rfl

theorem emitted_exprStmt (p x : Tree) :
    (Tree.exprStmt p x).emittedAs .statement = x.emittedAs .expression :=
  rfl

-- A list after an operator.
def emittedListAfter (o : Operator) (y : Tree) (ys : List Tree) : Emission :=
  operator o ++ when (y.needsBlank o.spelling) blank ++ emittedList (y :: ys)

theorem emitted_assign (p y : Tree) (lhs ys : List Tree) (o : Operator) :
    (Tree.assign p (.tuple lhs) (.token (.op o)) (.tuple (y :: ys))).emittedAs .statement =
      emittedList lhs ++ emittedListAfter o y ys := by
  rw [emittedListAfter, ← emitted_tuple, ← emitted_tuple]
  rfl

theorem emitted_incDec (p x : Tree) (o : Operator) :
    (Tree.incDec p x (.token (.op o))).emittedAs .statement =
      x.emittedAs .expression ++ operator o :=
  rfl

theorem emitted_send (p chan value : Tree) :
    (Tree.send p chan value).emittedAs .statement =
      chan.emittedAs .expression ++ value.emittedAfter .Arrow :=
  rfl

-- Statements with semicolons between them, where they are needed.
def emittedStatements : List Tree → Emission
  | [] => nothing
  | [t] => t.emittedAs .statement
  | t :: u :: ts =>
    t.emittedAs .statement ++ (when (!t.isSelfTerminated) (operator .Semicolon) ++ emittedStatements (u :: ts))

theorem emitted_statements (ts : List Tree) :
    (Tree.tuple ts).emittedAs (.each .statement) = emittedStatements ts := by
  change Rule.statements (parts ts) = _
  induction ts with
  | nil => rfl
  | cons t ts ih =>
      cases ts with
      | nil => rfl
      | cons u ts =>
          rw [emittedStatements, ← ih]
          rfl

-- Braces around statements.
def emittedBraces (ts : List Tree) : Emission :=
  operator .LBrace ++ emittedStatements ts ++ operator .RBrace

theorem emitted_block (p : Tree) (ts : List Tree) :
    (Tree.block p (.tuple ts)).emittedAs .block = emittedBraces ts := by
  rw [emittedBraces, ← emitted_statements]
  rfl

theorem emitted_blockStmt (p : Tree) (ts : List Tree) :
    (Tree.block p (.tuple ts)).emittedAs .statement = emittedBraces ts := by
  rw [emittedBraces, ← emitted_statements]
  rfl

theorem emitted_ifStmt (p init cond body otherwise : Tree) :
    (Tree.ifStmt p init cond body otherwise).emittedAs .statement =
      spaced .If ++ init.emittedIf (init.emittedAs .statement ++ operator .Semicolon) ++
        cond.emittedAs .expression ++ body.emittedAs .block ++
        Rule.otherwise ⟨otherwise, otherwise.emittedAs⟩ :=
  rfl

-- The header of a loop has semicolons unless there is at most a condition in it.
def emittedLoop (init cond post : Tree) : Emission :=
  if init.isAbsent && post.isAbsent then
    if cond.isAbsent then keyword .For else spaced .For ++ cond.emittedAs .expression
  else
    spaced .For ++ init.emittedIf (init.emittedAs .statement) ++ operator .Semicolon ++
      cond.emittedIf (cond.emittedAs .expression) ++ operator .Semicolon ++
      post.emittedIf (post.emittedAs .statement)

theorem emitted_forStmt (p init cond post body : Tree) :
    (Tree.forStmt p init cond post body).emittedAs .statement =
      emittedLoop init cond post ++ body.emittedAs .block :=
  rfl

theorem emitted_rangeAll (p x body : Tree) :
    (Tree.rangeStmt p .absent .absent .absent x body).emittedAs .statement =
      write "for range " ++ x.emittedAs .expression ++ body.emittedAs .block :=
  rfl

theorem emitted_rangeStmt (p key value x body : Tree) (o : Operator)
    (hkey : key.isAbsent = false) :
    (Tree.rangeStmt p key value (.token (.op o)) x body).emittedAs .statement =
      spaced .For ++ key.emittedAs .expression ++
        value.emittedIf (operator .Comma ++ value.emittedAs .expression) ++ operator o ++
        spaced .Range ++ x.emittedAs .expression ++ body.emittedAs .block := by
  change (if key.isAbsent then write "for range " else _) ++ _ ++ _ = _
  rw [hkey]
  rfl

theorem emitted_switchStmt (p init tag body : Tree) :
    (Tree.switchStmt p init tag body).emittedAs .statement =
      (if init.isAbsent && tag.isAbsent then keyword .Switch
       else
        spaced .Switch ++ init.emittedIf (init.emittedAs .statement ++ operator .Semicolon) ++
          tag.emittedIf (tag.emittedAs .expression)) ++
        body.emittedAs .block :=
  rfl

theorem emitted_typeSwitch (p init guard body : Tree) :
    (Tree.typeSwitch p init guard body).emittedAs .statement =
      spaced .Switch ++ init.emittedIf (init.emittedAs .statement ++ operator .Semicolon) ++
        guard.emittedAs .statement ++ body.emittedAs .block :=
  rfl

theorem emitted_selectStmt (p body : Tree) :
    (Tree.selectStmt p body).emittedAs .statement = keyword .Select ++ body.emittedAs .block :=
  rfl

theorem emitted_caseClause (p : Tree) (values body : List Tree) :
    (Tree.caseClause p (.tuple values) (.tuple body)).emittedAs .statement =
      (if values.isEmpty then joined .Default .Colon
       else spaced .Case ++ emittedList values ++ operator .Colon) ++ emittedStatements body := by
  rw [← emitted_tuple, ← emitted_statements]
  cases values <;> rfl

theorem emitted_commClause (p comm : Tree) (body : List Tree) :
    (Tree.commClause p comm (.tuple body)).emittedAs .statement =
      (if comm.isAbsent then joined .Default .Colon
       else spaced .Case ++ comm.emittedAs .statement ++ operator .Colon) ++
        emittedStatements body := by
  rw [← emitted_statements]
  rfl

theorem emitted_returnStmt (p : Tree) (results : List Tree) :
    (Tree.returnStmt p (.tuple results)).emittedAs .statement =
      keyword .Return ++ when (!results.isEmpty) (blank ++ emittedList results) := by
  rw [← emitted_tuple]
  rfl

theorem emitted_branch (p label : Tree) (k : Keyword) :
    (Tree.branch p (.token (.word k)) label).emittedAs .statement =
      keyword k ++ label.emittedIf (blank ++ Rule.nameOf label) :=
  rfl

theorem emitted_goStmt (p call : Tree) :
    (Tree.goStmt p call).emittedAs .statement = spaced .Go ++ call.emittedAs .expression :=
  rfl

theorem emitted_deferStmt (p call : Tree) :
    (Tree.deferStmt p call).emittedAs .statement = spaced .Defer ++ call.emittedAs .expression :=
  rfl

theorem emitted_labeled (p label stmt : Tree) :
    (Tree.labeled p label stmt).emittedAs .statement =
      Rule.nameOf label ++ operator .Colon ++ stmt.emittedAs .statement :=
  rfl

theorem emitted_declStmt (p decl : Tree) :
    (Tree.declStmt p decl).emittedAs .statement = decl.emittedAs .declaration :=
  rfl

theorem emitted_emptyStmt (p : Tree) (implicit : Bool) :
    (Tree.emptyStmt p (.flag implicit)).emittedAs .statement = when (!implicit) (operator .Semicolon) :=
  rfl

-- Specs with semicolons between them.
def emittedSpecs (specs : List Tree) : Emission := separated ";" (specs.map (·.emittedAs .spec))

theorem emitted_specs (specs : List Tree) :
    (Tree.tuple specs).emittedAs (.each .spec) = emittedSpecs specs := by
  change Rule.sequence .spec (parts specs) = _
  simp only [Rule.sequence, parts_eq_map, List.map_map]
  rfl

theorem emitted_genDecl (p spec : Tree) (k : Keyword) :
    (Tree.genDecl p (.token (.word k)) (.tuple [spec]) (.flag false)).emittedAs .declaration =
      keyword k ++ (blank ++ spec.emittedAs .spec) :=
  rfl

theorem emitted_grouped (p : Tree) (k : Keyword) (specs : List Tree) :
    (Tree.genDecl p (.token (.word k)) (.tuple specs) (.flag true)).emittedAs .declaration =
      keyword k ++ (operator .LParen ++ emittedSpecs specs ++ operator .RParen) := by
  rw [← emitted_specs]
  rfl

theorem emitted_importSpec (p name path : Tree) :
    (Tree.importSpec p name path).emittedAs .spec =
      name.emittedIf (Rule.nameOf name) ++ Rule.fieldText "value" path :=
  rfl

-- The values of a declaration, if there are any.
def emittedValues : List Tree → Emission
  | [] => nothing
  | y :: ys => emittedListAfter .Assign y ys

theorem emitted_valueSpec (p typ : Tree) (names values : List Tree) :
    (Tree.valueSpec p (.tuple names) typ (.tuple values)).emittedAs .spec =
      emittedNames names ++ typ.emittedIf (blank ++ typ.emittedAs .expression) ++
        emittedValues values := by
  cases values with
  | nil => rfl
  | cons y ys =>
      rw [emittedValues, emittedListAfter, ← emitted_tuple]
      rfl

theorem emitted_typeSpec (p name typ typeParams : Tree) (isAlias : Bool) :
    (Tree.typeSpec p name typ typeParams (.flag isAlias)).emittedAs .spec =
      Rule.nameOf name ++
        typeParams.emittedIf (operator .LBrack ++ typeParams.emittedAs (.fieldList ",") ++
          when typeParams.readsAsLength (operator .Comma) ++ operator .RBrack) ++
        (if isAlias then operator .Assign else when typeParams.isAbsent blank) ++
        typ.emittedAs .expression :=
  rfl

theorem emitted_funcDecl (p recv name q params results typeParams funcKeyword body : Tree) :
    (Tree.funcDecl p recv name (.funcType q params results typeParams funcKeyword) body).emittedAs
        .declaration =
      (if recv.isAbsent then spaced .Func
       else joined .Func .LParen ++ recv.emittedAs (.fieldList ",") ++ operator .RParen) ++
        Rule.nameOf name ++ emittedSignature params results typeParams ++
        body.emittedIf (body.emittedAs .block) :=
  rfl

theorem emitted_file (p package : Tree) (decls : List Tree) :
    (Tree.file p package (.tuple decls)).emittedAs .unit =
      spaced .Package ++ Rule.nameOf package ++ operator .Semicolon ++
        separated ";" (decls.map (·.emittedAs .declaration)) := by
  change spaced .Package ++ Rule.nameOf package ++ operator .Semicolon ++
    Rule.sequence .declaration (parts decls) = _
  simp only [Rule.sequence, parts_eq_map, List.map_map]
  rfl

end Tree

end GoCompact
