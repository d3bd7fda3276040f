import GoCompact.Proofs.Grammar.Plain
import GoCompact.Proofs.Reread.Clausal
import GoCompact.Proofs.Reread.Fields

namespace GoCompact

namespace Tree

open GoCompact.Parser GoCompact.Grammar Cursor
open Emission (Spells)

-- The tree needs no more grouping than it is written with, and no clause but the last one of a statement
-- ends in a statement that is its own end.
structure Legible (t : Tree) : Prop where
  plain : t.plain = true
  keeps : t.keepsClauses = true

namespace Legible

variable {kind : NodeKind} {p : Tree} {ts : List Tree} {o : Option Tree}

theorem allPlain_iff : allPlain ts = true ↔ ∀ t ∈ ts, t.plain = true := by
  induction ts with
  | nil => simp [allPlain]
  | cons t ts ih => simp [allPlain, ih]

theorem items (h : (Tree.tuple ts).Legible) : ∀ t ∈ ts, t.Legible := by
  have hplain := allPlain_iff.mp (show allPlain ts = true from h.plain)
  have hkeeps := keepAll_iff.mp (show keepAll ts = true from h.keeps)
  exact fun t ht => ⟨hplain t ht, hkeeps t ht⟩

theorem parts (h : (Tree.node kind p ts).Legible) :
    isPlainNode kind ts = true ∧ keepsNode kind ts = true ∧ ts.Forall Legible := by
  have hplain : isPlainNode kind ts = true ∧ allPlain ts = true := by
    simpa [Tree.plain] using h.plain
  have hkeeps : keepsNode kind ts = true ∧ keepAll ts = true := by
    simpa [keepsClauses] using h.keeps
  exact ⟨hplain.1, hkeeps.1, List.forall_iff_forall_mem.mpr (items ⟨hplain.2, hkeeps.2⟩)⟩

theorem option (h : (Tree.ofOption o).Legible) : ∀ t ∈ o, t.Legible := by
  rintro t rfl
  exact h

theorem tuple (h : ∀ t ∈ ts, t.Legible) : (Tree.tuple ts).Legible :=
  ⟨allPlain_iff.mpr fun t ht => (h t ht).plain, keepAll_iff.mpr fun t ht => (h t ht).keeps⟩

theorem ofOption (h : ∀ t ∈ o, t.Legible) : (Tree.ofOption o).Legible := by
  cases o with
  | none => exact ⟨rfl, rfl⟩
  | some t => exact h t rfl

theorem node (hplain : isPlainNode kind ts = true) (hkeeps : keepsNode kind ts = true)
    (h : ts.Forall Legible) : (Tree.node kind p ts).Legible := by
  obtain ⟨hplain', hkeeps'⟩ := tuple (List.forall_iff_forall_mem.mp h)
  refine ⟨?_, ?_⟩
  · simpa [Tree.plain, hplain] using hplain'
  · simpa [keepsClauses, hkeeps] using hkeeps'

end Legible

-- A statement without text at its end is read where a closing brace comes next.
structure StatementEverywhere (t : Tree) : Prop where
  reads : t.trails = false → t.StatementReads
  trails : t.trails = true → t.TrailReads
  last : t.isImplicit = false → t.LastReads

-- Only the last statement in braces may end so.
structure BodyEverywhere (ts : List Tree) : Prop where
  reads : ∀ t ∈ ts, t.StatementEverywhere
  implicit : ∀ t ∈ ts, t.isImplicit = false
  trails : ∀ t ∈ ts.dropLast, t.trails = false

-- A clause whose statements end so is the last one.
structure ClauseEverywhere (clause : Grammar → Parser Tree) (t : Tree) : Prop where
  reads : t.clauseTrails = false → t.ClauseReads clause
  last : t.LastClauseReads clause

-- How a tree of a part of the grammar is read.
def IsRead : Category → Tree → Prop
  | .name, t => Built .name t
  | .text, t => Built .text t
  | .expression b, t => t.ExpressionReads b
  | .length, t =>
    t.LengthReads ∧ (t.startsIndexed = false →
      (t.typeParameter? false).any (·.2.isSome) = false → t.KeptLength)
  | .element, t => t.ItemReads ∧ (t.is .KeyValueExpr = false → t.PartReads)
  | .fieldType, t => t.FieldTypeReads
  | .unnamed c, t =>
    UnnamedField c t ∧ ∃ p typ, t = .field p (.tuple []) typ .absent ∧ typ.FieldTypeReads
  | .named c, t =>
    NamedField c t ∧ ∃ p names typ, t = .field p (.tuple names) typ .absent ∧
      typ.FieldTypeReads ∧ typ.fitsNamed c = true
  | .parameters c, t => ∃ p fields, t = .fieldList p (.tuple fields) ∧ ListReads c fields
  | .typeParameters, t => t.lone?.any (·.is .Ident) = false → t.HeadReads
  | .structField, t => t.FieldReads
  | .interfaceElement, t => t.ElementReads
  | .simple b, t => t.SimpleReads b ∧ (b = true → t.isCommunication = true → t.CommReads)
  | .block, t => ∃ p ts, t = .block p (.tuple ts) ∧ BodyEverywhere ts
  | .statement, t => t.StatementEverywhere
  | .caseClause types, t => t.ClauseEverywhere (·.caseClause types)
  | .commClause, t => t.ClauseEverywhere (·.commClause)
  | .spec keyword, t => t.SpecReads keyword
  | .declaration, t => t.DeclarationReads
  | .file, t => Fragment.file.Rereads t

variable {b c : Bool} {p q t x params : Tree} {ts : List Tree} {o : Option Tree}

theorem StatementReads.everywhere (h : t.StatementReads) (htrails : t.trails = false) :
    t.StatementEverywhere :=
  ⟨fun _ => h, fun h' => by simp [htrails] at h', fun _ => h.last⟩

theorem BodyEverywhere.body (h : BodyEverywhere ts) : BodyReads ts :=
  ⟨fun t ht => (h.reads t (List.mem_of_mem_dropLast ht)).reads (h.trails t ht),
    fun t ht => (h.reads t (List.mem_of_getLast? ht)).last (h.implicit t (List.mem_of_getLast? ht))⟩

-- All of them have text if the last one has.
theorem BodyEverywhere.statements (h : BodyEverywhere ts)
    (hlast : ts.getLast?.any Tree.trails = false) :
    ∀ t ∈ ts, t.StatementReads := by
  intro t ht
  refine (h.reads t ht).reads ?_
  have htrails := h.trails
  obtain rfl | ⟨init, last, rfl⟩ := ts.eq_nil_or_concat
  · cases ht
  · rw [List.concat_eq_append] at ht htrails hlast
    rcases List.mem_append.mp ht with ht | ht
    · exact htrails t (by simpa using ht)
    · obtain rfl := List.mem_singleton.mp ht
      simpa using hlast

theorem IsRead.blockReads (h : IsRead .block t) : t.BlockReads := by
  obtain ⟨p, ts, rfl, hts⟩ := h
  exact hts.body.block

theorem IsRead.parametersReads (h : IsRead (.parameters false) t) : t.ParametersReads := by
  obtain ⟨p, fields, rfl, hfields⟩ := h
  exact hfields.parameters

-- The results of a plain function type.
theorem resultsReads_of_plain (h : ∀ t ∈ o, IsRead (.parameters false) t)
    (hplain : (ofOption o).lone?.all (fun t => t.isType && !t.is .ParenExpr) = true) :
    ResultsReads o := by
  cases o with
  | none => exact .nothing
  | some t =>
      obtain ⟨p, fields, rfl, hfields⟩ := h t rfl
      exact hfields.results hplain

-- The clauses of a statement.
theorem clausesRead {clause : Grammar → Parser Tree} (h : ∀ t ∈ ts, t.ClauseEverywhere clause)
    (htrails : ∀ t ∈ ts.dropLast, t.clauseTrails = false)
    (hkeeps : keepsNode .BlockStmt [.tuple ts] = true) : ClausesRead clause ts := by
  have hclosed : ∀ t ∈ ts.dropLast, t.closesItself = false := by
    simpa [keepsNode] using hkeeps
  exact ⟨fun t ht => ⟨(h t (List.mem_of_mem_dropLast ht)).reads (htrails t ht), hclosed t ht⟩,
    fun t ht => (h t (List.mem_of_getLast? ht)).last⟩

-- The statements of a clause are those of a block, and none of them is a clause itself.
theorem clauseBody_of_statement (h : Built .statement t) : t.clauseBody = [] := by
  cases h with
  | simpleStmt h => cases h <;> rfl
  | blockStmt h =>
      cases h
      rfl
  | _ => rfl

theorem Legible.block (h : (Tree.tuple ts).Legible) (hbuilt : Built .block (.block p (.tuple ts))) :
    (Tree.block p (.tuple ts)).Legible := by
  have hkeeps : keepsNode .BlockStmt [.tuple ts] = true := by
    cases hbuilt with
    | block hstmts =>
        have hclosed : ∀ t ∈ ts.dropLast, t.closesItself = false := by
          intro t ht
          rw [closesItself, clauseBody_of_statement (hstmts t (List.mem_of_mem_dropLast ht))]
          rfl
        simpa [keepsNode] using hclosed
  refine ⟨?_, ?_⟩
  · simpa [Tree.plain, allPlain, isPlainNode] using h.plain
  · simpa [keepsClauses, keepAll, hkeeps] using h.keeps

theorem caseClause_everywhere {types : Bool} {values body : List Tree}
    (hvalues : ∀ t ∈ values, t.Reads true) (htypes : types = true → ∀ t ∈ values, t.isType = true)
    (hbody : BodyEverywhere body) :
    (Tree.caseClause p (.tuple values) (.tuple body)).ClauseEverywhere (·.caseClause types) :=
  ⟨fun htrails => reads_clauseOf hvalues htypes (hbody.statements htrails),
    reads_lastCaseClause hvalues htypes hbody.body⟩

theorem commClause_everywhere {comm : Option Tree} {body : List Tree}
    (hcomm : ∀ t ∈ comm, t.CommReads) (hbody : BodyEverywhere body) :
    (Tree.commClause p (.ofOption comm) (.tuple body)).ClauseEverywhere (·.commClause) :=
  ⟨fun htrails => reads_commClause hcomm (hbody.statements htrails),
    reads_lastCommClause hcomm hbody.body⟩

-- A label before a statement that may end in one without text.
theorem labeled_everywhere {label : Tree} (hlabel : Built .name label)
    (h : t.StatementEverywhere) : (Tree.labeled p label t).StatementEverywhere := by
  cases hlabel with
  | name hz =>
      refine ⟨fun htrails => reads_labeled hz (h.reads htrails),
        fun htrails => (reads_trailLabeled hz (h.trails htrails)).trail, fun _ => ?_⟩
      cases htrails : t.trails with
      | false => exact (reads_labeled hz (h.reads htrails)).last
      | true => exact reads_trailLabeled hz (h.trails htrails)

theorem emptyStmt_everywhere {implicit : Bool} :
    (Tree.emptyStmt p (.flag implicit)).StatementEverywhere := by
  cases implicit with
  | false => exact reads_emptyStmt.everywhere rfl
  | true => exact ⟨nofun, fun _ => trailReads_emptyStmt, nofun⟩

theorem labelTree_of_built (h : ∀ t ∈ o, Built .name t) :
    ∃ q label, ofOption o = labelTree q label ∧
      (∀ x ∈ label, (⟨.ident, x⟩ : Lexeme).Whole) ∧ (o = none → label = none) := by
  cases o with
  | none => exact ⟨.absent, none, rfl, nofun, fun _ => rfl⟩
  | some t =>
      cases h t rfl with
      | @name q x hx => exact ⟨q, some x, rfl, by simpa using hx, nofun⟩

theorem importName_of_built (h : ∀ t ∈ o, Built .name t) : ∃ ls, ImportName o ls := by
  cases o with
  | none => exact ⟨_, .path⟩
  | some t =>
      cases h t rfl with
      | name hx => exact ⟨_, .name hx⟩

-- What may stand in a clause that waits for a channel.
theorem commReads_assign {lhs rhs : List Tree} {o : Operator} (hlne : lhs ≠ [])
    (hlhs : ∀ t ∈ lhs, t.Reads true) (hrhs : ∀ t ∈ rhs, t.Reads true)
    (hcomm : (Tree.assign p (.tuple lhs) (.token (.op o)) (.tuple rhs)).isCommunication = true) :
    (Tree.assign p (.tuple lhs) (.token (.op o)) (.tuple rhs)).CommReads := by
  have hboth : ((o = .Assign ∨ o = .Define) ∧ lhs.length ≤ 2) ∧ rhs.length = 1 := by
    simpa [isCommunication] using hcomm
  obtain ⟨⟨ho, hlength⟩, hone⟩ := hboth
  obtain ⟨y, rfl⟩ := List.length_eq_one_iff.mp hone
  exact comm_assign hlne hlhs ho hlength (hrhs y (by simp))

-- The type of a plain declaration, which is an alias or is no array whose length could be a parameter.
theorem reads_typeSpec {name : Tree} {isAlias : Bool} (hname : Built .name name)
    (htyp : t.ExpressionReads true) (htype : t.isType = true)
    (hlength : isAlias = false → t.keepsLength = true) :
    (Tree.typeSpec p name t .absent (.flag isAlias)).SpecReads .Type := by
  by_cases harray : isAlias = false ∧ t.is .ArrayType = true
  · obtain ⟨rfl, harray⟩ := harray
    exact htyp.spec harray (hlength rfl) hname
  · refine reads_plainSpec hname (htyp.reads.type htype) htyp.reads.spells fun hplain hstart => ?_
    refine harray ⟨hplain, ?_⟩
    unfold typeStart at hstart
    split at hstart <;> first | rfl | cases hstart

-- What follows `else` has text.
theorem trails_of_is (h : t.is .IfStmt = true ∨ t.is .BlockStmt = true) : t.trails = false := by
  unfold Tree.trails
  split
  · rcases h with h | h <;> cases h
  · rcases h with h | h <;> cases h
  · rfl

theorem keptLength_dots : (Tree.ellipsis p .absent).KeptLength := by
  have hbegins : Begins (· ≠ .ident) (Tree.ellipsis p .absent).words :=
    ⟨_, _, words_of_spells LengthReads.spells_dots, by decide⟩
  exact (NameReads.of_begins hbegins).keptLength rfl rfl

-- Type parameters with names, of which the first may have a constraint that is read with it.
theorem headReads_of_named (hne : ts ≠ []) (h : ∀ t ∈ ts, IsRead (.named true) t) :
    (Tree.fieldList p (.tuple ts)).HeadReads := by
  obtain ⟨f, fields, rfl⟩ := List.exists_cons_of_ne_nil hne
  refine headReads_named (fun t ht => (h t ht).1) fun q name t hf => ?_
  obtain ⟨-, r, names, typ, heq, htyp, hfits⟩ := h f (by simp)
  rw [hf] at heq
  simp only [node.injEq, List.cons.injEq] at heq
  exact heq.2.2.2.1 ▸ htyp.head hfits

-- The longer cases of reading a tree, each from what its parts are read as.
section Cases

variable {y : Tree} {k : Category} {low high max init results typeParams : Option Tree}

theorem isRead_slice (h : (Tree.slice p x (.ofOption low) (.ofOption high) (.ofOption max)).Legible)
    (hprimary : x.isPrimary = true) (hfull : max.isSome = true → high.isSome = true)
    (hx : x.Legible → IsRead (.expression b) x)
    (hlow : ∀ t ∈ low, t.Legible → IsRead (.expression true) t)
    (hhigh : ∀ t ∈ high, t.Legible → IsRead (.expression true) t)
    (hmax : ∀ t ∈ max, t.Legible → IsRead (.expression true) t) :
    IsRead (.expression b) (.slice p x (.ofOption low) (.ofOption high) (.ofOption max)) := by
  obtain ⟨hplain, -, hx', hlow', hhigh', hmax'⟩ := h.parts
  exact .slice (hx hx') hprimary (by simpa [isPlainNode] using hplain)
    (fun t ht => (hlow t ht (hlow'.option t ht)).reads)
    (fun t ht => (hhigh t ht (hhigh'.option t ht)).reads)
    (fun t ht => (hmax t ht (hmax'.option t ht)).reads) hfull

section Signature

variable {funcKeyword : Bool}
  (hparams : params.Legible → IsRead (.parameters false) params)
  (hresults : ∀ t ∈ results, t.Legible → IsRead (.parameters false) t)

-- What is left of a signature that is written without the parentheses of its results.
include hparams hresults in
variable (typeParams) in
theorem isRead_signature
    (h : (Tree.funcType q params (.ofOption results) (.ofOption typeParams) (.flag funcKeyword)).Legible) :
    params.ParametersReads ∧ ResultsReads results ∧ ∀ t ∈ typeParams, t.Legible := by
  obtain ⟨hplain, -, hparams', hresults', htypeParams, -⟩ := h.parts
  exact ⟨(hparams hparams').parametersReads,
    resultsReads_of_plain (fun t ht => hresults t ht (hresults'.option t ht)) hplain, htypeParams.option⟩

include hparams hresults in
theorem isRead_funcLit {body : Tree}
    (h : (Tree.funcLit p (.funcType q params (.ofOption results) .absent (.flag true)) body).Legible)
    (hbody : body.Legible → IsRead .block body) : IsRead (.expression b)
      (.funcLit p (.funcType q params (.ofOption results) .absent (.flag true)) body) := by
  obtain ⟨-, -, htyp, hbody'⟩ := h.parts
  obtain ⟨hparams', hresults', -⟩ := isRead_signature none hparams hresults htyp
  exact .funcLit hparams' hresults' (hbody hbody').blockReads

include hparams hresults in
theorem isRead_method {name : Tree} (hname : Built .name name)
    (h : (Tree.field p (.tuple [name])
      (.funcType q params (.ofOption results) .absent (.flag false)) .absent).Legible) :
    IsRead .interfaceElement (.field p (.tuple [name])
      (.funcType q params (.ofOption results) .absent (.flag false)) .absent) := by
  obtain ⟨-, -, -, htyp, -⟩ := h.parts
  obtain ⟨hparams', hresults', -⟩ := isRead_signature none hparams hresults htyp
  cases hname with
  | name hz => exact reads_method hz hparams' hresults'

include hparams hresults in
theorem isRead_funcDecl {name : Tree} {recv body : Option Tree} (hname : Built .name name)
    (h : (Tree.funcDecl p (.ofOption recv) name (.funcType q params (.ofOption results)
      (.ofOption typeParams) (.flag true)) (.ofOption body)).Legible)
    (hne : ∀ t ∈ typeParams, ∀ p, t ≠ .fieldList p (.tuple []))
    (hrecv : ∀ t ∈ recv, t.Legible → IsRead (.parameters false) t)
    (htypeParams : ∀ t ∈ typeParams, t.Legible → IsRead (.parameters true) t)
    (hbody : ∀ t ∈ body, t.Legible → IsRead .block t) :
    IsRead .declaration (.funcDecl p (.ofOption recv) name (.funcType q params (.ofOption results)
      (.ofOption typeParams) (.flag true)) (.ofOption body)) := by
  obtain ⟨-, -, hrecv', -, htyp, hbody'⟩ := h.parts
  obtain ⟨hparams', hresults', htypeParams'⟩ := isRead_signature typeParams hparams hresults htyp
  refine reads_funcDecl (fun t ht => (hrecv t ht (hrecv'.option t ht)).parametersReads) hname
    (fun t ht => ?_) hparams' hresults' fun t ht => (hbody t ht (hbody'.option t ht)).blockReads
  obtain ⟨p, fields, rfl, hfields⟩ := htypeParams t ht (htypeParams' t ht)
  exact hfields.typeParameters fun hnil => hne _ ht p (by rw [hnil])

end Signature

theorem isRead_mapType (h : (Tree.mapType p x y).Legible) (hxtype : x.isType = true)
    (hytype : y.isType = true) (hx : x.Legible → IsRead (.expression true) x)
    (hy : y.Legible → IsRead (.expression true) y) : IsRead (.expression b) (.mapType p x y) := by
  obtain ⟨-, -, hx', hy'⟩ := h.parts
  have hkey := (hx hx').reads
  have hvalue := (hy hy').reads
  exact .of_type (reads_mapType (hkey.type hxtype) (hvalue.type hytype) hkey.spells hvalue.spells)
    rfl rfl rfl rfl (fun h => by cases h)

theorem isRead_assign {lhs rhs : List Tree} {o : Operator}
    (h : (Tree.assign p (.tuple lhs) (.token (.op o)) (.tuple rhs)).Legible) (hlne : lhs ≠ [])
    (ho : o.isAssignment = true) (hrne : rhs ≠ [])
    (hlhs : ∀ t ∈ lhs, t.Legible → IsRead (.expression b) t)
    (hrhs : ∀ t ∈ rhs, t.Legible → IsRead (.expression b) t) :
    IsRead (.simple b) (.assign p (.tuple lhs) (.token (.op o)) (.tuple rhs)) := by
  obtain ⟨-, -, hlhs', -, hrhs'⟩ := h.parts
  have hleft := fun t ht => (hlhs t ht (hlhs'.items t ht)).reads
  have hright := fun t ht => (hrhs t ht (hrhs'.items t ht)).reads
  exact ⟨reads_assign hlne hleft ho hrne hright, fun _ hcomm => commReads_assign hlne
    (fun t ht => (hleft t ht).free) (fun t ht => (hright t ht).free) hcomm⟩

theorem isRead_send (h : (Tree.send p x y).Legible) (hx : x.Legible → IsRead (.expression b) x)
    (hy : y.Legible → IsRead (.expression b) y) : IsRead (.simple b) (.send p x y) := by
  obtain ⟨hplain, -, hx', hy'⟩ := h.parts
  have hchan := (hx hx').reads
  have hvalue := (hy hy').reads
  have hedge : x.edge (.op .Arrow) = false := by simpa [isPlainNode] using hplain
  exact ⟨reads_send hchan hvalue hedge, fun _ _ => comm_send hchan.free hvalue.free hedge⟩

section Headers

variable {body : Tree} {clauses : List Tree}
  (hinit : ∀ t ∈ init, t.Legible → IsRead (.simple false) t)
  (hbody : body.Legible → IsRead .block body)

include hinit hbody in
theorem isRead_ifStmt {otherwise : Option Tree}
    (h : (Tree.ifStmt p (.ofOption init) x body (.ofOption otherwise)).Legible)
    (hbrace : x.takesBrace = false)
    (hkind : ∀ t ∈ otherwise, t.is .IfStmt = true ∨ t.is .BlockStmt = true)
    (hx : x.Legible → IsRead (.expression false) x)
    (helse : ∀ t ∈ otherwise, t.Legible → IsRead .statement t) :
    IsRead .statement (.ifStmt p (.ofOption init) x body (.ofOption otherwise)) := by
  obtain ⟨-, -, hinit', hx', hbody', helse'⟩ := h.parts
  have hotherwise : ∀ t ∈ otherwise, t.StatementReads := fun t ht =>
    (helse t ht (helse'.option t ht)).reads (trails_of_is (hkind t ht))
  exact (reads_ifStmt (fun t ht => (hinit t ht (hinit'.option t ht)).1) (hx hx').reads hbrace
    (hbody hbody').blockReads hotherwise hkind).everywhere rfl

include hinit in
theorem isRead_switchStmt {tag : Option Tree}
    (h : (Tree.switchStmt p (.ofOption init) (.ofOption tag) (.block q (.tuple clauses))).Legible)
    (hbrace : ∀ t ∈ tag, t.takesBrace = false) (hguard : ∀ t ∈ tag, t.asksType = false)
    (htrails : ∀ t ∈ clauses.dropLast, t.clauseTrails = false)
    (htag : ∀ t ∈ tag, t.Legible → IsRead (.expression false) t)
    (hclauses : ∀ t ∈ clauses, t.Legible → IsRead (.caseClause false) t) :
    IsRead .statement (.switchStmt p (.ofOption init) (.ofOption tag) (.block q (.tuple clauses))) := by
  obtain ⟨-, -, hinit', htag', hblock⟩ := h.parts
  obtain ⟨-, hkeeps, hlist⟩ := hblock.parts
  have hread := clausesRead (fun t ht => hclauses t ht (hlist.items t ht)) htrails hkeeps
  exact (hread.switchStmt (fun t ht => (hinit t ht (hinit'.option t ht)).1)
    (fun t ht => (htag t ht (htag'.option t ht)).reads) hbrace hguard).everywhere rfl

include hinit in
theorem isRead_typeSwitch
    (h : (Tree.typeSwitch p (.ofOption init) x (.block q (.tuple clauses))).Legible)
    (hguard : isTypeGuard x = true) (htrails : ∀ t ∈ clauses.dropLast, t.clauseTrails = false)
    (hx : x.Legible → IsRead (.simple false) x)
    (hclauses : ∀ t ∈ clauses, t.Legible → IsRead (.caseClause true) t) :
    IsRead .statement (.typeSwitch p (.ofOption init) x (.block q (.tuple clauses))) := by
  obtain ⟨-, -, hinit', hx', hblock⟩ := h.parts
  obtain ⟨-, hkeeps, hlist⟩ := hblock.parts
  have hread := clausesRead (fun t ht => hclauses t ht (hlist.items t ht)) htrails hkeeps
  exact (hread.typeSwitch (fun t ht => (hinit t ht (hinit'.option t ht)).1) (hx hx').1
    hguard).everywhere rfl

include hinit hbody in
theorem isRead_forStmt {cond post : Option Tree}
    (h : (Tree.forStmt p (.ofOption init) (.ofOption cond) (.ofOption post) body).Legible)
    (hbrace : ∀ t ∈ post, t.endTakesBrace = false)
    (hcond : ∀ t ∈ cond, t.Legible → IsRead (.expression false) t)
    (hpost : ∀ t ∈ post, t.Legible → IsRead (.simple false) t) :
    IsRead .statement (.forStmt p (.ofOption init) (.ofOption cond) (.ofOption post) body) := by
  obtain ⟨hplain, -, hinit', hcond', hpost', hbody'⟩ := h.parts
  have hfree : init = none → post = none → ∀ t ∈ cond, t.takesBrace = false := by
    rintro rfl rfl t rfl
    simpa [isPlainNode, Tree.isAbsent, ofOption] using hplain
  exact (reads_forStmt (fun t ht => (hinit t ht (hinit'.option t ht)).1)
    (fun t ht => (hcond t ht (hcond'.option t ht)).reads)
    (fun t ht => (hpost t ht (hpost'.option t ht)).1) hbrace hfree
    (hbody hbody').blockReads).everywhere rfl

include hbody in
theorem isRead_rangeStmt {value : Option Tree} {o : Operator}
    (h : (Tree.rangeStmt p y (.ofOption value) (.token (.op o)) x body).Legible)
    (ho : bindsRange (.op o) = true) (hbrace : x.takesBrace = false)
    (hy : y.Legible → IsRead (.expression false) y)
    (hvalue : ∀ t ∈ value, t.Legible → IsRead (.expression false) t)
    (hx : x.Legible → IsRead (.expression false) x) :
    IsRead .statement (.rangeStmt p y (.ofOption value) (.token (.op o)) x body) := by
  obtain ⟨-, -, hy', hvalue', -, hx', hbody'⟩ := h.parts
  exact (reads_rangeStmt (hy hy').reads (fun t ht => (hvalue t ht (hvalue'.option t ht)).reads) ho
    (hx hx').reads hbrace (hbody hbody').blockReads).everywhere rfl

end Headers

-- The statements of a clause are read as those of the block that holds them.
theorem bodyEverywhere_of_block (h : IsRead .block (.block p (.tuple ts))) : BodyEverywhere ts := by
  obtain ⟨_, _, heq, hbody⟩ := h
  simp only [node.injEq, List.cons.injEq, tuple.injEq] at heq
  exact heq.2.2.1 ▸ hbody

theorem isRead_caseClause {types : Bool} {values : List Tree}
    (h : (Tree.caseClause p (.tuple values) (.tuple ts)).Legible)
    (htypes : types = true → ∀ t ∈ values, t.isType = true)
    (hbuilt : Built .block (.block q (.tuple ts)))
    (hvalues : ∀ t ∈ values, t.Legible → IsRead (.expression true) t)
    (hbody : (Tree.block q (.tuple ts)).Legible → IsRead .block (.block q (.tuple ts))) :
    IsRead (.caseClause types) (.caseClause p (.tuple values) (.tuple ts)) := by
  obtain ⟨-, -, hvalues', hstmts⟩ := h.parts
  exact caseClause_everywhere (fun t ht => (hvalues t ht (hvalues'.items t ht)).reads) htypes
    (bodyEverywhere_of_block (hbody (hstmts.block hbuilt)))

theorem isRead_commClause (h : (Tree.commClause p (.ofOption o) (.tuple ts)).Legible)
    (hkind : ∀ t ∈ o, t.isCommunication = true) (hbuilt : Built .block (.block q (.tuple ts)))
    (ho : ∀ t ∈ o, t.Legible → IsRead (.simple true) t)
    (hbody : (Tree.block q (.tuple ts)).Legible → IsRead .block (.block q (.tuple ts))) :
    IsRead .commClause (.commClause p (.ofOption o) (.tuple ts)) := by
  obtain ⟨-, -, ho', hstmts⟩ := h.parts
  exact commClause_everywhere (fun t ht => (ho t ht (ho'.option t ht)).2 rfl (hkind t ht))
    (bodyEverywhere_of_block (hbody (hstmts.block hbuilt)))

theorem isRead_valueSpec {keyword : Keyword} {names values : List Tree}
    (h : (Tree.valueSpec p (.tuple names) (.ofOption o) (.tuple values)).Legible)
    (hkeyword : keyword = .Const ∨ keyword = .Var) (hne : names ≠ [])
    (hnames : ∀ n ∈ names, Built .name n) (htypes : ∀ t ∈ o, t.isType = true)
    (hvar : keyword = .Var → o = none → values ≠ [])
    (ho : ∀ t ∈ o, t.Legible → IsRead (.expression true) t)
    (hvalues : ∀ t ∈ values, t.Legible → IsRead (.expression true) t) :
    IsRead (.spec keyword) (.valueSpec p (.tuple names) (.ofOption o) (.tuple values)) := by
  obtain ⟨-, -, -, ho', hvalues'⟩ := h.parts
  have htyp := fun t ht => (ho t ht (ho'.option t ht)).reads
  exact reads_valueSpec hkeyword hne hnames (fun t ht => (htyp t ht).type (htypes t ht))
    (fun t ht => (htyp t ht).spells) (fun t ht => (hvalues t ht (hvalues'.items t ht)).reads) hvar

theorem isRead_genDecl {keyword : Keyword} {specs : List Tree} {grouped : Bool}
    (h : (Tree.genDecl p (.token (.word keyword)) (.tuple specs) (.flag grouped)).Legible)
    (hkeyword : keyword = .Import ∨ keyword = .Const ∨ keyword = .Type ∨ keyword = .Var)
    (hsingle : grouped = false → specs.length = 1)
    (hspecs : ∀ t ∈ specs, t.Legible → IsRead (.spec keyword) t) :
    IsRead .declaration (.genDecl p (.token (.word keyword)) (.tuple specs) (.flag grouped)) := by
  obtain ⟨-, -, -, hspecs', -⟩ := h.parts
  have hreads := fun t ht => hspecs t ht (hspecs'.items t ht)
  cases grouped with
  | true => exact reads_grouped hkeyword hreads
  | false =>
      obtain ⟨spec, rfl⟩ := List.length_eq_one_iff.mp (hsingle rfl)
      exact reads_genDecl hkeyword (hreads spec (by simp))

end Cases

-- A tree of each part of the grammar is read if the parts it is built from are.
theorem isRead {k : Category} (h : Built k t) : t.Legible → IsRead k t := by
  induction h with
  | name h => exact fun _ => .name h
  | text h => exact fun _ => .text h
  | ident h => exact fun _ => .ident h
  | literal h => exact fun _ => .literal h
  | paren _ ih =>
      intro h
      obtain ⟨-, -, hx⟩ := h.parts
      exact .paren (ih hx)
  | selector hx hprimary hsel ih =>
      intro h
      obtain ⟨hplain, -, hxLegible, -⟩ := h.parts
      exact .selector hx (ih hxLegible) hprimary (by simpa [isPlainNode] using hplain) hsel
  | index hx hprimary _ _ htypes ihx ihfirst ihothers =>
      intro h
      obtain ⟨hplain, -, hxLegible, hargs⟩ := h.parts
      obtain ⟨hfirst, hothers⟩ := List.forall_mem_cons.mp hargs.items
      exact .index hx (ihx hxLegible) hprimary (by simpa [isPlainNode] using hplain)
        (ihfirst hfirst).reads (fun t ht => (ihothers t ht (hothers t ht)).reads) htypes
  | slice _ hprimary _ _ _ hfull ihx ihlow ihhigh ihmax =>
      exact fun h => isRead_slice h hprimary hfull ihx ihlow ihhigh ihmax
  | typeAssert _ hprimary _ htypes ihx ihtyp =>
      intro h
      obtain ⟨hplain, -, hx, htyp⟩ := h.parts
      exact .typeAssert (ihx hx) hprimary (by simpa [isPlainNode] using hplain)
        (fun t ht => (ihtyp t ht (htyp.option t ht)).reads) htypes
  | call _ hprimary _ hspread ihx ihargs =>
      intro h
      obtain ⟨hplain, -, hx, hargs, -⟩ := h.parts
      exact .call (ihx hx) hprimary (by simpa [isPlainNode] using hplain)
        (fun t ht => (ihargs t ht (hargs.items t ht)).reads) hspread
  | compositeLit _ hbraces _ ihtyp ihelts =>
      intro h
      obtain ⟨-, -, htyp, helts⟩ := h.parts
      exact .compositeLit (ihtyp htyp) hbraces fun t ht => (ihelts t ht (helts.items t ht)).1
  | funcLit _ _ _ ihparams ihresults ihbody =>
      exact fun h => isRead_funcLit ihparams ihresults h ihbody
  | unary ho _ hbinary hchan ih =>
      intro h
      obtain ⟨-, -, -, hx⟩ := h.parts
      exact .unary ho (ih hx) hbinary hchan
  | star _ hbinary ih =>
      intro h
      obtain ⟨-, -, hx⟩ := h.parts
      exact .star (ih hx) hbinary
  | binary ho _ _ hleft hright ihx ihy =>
      intro h
      obtain ⟨hplain, -, hx, -, hy⟩ := h.parts
      exact .binary ho (ihx hx) (ihy hy) hleft hright (by simpa [isPlainNode] using hplain)
  | arrayType _ _ htype ihlen ihelt =>
      intro h
      obtain ⟨-, -, hlen, helt⟩ := h.parts
      have helt' := (ihelt helt).reads
      exact .arrayType (fun t ht => (ihlen t ht (hlen.option t ht)).1)
        (fun t ht => (ihlen t ht (hlen.option t ht)).2) (helt'.type htype) helt'.spells
  | mapType _ hkeyType _ hvalueType ihkey ihvalue =>
      exact fun h => isRead_mapType h hkeyType hvalueType ihkey ihvalue
  | chanType hd _ htype hboth ih =>
      intro h
      obtain ⟨-, -, -, hvalue⟩ := h.parts
      exact .chanType hd (ih hvalue) htype hboth
  | funcType _ _ ihparams ihresults =>
      intro h
      obtain ⟨hparams, hresults, -⟩ := isRead_signature none ihparams ihresults h
      exact .funcType hparams hresults
  | structType _ ih =>
      intro h
      obtain ⟨-, -, hlist⟩ := h.parts
      obtain ⟨-, -, hfields⟩ := hlist.parts
      exact .of_type (reads_structType fun t ht => ih t ht (hfields.items t ht)) rfl rfl rfl rfl
        (fun h => by cases h)
  | interfaceType _ ih =>
      intro h
      obtain ⟨-, -, hlist⟩ := h.parts
      obtain ⟨-, -, hmethods⟩ := hlist.parts
      exact .of_type (reads_interfaceType fun t ht => ih t ht (hmethods.items t ht)) rfl rfl rfl rfl
        (fun h => by cases h)
  | openLength => exact fun _ => ⟨.dots, fun _ _ => keptLength_dots⟩
  | length _ ih => exact fun h => ⟨.expression (ih h).reads, (ih h).name.keptLength⟩
  | element _ ih => exact fun h => ⟨(ih h).reads.part.item, fun _ => (ih h).reads.part⟩
  | @bareLiteral p _ _ ih =>
      intro h
      obtain ⟨-, -, -, helts⟩ := h.parts
      have hread := reads_bareLiteral (p := p) fun t ht => (ih t ht (helts.items t ht)).1
      exact ⟨hread.item, fun _ => hread⟩
  | keyValue _ hkeyPart _ hvaluePart ihkey ihvalue =>
      intro h
      obtain ⟨-, -, hkey, hvalue⟩ := h.parts
      exact ⟨reads_keyValue ((ihkey hkey).2 hkeyPart) ((ihvalue hvalue).2 hvaluePart),
        fun h => by cases h⟩
  | fieldType hbuilt ih =>
      intro h
      have hread := ih h
      exact .of_constraint hread.constraint hread.reads.spells (by cases hbuilt <;> rfl)
        (fun hident => by cases hbuilt <;> first | exact .name ‹_› | cases hident) hread.embedded
  | variadic _ htype ih =>
      intro h
      obtain ⟨-, -, ht⟩ := h.parts
      have hread := (ih ht).reads
      exact .variadic (hread.type htype) hread.spells hread.isAbsent
  | openIndex hname _ htypes _ ihothers =>
      intro h
      obtain ⟨-, -, -, hargs⟩ := h.parts
      have hothers := (List.forall_mem_cons.mp hargs.items).2
      exact .openIndex hname (fun t ht => (ihothers t ht (hothers t ht)).reads) htypes
  | openUnion _ _ _ _ ihx ihy =>
      intro h
      obtain ⟨-, -, hx, -, hy⟩ := h.parts
      exact .openUnion (ihx hx) (ihy hy)
  | unnamedField _ hfits ih =>
      intro h
      obtain ⟨-, -, -, ht, -⟩ := h.parts
      exact ⟨(ih ht).unnamed hfits, _, _, rfl, ih ht⟩
  | namedField hne hnames _ hfits _ ih =>
      intro h
      obtain ⟨-, -, -, ht, -⟩ := h.parts
      exact ⟨.mk hne hnames ((ih ht).named hfits), _, _, _, rfl, ih ht, hfits⟩
  | unnamedList _ ih =>
      intro h
      obtain ⟨-, -, hfields⟩ := h.parts
      exact ⟨_, _, rfl, listReads_unnamed fun t ht => ih t ht (hfields.items t ht)⟩
  | namedList _ ih =>
      intro h
      obtain ⟨-, -, hfields⟩ := h.parts
      refine ⟨_, _, rfl, listReads_named fun t ht => ?_⟩
      obtain ⟨hread, q, names, typ, heq, htyp, -⟩ := ih t ht (hfields.items t ht)
      exact ⟨hread, q, names, typ, heq, htyp⟩
  | unnamedTypeParameters _ hleads _ ih ihfields =>
      intro h hlone
      obtain ⟨-, -, hlist⟩ := h.parts
      obtain ⟨hfirst, hfields⟩ := List.forall_mem_cons.mp hlist.items
      obtain ⟨-, -, -, ht, -⟩ := hfirst.parts
      exact headReads_of_leads (ih ht) hleads (fun f hf => (ihfields f hf (hfields f hf)).1) hlone
  | namedTypeParameters hne _ ih =>
      intro h _
      obtain ⟨-, -, hfields⟩ := h.parts
      exact headReads_of_named hne fun t ht => ih t ht (hfields.items t ht)
  | takenApart hname _ hapart _ _ ih ihfields =>
      intro h _
      obtain ⟨-, -, hlist⟩ := h.parts
      obtain ⟨hfirst, hfields⟩ := List.forall_mem_cons.mp hlist.items
      obtain ⟨-, -, -, ht, -⟩ := hfirst.parts
      exact headReads_lone hname (.joined ((ih ht).joins hapart))
        fun f hf => (ihfields f hf (hfields f hf)).1
  | embeddedField _ hembedded htag ih =>
      intro h
      obtain ⟨-, -, -, ht, -⟩ := h.parts
      exact reads_field ((ih ht).embedded hembedded) htag
  | structField hne hnames _ htype htag _ ih =>
      intro h
      obtain ⟨-, -, -, ht, -⟩ := h.parts
      have hread := (ih ht).reads
      exact reads_field (.named hne hnames (hread.type htype) hread.spells) htag
  | method hname _ _ _ ihparams ihresults =>
      exact fun h => isRead_method ihparams ihresults hname h
  | embeddedUnion _ hunion ih =>
      intro h
      obtain ⟨-, -, -, ht, -⟩ := h.parts
      exact reads_embedded (.of_extends ((ih ht).constraint.union hunion))
  | exprStmt _ ih =>
      intro h
      obtain ⟨-, -, hx⟩ := h.parts
      have hread := (ih hx).reads
      exact ⟨reads_exprStmt hread, fun _ _ => comm_exprStmt hread.free⟩
  | assign hlne _ ho hrne _ ihlhs ihrhs =>
      exact fun h => isRead_assign h hlne ho hrne ihlhs ihrhs
  | send _ _ ihchan ihvalue => exact fun h => isRead_send h ihchan ihvalue
  | incDec _ ho ih =>
      intro h
      obtain ⟨-, -, hx, -⟩ := h.parts
      exact ⟨reads_incDec (ih hx).reads ho, fun _ hcomm => by cases hcomm⟩
  | block _ himplicit htrails ih =>
      intro h
      obtain ⟨-, -, hstmts⟩ := h.parts
      exact ⟨_, _, rfl, fun t ht => ih t ht (hstmts.items t ht), himplicit, htrails⟩
  | simpleStmt hbuilt ih => exact fun h => (ih h).1.statement.everywhere (by cases hbuilt <;> rfl)
  | labeled hlabel _ _ ih =>
      intro h
      obtain ⟨-, -, -, hstmt⟩ := h.parts
      exact labeled_everywhere hlabel (ih hstmt)
  | emptyStmt => exact fun _ => emptyStmt_everywhere
  | declStmt hdecl hk ih =>
      intro h
      obtain ⟨-, -, hdecl'⟩ := h.parts
      cases hdecl with
      | genDecl hkeyword =>
          exact (reads_declStmt (ih hdecl') (hkeyword.resolve_left hk)).everywhere rfl
  | goStmt _ hkind ih =>
      intro h
      obtain ⟨-, -, hcall⟩ := h.parts
      exact (reads_goStmt (ih hcall).reads hkind).everywhere rfl
  | deferStmt _ hkind ih =>
      intro h
      obtain ⟨-, -, hcall⟩ := h.parts
      exact (reads_deferStmt (ih hcall).reads hkind).everywhere rfl
  | returnStmt _ ih =>
      intro h
      obtain ⟨-, -, hresults⟩ := h.parts
      exact (reads_returnStmt fun t ht => (ih t ht (hresults.items t ht)).reads).everywhere rfl
  | branch hk hlabel hfall =>
      intro h
      obtain ⟨q, label, heq, hwhole, hnone⟩ := labelTree_of_built hlabel
      rw [heq]
      exact (reads_branch hk hwhole fun h => hnone (hfall h)).everywhere rfl
  | blockStmt _ ih =>
      intro h
      obtain ⟨p, ts, rfl, hbody⟩ := ih h
      exact hbody.body.block.statement.everywhere rfl
  | ifStmt _ _ hbrace _ _ hkind ihinit ihcond ihbody ihelse =>
      exact fun h => isRead_ifStmt ihinit ihbody h hbrace hkind ihcond ihelse
  | switchStmt _ _ hbrace hguard _ htrails ihinit ihtag ihclauses =>
      exact fun h => isRead_switchStmt ihinit h hbrace hguard htrails ihtag ihclauses
  | typeSwitch _ _ hguard _ htrails ihinit ihguard ihclauses =>
      exact fun h => isRead_typeSwitch ihinit h hguard htrails ihguard ihclauses
  | selectStmt _ htrails ihclauses =>
      intro h
      obtain ⟨-, -, hblock⟩ := h.parts
      obtain ⟨-, hkeeps, hclauses⟩ := hblock.parts
      have hclauses' := clausesRead (fun t ht => ihclauses t ht (hclauses.items t ht)) htrails hkeeps
      exact hclauses'.selectStmt.everywhere rfl
  | forStmt _ _ _ hbrace _ ihinit ihcond ihpost ihbody =>
      exact fun h => isRead_forStmt ihinit ihbody h hbrace ihcond ihpost
  | rangeAll _ hbrace _ ihx ihbody =>
      intro h
      obtain ⟨-, -, -, -, -, hx, hbody⟩ := h.parts
      exact (reads_rangeAll (ihx hx).reads hbrace (ihbody hbody).blockReads).everywhere rfl
  | rangeStmt _ _ ho _ hbrace _ ihkey ihvalue ihx ihbody =>
      exact fun h => isRead_rangeStmt ihbody h ho hbrace ihkey ihvalue ihx
  | caseClause _ htypes hbody ihvalues ihbody =>
      exact fun h => isRead_caseClause h htypes hbody ihvalues ihbody
  | commClause _ hkind hbody ihcomm ihbody =>
      exact fun h => isRead_commClause h hkind hbody ihcomm ihbody
  | importSpec hname hpath =>
      intro _
      obtain ⟨ls, hname'⟩ := importName_of_built hname
      cases hpath with
      | text hpath => exact reads_importSpec hname' hpath
  | importAll hpath =>
      intro _
      cases hpath with
      | text hpath => exact reads_importSpec .all hpath
  | valueSpec hk hne hnames _ htypes _ hvar _ ihtyp ihvalues =>
      exact fun h => isRead_valueSpec h hk hne hnames htypes hvar ihtyp ihvalues
  | typeSpec hname _ htype hlength _ ih =>
      intro h
      obtain ⟨-, -, -, htyp, -⟩ := h.parts
      exact reads_typeSpec hname (ih htyp) htype hlength
  | genericSpec hname _ htype _ _ ihtyp ihparams =>
      intro h
      obtain ⟨hplain, -, -, htyp, hparams, -⟩ := h.parts
      have hread := (ihtyp htyp).reads
      exact reads_genericSpec hname (hread.type htype) hread.spells
        (ihparams hparams (by simpa [isPlainNode] using hplain))
  | genDecl hk _ hsingle ih => exact fun h => isRead_genDecl h hk hsingle ih
  | funcDecl _ hname _ hne _ _ _ ihrecv _ ihtypeParams ihparams ihresults ihbody =>
      exact fun h => isRead_funcDecl ihparams ihresults hname h hne ihrecv ihtypeParams ihbody
  | file hpackage _ _ ih =>
      intro h
      obtain ⟨-, -, -, hdecls⟩ := h.parts
      exact Fragment.rereads_file hpackage fun t ht => ih t ht (hdecls.items t ht)

end Tree

end GoCompact
