import GoCompact.Proofs.Grammar.Nesting
import GoCompact.Proofs.Grammar.Sound.Fragment
import GoCompact.Tree.Schema

namespace GoCompact

namespace Tree

-- The place of a part: a field of a node of a kind, or the top of the tree.
abbrev Spot := Option (NodeKind × Text)

-- A tree has a part at a place. The members of a list stand where the list does.
inductive Has (t : Tree) : Spot → Tree → Prop
  | top : Has t none t
  | field {i : Spot} {k : NodeKind} {p u : Tree} {name : Text} {fields : List Tree}
      (h : Has t i (.node k p fields)) (hu : (name, u) ∈ k.fieldNames.zip fields) :
      Has t (some (k, name)) u
  | member {i : Spot} {u : Tree} {items : List Tree} (h : Has t i (.tuple items))
      (hu : u ∈ items) : Has t i u

-- The fields of which each member is a statement.
def statementLists : List Spot :=
  [some (.BlockStmt, "stmts"), some (.CaseClause, "body"), some (.CommClause, "body")]

-- The blocks of which each member is a clause of a switch.
def switchBodies : List Spot := [some (.SwitchStmt, "body"), some (.TypeSwitchStmt, "body")]

end Tree

-- Parts that may stand wherever the kinds of nodes allow it.
def Category.isOrdinary : Category → Bool
  | .element | .statement | .caseClause _ | .commClause => false
  | _ => true

open GoCompact.Tree GoCompact.Parser GoCompact.Grammar

-- What stands at a place of a tree that was read.
inductive Held : Spot → Tree → Prop
  | datum {i : Spot} {v : Json} : Held i (.datum v)
  | token {i : Spot} {k : TokenKind} : Held i (.token k)
  | direction {i : Spot} {d : Direction} : Held i (.direction d)
  | list {i : Spot} {items : List Tree} (h : ∀ u ∈ items, Held i u) : Held i (.tuple items)
  | part {i : Spot} {u : Tree} {k : Category} (h : Built k u) (hk : k.isOrdinary = true) : Held i u
  | element {i : Spot} {u : Tree} (h : Built .element u)
      (hi : i = some (.CompositeLit, ("elts" : Text)) ∨
        (i = some (.KeyValueExpr, ("key" : Text)) ∨ i = some (.KeyValueExpr, ("value" : Text))) ∧
          u.is .KeyValueExpr = false) : Held i u
  | statement {i : Spot} {u : Tree} (h : Built .statement u)
      (hi : i = some (.LabeledStmt, ("stmt" : Text)) ∨
        (i ∈ statementLists ∧ u.isImplicit = false) ∨ u.trails = false) : Held i u
  | caseClause {u : Tree} {types : Bool} (h : Built (.caseClause types) u) :
      Held (some (.BlockStmt, "stmts")) u
  | commClause {u : Tree} (h : Built .commClause u) : Held (some (.BlockStmt, "stmts")) u
  | switchBody {i : Spot} {q : Tree} {clauses : List Tree} {types : Bool} (hi : i ∈ switchBodies)
      (h : ∀ u ∈ clauses, Built (.caseClause types) u) : Held i (.block q (.tuple clauses))
  | selectBody {q : Tree} {clauses : List Tree} (h : ∀ u ∈ clauses, Built .commClause u) :
      Held (some (.SelectStmt, "body")) (.block q (.tuple clauses))
  | members {i : Spot} {q : Tree} {fields : List Tree}
      (hi : i = some (.StructType, ("fields" : Text)) ∨ i = some (.InterfaceType, ("methods" : Text)))
      (h : ∀ u ∈ fields, Built .structField u ∨ Built .interfaceElement u) :
      Held i (.fieldList q (.tuple fields))
  | signature {i : Spot} {q params : Tree} {results typeParams : Option Tree} {b : Bool}
      (hparams : Built (.parameters false) params)
      (hresults : ∀ u ∈ results, Built (.parameters false) u)
      (htypeParams : ∀ u ∈ typeParams, Built (.parameters true) u) :
      Held i (.funcType q params (.ofOption results) (.ofOption typeParams) (.flag b))
  | parameter {i : Spot} {q typ : Tree} {names : List Tree} (hnames : ∀ u ∈ names, Built .name u)
      (h : Built .fieldType typ) : Held i (.field q (.tuple names) typ .absent)
  | everything {i : Spot} {q : Tree} : Held i (.ident q (.text "."))

namespace Held

variable {i : Spot} {u : Tree} {items : List Tree} {o : Option Tree} {k : Category}

theorem ofOption (h : ∀ t ∈ o, Held i t) : Held i (.ofOption o) := by
  cases o with
  | none => exact .datum
  | some t => exact h t rfl

-- Optional parts and lists of parts that are built.
theorem optional (h : ∀ t ∈ o, Built k t) (hk : k.isOrdinary = true) : Held i (.ofOption o) :=
  ofOption fun t ht => .part (h t ht) hk

theorem parts (h : ∀ t ∈ items, Built k t) (hk : k.isOrdinary = true) : Held i (.tuple items) :=
  .list fun t ht => .part (h t ht) hk

end Held

-- What the fields of a node hold.
def FieldsHeld : Tree → Prop
  | .node k _ fields => ∀ f ∈ k.fieldNames.zip fields, Held (some (k, f.1)) f.2
  | _ => True

theorem fieldsHeld_node {k : NodeKind} {p : Tree} {fields : List Tree} :
    FieldsHeld (.node k p fields) ↔ ∀ f ∈ k.fieldNames.zip fields, Held (some (k, f.1)) f.2 :=
  Iff.rfl

-- A statement of a list.
theorem Built.heldStatements {p : Tree} {stmts : List Tree} {i : Spot}
    (h : Built .block (.block p (.tuple stmts))) (hi : i ∈ statementLists) :
    Held i (.tuple stmts) := by
  cases h with
  | block hstmts himplicit _ =>
      exact .list fun t ht => .statement (hstmts t ht) (.inr (.inl ⟨hi, himplicit t ht⟩))

-- The branch after `else` is a statement with a text.
theorem trails_of_kind {t : Tree} (h : t.is .IfStmt = true ∨ t.is .BlockStmt = true) :
    t.trails = false := by
  unfold trails
  split <;> simp_all [Tree.is, kind?]

-- What is built holds what may stand in its fields.
theorem Built.fieldsHeld {k : Category} {t : Tree} (h : Built k t) : FieldsHeld t := by
  induction h with
    try simp only [fieldsHeld_node, NodeKind.fieldNames, NodeKind.fields, FieldRule.one, FieldRule.text,
      FieldRule.many, FieldRule.anyNumber, FieldRule.given, FieldRule.optional, FieldRule.token,
      FieldRule.flag, List.map_cons, List.map_nil, List.zip_cons_cons, List.zip_nil_right,
      List.forall_mem_cons, List.not_mem_nil, false_imp_iff, implies_true, and_true, true_and,
      Held.datum, Held.token, Held.direction]
  | paren hx => exact .part hx rfl
  | selector hx _ hsel => exact ⟨.part hx rfl, .part hsel rfl⟩
  | index hx _ hfirst hothers =>
      exact ⟨.part hx rfl, .parts (List.forall_mem_cons.mpr ⟨hfirst, hothers⟩) rfl⟩
  | slice hx _ hlow hhigh hmax =>
      exact ⟨.part hx rfl, .optional hlow rfl, .optional hhigh rfl, .optional hmax rfl⟩
  | typeAssert hx _ htyp => exact ⟨.part hx rfl, .optional htyp rfl⟩
  | call hx _ hargs => exact ⟨.part hx rfl, .parts hargs rfl⟩
  | compositeLit htyp _ helts =>
      exact ⟨.part htyp rfl, .list fun t ht => .element (helts t ht) (.inl rfl)⟩
  | @funcLit b _ _ _ _ _ hparams hresults hbody =>
      exact ⟨.part (.funcType (b := b) hparams hresults) rfl, .part hbody rfl⟩
  | unary _ hx => exact .part hx rfl
  | star hx => exact .part hx rfl
  | binary _ hx hy => exact ⟨.part hx rfl, .part hy rfl⟩
  | arrayType hlen helt => exact ⟨.optional hlen rfl, .part helt rfl⟩
  | mapType hkey _ hvalue => exact ⟨.part hkey rfl, .part hvalue rfl⟩
  | chanType _ hvalue => exact .part hvalue rfl
  | funcType hparams hresults => exact ⟨.part hparams rfl, .optional hresults rfl⟩
  | structType hfields => exact .members (.inl rfl) fun t ht => .inl (hfields t ht)
  | interfaceType hmethods => exact .members (.inr rfl) fun t ht => .inr (hmethods t ht)
  | length _ ih | element _ ih | fieldType _ ih | simpleStmt _ ih | blockStmt _ ih => exact ih
  | bareLiteral helts => exact .list fun t ht => .element (helts t ht) (.inl rfl)
  | keyValue hkey hkeyPart hvalue hvaluePart =>
      exact ⟨.element hkey (.inr ⟨.inl rfl, hkeyPart⟩),
        .element hvalue (.inr ⟨.inr rfl, hvaluePart⟩)⟩
  | variadic h => exact .part h rfl
  | openIndex hname hothers =>
      refine ⟨.part hname rfl, .list (List.forall_mem_cons.mpr ⟨.part .openLength rfl, ?_⟩)⟩
      exact fun t ht => .part (hothers t ht) rfl
  | openUnion hx _ hy => exact ⟨.part hx rfl, .part hy rfl⟩
  | unnamedField h => exact ⟨.list (by simp), .part h rfl⟩
  | namedField _ hnames h => exact ⟨.parts hnames rfl, .part h rfl⟩
  | unnamedList hfields => exact .parts hfields rfl
  | namedList hfields => exact .parts hfields rfl
  | unnamedTypeParameters h _ hfields =>
      refine .list (List.forall_mem_cons.mpr ⟨.parameter (by simp) h, ?_⟩)
      exact fun t ht => .part (hfields t ht) rfl
  | namedTypeParameters _ hfields => exact .parts hfields rfl
  | takenApart hname h _ hfields =>
      refine .list (List.forall_mem_cons.mpr ⟨.parameter (by simpa using hname) (.fieldType h), ?_⟩)
      exact fun t ht => .part (hfields t ht) rfl
  | embeddedField h _ htag => exact ⟨.list (by simp), .part h rfl, .optional htag rfl⟩
  | structField _ hnames h _ htag =>
      exact ⟨.parts hnames rfl, .part h rfl, .optional htag rfl⟩
  | method hname hparams hresults =>
      have hnone : ∀ t ∈ (none : Option Tree), Built (.parameters true) t := by simp
      exact ⟨.parts (by simpa using hname) rfl, .signature hparams hresults hnone⟩
  | embeddedUnion h => exact ⟨.list (by simp), .part h rfl⟩
  | exprStmt hx => exact .part hx rfl
  | assign _ hlhs _ _ hrhs => exact ⟨.parts hlhs rfl, .parts hrhs rfl⟩
  | send hchan hvalue => exact ⟨.part hchan rfl, .part hvalue rfl⟩
  | incDec hx => exact .part hx rfl
  | block hstmts himplicit htrails =>
      exact Built.heldStatements (p := .absent) (.block hstmts himplicit htrails) (by decide)
  | labeled hlabel hstmt => exact ⟨.part hlabel rfl, .statement hstmt (.inl rfl)⟩
  | declStmt hdecl => exact .part hdecl rfl
  | goStmt hcall => exact .part hcall rfl
  | deferStmt hcall => exact .part hcall rfl
  | returnStmt hresults => exact .parts hresults rfl
  | branch _ hlabel => exact .optional hlabel rfl
  | ifStmt hinit hcond _ hbody helse hkind =>
      refine ⟨.optional hinit rfl, .part hcond rfl, .part hbody rfl, .ofOption fun t ht => ?_⟩
      exact .statement (helse t ht) (.inr (.inr (trails_of_kind (hkind t ht))))
  | switchStmt hinit htag _ _ hclauses =>
      exact ⟨.optional hinit rfl, .optional htag rfl, .switchBody (by decide) hclauses⟩
  | typeSwitch hinit hassign _ hclauses =>
      exact ⟨.optional hinit rfl, .part hassign rfl, .switchBody (by decide) hclauses⟩
  | selectStmt hclauses => exact .selectBody hclauses
  | forStmt hinit hcond hpost _ hbody =>
      exact ⟨.optional hinit rfl, .optional hcond rfl, .optional hpost rfl, .part hbody rfl⟩
  | rangeAll hx _ hbody => exact ⟨.part hx rfl, .part hbody rfl⟩
  | rangeStmt hkey hvalue _ hx _ hbody =>
      exact ⟨.part hkey rfl, .optional hvalue rfl, .part hx rfl, .part hbody rfl⟩
  | caseClause hvalues _ hbody => exact ⟨.parts hvalues rfl, hbody.heldStatements (by decide)⟩
  | commClause hcomm _ hbody => exact ⟨.optional hcomm rfl, hbody.heldStatements (by decide)⟩
  | importSpec hname hpath => exact ⟨.optional hname rfl, .part hpath rfl⟩
  | importAll hpath => exact ⟨.everything, .part hpath rfl⟩
  | valueSpec _ _ hnames htyp _ hvalues =>
      exact ⟨.parts hnames rfl, .optional htyp rfl, .parts hvalues rfl⟩
  | typeSpec hname htyp => exact ⟨.part hname rfl, .part htyp rfl⟩
  | genericSpec hname htyp _ hparams =>
      exact ⟨.part hname rfl, .part htyp rfl, .part hparams rfl⟩
  | genDecl _ hspecs => exact .parts hspecs rfl
  | funcDecl hrecv hname htypeParams _ hparams hresults hbody =>
      exact ⟨.optional hrecv rfl, .part hname rfl, .signature hparams hresults htypeParams,
        .optional hbody rfl⟩
  | file hpackage hdecls => exact ⟨.part hpackage rfl, .parts hdecls rfl⟩

-- What is built is a node.
theorem Built.ne_tuple {k : Category} {t : Tree} (h : Built k t) (items : List Tree) :
    t ≠ .tuple items := by
  induction h <;> first | assumption | simp

namespace Held

variable {i : Spot} {t : Tree}

theorem fieldsHeld (h : Held i t) : FieldsHeld t := by
  cases h with
    try simp only [fieldsHeld_node, NodeKind.fieldNames, NodeKind.fields, FieldRule.one, FieldRule.text,
      FieldRule.many, FieldRule.anyNumber, FieldRule.optional, FieldRule.flag, List.map_cons,
      List.map_nil, List.zip_cons_cons, List.zip_nil_right, List.forall_mem_cons,
      List.not_mem_nil, false_imp_iff, implies_true, and_true, Held.datum]
  | part h | element h | statement h | caseClause h | commClause h => exact h.fieldsHeld
  | switchBody _ h => exact .list fun t ht => .caseClause (h t ht)
  | selectBody h => exact .list fun t ht => .commClause (h t ht)
  | members _ h => exact .list fun t ht => (h t ht).elim (.part · rfl) (.part · rfl)
  | signature hparams hresults htypeParams =>
      exact ⟨.part hparams rfl, .optional hresults rfl, .optional htypeParams rfl⟩
  | parameter hnames h => exact ⟨.parts hnames rfl, .part h rfl⟩
  | _ => trivial

theorem member {items : List Tree} (h : Held i (.tuple items)) : ∀ u ∈ items, Held i u := by
  cases h with
  | list h => exact h
  | part h | element h | statement h | caseClause h | commClause h =>
      exact absurd rfl (h.ne_tuple items)

end Held

-- Every part of a tree holds what may stand in its place, if the tree does.
theorem Tree.Has.held {i : Spot} {t u : Tree} (h : t.Has i u) (ht : Held none t) : Held i u := by
  induction h with
  | top => exact ht
  | field _ hu ih => exact ih.fieldsHeld _ hu
  | member _ hu ih => exact ih.member _ hu

namespace Fragment

variable {fragment : Fragment} {t : Tree} {limit : Limit} {source : Text} {file : Option Text}

-- A statement with nothing after it has a text.
theorem trails_of_statementRule {g : Grammar} {s : Scope} {c c' : Cursor} (hg : g.Sound)
    (hs : 0 ≤ s.level) (hc : c.Fresh) (h : (alone g.statementRule).Gives s c t c') :
    t.trails = false := by
  obtain ⟨u, d, hu, h⟩ := gives_bind.mp h
  obtain ⟨_, e, hfinish, h⟩ := gives_bind.mp h
  obtain ⟨rfl, rfl⟩ := gives_pure.mp h
  have hread := hg.statementHere (s := s.deeper) hs hc (gives_nested.mp hu).2
  by_contra htrails
  have hkind := hread.trails (by simpa using htrails)
  simp [finish, hkind] at hfinish

-- What was read from a text is built, and a statement by itself has a text.
theorem built_of_parse (h : fragment.parse limit source file = .ok t) :
    Built fragment.category t ∧ (fragment = .statement → t.trails = false) := by
  obtain ⟨ts, c, hts, hgives⟩ := gives_of_parse h
  have hfresh := fresh_ofTokens (sourced_of_tokens hts)
  refine ⟨(read_rule (sound_upTo _) (Int.le_refl 0) hfresh hgives).built, ?_⟩
  rintro rfl
  exact trails_of_statementRule (sound_upTo _) (Int.le_refl 0) hfresh hgives

-- The tree of a text may stand on top.
theorem held_of_parse (h : fragment.parse limit source file = .ok t) : Held none t := by
  obtain ⟨hbuilt, htrails⟩ := built_of_parse h
  cases fragment with
  | statement => exact .statement hbuilt (.inr (.inr (htrails rfl)))
  | _ => exact .part hbuilt rfl

end Fragment

end GoCompact
