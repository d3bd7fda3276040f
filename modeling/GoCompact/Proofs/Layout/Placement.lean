import GoCompact.Proofs.Grammar.Mirror.Relocation
import GoCompact.Proofs.Grammar.Sound.Statement

namespace GoCompact

open GoCompact.Tree Emission Relocation

-- The roles in which the trees of a category are written.
def Category.Takes : Category → Role → Prop
  | .parameters _, role => role = .fieldList "," ∨ role = .results
  | .typeParameters, role => role = .fieldList ","
  | .unnamed _, role | .named _, role | .structField, role => role = .field
  | .interfaceElement, role => role = .interfaceElement
  | .block, role => role = .block ∨ role = .statement
  | .simple _, role | .statement, role | .caseClause _, role | .commClause, role =>
    role = .statement
  | .spec _, role => role = .spec
  | .declaration, role => role = .declaration
  | .file, role => role = .unit
  | _, role => role = .expression

variable {k : Category} {t : Tree} (r : Relocation)

theorem leadingOperator?_compositeLit (p typ elts : Tree) :
    (Tree.compositeLit p typ elts).leadingOperator? =
      if typ.kind?.any NodeKind.isExpression then typ.leadingOperator? else none := by
  by_cases h : typ.kind?.any NodeKind.isExpression = true
  · simp [leadingOperator?, leftmost_compositeLit, h]
  · simp [leadingOperator?, leftmost_compositeLit, h]

theorem Built.leadingOperator?_tree (h : Built k t) :
    (r.tree t).leadingOperator? = t.leadingOperator? := by
  induction h with
  | compositeLit _ _ _ ih _ => simp [leadingOperator?_compositeLit, ih]
  | @chanType _ _ _ d => cases d <;> rfl
  | _ => first | rfl | assumption

theorem Built.isSelfTerminated_tree (h : Built k t) :
    (r.tree t).isSelfTerminated = t.isSelfTerminated := by
  induction h with
  | @emptyStmt _ implicit => cases implicit <;> rfl
  | @caseClause _ _ _ body => cases body <;> rfl
  | @commClause _ _ body => cases body <;> rfl
  | _ => first | rfl | assumption

theorem Built.nameOf_tree (h : Built .name t) : Rule.nameOf (r.tree t) = Rule.nameOf t := by
  cases h
  rfl

theorem Built.literalOf_tree (h : Built .text t) :
    Rule.fieldText "value" (r.tree t) = Rule.fieldText "value" t := by
  cases h
  rfl

theorem Built.isField {c : Bool} (h : Built (.unnamed c) t ∨ Built (.named c) t) :
    ∃ q names typ, t = .field q (.tuple names) typ .absent := by
  rcases h with h | h <;> cases h <;> exact ⟨_, _, _, rfl⟩

-- Among statements only blocks are nodes of that kind.
theorem Built.isBlock (h : Built .statement t) (hkind : t.is .BlockStmt = true) :
    Built .block t := by
  cases h with
  | blockStmt h => exact h
  | simpleStmt h => cases h <;> cases hkind
  | _ => cases hkind

namespace Emission

-- What stands before and after an emission may be taken away.
theorem write_append_inj {s : Text} {a b : Emission} (h : write s ++ a = write s ++ b) :
    a = b := by
  obtain ⟨made, ending⟩ := a
  obtain ⟨made', ending'⟩ := b
  change (⟨.text s :: made, ending⟩ : Emission) = ⟨.text s :: made', ending'⟩ at h
  simpa using h

theorem append_write_inj {s : Text} {a b : Emission} (h : a ++ write s = b ++ write s) :
    a = b := by
  obtain ⟨made, ending⟩ := a
  obtain ⟨made', ending'⟩ := b
  change andThen _ _ = andThen _ _ at h
  rcases ending with _ | f <;> rcases ending' with _ | f' <;> simp_all [andThen, write]

theorem braces_inj {ts us : List Tree} (h : emittedBraces ts = emittedBraces us) :
    emittedStatements ts = emittedStatements us :=
  write_append_inj (append_write_inj h)

end Emission

namespace Relocation

variable {ts : List Tree}

theorem tree_interfaceType (p q : Tree) (methods : List Tree) :
    r.tree (.interfaceType p (.fieldList q (.tuple methods))) =
      .interfaceType (r.place p) (.fieldList (r.place q) (.tuple (methods.map r.tree))) := by
  simp

-- The tree is written alike where it was moved to.
abbrev Keeps (role : Role) (t : Tree) : Prop := (r.tree t).emittedAs role = t.emittedAs role

-- Lists of trees that are written alike where they were moved to.
theorem separated_trees (separator : Text) {f : Tree → Emission}
    (h : ∀ t ∈ ts, f (r.tree t) = f t) :
    separated separator ((ts.map r.tree).map f) = separated separator (ts.map f) := by
  rw [List.map_map]
  exact congrArg (separated separator) (List.map_congr_left h)

theorem emittedList_trees (h : ∀ t ∈ ts, r.Keeps .expression t) :
    emittedList (ts.map r.tree) = emittedList ts :=
  r.separated_trees _ h

theorem emittedFields_trees (separator : Text)
    (h : ∀ t ∈ ts, r.Keeps .field t) :
    emittedFields separator (ts.map r.tree) = emittedFields separator ts :=
  r.separated_trees _ h

theorem emittedFieldList_tree {p : Tree}
    (h : ∀ t ∈ ts, r.Keeps .field t) :
    (r.tree (.fieldList p (.tuple ts))).emittedAs (.fieldList ",") =
      (Tree.fieldList p (.tuple ts)).emittedAs (.fieldList ",") := by
  simp [emitted_fieldList, r.emittedFields_trees "," h]

-- Results, of which a single one without a name stands alone.
theorem emittedResults_tree {p : Tree}
    (hfields : ∀ t ∈ ts, ∃ q names typ, t = .field q (.tuple names) typ .absent)
    (h : ∀ t ∈ ts, r.Keeps .field t) :
    (r.tree (.fieldList p (.tuple ts))).emittedAs .results =
      (Tree.fieldList p (.tuple ts)).emittedAs .results := by
  by_cases hlone : ∃ q typ, ts = [.field q (.tuple []) typ .absent]
  · obtain ⟨q, typ, rfl⟩ := hlone
    have hfield := h _ (List.mem_singleton.mpr rfl)
    simp only [Keeps, tree_node, tree_tuple, tree_datum, List.map_cons, List.map_nil, emitted_field,
      emitted_lone] at hfield ⊢
    simpa [emittedIf, when] using hfield
  · have hlone' : ∀ q typ tag, ts ≠ [.field q (.tuple []) typ tag] := by
      rintro q typ tag rfl
      obtain ⟨q', names, typ', heq⟩ := hfields _ (List.mem_singleton.mpr rfl)
      simp only [node.injEq, List.cons.injEq] at heq
      rw [heq.2.2.2.2.1] at hlone
      exact hlone ⟨q, typ, rfl⟩
    have hmoved : ∀ q typ tag, ts.map r.tree ≠ [.field q (.tuple []) typ tag] := by
      intro q typ tag hmap
      obtain ⟨t, rfl, ht⟩ := r.eq_one_of_map hmap
      obtain ⟨q', names, typ', rfl⟩ := hfields t (List.mem_singleton.mpr rfl)
      simp only [tree_node, tree_tuple, List.map_cons, node.injEq, List.cons.injEq, tuple.injEq,
        List.map_eq_nil_iff] at ht
      rw [ht.2.2.1] at hlone'
      exact hlone' _ _ _ rfl
    simp only [tree_node, tree_tuple, List.map_cons, List.map_nil]
    rw [emitted_results _ _ hmoved, emitted_results _ _ hlone', r.emittedFields_trees "," h]
    · intro t ht
      obtain ⟨q, names, typ, rfl⟩ := hfields t ht
      exact ⟨_, _, _, _, rfl⟩
    · intro u hu
      obtain ⟨t, ht, rfl⟩ := List.mem_map.mp hu
      obtain ⟨q, names, typ, rfl⟩ := hfields t ht
      simp only [tree_node, tree_tuple, tree_datum, List.map_cons, List.map_nil]
      exact ⟨_, _, _, _, rfl⟩

theorem emittedSpecs_trees (h : ∀ t ∈ ts, r.Keeps .spec t) :
    emittedSpecs (ts.map r.tree) = emittedSpecs ts :=
  r.separated_trees _ h

theorem emittedNames_trees (h : ∀ t ∈ ts, Built .name t) :
    emittedNames (ts.map r.tree) = emittedNames ts :=
  r.separated_trees "," fun t ht => (h t ht).nameOf_tree r

theorem emittedField_tree {p t : Tree} (names : List Tree) (hnames : ∀ n ∈ names, Built .name n)
    (ht : r.Keeps .expression t) :
    (r.tree (.field p (.tuple names) t .absent)).emittedAs .field =
      (Tree.field p (.tuple names) t .absent).emittedAs .field := by
  simp [emitted_field, r.emittedNames_trees hnames, ht, emittedIf]

theorem emittedStatements_trees
    (hself : ∀ t ∈ ts, (r.tree t).isSelfTerminated = t.isSelfTerminated)
    (h : ∀ t ∈ ts, r.Keeps .statement t) :
    emittedStatements (ts.map r.tree) = emittedStatements ts := by
  induction ts using emittedStatements.induct with
  | case1 => rfl
  | case2 t => exact h t (by simp)
  | case3 t u ts ih =>
      simp only [List.forall_mem_cons] at hself h ih
      simp only [List.map_cons, emittedStatements] at ih ⊢
      rw [hself.1, h.1, ih hself.2 h.2]

-- A part that may be left out.
theorem emittedIf_ofOption {o : Option Tree} {f : Tree → Emission}
    (h : ∀ t ∈ o, f (r.tree t) = f t) :
    (ofOption (o.map r.tree)).emittedIf (f (ofOption (o.map r.tree))) =
      (ofOption o).emittedIf (f (ofOption o)) := by
  cases o with
  | none => rfl
  | some t =>
      simp only [Option.map_some, ofOption_some, emittedIf, isAbsent_tree]
      rw [h t rfl]

theorem emittedInit_ofOption {o : Option Tree}
    (h : ∀ t ∈ o, r.Keeps .statement t) :
    (ofOption (o.map r.tree)).emittedIf
        ((ofOption (o.map r.tree)).emittedAs .statement ++ operator .Semicolon) =
      (ofOption o).emittedIf ((ofOption o).emittedAs .statement ++ operator .Semicolon) :=
  r.emittedIf_ofOption (f := fun t => t.emittedAs .statement ++ operator .Semicolon)
    fun t ht => congrArg (· ++ _) (h t ht)

-- Clauses in their braces.
theorem emittedClauses_tree (p : Tree)
    (hself : ∀ t ∈ ts, (r.tree t).isSelfTerminated = t.isSelfTerminated)
    (h : ∀ t ∈ ts, r.Keeps .statement t) :
    (r.tree (.block p (.tuple ts))).emittedAs .block =
      (Tree.block p (.tuple ts)).emittedAs .block := by
  simp [emitted_block, emittedBraces, r.emittedStatements_trees hself h]

theorem otherwise_ofOption {o : Option Tree} (hbuilt : ∀ t ∈ o, Built .statement t)
    (hkind : ∀ t ∈ o, t.is .IfStmt = true ∨ t.is .BlockStmt = true)
    (h : ∀ t ∈ o, r.Keeps .statement t) :
    Rule.otherwise ⟨ofOption (o.map r.tree), (ofOption (o.map r.tree)).emittedAs⟩ =
      Rule.otherwise ⟨ofOption o, (ofOption o).emittedAs⟩ := by
  cases o with
  | none => rfl
  | some t =>
      change Rule.otherwise ⟨r.tree t, (r.tree t).emittedAs⟩ = Rule.otherwise ⟨t, t.emittedAs⟩
      rcases hkind t rfl with hif | hblock
      · rw [Grammar.otherwise_if hif, Grammar.otherwise_if (by rw [is_tree]; exact hif), h t rfl]
      · rw [Grammar.otherwise_block hblock,
          Grammar.otherwise_block (by rw [is_tree]; exact hblock)]
        have ht := h t rfl
        cases (hbuilt t rfl).isBlock hblock with
        | block =>
            simp only [Keeps, tree_node, tree_tuple, List.map_cons, List.map_nil, emitted_blockStmt,
              emitted_block] at ht ⊢
            rw [ht]

theorem isAbsent_ofOption (o : Option Tree) :
    (ofOption (o.map r.tree)).isAbsent = (ofOption o).isAbsent := by
  cases o <;> simp

theorem emittedSignature_tree {params : Tree} {results : Option Tree} (typeParams : Option Tree)
    (hparams : r.Keeps (.fieldList ",") params)
    (hresults : ∀ t ∈ results, r.Keeps .results t)
    (htypeParams : ∀ t ∈ typeParams,
      r.Keeps (.fieldList ",") t) :
    emittedSignature (r.tree params) (ofOption (results.map r.tree))
        (ofOption (typeParams.map r.tree)) =
      emittedSignature params (ofOption results) (ofOption typeParams) := by
  have hlist := r.emittedIf_ofOption
    (f := fun t => operator .LBrack ++ t.emittedAs (.fieldList ",") ++ operator .RBrack)
    fun t ht => by rw [htypeParams t ht]
  have hresult := r.emittedIf_ofOption (f := (·.emittedAs .results)) hresults
  simp only [emittedSignature, hparams, hlist, hresult]

theorem emittedSignature_tree_none {params : Tree} {results : Option Tree}
    (hparams : r.Keeps (.fieldList ",") params)
    (hresults : ∀ t ∈ results, r.Keeps .results t) :
    emittedSignature (r.tree params) (ofOption (results.map r.tree)) .absent =
      emittedSignature params (ofOption results) .absent := by
  simpa using r.emittedSignature_tree none hparams hresults (by simp)

theorem emittedLoop_tree {init cond post : Option Tree}
    (hinit : ∀ t ∈ init, r.Keeps .statement t)
    (hcond : ∀ t ∈ cond, r.Keeps .expression t)
    (hpost : ∀ t ∈ post, r.Keeps .statement t) :
    emittedLoop (ofOption (init.map r.tree)) (ofOption (cond.map r.tree))
        (ofOption (post.map r.tree)) =
      emittedLoop (ofOption init) (ofOption cond) (ofOption post) := by
  have hinit' := r.emittedIf_ofOption (f := (·.emittedAs .statement)) hinit
  have hcond' := r.emittedIf_ofOption (f := (·.emittedAs .expression)) hcond
  have hpost' := r.emittedIf_ofOption (f := (·.emittedAs .statement)) hpost
  unfold emittedLoop
  rw [r.isAbsent_ofOption, r.isAbsent_ofOption, r.isAbsent_ofOption, hinit', hcond', hpost']
  split
  · cases cond with
    | none => rfl
    | some t =>
        simp only [Option.map_some, ofOption_some]
        rw [hcond t rfl]
  · rfl

end Relocation

theorem Built.emittedAfter_tree {o : Operator} (h : Built k t)
    (ht : r.Keeps .expression t) :
    (r.tree t).emittedAfter o = t.emittedAfter o := by
  simp only [emittedAfter, needsBlank, h.leadingOperator?_tree, ht]

theorem emittedListAfter_trees {o : Operator} {y : Tree} {ys : List Tree} (h : Built k y)
    (hlist : ∀ t ∈ y :: ys, r.Keeps .expression t) :
    emittedListAfter o (r.tree y) (ys.map r.tree) = emittedListAfter o y ys := by
  rw [emittedListAfter, ← List.map_cons, r.emittedList_trees hlist]
  simp only [emittedListAfter, needsBlank, h.leadingOperator?_tree]

@[simp]
theorem Relocation.combinesWithName_tree (t : Tree) :
    (r.tree t).combinesWithName = t.combinesWithName := by
  induction t using combinesWithName.induct with
  | case1 p x => simp [combinesWithName]
  | case2 p x => simp [combinesWithName]
  | case3 p x op y ih => simp [combinesWithName, ih]
  | case4 t hstar hparen hbinary =>
      rw [combinesWithName.eq_4 t hstar hparen hbinary, combinesWithName.eq_4]
      · intro p x h
        obtain ⟨q, fields, rfl, hfields⟩ := r.eq_node_of_tree h
        obtain ⟨y, rfl, -⟩ := r.eq_one_of_map hfields
        exact hstar q y rfl
      · intro p x h
        obtain ⟨q, fields, rfl, hfields⟩ := r.eq_node_of_tree h
        obtain ⟨y, rfl, -⟩ := r.eq_one_of_map hfields
        exact hparen q y rfl
      · intro p x op y h
        obtain ⟨q, fields, rfl, hfields⟩ := r.eq_node_of_tree h
        obtain ⟨x, op, y, rfl, -⟩ := r.eq_three_of_map hfields
        exact hbinary q x op y rfl

theorem Built.readsAsLength_tree (h : Built .typeParameters t) :
    (r.tree t).readsAsLength = t.readsAsLength := by
  have hmany : ∀ u v rest, Grammar.loneCombines (u :: v :: rest) = false := by
    intro u v rest
    unfold Grammar.loneCombines
    split
    · rename_i heq
      cases heq
    · rfl
  have hlist : ∀ (p : Tree) (fields : List Tree),
      (∀ u ∈ fields, ∃ q names typ, u = .field q (.tuple names) typ .absent) →
        (r.tree (.fieldList p (.tuple fields))).readsAsLength =
          (Tree.fieldList p (.tuple fields)).readsAsLength := by
    intro p fields hfields
    simp only [tree_node, tree_tuple, List.map_cons, List.map_nil, Grammar.readsAsLength_fieldList]
    rcases fields with _ | ⟨u, _ | ⟨v, rest⟩⟩
    · rfl
    · obtain ⟨q, names, typ, rfl⟩ := hfields u (by simp)
      rcases names with _ | ⟨n, _ | ⟨m, rest⟩⟩
      · rfl
      · simp [Grammar.loneCombines]
      · rfl
    · rw [List.map_cons, List.map_cons, hmany, hmany]
  cases h with
  | unnamedTypeParameters _ _ hfields =>
      exact hlist _ _ (List.forall_mem_cons.mpr
        ⟨⟨_, _, _, rfl⟩, fun t ht => Built.isField (Or.inl (hfields t ht))⟩)
  | namedTypeParameters _ hfields =>
      exact hlist _ _ fun t ht => Built.isField (Or.inr (hfields t ht))
  | takenApart _ _ _ hfields =>
      exact hlist _ _ (List.forall_mem_cons.mpr
        ⟨⟨_, _, _, rfl⟩, fun t ht => Built.isField (Or.inr (hfields t ht))⟩)

namespace Relocation

variable {p q x y : Tree} {items : List Tree}

theorem keeps_index (hx : r.Keeps .expression x) (hitems : ∀ t ∈ items, r.Keeps .expression t) :
    r.Keeps .expression (.index p x (.tuple items)) := by
  simp [Keeps, emitted_index, hx, r.emittedList_trees hitems]

theorem keeps_slice {low high max : Option Tree} (hx : r.Keeps .expression x)
    (hlow : ∀ t ∈ low, r.Keeps .expression t) (hhigh : ∀ t ∈ high, r.Keeps .expression t)
    (hmax : ∀ t ∈ max, r.Keeps .expression t) :
    r.Keeps .expression (.slice p x (.ofOption low) (.ofOption high) (.ofOption max)) := by
  have hlow' := r.emittedIf_ofOption (f := (·.emittedAs .expression)) hlow
  have hhigh' := r.emittedIf_ofOption (f := (·.emittedAs .expression)) hhigh
  have hmax' := r.emittedIf_ofOption (f := fun t => operator .Colon ++ t.emittedAs .expression)
    fun t ht => congrArg _ (hmax t ht)
  simp [Keeps, emitted_slice, hx, hlow', hhigh', hmax']

theorem keeps_typeAssert {typ : Option Tree} (hx : r.Keeps .expression x)
    (htyp : ∀ t ∈ typ, r.Keeps .expression t) : r.Keeps .expression (.typeAssert p x (.ofOption typ)) := by
  cases typ with
  | none => simp [Keeps, emitted_typeAssert, hx]
  | some typ => simp [Keeps, emitted_typeAssert, hx, htyp typ rfl]

theorem keeps_interfaceType {methods : List Tree} (h : ∀ t ∈ methods, r.Keeps .interfaceElement t) :
    r.Keeps .expression (.interfaceType p (.fieldList q (.tuple methods))) := by
  have hmethods := r.separated_trees ";" (f := (·.emittedAs .interfaceElement)) h
  rw [Keeps, tree_interfaceType, emitted_interfaceType, emitted_interfaceType, hmethods]

-- The fields of a parameter list, and of a list of results.
theorem keeps_fieldList {role : Role} {fields : List Tree} (hrole : role = .fieldList "," ∨ role = .results)
    (hfields : ∀ t ∈ fields, ∃ q names typ, t = .field q (.tuple names) typ .absent)
    (h : ∀ t ∈ fields, r.Keeps .field t) : r.Keeps role (.fieldList p (.tuple fields)) := by
  rcases hrole with rfl | rfl
  · exact r.emittedFieldList_tree h
  · exact r.emittedResults_tree hfields h

theorem keeps_taggedField {names : List Tree} {tag : Option Tree} (hnames : ∀ n ∈ names, Built .name n)
    (hx : r.Keeps .expression x) (htag : ∀ t ∈ tag, Built .text t) :
    r.Keeps .field (.field p (.tuple names) x (.ofOption tag)) := by
  have htag' := r.emittedIf_ofOption (f := Rule.fieldText "value") fun t ht => (htag t ht).literalOf_tree r
  simp [Keeps, emitted_field, r.emittedNames_trees hnames, hx, htag']

theorem keeps_assign {k : Category} {lhs rhs : List Tree} {o : Operator} (hne : rhs ≠ [])
    (hbuilt : ∀ t ∈ rhs, Built k t) (hlhs : ∀ t ∈ lhs, r.Keeps .expression t)
    (hrhs : ∀ t ∈ rhs, r.Keeps .expression t) :
    r.Keeps .statement (.assign p (.tuple lhs) (.token (.op o)) (.tuple rhs)) := by
  obtain ⟨y, ys, rfl⟩ := List.exists_cons_of_ne_nil hne
  have hright := emittedListAfter_trees r (o := o) (hbuilt y (by simp)) hrhs
  simp [Keeps, emitted_assign, r.emittedList_trees hlhs, hright]

theorem keeps_block {role : Role} {ts : List Tree} (hrole : role = .block ∨ role = .statement)
    (hbuilt : ∀ t ∈ ts, Built .statement t) (h : ∀ t ∈ ts, r.Keeps .statement t) :
    r.Keeps role (.block p (.tuple ts)) := by
  have hlist := r.emittedStatements_trees (fun t ht => (hbuilt t ht).isSelfTerminated_tree r) h
  rcases hrole with rfl | rfl
  · simp [Keeps, emitted_block, emittedBraces, hlist]
  · simp [Keeps, emitted_blockStmt, emittedBraces, hlist]

theorem keeps_branch {j : Keyword} {label : Option Tree} (hlabel : ∀ t ∈ label, Built .name t) :
    r.Keeps .statement (.branch p (.token (.word j)) (.ofOption label)) := by
  have hlabel' := r.emittedIf_ofOption (f := fun t => blank ++ Rule.nameOf t)
    fun t ht => congrArg _ ((hlabel t ht).nameOf_tree r)
  simp [Keeps, emitted_branch, hlabel']

theorem keeps_ifStmt {init otherwise : Option Tree} (helse : ∀ t ∈ otherwise, Built .statement t)
    (hkind : ∀ t ∈ otherwise, t.is .IfStmt = true ∨ t.is .BlockStmt = true)
    (ihinit : ∀ t ∈ init, r.Keeps .statement t) (hx : r.Keeps .expression x) (hy : r.Keeps .block y)
    (ihelse : ∀ t ∈ otherwise, r.Keeps .statement t) :
    r.Keeps .statement (.ifStmt p (.ofOption init) x y (.ofOption otherwise)) := by
  have hinit := r.emittedInit_ofOption ihinit
  have helse' := r.otherwise_ofOption helse hkind ihelse
  simp [Keeps, emitted_ifStmt, hinit, hx, hy, helse']

section Clauses

variable {init : Option Tree} {clauses : List Tree} (hbuilt : ∀ t ∈ clauses, Built k t)
  (hinit : ∀ t ∈ init, r.Keeps .statement t) (hclauses : ∀ t ∈ clauses, r.Keeps .statement t)

include hbuilt hclauses in
theorem keeps_clauses (q : Tree) : (Tree.block (r.place q) (.tuple (clauses.map r.tree))).emittedAs .block =
    (Tree.block q (.tuple clauses)).emittedAs .block := by
  simpa using r.emittedClauses_tree q (fun t ht => (hbuilt t ht).isSelfTerminated_tree r) hclauses

include hbuilt hinit hclauses in
theorem keeps_switchStmt {tag : Option Tree} (htag : ∀ t ∈ tag, r.Keeps .expression t) :
    r.Keeps .statement (.switchStmt p (.ofOption init) (.ofOption tag) (.block q (.tuple clauses))) := by
  have htag' := r.emittedIf_ofOption (f := (·.emittedAs .expression)) htag
  simp [Keeps, emitted_switchStmt, r.isAbsent_ofOption, r.emittedInit_ofOption hinit, htag',
    r.keeps_clauses hbuilt hclauses]

include hbuilt hinit hclauses in
theorem keeps_typeSwitch (hx : r.Keeps .statement x) :
    r.Keeps .statement (.typeSwitch p (.ofOption init) x (.block q (.tuple clauses))) := by
  simp [Keeps, emitted_typeSwitch, r.emittedInit_ofOption hinit, hx, r.keeps_clauses hbuilt hclauses]

include hbuilt hclauses in
theorem keeps_selectStmt : r.Keeps .statement (.selectStmt p (.block q (.tuple clauses))) := by
  simp [Keeps, emitted_selectStmt, r.keeps_clauses hbuilt hclauses]

end Clauses

theorem keeps_rangeStmt {z : Tree} {value : Option Tree} {o : Operator} (hbuilt : Built k z)
    (hz : r.Keeps .expression z) (hvalue : ∀ t ∈ value, r.Keeps .expression t)
    (hx : r.Keeps .expression x) (hy : r.Keeps .block y) :
    r.Keeps .statement (.rangeStmt p z (.ofOption value) (.token (.op o)) x y) := by
  have hvalue' := r.emittedIf_ofOption (f := fun t => operator .Comma ++ t.emittedAs .expression)
    fun t ht => congrArg _ (hvalue t ht)
  have hkey : (r.tree z).isAbsent = false := (r.isAbsent_tree z).trans hbuilt.isAbsent
  simp only [Keeps, tree_node, List.map_cons, List.map_nil, tree_ofOption, tree_token]
  rw [emitted_rangeStmt _ _ _ _ _ _ hkey, emitted_rangeStmt _ _ _ _ _ _ hbuilt.isAbsent]
  simp [hvalue', hz, hx, hy]

-- The statements of a clause are those of the block that holds them.
theorem keeps_body (p : Tree) {body : List Tree} (h : r.Keeps .block (.block p (.tuple body))) :
    emittedStatements (body.map r.tree) = emittedStatements body := by
  rw [Keeps] at h
  simp only [tree_node, tree_tuple, List.map_cons, List.map_nil, emitted_block] at h
  exact braces_inj h

theorem keeps_caseClause {values body : List Tree} (hvalues : ∀ t ∈ values, r.Keeps .expression t)
    (hbody : r.Keeps .block (.block p (.tuple body))) :
    r.Keeps .statement (.caseClause p (.tuple values) (.tuple body)) := by
  simp [Keeps, emitted_caseClause, r.emittedList_trees hvalues, r.keeps_body p hbody]

theorem keeps_commClause {comm : Option Tree} {body : List Tree}
    (hcomm : ∀ t ∈ comm, r.Keeps .statement t) (hbody : r.Keeps .block (.block p (.tuple body))) :
    r.Keeps .statement (.commClause p (.ofOption comm) (.tuple body)) := by
  cases comm with
  | none => simp [Keeps, emitted_commClause, r.keeps_body p hbody]
  | some t => simp [Keeps, emitted_commClause, r.keeps_body p hbody, hcomm t rfl]

theorem keeps_valueSpec {names values : List Tree} {typ : Option Tree}
    (hnames : ∀ n ∈ names, Built .name n) (hbuilt : ∀ t ∈ values, Built k t)
    (htyp : ∀ t ∈ typ, r.Keeps .expression t) (hvalues : ∀ t ∈ values, r.Keeps .expression t) :
    r.Keeps .spec (.valueSpec p (.tuple names) (.ofOption typ) (.tuple values)) := by
  have htyp' := r.emittedIf_ofOption (f := fun t => blank ++ t.emittedAs .expression)
    fun t ht => congrArg _ (htyp t ht)
  cases values with
  | nil => simp [Keeps, emitted_valueSpec, r.emittedNames_trees hnames, htyp', emittedValues]
  | cons y ys =>
      have hlist := emittedListAfter_trees r (o := .Assign) (hbuilt y (by simp)) hvalues
      simp [Keeps, emitted_valueSpec, r.emittedNames_trees hnames, htyp', emittedValues, hlist]

theorem keeps_genDecl {j : Keyword} {specs : List Tree} {grouped : Bool}
    (hsingle : grouped = false → specs.length = 1) (h : ∀ t ∈ specs, r.Keeps .spec t) :
    r.Keeps .declaration (.genDecl p (.token (.word j)) (.tuple specs) (.flag grouped)) := by
  cases grouped with
  | true => simp [Keeps, emitted_grouped, r.emittedSpecs_trees h]
  | false =>
      obtain ⟨spec, rfl⟩ := List.length_eq_one_iff.mp (hsingle rfl)
      simp [Keeps, emitted_genDecl, h spec (by simp)]

theorem keeps_funcDecl {name params : Tree} {recv results typeParams body : Option Tree}
    {funcKeyword : Bool} (hname : Built .name name) (hrecv : ∀ t ∈ recv, r.Keeps (.fieldList ",") t)
    (htypeParams : ∀ t ∈ typeParams, r.Keeps (.fieldList ",") t)
    (hparams : r.Keeps (.fieldList ",") params) (hresults : ∀ t ∈ results, r.Keeps .results t)
    (hbody : ∀ t ∈ body, r.Keeps .block t) :
    r.Keeps .declaration (.funcDecl p (.ofOption recv) name (.funcType q params (.ofOption results)
      (.ofOption typeParams) (.flag funcKeyword)) (.ofOption body)) := by
  have hsignature := r.emittedSignature_tree typeParams hparams hresults htypeParams
  have hbody' := r.emittedIf_ofOption (f := (·.emittedAs .block)) hbody
  cases recv with
  | none => simp [Keeps, emitted_funcDecl, hname.nameOf_tree r, hsignature, hbody']
  | some t => simp [Keeps, emitted_funcDecl, hname.nameOf_tree r, hsignature, hbody', hrecv t rfl]

end Relocation

-- What is written does not depend on where nodes stand.
theorem Built.emittedAs_tree {role : Role} (h : Built k t) (hrole : k.Takes role) : r.Keeps role t := by
  induction h generalizing role with
  | paren _ ih =>
      cases hrole
      simp [Relocation.Keeps, emitted_paren, ih rfl]
  | selector _ _ hsel ih _ =>
      cases hrole
      cases hsel
      simp [Relocation.Keeps, emitted_selector, ih rfl]
  | index _ _ _ _ _ ih ihfirst ihothers =>
      cases hrole
      exact r.keeps_index (ih rfl) (List.forall_mem_cons.mpr
        ⟨ihfirst rfl, fun t ht => ihothers t ht rfl⟩)
  | slice _ _ _ _ _ _ ih ihlow ihhigh ihmax =>
      cases hrole
      exact r.keeps_slice (ih rfl) (fun t ht => ihlow t ht rfl) (fun t ht => ihhigh t ht rfl)
        fun t ht => ihmax t ht rfl
  | typeAssert _ _ _ _ ih ihtyp =>
      cases hrole
      exact r.keeps_typeAssert (ih rfl) fun t ht => ihtyp t ht rfl
  | call _ _ _ _ ih ihargs =>
      cases hrole
      have hlist := r.emittedList_trees fun t ht => ihargs t ht rfl
      simp [Relocation.Keeps, emitted_call, ih rfl, hlist]
  | compositeLit _ _ _ ih ihelts =>
      cases hrole
      have hlist := r.emittedList_trees fun t ht => ihelts t ht rfl
      simp [Relocation.Keeps, emitted_compositeLit, emittedIf, ih rfl, hlist]
  | funcLit _ _ _ ihparams ihresults ihbody =>
      cases hrole
      have hsignature := r.emittedSignature_tree_none (ihparams (Or.inl rfl))
        fun t ht => ihresults t ht (Or.inr rfl)
      simp [Relocation.Keeps, emitted_funcLit, hsignature, ihbody (Or.inl rfl)]
  | unary _ hx _ _ ih =>
      cases hrole
      simp [Relocation.Keeps, emitted_unary, hx.emittedAfter_tree r (ih rfl)]
  | star hx _ ih =>
      cases hrole
      simp [Relocation.Keeps, emitted_star, hx.emittedAfter_tree r (ih rfl)]
  | binary _ _ hy _ _ ihx ihy | openUnion _ _ hy _ ihx ihy =>
      cases hrole
      simp [Relocation.Keeps, emitted_binary, ihx rfl, hy.emittedAfter_tree r (ihy rfl)]
  | arrayType _ _ _ ihlen ihelt =>
      cases hrole
      have hlen := r.emittedIf_ofOption (f := (·.emittedAs .expression)) fun t ht => ihlen t ht rfl
      simp [Relocation.Keeps, emitted_arrayType, hlen, ihelt rfl]
  | mapType _ _ _ _ ihkey ihvalue =>
      cases hrole
      simp [Relocation.Keeps, emitted_mapType, ihkey rfl, ihvalue rfl]
  | chanType _ _ _ _ ih =>
      cases hrole
      simp [Relocation.Keeps, emitted_chanType, ih rfl]
  | funcType _ _ ihparams ihresults =>
      cases hrole
      have hsignature := r.emittedSignature_tree_none (ihparams (Or.inl rfl))
        fun t ht => ihresults t ht (Or.inr rfl)
      simp [Relocation.Keeps, emitted_funcType, hsignature]
  | structType _ ih =>
      cases hrole
      have hfields := r.emittedFields_trees ";" fun t ht => ih t ht rfl
      simp [Relocation.Keeps, emitted_structType, hfields]
  | interfaceType _ ih =>
      cases hrole
      exact r.keeps_interfaceType fun t ht => ih t ht rfl
  | length _ ih | element _ ih | fieldType _ ih | simpleStmt _ ih => exact ih hrole
  | bareLiteral _ ihelts =>
      cases hrole
      have hlist := r.emittedList_trees fun t ht => ihelts t ht rfl
      simp [Relocation.Keeps, emitted_compositeLit, emittedIf, hlist]
  | keyValue _ _ _ _ ihkey ihvalue =>
      cases hrole
      simp [Relocation.Keeps, emitted_keyValue, ihkey rfl, ihvalue rfl]
  | variadic _ _ ih =>
      cases hrole
      simp [Relocation.Keeps, emitted_ellipsis, emittedIf, ih rfl]
  | openIndex _ _ _ ih ihothers =>
      cases hrole
      exact r.keeps_index (ih rfl) (List.forall_mem_cons.mpr ⟨rfl, fun t ht => ihothers t ht rfl⟩)
  | unnamedField _ _ ih =>
      cases hrole
      exact r.emittedField_tree [] (by simp) (ih rfl)
  | namedField _ hnames _ _ _ ih =>
      cases hrole
      exact r.emittedField_tree _ hnames (ih rfl)
  | unnamedList hfields ih =>
      exact r.keeps_fieldList hrole (fun t ht => Built.isField (Or.inl (hfields t ht)))
        fun t ht => ih t ht rfl
  | namedList hfields ih =>
      exact r.keeps_fieldList hrole (fun t ht => Built.isField (Or.inr (hfields t ht)))
        fun t ht => ih t ht rfl
  | @unnamedTypeParameters _ q t _ _ _ _ ih ihfields =>
      cases hrole
      have hfirst := r.emittedField_tree (p := q) (t := t) [] (by simp) (ih rfl)
      exact r.emittedFieldList_tree (List.forall_mem_cons.mpr
        ⟨hfirst, fun t ht => ihfields t ht rfl⟩)
  | namedTypeParameters _ _ ih =>
      cases hrole
      exact r.emittedFieldList_tree fun t ht => ih t ht rfl
  | @takenApart _ q name t _ hname _ _ _ _ ih ihfields =>
      cases hrole
      have hfirst := r.emittedField_tree (p := q) (t := t) [name] (by simpa using hname) (ih rfl)
      exact r.emittedFieldList_tree (List.forall_mem_cons.mpr
        ⟨hfirst, fun t ht => ihfields t ht rfl⟩)
  | embeddedField _ _ htag ih _ =>
      cases hrole
      exact r.keeps_taggedField (by simp) (ih rfl) htag
  | structField _ hnames _ _ htag _ ih _ =>
      cases hrole
      exact r.keeps_taggedField hnames (ih rfl) htag
  | method hname _ _ _ ihparams ihresults =>
      cases hrole
      have hsignature := r.emittedSignature_tree_none (ihparams (Or.inl rfl))
        fun t ht => ihresults t ht (Or.inr rfl)
      simp [Relocation.Keeps, emitted_method, hname.nameOf_tree r, hsignature]
  | embeddedUnion _ _ ih =>
      cases hrole
      simp [Relocation.Keeps, emitted_embedded, ih rfl]
  | exprStmt _ ih =>
      cases hrole
      simp [Relocation.Keeps, emitted_exprStmt, ih rfl]
  | assign _ _ _ hrne hrhs ihlhs ihrhs =>
      cases hrole
      exact r.keeps_assign hrne hrhs (fun t ht => ihlhs t ht rfl) fun t ht => ihrhs t ht rfl
  | send _ hvalue ihchan ihvalue =>
      cases hrole
      simp [Relocation.Keeps, emitted_send, ihchan rfl, hvalue.emittedAfter_tree r (ihvalue rfl)]
  | incDec _ _ ih =>
      cases hrole
      simp [Relocation.Keeps, emitted_incDec, ih rfl]
  | block hstmts _ _ ih => exact r.keeps_block hrole hstmts fun t ht => ih t ht rfl
  | labeled hlabel _ _ ih =>
      cases hrole
      simp [Relocation.Keeps, emitted_labeled, hlabel.nameOf_tree r, ih rfl]
  | declStmt _ _ ih =>
      cases hrole
      simpa [Relocation.Keeps, emitted_declStmt] using ih rfl
  | goStmt _ _ ih =>
      cases hrole
      simp [Relocation.Keeps, emitted_goStmt, ih rfl]
  | deferStmt _ _ ih =>
      cases hrole
      simp [Relocation.Keeps, emitted_deferStmt, ih rfl]
  | returnStmt _ ih =>
      cases hrole
      have hlist := r.emittedList_trees fun t ht => ih t ht rfl
      simp [Relocation.Keeps, emitted_returnStmt, hlist]
  | branch _ hlabel _ _ =>
      cases hrole
      exact r.keeps_branch hlabel
  | blockStmt _ ih => exact ih (Or.inr hrole)
  | ifStmt _ _ _ _ helse hkind ihinit ihcond ihbody ihelse =>
      cases hrole
      exact r.keeps_ifStmt helse hkind (fun t ht => ihinit t ht rfl) (ihcond rfl) (ihbody (Or.inl rfl))
        fun t ht => ihelse t ht rfl
  | switchStmt _ _ _ _ hclauses _ ihinit ihtag ihclauses =>
      cases hrole
      exact r.keeps_switchStmt hclauses (fun t ht => ihinit t ht rfl) (fun t ht => ihclauses t ht rfl)
        fun t ht => ihtag t ht rfl
  | typeSwitch _ _ _ hclauses _ ihinit ihguard ihclauses =>
      cases hrole
      exact r.keeps_typeSwitch hclauses (fun t ht => ihinit t ht rfl) (fun t ht => ihclauses t ht rfl)
        (ihguard rfl)
  | selectStmt hclauses _ ihclauses =>
      cases hrole
      exact r.keeps_selectStmt hclauses fun t ht => ihclauses t ht rfl
  | forStmt _ _ _ _ _ ihinit ihcond ihpost ihbody =>
      cases hrole
      have hloop := r.emittedLoop_tree (fun t ht => ihinit t ht rfl) (fun t ht => ihcond t ht rfl)
        fun t ht => ihpost t ht rfl
      simp [Relocation.Keeps, emitted_forStmt, hloop, ihbody (Or.inl rfl)]
  | rangeAll _ _ _ ih ihbody =>
      cases hrole
      simp only [Relocation.Keeps, tree_node, List.map_cons, List.map_nil, tree_datum]
      rw [emitted_rangeAll, emitted_rangeAll, ih rfl, ihbody (Or.inl rfl)]
  | rangeStmt hkey _ _ _ _ _ ihkey ihvalue ih ihbody =>
      cases hrole
      exact r.keeps_rangeStmt hkey (ihkey rfl) (fun t ht => ihvalue t ht rfl) (ih rfl)
        (ihbody (Or.inl rfl))
  | caseClause _ _ _ ihvalues ihbody =>
      cases hrole
      exact r.keeps_caseClause (fun t ht => ihvalues t ht rfl) (ihbody (Or.inl rfl))
  | commClause _ _ _ ihcomm ihbody =>
      cases hrole
      exact r.keeps_commClause (fun t ht => ihcomm t ht rfl) (ihbody (Or.inl rfl))
  | importSpec hname hpath _ _ =>
      cases hrole
      have hname' := r.emittedIf_ofOption (f := Rule.nameOf) fun t ht => (hname t ht).nameOf_tree r
      simp [Relocation.Keeps, emitted_importSpec, hname', hpath.literalOf_tree r]
  | importAll hpath _ =>
      cases hrole
      cases hpath
      rfl
  | valueSpec _ _ hnames _ _ hvalues _ _ ihtyp ihvalues =>
      cases hrole
      exact r.keeps_valueSpec hnames hvalues (fun t ht => ihtyp t ht rfl) fun t ht => ihvalues t ht rfl
  | typeSpec hname _ _ _ _ ih =>
      cases hrole
      simp [Relocation.Keeps, emitted_typeSpec, hname.nameOf_tree r, ih rfl, emittedIf]
  | genericSpec hname _ _ hparams _ ih ihparams =>
      cases hrole
      simp [Relocation.Keeps, emitted_typeSpec, hname.nameOf_tree r, ih rfl, ihparams rfl, emittedIf,
        hparams.readsAsLength_tree r]
  | genDecl _ _ hsingle ih =>
      cases hrole
      exact r.keeps_genDecl hsingle fun t ht => ih t ht rfl
  | funcDecl _ hname _ _ _ _ _ ihrecv _ ihtypeParams ihparams ihresults ihbody =>
      cases hrole
      exact r.keeps_funcDecl hname (fun t ht => ihrecv t ht (Or.inl rfl))
        (fun t ht => ihtypeParams t ht (Or.inl rfl)) (ihparams (Or.inl rfl))
        (fun t ht => ihresults t ht (Or.inr rfl)) fun t ht => ihbody t ht (Or.inl rfl)
  | file hpackage _ _ ih =>
      cases hrole
      have hlist := r.separated_trees ";" (f := (·.emittedAs .declaration)) fun t ht => ih t ht rfl
      simp only [Relocation.Keeps, tree_node, tree_tuple, List.map_cons, List.map_nil, emitted_file,
        hpackage.nameOf_tree r, hlist]
  | _ =>
      cases hrole
      rfl

end GoCompact
