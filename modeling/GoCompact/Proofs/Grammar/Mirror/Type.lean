import GoCompact.Proofs.Grammar.Mirror.Basic

namespace GoCompact

namespace Relocation

open GoCompact.Grammar

variable (r : Relocation)

def entry (e : Grammar.Entry) : Grammar.Entry := ⟨e.name.map r.tree, e.type.map r.tree⟩

@[simp]
theorem entry_mk (name typ : Option Tree) :
    r.entry ⟨name, typ⟩ = ⟨name.map r.tree, typ.map r.tree⟩ :=
  rfl

theorem isComplete_entry (e : Grammar.Entry) : (r.entry e).isComplete = e.isComplete := by
  simp [entry, Grammar.Entry.isComplete]

theorem unnamedFields_map (entries : List Grammar.Entry) :
    unnamedFields (entries.map r.entry) = (unnamedFields entries).map r.tree := by
  induction entries with
  | nil => rfl
  | cons e entries ih =>
      obtain ⟨name, typ⟩ := e
      simp only [unnamedFields, List.map_cons, List.filterMap_cons] at ih ⊢
      cases typ <;> cases name <;> simp [ih]

theorem tree_namedField (names : List Tree) (typ : Tree) :
    r.tree (namedField names typ) = namedField (names.map r.tree) (r.tree typ) := by
  cases names <;> simp [namedField]

theorem namedFields_map (names : List Tree) (entries : List Grammar.Entry) :
    namedFields (names.map r.tree) (entries.map r.entry) =
      (namedFields names entries).map (List.map r.tree) := by
  induction names, entries using namedFields.induct with
  | case1 => rfl
  | case2 => rfl
  | case3 names typ rest => cases names <;> rfl
  | case4 names name rest ih =>
      simp only [List.map_cons, entry_mk, Option.map_some, Option.map_none, namedFields] at ih ⊢
      rw [← ih, List.map_append, List.map_cons, List.map_nil]
  | case5 names name typ rest ih =>
      simp only [List.map_cons, entry_mk, Option.map_some, namedFields] at ih ⊢
      rw [show List.map r.tree [] = [] from rfl] at ih
      rw [ih]
      cases namedFields [] rest with
      | error cause => rfl
      | ok fields =>
          change Except.ok _ = Except.ok _
          rw [List.map_cons, tree_namedField, List.map_append, List.map_cons, List.map_nil]

theorem fieldsOf_map (entries : List Grammar.Entry) :
    fieldsOf (entries.map r.entry) = (fieldsOf entries).map (List.map r.tree) := by
  have hany : (entries.map r.entry).any Grammar.Entry.isComplete =
      entries.any Grammar.Entry.isComplete := by
    rw [List.any_map]
    exact congrArg entries.any (funext r.isComplete_entry)
  unfold fieldsOf
  rw [hany]
  split
  · exact r.namedFields_map [] entries
  · rw [unnamedFields_map]
    rfl

end Relocation

namespace Grammar

open GoCompact.Parser Comparison Comparison.Mirrors Relocation

variable {C : Comparison} {g g' : Grammar} {phase : Phase} {c : Cursor}

theorem mirrors_required {p q : Parser (Option Tree)}
    (h : C.MirrorsIf (·.isSome) phase C.tree? p q c) :
    C.Mirrors phase C.tree (required p) (required q) c := by
  refine bindIf h (fun o d ho _ _ => ?_) fun o d ho => ?_
  · obtain ⟨t, rfl⟩ := Option.isSome_iff_exists.mp ho
    exact pure rfl
  · obtain rfl := Option.not_isSome_iff_eq_none.mp ho
    exact expected

theorem Mirrored.partType (hg : Mirrored C g g') : C.Mirrors .part C.tree g.type g'.type c :=
  mirrors_required hg.type?

theorem Mirrored.type (hg : Mirrored C g g') : C.Mirrors .inside C.tree g.type g'.type c :=
  inside hg.partType

theorem Mirrored.expression (hg : Mirrored C g g') :
    C.Mirrors .inside C.tree g.expression g'.expression c :=
  hg.binary (Nat.le_refl 1)

theorem mirrors_ident : C.Mirrors phase C.tree ident ident c := by
  refine peek_bind ?_
  split
  · rename_i hkind
    exact advance_bind (by simp [hkind]) (pure (by simp))
  · exact expected

theorem mirrors_stringLiteral (hkind : c.current.kind ≠ .eof) :
    C.Mirrors phase C.tree stringLiteral stringLiteral c :=
  advance_bind hkind (pure (by simp))

theorem Mirrored.statements (hg : Mirrored C g g') :
    C.Mirrors .inside C.trees g.statements g'.statements c := by
  refine manyWhile fun d hmore => imp hg.statement fun _ _ hkind => ?_
  simp [hkind, endsStatements] at hmore

theorem Mirrored.block (hg : Mirrored C g g') : C.Mirrors phase C.tree g.block g'.block c := by
  simp only [Grammar.block, discard_bind]
  refine expect_bind (by decide) fun brace c => ?_
  refine bind hg.statements fun stmts c => ?_
  exact expect_bind (by decide) fun _ c => pure (by simp)

theorem mirrors_qualified {name : Tree} :
    C.Mirrors .inside C.tree (qualified name) (qualified (C.tree name)) c :=
  got_ite (by decide) (fun _ => bind mirrors_ident fun sel c => pure (by simp)) (pure rfl)

theorem Mirrored.typeArguments (hg : Mirrored C g g') {typ : Tree} :
    C.Mirrors phase C.tree (g.typeArguments typ) (g'.typeArguments (C.tree typ)) c := by
  simp only [Grammar.typeArguments, discard_bind]
  refine expect_bind (by decide) fun _ c => ?_
  refine bind hg.type fun first c => ?_
  refine bind (afterCommas fun _ => hg.type) fun others c => ?_
  exact expect_bind (by decide) fun _ c => pure (by simp)

theorem Mirrored.instantiated (hg : Mirrored C g g') {typ : Tree} :
    C.Mirrors .inside C.tree (g.instantiated typ) (g'.instantiated (C.tree typ)) c := by
  refine peek_bind ?_
  split
  · exact hg.typeArguments
  · exact pure rfl

theorem Mirrored.namedType (hg : Mirrored C g g') {name : Tree} :
    C.Mirrors .inside C.tree (g.namedType name) (g'.namedType (C.tree name)) c :=
  bind mirrors_qualified fun _ _ => hg.instantiated

theorem mirrors_openLength (hkind : c.current.kind ≠ .eof) :
    C.Mirrors phase C.tree openLength openLength c :=
  advance_bind hkind (pure (by simp))

theorem Mirrored.arrayLength (hg : Mirrored C g g') :
    C.Mirrors .inside C.tree? g.arrayLength g'.arrayLength c := by
  refine bracketed (peek_bind ?_)
  split
  · rename_i hkind
    exact some (mirrors_openLength (by simp [hkind]))
  · exact pure rfl
  · exact some hg.expression

theorem Mirrored.arrayElement (hg : Mirrored C g g') {place : Tree} {length : Option Tree} :
    C.Mirrors phase C.tree (g.arrayElement place length)
      (g'.arrayElement (C.moves.place place) (C.tree? length)) c := by
  simp only [Grammar.arrayElement, discard_bind]
  refine expect_bind (by decide) fun _ c => ?_
  exact bind hg.type fun elt c => pure (by simp)

theorem Mirrored.arrayType (hg : Mirrored C g g') {place : Tree} :
    C.Mirrors .inside C.tree (g.arrayType place) (g'.arrayType (C.moves.place place)) c :=
  bind hg.arrayLength fun _ _ => hg.arrayElement

theorem Mirrored.mapType (hg : Mirrored C g g') :
    C.Mirrors phase C.tree g.mapType g'.mapType c := by
  simp only [Grammar.mapType, discard_bind]
  refine expect_bind (by decide) fun start c => ?_
  refine expect_bind (by decide) fun _ c => ?_
  refine bind hg.type fun key c => ?_
  refine expect_bind (by decide) fun _ c => ?_
  exact bind hg.type fun value c => pure (by simp)

-- The direction of a channel type is told by the tokens that it begins with.
theorem chanDirection_bind {α β : Type} {w : α → β} {f : Direction → Parser α}
    {f' : Direction → Parser β} (h : ∀ d c, C.Mirrors .inside w (f d) (f' d) c) :
    C.Mirrors phase w (chanDirection >>= f) (chanDirection >>= f') c := by
  simp only [chanDirection, bind_assoc, discard_bind]
  refine got_bind (by decide) (fun c => ?_) ?_
  · simp only [if_true, bind_assoc]
    refine got_bind (by decide) (fun c => ?_) ?_
    · simpa using h .send c
    · simpa using h .both c
  · simp only [Bool.false_eq_true, if_false, bind_assoc, pure_bind]
    exact expect_bind (by decide) fun _ _ => expect_bind (by decide) fun _ c => h .receive c

theorem Mirrored.chanType (hg : Mirrored C g g') :
    C.Mirrors phase C.tree g.chanType g'.chanType c := by
  refine current_bind (chanDirection_bind fun d c => ?_)
  exact bind hg.type fun value c => pure (by simp)

theorem mirrors_receiving (t : Tree) :
    C.Mirrors .inside C.tree (receiving t) (receiving (C.tree t)) c := by
  induction t using receiving.induct generalizing c with
  | case1 place value h ih =>
      simp only [receiving, tree_node, List.map_cons, List.map_nil, tree_direction, is_tree, h,
        if_true]
      exact bind ih fun value c => pure (by simp)
  | case2 place value h =>
      simp only [receiving, tree_node, List.map_cons, List.map_nil, tree_direction, is_tree, h]
      exact expected
  | case3 place value =>
      simp only [receiving, tree_node, List.map_cons, List.map_nil, tree_direction]
      exact refuse (by simp)
  | case4 place head value hsend hreceive =>
      have hsend' : C.tree head = .direction .send → False := by
        cases head <;> simp_all
      have hreceive' : C.tree head = .direction .receive → False := by
        cases head <;> simp_all
      simp only [tree_node, List.map_cons, List.map_nil]
      rw [receiving.eq_3 _ _ _ hsend hreceive, receiving.eq_3 _ _ _ hsend' hreceive']
      exact pure (by simp)
  | case5 t hsend hreceive hchan =>
      have hchan' : ∀ place head value, C.tree t = .chanType place head value → False := by
        intro place head value ht
        obtain ⟨p, fields, rfl, hfields⟩ := C.moves.eq_node_of_tree ht
        obtain ⟨x, y, rfl, -⟩ := C.moves.eq_two_of_map hfields
        exact hchan p x y rfl
      rw [receiving.eq_4 t hsend hreceive hchan, receiving.eq_4 (C.tree t)
        (fun place value => hchan' place _ value) (fun place value => hchan' place _ value) hchan']
      exact pure rfl

theorem Mirrored.partTerm (hg : Mirrored C g g') :
    C.Mirrors .part C.tree g.constraintTerm g'.constraintTerm c := by
  refine peek_bind ?_
  split
  · rename_i hkind
    exact advance_bind (by simp [hkind]) (bind hg.type fun typ c => pure (by simp))
  · exact hg.partType

theorem Mirrored.constraintTerm (hg : Mirrored C g g') :
    C.Mirrors .inside C.tree g.constraintTerm g'.constraintTerm c :=
  inside hg.partTerm

theorem Mirrored.unionStep (hg : Mirrored C g g') {x : Tree} :
    C.MirrorsIf (·.isSome) phase C.tree? (g.unionStep x) (g'.unionStep (C.tree x)) c :=
  got_ite (by decide) (fun _ => bind hg.constraintTerm fun y c => pure (by simp))
    (pureIf rfl (by simp))

theorem Mirrored.union (hg : Mirrored C g g') {first : Tree} :
    C.Mirrors .inside C.tree (g.union first) (g'.union (C.tree first)) c :=
  grow fun _ _ => hg.unionStep

theorem Mirrored.variadicType (hg : Mirrored C g g') :
    C.Mirrors phase C.tree g.variadicType g'.variadicType c := by
  refine expect_bind (by decide) fun dots c => ?_
  exact bind hg.type fun elt c => pure (by simp)

theorem Mirrored.bracketItems (hg : Mirrored C g g') :
    C.Mirrors .inside C.trees g.bracketItems g'.bracketItems c := by
  refine peek_bind ?_
  split
  · exact pure rfl
  · refine bracketed (peek_bind ?_)
    dsimp only
    split
    · rename_i hkind
      refine bind (mirrors_openLength (by simp [hkind])) fun first c => ?_
      exact bind (afterCommas fun _ => hg.type) fun others c => pure rfl
    · refine bind hg.expression fun first c => ?_
      exact bind (afterCommas fun _ => hg.type) fun others c => pure rfl

theorem Mirrored.arrayOrInstance (hg : Mirrored C g g') {name : Tree} :
    C.Mirrors phase (Prod.map C.tree? C.tree) (g.arrayOrInstance name)
      (g'.arrayOrInstance (C.tree name)) c := by
  simp only [Grammar.arrayOrInstance, discard_bind]
  refine expect_bind (by decide) fun bracket c => ?_
  refine bind hg.bracketItems fun items c => ?_
  refine expect_bind (by decide) fun _ c => ?_
  rcases items with _ | ⟨length, _ | ⟨second, others⟩⟩
  · exact bind hg.type fun elt c => pure (by simp)
  · refine bind (inside hg.type?) fun o c => ?_
    cases o with
    | none => exact pure (by simp)
    | some elt => exact pure (by simp)
  · exact pure (by simp)

theorem Mirrored.completed (hg : Mirrored C g g') {constraints : Bool} {e : Entry} :
    C.Mirrors .inside C.moves.entry (g.completed constraints e)
      (g'.completed constraints (C.moves.entry e)) c := by
  obtain ⟨name, typ⟩ := e
  cases typ with
  | none => exact pure rfl
  | some typ =>
      refine peek_bind ?_
      split
      · exact bind hg.union fun typ c => pure rfl
      · exact pure rfl

theorem Mirrored.entryAfterName (hg : Mirrored C g g') {constraints : Bool} {name : Tree} :
    C.Mirrors .inside C.moves.entry (g.entryAfterName constraints name)
      (g'.entryAfterName constraints (C.tree name)) c := by
  refine peek_bind ?_
  split
  · exact bind hg.type fun typ c => hg.completed
  · split
    · exact bind hg.arrayOrInstance fun r c => hg.completed
    · exact bind hg.variadicType fun typ c => pure rfl
    · exact bind hg.namedType fun typ c => hg.completed
    · split
      · exact bind hg.constraintTerm fun typ c => hg.completed
      · exact pure rfl
    · split
      · exact hg.completed
      · exact pure rfl
    · exact pure rfl

theorem Mirrored.entry (hg : Mirrored C g g') {constraints : Bool} :
    C.Mirrors .inside C.moves.entry (g.entry constraints) (g'.entry constraints) c := by
  refine peek_bind ?_
  split
  · exact bind mirrors_ident fun name c => hg.entryAfterName
  · exact bind hg.variadicType fun typ c => pure rfl
  · dsimp only
    split
    · exact bind hg.constraintTerm fun typ c => hg.completed
    · exact bind hg.type fun typ c => hg.completed
  · exact bind hg.type fun typ c => hg.completed

theorem Mirrored.entriesAfter (hg : Mirrored C g g') {closing : TokenKind} {constraints : Bool}
    {first : Entry} :
    C.Mirrors .inside (List.map C.moves.entry) (g.entriesAfter closing constraints first)
      (g'.entriesAfter closing constraints (C.moves.entry first)) c := by
  refine got_ite (by decide) (fun c => ?_) (pure rfl)
  exact bind (itemsUntil fun _ => hg.entry) fun others c => pure rfl

-- No list of parameters is refused for its depth.
theorem namedFields_ne_nestingTooDeep {names : List Tree} {entries : List Entry} {cause : Cause}
    (h : namedFields names entries = .error cause) : cause ≠ .nestingTooDeep := by
  induction names, entries using namedFields.induct with
  | case1 => cases h
  | case2 =>
      cases h
      simp
  | case3 names typ rest =>
      cases names <;> cases h <;> simp
  | case4 names name rest ih =>
      rw [namedFields] at h
      exact ih h
  | case5 names name typ rest ih =>
      rw [namedFields] at h
      cases hrest : namedFields [] rest with
      | error cause' =>
          rw [hrest] at h
          cases h
          exact ih hrest
      | ok fields =>
          rw [hrest] at h
          cases h

theorem fieldsOf_ne_nestingTooDeep {entries : List Entry} {cause : Cause}
    (h : fieldsOf entries = .error cause) : cause ≠ .nestingTooDeep := by
  unfold fieldsOf at h
  split at h
  · exact namedFields_ne_nestingTooDeep h
  · cases h

theorem mirrors_listOf {place : Tree} {entries : List Entry} :
    C.Mirrors .inside C.tree (listOf place entries)
      (listOf (C.moves.place place) (entries.map C.moves.entry)) c := by
  unfold listOf
  rw [fieldsOf_map]
  cases h : fieldsOf entries with
  | ok fields => exact pure (by simp)
  | error cause => exact refuse (fieldsOf_ne_nestingTooDeep h)

theorem Mirrored.parameters (hg : Mirrored C g g') :
    C.Mirrors phase C.tree g.parameters g'.parameters c := by
  simp only [Grammar.parameters, discard_bind]
  refine expect_bind (by decide) fun paren c => ?_
  refine bind (itemsUntil fun _ => hg.entry) fun entries c => ?_
  rw [place_token]
  refine bind mirrors_listOf fun list c => ?_
  exact expect_bind (by decide) fun _ c => pure rfl

theorem Mirrored.typeParameters (hg : Mirrored C g g') :
    C.Mirrors phase C.tree g.typeParameters g'.typeParameters c := by
  simp only [Grammar.typeParameters, discard_bind]
  refine expect_bind (by decide) fun bracket c => ?_
  refine bind (itemsUntil fun _ => hg.entry) fun entries c => ?_
  rw [place_token]
  refine bind mirrors_listOf fun list c => ?_
  rw [List.isEmpty_map]
  split
  · exact refuse_bind (by simp)
  · exact expect_bind (by decide) fun _ c => pure rfl

theorem Mirrored.results (hg : Mirrored C g g') :
    C.Mirrors .inside C.tree? g.results g'.results c := by
  refine peek_bind ?_
  split
  · exact some hg.parameters
  · refine bind (inside hg.type?) fun o c => ?_
    cases o with
    | none => exact pure rfl
    | some typ => exact pure (by simp)

theorem Mirrored.signature (hg : Mirrored C g g') {place : Tree} {funcKeyword : Bool} :
    C.Mirrors .inside C.tree (g.signature place funcKeyword)
      (g'.signature (C.moves.place place) funcKeyword) c := by
  refine bind hg.parameters fun params c => ?_
  exact bind hg.results fun results c => pure (by simp)

theorem Mirrored.namesAndType (hg : Mirrored C g g') :
    C.Mirrors phase (Prod.map C.trees C.tree) g.namesAndType g'.namesAndType c := by
  refine bind mirrors_ident fun name c => peek_bind ?_
  split
  · exact bind hg.namedType fun typ c => pure rfl
  · refine bind (afterCommas fun _ => mirrors_ident) fun others c => peek_bind ?_
    rw [List.isEmpty_map]
    split
    · refine bind hg.arrayOrInstance fun r c => pure ?_
      obtain ⟨name, typ⟩ := r
      cases name <;> rfl
    · exact bind hg.type fun typ c => pure rfl

theorem Mirrored.embeddedPointer (hg : Mirrored C g g') (hkind : c.current.kind ≠ .eof) :
    C.Mirrors phase (Prod.map C.trees C.tree) g.embeddedPointer g'.embeddedPointer c := by
  refine advance_bind hkind (bind mirrors_ident fun name c => ?_)
  exact bind hg.namedType fun typ c => pure (by simp)

theorem mirrors_tag : C.Mirrors .inside C.tree tag tag c := by
  refine peek_bind ?_
  split
  · rename_i hkind
    exact mirrors_stringLiteral (by simp [hkind])
  · exact pure rfl

theorem Mirrored.structField (hg : Mirrored C g g') :
    C.Mirrors phase C.tree g.structField g'.structField c := by
  refine current_bind ?_
  rw [kind_token]
  dsimp only
  split
  · refine bind hg.namesAndType fun r c => bind mirrors_tag fun tag c => ?_
    exact expectEnd_bind fun c => pure (by simp)
  · rename_i hkind
    refine bind (hg.embeddedPointer (by simp [hkind])) fun r c => bind mirrors_tag fun tag c => ?_
    exact expectEnd_bind fun c => pure (by simp)
  · exact refuse_bind (by simp)

theorem Mirrored.structType (hg : Mirrored C g g') :
    C.Mirrors phase C.tree g.structType g'.structType c := by
  simp only [Grammar.structType, discard_bind]
  refine expect_bind (by decide) fun start c => ?_
  refine expect_bind (by decide) fun brace c => ?_
  refine bind (manyWhile fun _ _ => hg.structField) fun fields c => ?_
  exact expect_bind (by decide) fun _ c => pure (by simp)

theorem Mirrored.interfaceUnion (hg : Mirrored C g g') {first : Tree} :
    C.Mirrors .inside C.tree (g.interfaceUnion first) (g'.interfaceUnion (C.tree first)) c :=
  bind hg.union fun typ c => pure (by simp)

theorem Mirrored.interfaceElement (hg : Mirrored C g g') :
    C.Mirrors .part C.tree g.interfaceElement g'.interfaceElement c := by
  refine peek_bind ?_
  split
  · refine bind mirrors_ident fun name c => peek_bind ?_
    rw [placeOf_tree]
    split
    · exact bind hg.signature fun method c => pure (by simp)
    · exact bind hg.namedType fun typ c => hg.interfaceUnion
  · exact bind hg.partTerm fun typ c => hg.interfaceUnion

theorem Mirrored.interfaceType (hg : Mirrored C g g') :
    C.Mirrors phase C.tree g.interfaceType g'.interfaceType c := by
  simp only [Grammar.interfaceType, discard_bind]
  refine expect_bind (by decide) fun start c => ?_
  refine expect_bind (by decide) fun brace c => ?_
  refine bind (manyWhile fun _ _ => bind hg.interfaceElement fun element c =>
    expectEnd_bind fun c => pure rfl) fun methods c => ?_
  exact expect_bind (by decide) fun _ c => pure (by simp)

theorem Mirrored.typeHere (hg : Mirrored C g g') :
    C.MirrorsIf (·.isSome) phase C.tree? g.typeHere g'.typeHere c := by
  refine peek_bind ?_
  split
  · exact some (bind mirrors_ident fun name c => hg.namedType)
  · rename_i hkind
    refine some (advance_bind (by simp [hkind]) ?_)
    rw [place_token]
    exact hg.arrayType
  · exact some hg.structType
  · rename_i hkind
    exact some (advance_bind (by simp [hkind]) (bind hg.type fun typ c => pure (by simp)))
  · rename_i hkind
    refine some (advance_bind (by simp [hkind]) ?_)
    rw [place_token]
    exact hg.signature
  · exact some hg.interfaceType
  · exact some hg.mapType
  · exact some hg.chanType
  · exact some hg.chanType
  · rename_i hkind
    simp only [discard_bind]
    refine some (advance_bind (by simp [hkind]) (bind hg.type fun typ c => ?_))
    exact expect_bind (by decide) fun _ c => pure (by simp)
  · exact pureIf rfl (by simp)

theorem Mirrored.typeRule? (hg : Mirrored C g g') (hphase : 1 ≤ phase.need) :
    C.MirrorsIf (·.isSome) phase C.tree? g.typeRule? g'.typeRule? c :=
  nested (k := 0) hg.typeHere hphase

theorem Mirrored.typeRule (hg : Mirrored C g g') (hphase : 1 ≤ phase.need) :
    C.Mirrors phase C.tree g.typeRule g'.typeRule c :=
  mirrors_required (hg.typeRule? hphase)

end Grammar

end GoCompact
