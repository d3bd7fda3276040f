import GoCompact.Proofs.Grammar.Levels
import GoCompact.Proofs.Grammar.Yields

namespace GoCompact

open GoCompact.Parser

namespace Scope

variable {s : Scope} {n : Nat}

-- A limit leaves so many levels in a scope.
def Leaves (s : Scope) (n : Nat) : Prop := ∃ d : Int, s.limit = .atMost d ∧ n = d.toNat - s.depth

theorem Leaves.bracketed (h : s.Leaves n) : s.bracketed.Leaves n := h

theorem Leaves.header (h : s.Leaves n) : s.header.Leaves n := h

-- One level less is left in a part that is nested deeper.
theorem Leaves.deeper (h : s.Leaves n) (hlimit : s.limit.admits (s.depth + 1) = some true) :
    ∃ m, n = m + 1 ∧ s.deeper.Leaves m := by
  obtain ⟨d, hd, rfl⟩ := h
  rw [hd] at hlimit
  simp only [Limit.admits, Option.some.injEq, decide_eq_true_eq] at hlimit
  exact ⟨d.toNat - (s.depth + 1), by omega, d, hd, rfl⟩

end Scope

namespace Grammar

open GoCompact.Tree

-- Every part of the grammar gives trees for which the levels are enough that are left.
structure Shallow (g : Grammar) : Prop where
  binary {least : Nat} {s : Scope} {n : Nat} (w : Passed) :
    s.Leaves n → (g.binary least).Yields s (·.levels w < n + w.expressionRoom)
  unary {s : Scope} {n : Nat} (w : Passed) :
    s.Leaves n → g.unary.Yields s (·.levels w < n + w.expressionRoom)
  type? {s : Scope} {n : Nat} (w : Passed) :
    s.Leaves n → g.type?.Yields s fun o => ∀ t ∈ o, t.levels w < n + w.typeRoom
  bareLiteral {s : Scope} {n : Nat} (w : Passed) :
    s.Leaves n → g.bareLiteral.Yields s (·.levelsAs .element w ≤ n)
  statement {s : Scope} {n : Nat} (w : Passed) : s.Leaves n → g.statement.Yields s (·.levels w ≤ n)
  ifStatement {s : Scope} {n : Nat} (w : Passed) :
    s.Leaves n → g.ifStatement.Yields s (·.levels w ≤ n)

variable {g : Grammar} {s : Scope} {n : Nat} {w : Passed}

theorem required_yields {p : Parser (Option Tree)} {P : Tree → Prop}
    (hp : p.Yields s fun o => ∀ t ∈ o, P t) : (required p).Yields s P :=
  hp.bind fun o ho => by
    cases o with
    | none => exact .expected
    | some t => exact .pure (ho t rfl)

theorem Shallow.type (hg : g.Shallow) (w : Passed) (hs : s.Leaves n) :
    g.type.Yields s (·.levels w < n + w.typeRoom) :=
  required_yields (hg.type? w hs)

theorem Shallow.expression (hg : g.Shallow) (w : Passed) (hs : s.Leaves n) :
    g.expression.Yields s (·.levels w < n + w.expressionRoom) :=
  hg.binary w hs

-- In most places one level fewer than are left makes no difference.
theorem le_of_lt_typeRoom {t : Tree} (h : t.levels w < n + w.typeRoom) : t.levels w ≤ n := by
  have := Passed.typeRoom_le (w := w)
  omega

theorem le_of_lt_expressionRoom {t : Tree} (h : t.levels w < n + w.expressionRoom) :
    t.levels w ≤ n := by
  have := Passed.expressionRoom_le (w := w)
  omega

theorem Shallow.type_le (hg : g.Shallow) (w : Passed) (hs : s.Leaves n) :
    g.type.Yields s (·.levels w ≤ n) :=
  (hg.type w hs).imp fun _ => le_of_lt_typeRoom

theorem Shallow.expression_le (hg : g.Shallow) (w : Passed) (hs : s.Leaves n) :
    g.expression.Yields s (·.levels w ≤ n) :=
  (hg.expression w hs).imp fun _ => le_of_lt_expressionRoom

theorem ident_levels : ident.Yields s (·.levels w ≤ n) :=
  .skip fun _ => .ite (fun _ => .skip fun _ => .pure (by simp)) fun _ => .expected

theorem stringLiteral_levels : stringLiteral.Yields s (·.levels w ≤ n) :=
  .skip fun _ => .pure (by simp)

theorem qualified_levels {name : Tree} (hname : name.levels w ≤ n) :
    (qualified name).Yields s (·.levels w ≤ n) := by
  refine .skip fun _ => .ite (fun _ => ?_) fun _ => .pure hname
  exact (ident_levels (n := n) (w := w)).bind fun sel hsel => .pure (by simp [hname, hsel])

theorem Shallow.typeArguments {typ : Tree} (hg : g.Shallow) (w : Passed) (hs : s.Leaves n)
    (htyp : typ.levels w ≤ n) : (g.typeArguments typ).Yields s (·.levels w ≤ n) := by
  refine .skip fun _ => (hg.type_le w hs).bind fun first hfirst => ?_
  refine (hg.type_le w hs).afterCommas.bind fun others hothers => .skip fun _ => .pure ?_
  simp [htyp, hfirst]
  exact hothers

theorem Shallow.namedType {name : Tree} (hg : g.Shallow) (w : Passed) (hs : s.Leaves n)
    (hname : name.levels w ≤ n) : (g.namedType name).Yields s (·.levels w ≤ n) :=
  (qualified_levels hname).bind fun _ htyp => .skip fun _ =>
    .ite (fun _ => hg.typeArguments w hs htyp) fun _ => .pure htyp

theorem openLength_levels : openLength.Yields s (·.levels w ≤ n) := .skip fun _ => .pure (by simp)

theorem Shallow.arrayLength (hg : g.Shallow) (w : Passed) (hs : s.Leaves n) :
    g.arrayLength.Yields s fun o => ∀ t ∈ o, t.levels w ≤ n := by
  refine .bracketed <| .skip fun k => ?_
  split
  · exact .map (openLength_levels.imp fun t ht => by simpa)
  · exact .pure (by simp)
  · exact .map ((hg.expression_le w hs.bracketed).imp fun t ht => by simpa)

theorem Shallow.arrayElement {place : Tree} {length : Option Tree} (hg : g.Shallow) (w : Passed)
    (hs : s.Leaves n) (hlength : ∀ t ∈ length, t.levels w ≤ n) :
    (g.arrayElement place length).Yields s (·.levels w ≤ n) :=
  .skip fun _ => (hg.type_le w hs).bind fun elt helt => .pure (by simpa [helt] using hlength)

theorem Shallow.arrayType {place : Tree} (hg : g.Shallow) (w : Passed) (hs : s.Leaves n) :
    (g.arrayType place).Yields s (·.levels w ≤ n) :=
  (hg.arrayLength w hs).bind fun _ => hg.arrayElement w hs

theorem Shallow.mapType (hg : g.Shallow) (w : Passed) (hs : s.Leaves n) :
    g.mapType.Yields s (·.levels w ≤ n) := by
  refine .skip fun _ => .skip fun _ => (hg.type_le w hs).bind fun key hkey => .skip fun _ => ?_
  exact (hg.type_le w hs).bind fun value hvalue => .pure (by simp [hkey, hvalue])

theorem Shallow.chanType (hg : g.Shallow) (w : Passed) (hs : s.Leaves n) :
    g.chanType.Yields s (·.levels w ≤ n) :=
  .skip fun _ => .skip fun _ => (hg.type_le w hs).bind fun value hvalue => .pure (by simp [hvalue])

-- A channel needs the same levels when its direction has changed.
theorem receiving_levels {x : Tree} (hx : x.levels w ≤ n) :
    (receiving x).Yields s (·.levels w ≤ n) := by
  fun_induction receiving x with
  | case1 p value hchan ih =>
      have hvalue : value.levels w ≤ n := by simpa using hx
      exact (ih hvalue).bind fun u hu => .pure (by simpa)
  | case2 => exact .expected
  | case3 => exact .refuse
  | case4 p d value =>
      have hfields : d.levels w ≤ n ∧ value.levels w ≤ n := by simpa using hx
      exact .pure (by simpa using hfields.2)
  | case5 => exact .pure hx

-- A tilde is read without a level of its own. It takes the room of the type after it.
theorem Shallow.constraintTerm (hg : g.Shallow) (w : Passed) (hs : s.Leaves n) :
    g.constraintTerm.Yields s (·.levels w ≤ n) := by
  refine .skip fun _ => .ite (fun _ => .skip fun _ => ?_) fun _ => hg.type_le w hs
  have hroom : (w.behind (.op .Tilde)).typeRoom = 0 := rfl
  exact (hg.type (w.behind (.op .Tilde)) hs).bind fun typ htyp =>
    .pure (by simpa [hroom] using htyp)

theorem Shallow.union {first : Tree} (hg : g.Shallow) (w : Passed) (hs : s.Leaves n)
    (hfirst : first.levels w ≤ n) : (g.union first).Yields s (·.levels w ≤ n) := by
  refine .grow (fun x hx => ?_) hfirst
  refine .skip fun _ => .ite (fun _ => ?_) fun _ => .pure (by simp)
  exact (hg.constraintTerm w hs).bind fun y hy => .pure (by simp [hx, hy])

-- The entries of a list.
def Entry.Within (w : Passed) (n : Nat) (e : Entry) : Prop :=
  (∀ t ∈ e.name, t.levels w ≤ n) ∧ ∀ t ∈ e.type, t.levels w ≤ n

theorem unnamedFields_levels {entries : List Entry} (h : ∀ e ∈ entries, e.Within w n) :
    ∀ t ∈ unnamedFields entries, t.levels w ≤ n := by
  intro t ht
  obtain ⟨e, he, hfield⟩ := List.mem_filterMap.mp ht
  obtain ⟨u, hu, rfl⟩ := Option.map_eq_some_iff.mp hfield
  have hlevels : u.levels w ≤ n := by
    rcases Option.or_eq_some_iff.mp hu with hu | ⟨-, hu⟩
    · exact (h e he).2 u hu
    · exact (h e he).1 u hu
  simp [hlevels]

theorem namedFields_levels {names : List Tree} {entries : List Entry} {fields : List Tree}
    (hnames : ∀ t ∈ names, t.levels w ≤ n) (h : ∀ e ∈ entries, e.Within w n)
    (hfields : namedFields names entries = .ok fields) : ∀ t ∈ fields, t.levels w ≤ n := by
  fun_induction namedFields names entries generalizing fields with
  | case1 => cases hfields; simp
  | case2 => cases hfields
  | case3 => cases hfields
  | case4 names name rest ih =>
      obtain ⟨he, hrest⟩ := List.forall_mem_cons.mp h
      refine ih ?_ hrest hfields
      simpa [or_imp, forall_and] using ⟨hnames, he.1 name rfl⟩
  | case5 names name typ rest ih =>
      obtain ⟨he, hrest⟩ := List.forall_mem_cons.mp h
      cases hrec : namedFields [] rest with
      | error => simp [hrec, bind, Except.bind] at hfields
      | ok others =>
          obtain rfl : namedField (names ++ [name]) typ :: others = fields := by
            simpa [hrec, bind, Except.bind, Pure.pure, Except.pure] using hfields
          refine List.forall_mem_cons.mpr ⟨?_, ih (by simp) hrest hrec⟩
          simpa [namedField, or_imp, forall_and] using ⟨⟨hnames, he.1 name rfl⟩, he.2 typ rfl⟩

theorem listOf_levels {place : Tree} {entries : List Entry} (h : ∀ e ∈ entries, e.Within w n) :
    (listOf place entries).Yields s (·.levels w ≤ n) := by
  rw [listOf]
  split
  · rename_i fields hfields
    refine .pure ?_
    rw [fieldsOf] at hfields
    split at hfields
    · simpa using namedFields_levels (by simp) h hfields
    · cases hfields
      simpa using unnamedFields_levels h
  · exact .refuse

theorem Shallow.variadicType (hg : g.Shallow) (w : Passed) (hs : s.Leaves n) :
    g.variadicType.Yields s (·.levels w ≤ n) :=
  .skip fun _ => (hg.type_le w hs).bind fun elt helt => .pure (by simpa)

theorem Shallow.bracketItems (hg : g.Shallow) (w : Passed) (hs : s.Leaves n) :
    g.bracketItems.Yields s fun items => ∀ t ∈ items, t.levels w ≤ n := by
  refine .skip fun _ => .ite (fun _ => .pure (by simp)) fun _ => .bracketed ?_
  refine .skip fun _ => .ite (fun _ => ?_) fun _ => ?_
  · exact openLength_levels.bind fun first hfirst =>
      (hg.type_le w hs.bracketed).afterCommas.bind fun others hothers =>
        .pure (List.forall_mem_cons.mpr ⟨hfirst, hothers⟩)
  · exact (hg.expression_le w hs.bracketed).bind fun first hfirst =>
      (hg.type_le w hs.bracketed).afterCommas.bind fun others hothers =>
        .pure (List.forall_mem_cons.mpr ⟨hfirst, hothers⟩)

theorem Shallow.arrayOrInstance {name : Tree} (hg : g.Shallow) (w : Passed) (hs : s.Leaves n)
    (hname : name.levels w ≤ n) :
    (g.arrayOrInstance name).Yields s fun r => Entry.Within w n ⟨r.1, some r.2⟩ := by
  refine .skip fun _ => (hg.bracketItems w hs).bind fun items hitems => .skip fun _ => ?_
  split
  · refine (hg.type_le w hs).bind fun elt helt => .pure ?_
    simp [Entry.Within, hname, helt]
  · rename_i length
    have hlength : length.levels w ≤ n := by simpa using hitems
    refine (hg.type? w hs).bind fun o ho => ?_
    cases o with
    | none => exact .pure (by simp [Entry.Within, hname, hlength])
    | some elt =>
        have helt := le_of_lt_typeRoom (ho elt rfl)
        exact .pure (by simp [Entry.Within, hname, hlength, helt])
  · exact .pure (by simpa [Entry.Within, hname] using hitems)

theorem Shallow.completed {constraints : Bool} {e : Entry} (hg : g.Shallow) (w : Passed)
    (hs : s.Leaves n) (he : e.Within w n) : (g.completed constraints e).Yields s (Entry.Within w n) := by
  rw [Grammar.completed]
  split
  · rename_i typ htyp
    refine .skip fun _ => .ite (fun _ => ?_) fun _ => .pure he
    exact (hg.union w hs (he.2 typ htyp)).bind fun u hu => .pure ⟨he.1, by simpa⟩
  · exact .pure he

theorem Shallow.entryAfterName {constraints : Bool} {name : Tree} (hg : g.Shallow) (w : Passed)
    (hs : s.Leaves n) (hname : name.levels w ≤ n) :
    (g.entryAfterName constraints name).Yields s (Entry.Within w n) := by
  have hboth : ∀ {typ : Tree}, typ.levels w ≤ n → Entry.Within w n ⟨some name, some typ⟩ :=
    fun htyp => ⟨by simpa, by simpa⟩
  have hnone : (Pure.pure ⟨some name, none⟩ : Parser Entry).Yields s (Entry.Within w n) :=
    .pure ⟨by simpa, by simp⟩
  refine .skip fun k => .ite (fun _ => ?_) fun _ => ?_
  · exact (hg.type_le w hs).bind fun typ htyp => hg.completed w hs (hboth htyp)
  split
  · exact (hg.arrayOrInstance w hs hname).bind fun r hr => hg.completed w hs hr
  · exact (hg.variadicType w hs).bind fun typ htyp => .pure (hboth htyp)
  · exact (hg.namedType w hs hname).bind fun typ htyp => hg.completed w hs ⟨by simp, by simpa⟩
  · exact .ite (fun _ => (hg.constraintTerm w hs).bind fun typ htyp => hg.completed w hs (hboth htyp))
      fun _ => hnone
  · exact .ite (fun _ => hg.completed w hs ⟨by simp, by simpa⟩) fun _ => hnone
  · exact hnone

theorem Shallow.entry {constraints : Bool} (hg : g.Shallow) (w : Passed) (hs : s.Leaves n) :
    (g.entry constraints).Yields s (Entry.Within w n) := by
  refine .skip fun k => ?_
  split
  · exact ident_levels.bind fun name hname => hg.entryAfterName w hs hname
  · exact (hg.variadicType w hs).bind fun typ htyp => .pure ⟨by simp, by simpa⟩
  · refine .ite (fun _ => ?_) fun _ => ?_
    · exact (hg.constraintTerm w hs).bind fun typ htyp => hg.completed w hs ⟨by simp, by simpa⟩
    · exact (hg.type_le w hs).bind fun typ htyp => hg.completed w hs ⟨by simp, by simpa⟩
  · exact (hg.type_le w hs).bind fun typ htyp => hg.completed w hs ⟨by simp, by simpa⟩

theorem Shallow.entriesAfter {closing : TokenKind} {constraints : Bool} {first : Entry}
    (hg : g.Shallow) (w : Passed) (hs : s.Leaves n) (hfirst : first.Within w n) :
    (g.entriesAfter closing constraints first).Yields s fun es => ∀ e ∈ es, e.Within w n := by
  refine .skip fun _ => .ite (fun _ => ?_) fun _ => .pure (by simpa)
  exact (hg.entry w hs).itemsUntil.bind fun es hes =>
    .pure (List.forall_mem_cons.mpr ⟨hfirst, hes⟩)

theorem Shallow.parameters (hg : g.Shallow) (w : Passed) (hs : s.Leaves n) :
    g.parameters.Yields s (·.levels w ≤ n) :=
  .skip fun _ => (hg.entry w hs).itemsUntil.bind fun _ hes => (listOf_levels hes).bind fun _ hlist =>
    .skip fun _ => .pure hlist

theorem Shallow.typeParameters (hg : g.Shallow) (w : Passed) (hs : s.Leaves n) :
    g.typeParameters.Yields s (·.levels w ≤ n) :=
  .skip fun _ => (hg.entry w hs).itemsUntil.bind fun _ hes => (listOf_levels hes).bind fun _ hlist =>
    .ite (fun _ => .skip fun _ => .skip fun _ => .pure hlist) fun _ => .skip fun _ => .pure hlist

theorem Shallow.results (hg : g.Shallow) (w : Passed) (hs : s.Leaves n) :
    g.results.Yields s fun o => ∀ t ∈ o, t.levels w ≤ n := by
  refine .skip fun _ => .ite (fun _ => .map ?_) fun _ => (hg.type? w hs).bind fun o ho => ?_
  · exact (hg.parameters w hs).imp fun t ht => by simpa
  · cases o with
    | none => exact .pure (by simp)
    | some typ =>
        have htyp := le_of_lt_typeRoom (ho typ rfl)
        exact .pure (by simp [htyp])

theorem Shallow.signature {place : Tree} {funcKeyword : Bool} (hg : g.Shallow) (w : Passed)
    (hs : s.Leaves n) :
    (g.signature place funcKeyword).Yields s (·.levels w ≤ n) :=
  (hg.parameters w hs).bind fun params hparams => (hg.results w hs).bind fun results hresults =>
    .pure (by simpa [hparams] using hresults)

-- The type of a field that has names, or that is embedded: after a star, it stands in it.
def FieldWithin (w : Passed) (n : Nat) (r : List Tree × Tree) : Prop :=
  ∀ place tag : Tree, tag.levels w ≤ n →
    (Tree.field place (.tuple r.1) r.2 tag).levelsAs .member w ≤ n + w.typeRoom

theorem fieldWithin {names : List Tree} {typ : Tree} (hnames : ∀ t ∈ names, t.levels w ≤ n)
    (htyp : typ.levels w ≤ n) : FieldWithin w n (names, typ) :=
  fun _ _ htag => Nat.le_add_right_of_le (levelsAs_field (levels_tuple.mpr hnames) htyp htag)

theorem Shallow.namesAndType (hg : g.Shallow) (w : Passed) (hs : s.Leaves n) :
    g.namesAndType.Yields s (FieldWithin w n) := by
  refine (ident_levels (n := n) (w := w)).bind fun name hname => .skip fun _ =>
    .ite (fun _ => ?_) fun _ => ?_
  · exact (hg.namedType w hs hname).bind fun typ htyp => .pure (fieldWithin (by simp) htyp)
  refine (ident_levels (n := n) (w := w)).afterCommas.bind fun others hothers => .skip fun _ =>
    .ite (fun _ => ?_) fun _ => ?_
  · exact (hg.arrayOrInstance w hs hname).bind fun r hr =>
      .pure (fieldWithin (by simpa using hr.1) (hr.2 r.2 rfl))
  · exact (hg.type_le w hs).bind fun typ htyp =>
      .pure (fieldWithin (List.forall_mem_cons.mpr ⟨hname, hothers⟩) htyp)

theorem Shallow.embeddedPointer (hg : g.Shallow) (w : Passed) (hs : s.Leaves n) :
    g.embeddedPointer.Yields s (FieldWithin w n) :=
  .skip fun _ => (ident_levels (n := n) (w := w)).bind fun _ hname => (hg.namedType w hs hname).bind
    fun _ htyp => .pure fun _ _ htag => levelsAs_embeddedPointer htyp htag

theorem tag_levels : tag.Yields s (·.levels w ≤ n) :=
  .skip fun _ => .ite (fun _ => stringLiteral_levels) fun _ => .pure (by simp)

theorem Shallow.structField (hg : g.Shallow) (w : Passed) (hs : s.Leaves n) :
    g.structField.Yields s (·.levelsAs .member w ≤ n + w.typeRoom) := by
  refine .skip fun start => ?_
  have hend : ∀ r, FieldWithin w n r → (do
      let tag ← tag
      expectEnd
      return Tree.field start.place (.tuple r.1) r.2 tag : Parser Tree).Yields s
        (·.levelsAs .member w ≤ n + w.typeRoom) :=
    fun r hr => (tag_levels (n := n) (w := w)).bind fun tag htag =>
      .skip fun _ => .pure (hr _ tag htag)
  dsimp only
  split
  · exact (hg.namesAndType w hs).bind hend
  · exact (hg.embeddedPointer w hs).bind hend
  · exact .bind (P := FieldWithin w n) .refuse hend

-- The level that was entered for the type has room for the star of an embedded field.
theorem Shallow.structType (hg : g.Shallow) (w : Passed) (hs : s.Leaves n) :
    g.structType.Yields s (·.levels w ≤ n + w.typeRoom) :=
  .skip fun _ => .skip fun _ => (hg.structField w hs).manyWhile.bind fun _ hfields =>
    .skip fun _ => .pure (levels_structType.mpr hfields)

theorem Shallow.interfaceUnion {first : Tree} (hg : g.Shallow) (w : Passed) (hs : s.Leaves n)
    (hfirst : first.levels w ≤ n) : (g.interfaceUnion first).Yields s (·.levels w ≤ n) :=
  (hg.union w hs hfirst).bind fun typ htyp => .pure (by simpa)

theorem Shallow.interfaceElement (hg : g.Shallow) (w : Passed) (hs : s.Leaves n) :
    g.interfaceElement.Yields s (·.levels w ≤ n) := by
  refine .skip fun _ => .ite (fun _ => ?_) fun _ => ?_
  · refine (ident_levels (n := n) (w := w)).bind fun name hname => .skip fun _ =>
      .ite (fun _ => ?_) fun _ => ?_
    · exact (hg.signature w hs).bind fun method hmethod => .pure (by simp [hname, hmethod])
    · exact (hg.namedType w hs hname).bind fun typ htyp => hg.interfaceUnion w hs htyp
  · exact (hg.constraintTerm w hs).bind fun typ htyp => hg.interfaceUnion w hs htyp

theorem Shallow.interfaceType (hg : g.Shallow) (w : Passed) (hs : s.Leaves n) :
    g.interfaceType.Yields s (·.levels w ≤ n) := by
  refine .skip fun _ => .skip fun _ => ?_
  refine (Yields.manyWhile (P := (·.levels w ≤ n)) ?_).bind fun methods hmethods =>
    .skip fun _ => .pure (by simpa using hmethods)
  exact (hg.interfaceElement w hs).bind fun element helement => .skip fun _ => .pure helement

theorem Shallow.typeHere (hg : g.Shallow) (w : Passed) (hs : s.Leaves n) :
    g.typeHere.Yields s fun o => ∀ t ∈ o, t.levels w ≤ n + w.typeRoom := by
  have hsome : ∀ {p : Parser Tree}, p.Yields s (·.levels w ≤ n + w.typeRoom) →
      (some <$> p).Yields s fun o => ∀ t ∈ o, t.levels w ≤ n + w.typeRoom :=
    fun hp => .map (hp.imp fun t ht => by simpa)
  have hwithin : ∀ {p : Parser Tree}, p.Yields s (·.levels w ≤ n) →
      (some <$> p).Yields s fun o => ∀ t ∈ o, t.levels w ≤ n + w.typeRoom :=
    fun hp => hsome (hp.imp fun _ => Nat.le_add_right_of_le)
  refine .skip fun _ => ?_
  split
  · exact hwithin (ident_levels.bind fun name hname => hg.namedType w hs hname)
  · exact hwithin (.skip fun _ => hg.arrayType w hs)
  · exact hsome (hg.structType w hs)
  · exact hsome (.skip fun _ => (hg.type w hs).bind fun typ htyp => .pure (by simpa))
  · exact hwithin (.skip fun _ => hg.signature w hs)
  · exact hwithin (hg.interfaceType w hs)
  · exact hwithin (hg.mapType w hs)
  · exact hwithin (hg.chanType w hs)
  · exact hwithin (hg.chanType w hs)
  · exact hsome (.skip fun _ => (hg.type w hs).bind fun typ htyp => .skip fun _ => .pure (by simpa))
  · exact .pure (by simp)

theorem Shallow.typeRule? (hg : g.Shallow) (w : Passed) (hs : s.Leaves n) :
    g.typeRule?.Yields s fun o => ∀ t ∈ o, t.levels w < n + w.typeRoom :=
  .nested fun hlimit => by
    obtain ⟨m, rfl, hm⟩ := hs.deeper hlimit
    refine (hg.typeHere w hm).imp fun o ho t ht => ?_
    have := ho t ht
    omega

theorem Shallow.typeRule (hg : g.Shallow) (w : Passed) (hs : s.Leaves n) :
    g.typeRule.Yields s (·.levels w < n + w.typeRoom) :=
  required_yields (hg.typeRule? w hs)

theorem Shallow.typeRule_le (hg : g.Shallow) (w : Passed) (hs : s.Leaves n) :
    g.typeRule.Yields s (·.levels w ≤ n) :=
  (hg.typeRule w hs).imp fun _ => le_of_lt_typeRoom

end Grammar

end GoCompact
