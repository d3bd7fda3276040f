import GoCompact.Proofs.Grammar.Parts

namespace GoCompact

namespace Tree

-- The places of the elements of a literal, which may have keys.
def elementSpots : List Spot :=
  [some (.CompositeLit, "elts"), some (.KeyValueExpr, "key"), some (.KeyValueExpr, "value")]

-- The places of the members of structs and interfaces.
def memberSpots : List Spot := [some (.StructType, "fields"), some (.InterfaceType, "methods")]

-- Whether a tree is a block in which every statement is a node of a kind.
def holdsOnly (k : NodeKind) : Tree → Bool
  | .block _ (.tuple stmts) => stmts.all (·.is k)
  | _ => false

-- Whether a tree is a block in which a statement is a node of a kind.
def holds (k : NodeKind) : Tree → Bool
  | .block _ (.tuple stmts) => stmts.any (·.is k)
  | _ => false

-- The names of a field.
def names : Tree → List Tree
  | .field _ (.tuple names) _ _ => names
  | _ => []

-- Parameters have names all together or not at all.
def Uniform (fields : List Tree) : Prop :=
  (∀ f ∈ fields, f.names ≠ []) ∨ ∀ f ∈ fields, f.names = []

-- The form of a node by itself. Only the last statement of a list may end in one without text.
def Formed : Tree → Prop
  | .unary _ op _ => op ≠ .token (.word .Range)
  | .slice _ _ _ high max => max ≠ .absent → high ≠ .absent
  | .block _ (.tuple stmts) => ∀ t ∈ stmts.dropLast, t.trails = false
  | .caseClause _ _ (.tuple body) => ∀ t ∈ body.dropLast, t.trails = false
  | .commClause _ _ (.tuple body) => ∀ t ∈ body.dropLast, t.trails = false
  | .switchStmt _ _ _ body => body.holdsOnly .CaseClause = true
  | .typeSwitch _ _ _ body => body.holdsOnly .CaseClause = true
  | .selectStmt _ body => body.holdsOnly .CommClause = true
  | .rangeStmt _ key value tok _ _ => key = .absent → value = .absent ∧ tok = .absent
  | _ => True

-- The places where a node of a form may stand.
def Fits (i : Spot) : Tree → Prop
  | .compositeLit _ typ _ => typ = .absent → i ∈ elementSpots
  | .keyValue _ _ _ => i = some (.CompositeLit, ("elts" : Text))
  | .emptyStmt _ (.flag b) => b = true → i = some (.LabeledStmt, ("stmt" : Text))
  | .labeled _ _ stmt =>
    stmt.trails = true → i = some (.LabeledStmt, ("stmt" : Text)) ∨ i ∈ statementLists
  | .caseClause _ _ _ => i = some (.BlockStmt, ("stmts" : Text))
  | .commClause _ _ _ => i = some (.BlockStmt, ("stmts" : Text))
  | .block p stmts =>
    ((block p stmts).holds .CaseClause = true → i ∈ switchBodies) ∧
      ((block p stmts).holds .CommClause = true → i = some (.SelectStmt, ("body" : Text)))
  | .fieldList _ (.tuple fields) => i ∉ memberSpots → Uniform fields
  | _ => True

end Tree

open GoCompact.Tree

variable {k : Category} {t : Tree} {i : Spot}

theorem Built.ne_absent (h : Built k t) : t ≠ .absent := by
  induction h <;> first | assumption | simp

theorem ofOption_ne_absent {o : Option Tree} (h : ∀ t ∈ o, Built k t) :
    ofOption o ≠ .absent ↔ o.isSome = true := by
  cases o with
  | none => simp [ofOption]
  | some t => simpa [ofOption] using (h t rfl).ne_absent

theorem Built.is_caseClause {b : Bool} (h : Built (.caseClause b) t) : t.is .CaseClause = true := by
  cases h
  rfl

theorem Built.is_commClause (h : Built .commClause t) : t.is .CommClause = true := by
  cases h
  rfl

-- A statement is no clause.
theorem Built.not_clause (h : Built .statement t) :
    t.is .CaseClause = false ∧ t.is .CommClause = false := by
  cases h with
  | simpleStmt h | blockStmt h => cases h <;> exact ⟨rfl, rfl⟩
  | _ => exact ⟨rfl, rfl⟩

theorem holdsOnly_of {kind : NodeKind} {p : Tree} {clauses : List Tree}
    (h : ∀ t ∈ clauses, t.is kind = true) : (block p (.tuple clauses)).holdsOnly kind = true :=
  List.all_eq_true.mpr h

theorem Built.formed (h : Built k t) : t.Formed := by
  induction h with
  | length _ ih | element _ ih | fieldType _ ih | simpleStmt _ ih | blockStmt _ ih => exact ih
  | unary => simp [Formed]
  | slice _ _ _ hhigh hmax hfull =>
      intro h
      exact (ofOption_ne_absent hhigh).mpr (hfull ((ofOption_ne_absent hmax).mp h))
  | block _ _ htrails => exact htrails
  | caseClause _ _ hbody | commClause _ _ hbody =>
      cases hbody with
      | block _ _ htrails => exact htrails
  | switchStmt _ _ _ _ hclauses => exact holdsOnly_of fun t ht => (hclauses t ht).is_caseClause
  | typeSwitch _ _ _ hclauses => exact holdsOnly_of fun t ht => (hclauses t ht).is_caseClause
  | selectStmt hclauses => exact holdsOnly_of fun t ht => (hclauses t ht).is_commClause
  | rangeAll => exact fun _ => ⟨rfl, rfl⟩
  | rangeStmt hkey => exact fun h => absurd h hkey.ne_absent
  | _ => trivial

theorem Held.formed (h : Held i t) : t.Formed := by
  cases h with
  | part h | element h | statement h | caseClause h | commClause h => exact h.formed
  | switchBody _ h =>
      intro t ht
      cases h t (List.mem_of_mem_dropLast ht)
      rfl
  | selectBody h =>
      intro t ht
      cases h t (List.mem_of_mem_dropLast ht)
      rfl
  | _ => trivial

-- The lists of fields in parentheses and brackets.
theorem Built.uniform {c : Bool} {p : Tree} {fields : List Tree}
    (h : Built (.parameters c) (.fieldList p (.tuple fields))) : Uniform fields := by
  cases h with
  | unnamedList hfields =>
      refine .inr fun f hf => ?_
      cases hfields f hf
      rfl
  | namedList hfields =>
      refine .inl fun f hf => ?_
      cases hfields f hf
      assumption

theorem Built.uniform_typeParameters {p : Tree} {fields : List Tree}
    (h : Built .typeParameters (.fieldList p (.tuple fields))) : Uniform fields := by
  cases h with
  | unnamedTypeParameters _ _ hfields =>
      refine .inr (List.forall_mem_cons.mpr ⟨rfl, fun f hf => ?_⟩)
      cases hfields f hf
      rfl
  | namedTypeParameters _ hfields =>
      refine .inl fun f hf => ?_
      cases hfields f hf
      assumption
  | takenApart _ _ _ hfields =>
      refine .inl (List.forall_mem_cons.mpr ⟨by simp [names], fun f hf => ?_⟩)
      cases hfields f hf
      assumption

theorem fits_block {q : Tree} {stmts : List Tree}
    (hcase : ∀ t ∈ stmts, t.is .CaseClause = true → i ∈ switchBodies)
    (hcomm : ∀ t ∈ stmts, t.is .CommClause = true → i = some (.SelectStmt, ("body" : Text))) :
    (block q (.tuple stmts)).Fits i := by
  simp only [Fits, holds, List.any_eq_true]
  exact ⟨fun ⟨t, ht, h⟩ => hcase t ht h, fun ⟨t, ht, h⟩ => hcomm t ht h⟩

-- What is no element, statement or clause stands anywhere.
theorem Built.fits (h : Built k t) (hk : k.isOrdinary = true) : t.Fits i := by
  induction h with
  | length _ ih | fieldType _ ih => exact ih rfl
  | compositeLit htyp => exact fun h => absurd h htyp.ne_absent
  | unnamedList hfields => exact fun _ => Built.uniform (p := .absent) (.unnamedList hfields)
  | namedList hfields => exact fun _ => Built.uniform (p := .absent) (.namedList hfields)
  | unnamedTypeParameters h hleads hfields =>
      exact fun _ => Built.uniform_typeParameters (p := .absent)
        (.unnamedTypeParameters h hleads hfields)
  | namedTypeParameters hne hfields =>
      exact fun _ => Built.uniform_typeParameters (p := .absent) (.namedTypeParameters hne hfields)
  | takenApart hname h hapart hfields =>
      exact fun _ => Built.uniform_typeParameters (p := .absent)
        (.takenApart hname h hapart hfields)
  | block hstmts =>
      refine fits_block (fun t ht h => ?_) fun t ht h => ?_
      · simp [(hstmts t ht).not_clause.1] at h
      · simp [(hstmts t ht).not_clause.2] at h
  | element | bareLiteral | keyValue | simpleStmt | labeled | emptyStmt | declStmt | goStmt | deferStmt
  | returnStmt | branch | blockStmt | ifStmt | switchStmt | typeSwitch | selectStmt | forStmt
  | rangeAll | rangeStmt | caseClause | commClause => cases hk
  | _ => trivial

theorem Held.fits (h : Held i t) : t.Fits i := by
  cases h with
  | part h hk => exact h.fits hk
  | element h hi =>
      cases h with
      | element h => exact h.fits rfl
      | bareLiteral =>
          rintro -
          obtain rfl | ⟨rfl | rfl, -⟩ := hi <;> decide
      | keyValue =>
          obtain rfl | ⟨-, hkey⟩ := hi
          · rfl
          · cases hkey
  | statement h hi =>
      cases h with
      | simpleStmt h => exact h.fits rfl
      | blockStmt h => exact h.fits rfl
      | labeled =>
          intro htrails
          obtain rfl | ⟨hi, -⟩ | h := hi
          · exact .inl rfl
          · exact .inr hi
          · exact absurd (htrails.symm.trans h) nofun
      | emptyStmt =>
          rintro rfl
          obtain rfl | ⟨-, h⟩ | h := hi
          · rfl
          · cases h
          · cases h
      | _ => trivial
  | caseClause h =>
      cases h
      rfl
  | commClause h =>
      cases h
      rfl
  | switchBody hi h =>
      refine fits_block (fun _ _ _ => hi) fun t ht hcomm => ?_
      cases h t ht
      cases hcomm
  | selectBody h =>
      refine fits_block (fun t ht hcase => ?_) fun _ _ _ => rfl
      cases h t ht
      cases hcase
  | members hi =>
      intro h
      obtain rfl | rfl := hi <;> exact absurd (by decide) h
  | _ => trivial

namespace Fragment

-- Every part of a tree that was read has a form that the grammar gives it, where it may stand.
theorem parse_shaped {fragment : Fragment} {limit : Limit} {source : Text} {file : Option Text}
    (h : fragment.parse limit source file = .ok t) :
    ∀ i u, t.Has i u → u.Formed ∧ u.Fits i := by
  intro i u hu
  have hheld := hu.held (held_of_parse h)
  exact ⟨hheld.formed, hheld.fits⟩

-- A range clause that binds nothing, over a literal of literals, and labels before the last brace.
theorem parse_shaped_for :
    ∃ t, statement.parse (.atMost 100)
        "for range ([]T\x7b1: \x7b\x7d, \x7b2\x7d\x7d[a:b:c]) \x7b x--; L: M: \x7d" none = .ok t ∧
      ∀ i u, t.Has i u → u.Formed ∧ u.Fits i := by
  obtain ⟨t, ht⟩ := exists_of_isSome .statement (.atMost 100)
    "for range ([]T\x7b1: \x7b\x7d, \x7b2\x7d\x7d[a:b:c]) \x7b x--; L: M: \x7d" rfl
  exact ⟨t, ht, parse_shaped ht⟩

end Fragment

end GoCompact
