import GoCompact.Proofs.Reread.Position

namespace GoCompact

namespace Tree

open GoCompact.Parser GoCompact.Grammar Cursor
open Emission (Spells)

variable {b c : Bool} {p q t x y : Tree} {fields : List Tree}

-- The type of a field in every list.
structure FieldTypeReads (t : Tree) : Prop where
  spells : (t.emittedAs .expression).Spells t.words
  constraint : t.ConstraintReads
  named {c : Bool} : t.fitsNamed c = true → t.AfterNameReads c
  unnamed {c : Bool} {p : Tree} : t.fitsUnnamed c = true →
    UnnamedField c (.field p (.tuple []) t .absent)
  head : t.fitsNamed true = true → t.HeadType
  embedded : t.isEmbedded = true → FieldParts [] t

namespace FieldTypeReads

theorem of_constraint (h : t.ConstraintReads) (hspells : (t.emittedAs .expression).Spells t.words)
    (hdots : t.is .Ellipsis = false) (hident : t.is .Ident = true → Built .name t)
    (hembedded : t.isEmbedded = true → FieldParts [] t) : t.FieldTypeReads where
  spells := hspells
  constraint := h
  named hfits := h.afterName hspells hdots hfits
  unnamed hfits := h.unnamedField hspells hdots hident hfits
  head hfits := by
    simp only [fitsNamed, hdots, Bool.false_or, Bool.true_and, Bool.or_eq_true] at hfits
    refine h.head (hfits.elim (fun htype => ?_) id)
    rw [isUnion_of_not_binary (is_binary_of_isType htype)]
    exact isTerm_of_isType htype
  embedded := hembedded

theorem variadic (h : t.TypeReads) (hspells : (t.emittedAs .expression).Spells t.words)
    (habsent : t.isAbsent = false) : (Tree.ellipsis p t).FieldTypeReads := by
  have hspells' := spells_variadic (p := p) hspells habsent
  have hwords := words_of_spells hspells'
  refine ⟨hwords ▸ hspells', ⟨nofun, nofun, nofun, nofun, nofun, nofun⟩,
    fun _ => .variadic h hspells habsent,
    fun _ => .type (Entry.reads_variadic h hspells habsent) rfl, fun _ => ?_, nofun⟩
  refine .apart (.variadic h hspells habsent) ?_
  rw [hwords]
  exact .cons ⟨rfl, nofun⟩ _

-- A name with brackets in which three dots come first.
theorem openIndex {name : Tree} {others : List Tree} (hname : Built .name name)
    (hothers : ∀ t ∈ others, t.Reads true) (htypes : ∀ t ∈ others, t.isType = true) :
    (Tree.index p name (.tuple (.ellipsis q .absent :: others))).FieldTypeReads := by
  cases hname with
  | @name r z hz =>
      have hothers' : ∀ t ∈ others, (t.emittedAs .expression).Spells t.words :=
        fun t ht => (hothers t ht).spells
      have hident := spells_ident hz r
      have hspells := spells_index (p := p) (words_of_spells hident ▸ hident)
        (List.forall_mem_cons.mpr ⟨LengthReads.dots.spells (t := .ellipsis q .absent), hothers'⟩)
      have hinstance := instanceReads_index (p := p) (q := r) hz (.dots (p := q))
        (fun t ht => (hothers t ht).type (htypes t ht)) hothers'
      have htype : (Tree.index p (.ident r (.text z))
          (.tuple (.ellipsis q .absent :: others))).isType = false := rfl
      have hconstraint : (Tree.index p (.ident r (.text z))
          (.tuple (.ellipsis q .absent :: others))).ConstraintReads :=
        .of_type (words_of_spells hspells ▸ hspells) rfl rfl nofun (by simp [htype])
          (fun _ => hinstance) (by simp [htype])
      exact .of_constraint hconstraint (words_of_spells hspells ▸ hspells) rfl nofun
        fun _ => .indexed hinstance (words_of_spells hspells ▸ hspells)

-- One term more after such a name.
theorem openUnion (hx : x.FieldTypeReads) (hy : y.ExpressionReads true) :
    (Tree.binary p x (.token (.op .Or)) y).FieldTypeReads := by
  have hspells := spells_binary (p := p) (o := .Or) hx.spells hy.reads.spells
  exact .of_constraint (hx.constraint.binary hy.constraint hx.spells hy.reads)
    (words_of_spells hspells ▸ hspells) rfl nofun nofun

end FieldTypeReads

-- The fields of a list of parameters.
structure ListReads (c : Bool) (fields : List Tree) : Prop where
  lists : ∃ entries, Lists c entries fields ∧ (fields ≠ [] → entries ≠ [])
  fields : ∀ f ∈ fields, ∃ q names typ, f = .field q (.tuple names) typ .absent ∧ typ.FieldTypeReads

theorem listReads_unnamed (h : ∀ f ∈ fields, UnnamedField c f ∧
    ∃ q typ, f = .field q (.tuple []) typ .absent ∧ typ.FieldTypeReads) : ListReads c fields := by
  refine ⟨⟨_, lists_unnamed fun f hf => (h f hf).1, by simp⟩, fun f hf => ?_⟩
  obtain ⟨-, q, typ, rfl, htyp⟩ := h f hf
  exact ⟨q, [], typ, rfl, htyp⟩

theorem listReads_named (h : ∀ f ∈ fields, NamedField c f ∧
    ∃ q names typ, f = .field q (.tuple names) typ .absent ∧ typ.FieldTypeReads) :
    ListReads c fields := by
  have hfields : ∀ f ∈ fields, NamedField c f := fun f hf => (h f hf).1
  exact ⟨⟨_, lists_named hfields, fun hne => mt (flatMap_fieldEntries_eq_nil hfields).mp hne⟩,
    fun f hf => (h f hf).2⟩

theorem ListReads.parameters (h : ListReads false fields) :
    (Tree.fieldList p (.tuple fields)).ParametersReads := by
  obtain ⟨entries, hentries, -⟩ := h.lists
  exact reads_parameters hentries

theorem ListReads.typeParameters (h : ListReads true fields) (hne : fields ≠ []) :
    (Tree.fieldList p (.tuple fields)).TypeParametersReads := by
  obtain ⟨entries, hentries, hentriesNe⟩ := h.lists
  exact reads_typeParameters hentries (hentriesNe hne)

-- A single result without a name stands alone if it is a type without parentheses.
theorem ListReads.results (h : ListReads false fields)
    (hlone : (Tree.fieldList p (.tuple fields)).lone?.all
      (fun t => t.isType && !t.is .ParenExpr) = true) :
    ResultsReads (some (.fieldList p (.tuple fields))) := by
  by_cases hsingle : ∃ q typ, fields = [.field q (.tuple []) typ .absent]
  · obtain ⟨q, typ, rfl⟩ := hsingle
    obtain ⟨r, names, u, heq, hu⟩ := h.fields _ (.head _)
    obtain rfl : typ = u := by
      simp only [node.injEq, List.cons.injEq] at heq
      exact heq.2.2.2.1
    have htype : typ.isType = true ∧ typ.is .ParenExpr = false := by
      simpa [lone?] using hlone
    exact .lone (hu.constraint.type htype.1) hu.spells (typeStart_ne_paren htype.1 htype.2)
  · refine .list h.parameters (fun q typ tag heq => ?_) fun f hf => ?_
    · obtain ⟨r, names, u, hfield, -⟩ := h.fields (.field q (.tuple []) typ tag) (by simp [heq])
      simp only [node.injEq, List.cons.injEq] at hfield
      exact hsingle ⟨q, typ, by rw [heq, hfield.2.2.2.2.1]⟩
    · obtain ⟨q, names, typ, hfield, -⟩ := h.fields f hf
      exact ⟨q, names, typ, .absent, hfield⟩

-- Type parameters without names, of which the first begins with a name.
theorem headReads_of_leads (hreads : t.FieldTypeReads) (hleads : t.leadsTypeParameters = true)
    (hfields : ∀ f ∈ fields, UnnamedField true f)
    (hlone : (Tree.fieldList p (.tuple (.field q (.tuple []) t .absent :: fields))).lone?.any
      (·.is .Ident) = false) :
    (Tree.fieldList p (.tuple (.field q (.tuple []) t .absent :: fields))).HeadReads := by
  have hcases : t.isType = true ∨ t.leadsIndexed = true := by
    unfold leadsTypeParameters at hleads
    split at hleads
    · exact .inl rfl
    · exact .inr hleads
  have hfits : t.fitsUnnamed true = true := by
    rcases hcases with htype | hleads
    · simp [fitsUnnamed, htype]
    · simp [fitsUnnamed, hleads]
  refine headReads_unnamed (List.forall_mem_cons.mpr ⟨hreads.unnamed hfits, hfields⟩) ?_ ?_
  · rintro hident rfl
    simp [lone?, hident] at hlone
  · intro hident
    have hindexed : t.leadsIndexed = true := by
      unfold leadsTypeParameters at hleads
      split at hleads
      · cases hident
      · exact hleads
    obtain ⟨u, ls, ⟨z, ms, hu, hbracket, -⟩, hextends⟩ := hreads.constraint.leads hindexed
    exact ⟨z, ms ++ ls, by rw [hextends.words, hu, List.cons_append], hbracket.append ls⟩

end Tree

end GoCompact
