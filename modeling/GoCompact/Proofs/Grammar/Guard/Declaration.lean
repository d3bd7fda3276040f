import GoCompact.Proofs.Grammar.Guard.Expression

namespace GoCompact.Grammar

open GoCompact.Parser GoCompact.Tree

variable {g : Grammar} {s : Scope} {n : Nat} {w : Passed}

theorem importSpec_levels : importSpec.Yields s (·.levels w ≤ n) := by
  have hname : importName.Yields s (·.levels w ≤ n) := by
    refine .skip fun _ => ?_
    split
    · exact ident_levels
    · exact .skip fun _ => .pure (by simp)
    · exact .pure (by simp)
  refine .skip fun _ => hname.bind fun name hname => .skip fun _ => .ite (fun _ => ?_) fun _ => .expected
  exact (stringLiteral_levels (n := n) (w := w)).bind fun path hpath => .skip fun _ =>
    .pure (by simp [hname, hpath])

theorem Shallow.initialValues (hg : g.Shallow) (w : Passed) (hs : s.Leaves n) :
    g.initialValues.Yields s fun ts => ∀ t ∈ ts, t.levels w ≤ n :=
  .skip fun _ => .ite (fun _ => hg.expressionList w hs) fun _ => .pure (by simp)

-- A type and values.
def TailWithin (w : Passed) (n : Nat) (r : Tree × List Tree) : Prop :=
  r.1.levels w ≤ n ∧ ∀ t ∈ r.2, t.levels w ≤ n

theorem Shallow.constantTail (hg : g.Shallow) (w : Passed) (hs : s.Leaves n) :
    g.constantTail.Yields s (TailWithin w n) := by
  refine .skip fun _ => ?_
  have hnone : (Pure.pure (.absent, []) : Parser (Tree × List Tree)).Yields s (TailWithin w n) :=
    .pure ⟨by simp, by simp⟩
  split
  · exact hnone
  · exact hnone
  · exact hnone
  · exact (hg.typeRule? w hs).bind fun typ htyp => (hg.initialValues w hs).bind fun values hvalues =>
      .pure ⟨levels_ofOption.mpr fun t ht => le_of_lt_typeRoom (htyp t ht), hvalues⟩

theorem Shallow.variableTail (hg : g.Shallow) (w : Passed) (hs : s.Leaves n) :
    g.variableTail.Yields s (TailWithin w n) := by
  have hvalues : ∀ typ : Tree, typ.levels w ≤ n → (do
      let values ← g.initialValues
      return (typ, values) : Parser (Tree × List Tree)).Yields s (TailWithin w n) :=
    fun _ htyp => (hg.initialValues w hs).bind fun _ hvalues => .pure ⟨htyp, hvalues⟩
  refine .skip fun _ => .ite (fun _ => ?_) fun _ => ?_
  · exact (Yields.pure (P := (·.levels w ≤ n)) (by simp)).bind hvalues
  · exact (hg.typeRule_le w hs).bind hvalues

theorem Shallow.valueSpec {keyword : Keyword} (hg : g.Shallow) (w : Passed) (hs : s.Leaves n) :
    (g.valueSpec keyword).Yields s (·.levels w ≤ n) := by
  refine .skip fun _ => (ident_levels (n := n) (w := w)).commaList.bind fun names hnames => ?_
  refine .ite (fun _ => (hg.constantTail w hs).bind ?_) fun _ => (hg.variableTail w hs).bind ?_
  all_goals
    rintro ⟨typ, values⟩ ⟨htyp, hvalues⟩
    exact .skip fun _ => .pure (by simpa [htyp] using ⟨hnames, hvalues⟩)

theorem Shallow.leadingExpression (hg : g.Shallow) (w : Passed) (hs : s.Leaves n) :
    g.leadingExpression.Yields s (Apart w n) := by
  have hname : ident.Yields s (Apart w n) := by
    refine .skip fun _ => .ite (fun _ => .skip fun t => .pure ⟨by simp, fun _ h => ?_⟩) fun _ => .expected
    cases h
    simp
  refine hname.bind fun name hname => .skip fun _ => .ite (fun _ => .pure hname) fun _ => .bracketed ?_
  exact (hg.primaryAfter w hs.bracketed hname).bind fun x hx =>
    hg.binaryAfter w hs.bracketed (fun p x kind y hx hy => apart_binary hx hy) hx

theorem Shallow.typeParametersAfter {place name : Tree} {constraint : Option Tree} (hg : g.Shallow)
    (w : Passed) (hs : s.Leaves n) (hname : name.levels w ≤ n) (hconstraint : ∀ t ∈ constraint, t.levels w ≤ n) :
    (g.typeParametersAfter place name constraint).Yields s (·.levels w ≤ n) := by
  have hrest : ∀ first : Entry, first.Within w n → (do
      let entries ← g.entriesAfter (.op .RBrack) true first
      listOf place entries : Parser Tree).Yields s (·.levels w ≤ n) :=
    fun _ hfirst => (hg.entriesAfter w hs hfirst).bind fun _ hes => listOf_levels hes
  cases constraint with
  | none => exact (hg.entryAfterName w hs hname).bind hrest
  | some typ =>
      exact (hg.completed w hs ⟨by simpa, by simpa using hconstraint⟩).bind hrest

-- The parts of the declaration of a type stand in it.
theorem Shallow.genericTail {name params : Tree} (hg : g.Shallow) (w : Passed) (hs : s.Leaves n)
    (hname : name.levels w.declaring ≤ n)
    (hparams : params.levels w.declaring ≤ n) :
    (g.genericTail name params).Yields s (·.levels w ≤ n) :=
  .skip fun _ => .skip fun _ => (hg.typeRule_le w.declaring hs).bind fun typ htyp =>
    .pure (levels_typeSpec.mpr (by simp [hname, hparams, htyp]))

theorem plainSpec_levels {name typ : Tree} {isAlias : Bool}
    (hname : name.levels w.declaring ≤ n)
    (htyp : typ.levels w.declaring ≤ n) :
    (plainSpec name typ isAlias).levels w ≤ n :=
  levels_typeSpec.mpr (by simp [hname, htyp])

theorem Shallow.bracketedTypeSpec {place name : Tree} (hg : g.Shallow) (w : Passed) (hs : s.Leaves n)
    (hname : name.levels w.declaring ≤ n) :
    (g.bracketedTypeSpec place name).Yields s (·.levels w ≤ n) := by
  refine .skip fun _ => .ite (fun _ => ?_) fun _ =>
    (hg.arrayType _ hs).bind fun typ htyp => .pure (plainSpec_levels hname htyp)
  refine (hg.leadingExpression w.declaring hs).bind fun x hx => .skip fun kind => ?_
  have harray : (do
      let typ ← g.arrayElement place (some x)
      return plainSpec name typ false : Parser Tree).Yields s (·.levels w ≤ n) :=
    (hg.arrayElement _ hs (by simpa using hx.levels)).bind fun typ htyp =>
      .pure (plainSpec_levels hname htyp)
  split
  · rename_i hapart
    obtain ⟨hparameter, hconstraint⟩ := hx.apart rfl hapart
    refine .ite (fun _ => ?_) fun _ => harray
    exact (hg.typeParametersAfter _ hs hparameter hconstraint).bind fun params hparams =>
      hg.genericTail w hs hname hparams
  · exact harray

theorem Shallow.typeSpec (hg : g.Shallow) (w : Passed) (hs : s.Leaves n) :
    g.typeSpec.Yields s (·.levels w ≤ n) := by
  refine (ident_levels (n := n) (w := w.declaring)).bind fun name hname => ?_
  refine Yields.bind (P := (·.levels w ≤ n)) ?_ fun spec hspec => .skip fun _ => .pure hspec
  refine .skip fun _ => .ite (fun _ => .skip fun _ => hg.bracketedTypeSpec w hs hname) fun _ => ?_
  exact .skip fun _ => (hg.typeRule_le _ hs).bind fun typ htyp => .pure (plainSpec_levels hname htyp)

theorem Shallow.spec {keyword : Keyword} (hg : g.Shallow) (w : Passed) (hs : s.Leaves n) :
    (g.spec keyword).Yields s (·.levels w ≤ n) := by
  unfold Grammar.spec
  split
  · exact importSpec_levels
  · exact hg.typeSpec w hs
  · exact hg.valueSpec w hs

theorem Shallow.genDecl {keyword : Keyword} (hg : g.Shallow) (w : Passed) (hs : s.Leaves n) :
    (g.genDecl keyword).Yields s (·.levels w ≤ n) := by
  refine .skip fun _ => .skip fun _ => .ite (fun _ => ?_) fun _ => ?_
  · exact (hg.spec w hs).manyWhile.bind fun specs hspecs => .skip fun _ => .skip fun _ =>
      .pure (by simpa using hspecs)
  · exact (hg.spec w hs).bind fun spec hspec => .pure (by simpa)

theorem ifNext_levels {kind : TokenKind} {p : Parser Tree} (hp : p.Yields s (·.levels w ≤ n)) :
    (ifNext kind p).Yields s (·.levels w ≤ n) :=
  .skip fun _ => .ite (fun _ => hp) fun _ => .pure (by simp)

theorem Shallow.funcDecl (hg : g.Shallow) (w : Passed) (hs : s.Leaves n) :
    g.funcDecl.Yields s (·.levels w ≤ n) := by
  refine .skip fun _ => (ifNext_levels (hg.parameters w hs)).bind fun recv hrecv => ?_
  refine (ident_levels (n := n) (w := w)).bind fun name hname => ?_
  refine (ifNext_levels (hg.typeParameters w hs)).bind fun typeParams htypeParams => ?_
  refine (hg.parameters w hs).bind fun params hparams =>
    (hg.results w hs).bind fun results hresults => ?_
  refine (ifNext_levels (Yields.bracketed (hg.block w hs.bracketed))).bind fun body hbody => ?_
  exact .skip fun _ =>
    .pure (by simpa [hrecv, hname, htypeParams, hparams, hbody] using hresults)

theorem Shallow.declaration (hg : g.Shallow) (w : Passed) (hs : s.Leaves n) :
    g.declaration.Yields s (·.levels w ≤ n) := by
  refine .skip fun _ => ?_
  split
  · exact hg.genDecl w hs
  · exact hg.genDecl w hs
  · exact hg.genDecl w hs
  · exact hg.genDecl w hs
  · exact hg.funcDecl w hs
  · exact .expected

end GoCompact.Grammar
