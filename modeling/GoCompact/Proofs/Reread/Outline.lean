import GoCompact.Proofs.Reread.TypeSpec
import GoCompact.Proofs.Reread.TypeTree

namespace GoCompact.Tree

open Text GoCompact.Parser GoCompact.Grammar

variable {t : Tree} {k : Keyword}

inductive Pointer : Tree → Prop
  | name {t : Tree} (h : TypeTree .name t) : Pointer t
  | star {p x : Tree} (hx : Pointer x) : Pointer (.star p x)

inductive UnnamedParameter : Tree → Prop
  | mk {p typ : Tree} (htyp : Pointer typ) : UnnamedParameter (.field p (.tuple []) typ .absent)

inductive NamedParameter : Tree → Prop
  | mk {p typ : Tree} {names : List Tree} (hne : names ≠ [])
      (hnames : ∀ n ∈ names, TypeTree .name n) (htyp : Pointer typ) :
      NamedParameter (.field p (.tuple names) typ .absent)

-- Either none of the parameters has a name or all of them have.
inductive ParameterList : Tree → Prop
  | unnamed {p : Tree} {fields : List Tree} (h : ∀ t ∈ fields, UnnamedParameter t) :
      ParameterList (.fieldList p (.tuple fields))
  | named {p : Tree} {fields : List Tree} (h : ∀ t ∈ fields, NamedParameter t) :
      ParameterList (.fieldList p (.tuple fields))

inductive Value : Tree → Prop
  | name {t : Tree} (h : TypeTree .name t) : Value t
  | number {p : Tree} {s : Text} (h : IsLiteral .Integer s) :
      Value (.basicLit p (.token (.literal .Integer)) (.text s))

-- The name of an import, of which a point stands for all names of the package.
inductive ImportedAs : Tree → Prop
  | all {p : Tree} : ImportedAs (.ident p (.text "."))
  | name {t : Tree} (h : TypeTree .name t) : ImportedAs t

inductive OutlineSpec : Keyword → Tree → Prop
  | importSpec {p path : Tree} {name : Option Tree} (hname : ∀ t ∈ name, ImportedAs t)
      (hpath : TypeTree .tag path) : OutlineSpec .Import (.importSpec p (.ofOption name) path)
  | value {k : Keyword} {p : Tree} {names values : List Tree} {typ : Option Tree}
      (hk : k = .Const ∨ k = .Var) (hne : names ≠ []) (hnames : ∀ n ∈ names, TypeTree .name n)
      (htyp : ∀ t ∈ typ, Pointer t) (hvalues : ∀ t ∈ values, Value t)
      (hvar : k = .Var → typ = none → values ≠ []) :
      OutlineSpec k (.valueSpec p (.tuple names) (.ofOption typ) (.tuple values))
  | type {p name typ : Tree} {isAlias : Bool} (hname : TypeTree .name name) (htyp : Pointer typ) :
      OutlineSpec .Type (.typeSpec p name typ .absent (.flag isAlias))
  | generic {p q name typ : Tree} {fields : List Tree} {isAlias : Bool}
      (hname : TypeTree .name name) (htyp : Pointer typ) (hne : fields ≠ [])
      (hfields : ∀ t ∈ fields, NamedParameter t) :
      OutlineSpec .Type (.typeSpec p name typ (.fieldList q (.tuple fields)) (.flag isAlias))

inductive OutlineDeclaration : Tree → Prop
  | single {k : Keyword} {p spec : Tree} (hk : k = .Import ∨ k = .Const ∨ k = .Type ∨ k = .Var)
      (h : OutlineSpec k spec) :
      OutlineDeclaration (.genDecl p (.token (.word k)) (.tuple [spec]) (.flag false))
  | grouped {k : Keyword} {p : Tree} {specs : List Tree}
      (hk : k = .Import ∨ k = .Const ∨ k = .Type ∨ k = .Var) (h : ∀ t ∈ specs, OutlineSpec k t) :
      OutlineDeclaration (.genDecl p (.token (.word k)) (.tuple specs) (.flag true))
  | func {p q name params : Tree} {recv results typeParams body : Option Tree}
      (hrecv : ∀ t ∈ recv, ParameterList t) (hname : TypeTree .name name)
      (htypeParams : ∀ t ∈ typeParams, ParameterList t)
      (hne : ∀ t ∈ typeParams, ∀ p, t ≠ .fieldList p (.tuple [])) (hparams : ParameterList params)
      (hresults : ∀ t ∈ results, ParameterList t)
      (hbody : ∀ t ∈ body, ∃ p, t = .block p (.tuple [])) :
      OutlineDeclaration (.funcDecl p (.ofOption recv) name
        (.funcType q params (.ofOption results) (.ofOption typeParams) (.flag true))
        (.ofOption body))

theorem Pointer.typeTree (h : Pointer t) : TypeTree .type t := by
  induction h with
  | name h => exact .operand (.plain (.unqualified h))
  | star _ ih => exact .star ih

theorem Pointer.spells (h : Pointer t) : (t.emittedAs .expression).Spells t.words :=
  h.typeTree.spells

theorem Pointer.typeReads (h : Pointer t) : t.TypeReads :=
  TypeTree.typeReads_of_reads h.typeTree h.typeTree.reads.1

theorem Pointer.is_paren (h : Pointer t) : t.is .ParenExpr = false := by
  cases h with
  | name h =>
      cases h
      rfl
  | star => rfl

theorem UnnamedParameter.typeTree (h : UnnamedParameter t) : TypeTree .unnamed t := by
  cases h with
  | mk htyp => exact .unnamed (.single htyp.typeTree)

theorem NamedParameter.typeTree (h : NamedParameter t) : TypeTree .named t := by
  cases h with
  | mk hne hnames htyp => exact .named hne hnames (.single htyp.typeTree)

namespace ParameterList

theorem typeTree (h : ParameterList t) : TypeTree .parameters t := by
  cases h with
  | unnamed h => exact .unnamedList fun t ht => (h t ht).typeTree
  | named h => exact .namedList fun t ht => (h t ht).typeTree

-- A single result without a name stands alone.
theorem results (h : ParameterList t) : TypeTree .results t := by
  have htree := h.typeTree
  cases h with
  | @unnamed p fields h =>
      by_cases hlone : ∃ t, fields = [t]
      · obtain ⟨t, rfl⟩ := hlone
        cases h t (by simp) with
        | mk htyp => exact .loneResult htyp.typeTree htyp.is_paren
      · exact .results htree fun q typ tag heq => hlone ⟨_, heq⟩
  | @named p fields h =>
      refine .results htree fun q typ tag heq => ?_
      cases h (.field q (.tuple []) typ tag) (by simp [heq]) with
      | mk hne => exact hne rfl

theorem parametersReads (h : ParameterList t) : t.ParametersReads :=
  TypeTree.parametersReads h.typeTree.reads

theorem typeParametersReads (h : ParameterList t) (hne : ∀ p, t ≠ .fieldList p (.tuple [])) :
    t.TypeParametersReads := by
  obtain ⟨p, fields, rfl, hlists⟩ := h.typeTree.reads
  obtain ⟨entries, hentries⟩ := hlists true
  refine reads_typeParameters hentries ?_
  rintro rfl
  have hfields : fields.map bare = [] := (Except.ok.inj hentries.gathered).symm
  exact hne p (by rw [List.map_eq_nil_iff.mp hfields])

end ParameterList

namespace Value

theorem built (h : Value t) : Built (.expression true) t := by
  cases h with
  | name h => exact (TypeTree.expression_of_name h.built true).1
  | number h => exact .literal h.whole

theorem reads (h : Value t) : t.Reads true := by
  cases h with
  | name h => exact h.unqualified.reads true
  | number h => exact reads_literal h.whole _

theorem unclashing (h : Value t) : Unclashing t.words := by
  cases h with
  | name h => exact h.isSealed.unclashing
  | number h =>
      rw [words_of_spells (spells_literal h.whole _)]
      exact .literal nofun

end Value

-- The constraint of a type parameter that stands first.
theorem Pointer.headType (h : Pointer t) : t.HeadType := by
  cases h with
  | name h =>
      cases h with
      | @name p x h =>
          have hreads : (Tree.ident p (.text x)).Reads true := reads_ident h.whole p
          refine .apart (.of_type (hreads.type rfl) hreads.spells) ?_
          rw [words_of_spells (spells_ident h.whole _)]
          exact .cons ⟨rfl, nofun⟩ _
  | star hx =>
      exact .joined fun {_ _} => ⟨_, .star (hx.typeTree.reads.1 true)
        (is_binary_of_isType hx.typeTree.built.2)⟩

theorem headReads_parameters {p : Tree} {fields : List Tree} (hne : fields ≠ [])
    (h : ∀ t ∈ fields, NamedParameter t) : (Tree.fieldList p (.tuple fields)).HeadReads := by
  obtain ⟨f, fields, rfl⟩ := List.exists_cons_of_ne_nil hne
  refine headReads_named (fun t ht => (h t ht).typeTree.reads true) ?_
  rintro q name t rfl
  cases h _ (List.mem_cons_self) with
  | mk _ _ htyp => exact htyp.headType

-- A name or a pointer does not begin with a bracket.
theorem Pointer.plain (h : Pointer t) : t.typeStart ≠ .op .LBrack ∧ t.keepsLength = true := by
  cases h with
  | name h =>
      cases h with
      | name => exact ⟨nofun, rfl⟩
  | star => exact ⟨nofun, rfl⟩

theorem importName_of_importedAs {o : Option Tree} (h : ∀ t ∈ o, ImportedAs t) :
    ∃ ls, ImportName o ls ∧ Sealed ls := by
  cases o with
  | none => exact ⟨_, .path, .nil⟩
  | some t =>
      cases h t rfl with
      | all => exact ⟨_, .all, Sealed.nil.operator _⟩
      | name h =>
          cases h with
          | name hx => exact ⟨_, .name hx.whole, Sealed.nil.name⟩

namespace OutlineSpec

theorem built (h : OutlineSpec k t) : Built (.spec k) t := by
  cases h with
  | @importSpec p path name hname hpath =>
      cases name with
      | none => exact @Built.importSpec p path none nofun hpath.built
      | some t =>
          cases hname t rfl with
          | all => exact .importAll hpath.built
          | name h =>
              refine @Built.importSpec p path (some t) ?_ hpath.built
              rintro u ⟨⟩
              exact h.built
  | value hk hne hnames htyp hvalues hvar =>
      exact .valueSpec hk hne (fun n hn => (hnames n hn).built)
        (fun t ht => (htyp t ht).typeTree.built.1 true) (fun t ht => (htyp t ht).typeTree.built.2)
        (fun t ht => (hvalues t ht).built) hvar
  | type hname htyp =>
      exact .typeSpec hname.built (htyp.typeTree.built.1 true) htyp.typeTree.built.2
        fun _ => htyp.plain.2
  | generic hname htyp hne hfields =>
      exact .genericSpec hname.built (htyp.typeTree.built.1 true) htyp.typeTree.built.2
        (.namedTypeParameters hne fun t ht => (hfields t ht).typeTree.built true)

theorem reads (h : OutlineSpec k t) : t.SpecReads k := by
  cases h with
  | importSpec hname hpath =>
      obtain ⟨ls, hname, -⟩ := importName_of_importedAs hname
      cases hpath with
      | tag h => exact reads_importSpec hname h.whole
  | value hk hne hnames htyp hvalues hvar =>
      exact reads_valueSpec hk hne (fun n hn => (hnames n hn).built)
        (fun t ht => (htyp t ht).typeReads) (fun t ht => (htyp t ht).spells)
        (fun t ht => (hvalues t ht).reads) hvar
  | type hname htyp =>
      exact reads_plainSpec hname.built htyp.typeReads htyp.spells fun _ => htyp.plain.1
  | generic hname htyp hne hfields =>
      exact reads_genericSpec hname.built htyp.typeReads htyp.spells
        (headReads_parameters hne hfields)

theorem unclashing_of_spells {ls : List Lexeme} (h : (t.emittedAs .spec).Spells ls)
    (hls : Unclashing ls) : Unclashing t.specWords := by
  rwa [specWords, h.words]

theorem sealed_mark (isAlias : Bool) : Sealed (markWords isAlias) := by
  cases isAlias with
  | true => exact Sealed.nil.operator _
  | false => exact .nil

theorem sealed_headWords (h : ParameterList t) : Sealed t.headWords := by
  rw [headWords]
  refine h.typeTree.isSealed.append ?_
  split
  · exact Sealed.nil.operator _
  · exact .nil

theorem unclashing (h : OutlineSpec k t) : Unclashing t.specWords := by
  cases h with
  | importSpec hname hpath =>
      obtain ⟨ls, hname, hsealed⟩ := importName_of_importedAs hname
      cases hpath with
      | tag h =>
          exact unclashing_of_spells (spells_importSpec hname h.whole)
            (hsealed.append .text).unclashing
  | @value _ p names values typ hk hne hnames htyp hvalues hvar =>
      have hwords := spells_valueSpec (p := p) (fun n hn => (hnames n hn).built)
        (fun t ht => (htyp t ht).spells) fun t ht => (hvalues t ht).reads.spells
      have hlisted : Sealed (listed (names.map words)) :=
        .listed (TypeTree.sealed_map fun n hn => (hnames n hn).isSealed)
      have htype : Sealed (boundWords typ) :=
        TypeTree.sealed_bound fun t ht => (htyp t ht).typeTree.isSealed
      have hlist : Unclashing (listed (values.map words)) := by
        refine .listed fun w hw => ?_
        obtain ⟨t, ht, rfl⟩ := List.mem_map.mp hw
        exact (hvalues t ht).unclashing
      refine unclashing_of_spells hwords ?_
      rw [tailWords, ← List.append_assoc, valueWords]
      split
      · rw [List.append_nil]
        exact (hlisted.append htype).unclashing
      · exact (hlisted.append htype).unclashing.append_operator hlist (by decide)
  | @type p name typ isAlias hname htyp =>
      cases hname with
      | name hx =>
          exact unclashing_of_spells (spells_plainSpec hx.whole htyp.spells)
            (Sealed.name ((sealed_mark isAlias).append htyp.typeTree.isSealed)).unclashing
  | @generic p q name typ fields isAlias hname htyp hne hfields =>
      cases hname with
      | name hx =>
          have htail := (sealed_mark isAlias).append htyp.typeTree.isSealed
          have hparams : Sealed (Tree.fieldList q (.tuple fields)).headWords :=
            sealed_headWords (.named hfields)
          exact unclashing_of_spells
            (spells_genericSpec hx.whole htyp.spells (headReads_parameters hne hfields))
            (Sealed.name (.operator _ (hparams.append (.operator _ htail)))).unclashing

end OutlineSpec

namespace OutlineDeclaration

theorem built (h : OutlineDeclaration t) : Built .declaration t := by
  cases h with
  | single hk h => exact .genDecl hk (by simpa using h.built) fun _ => rfl
  | grouped hk h => exact .genDecl hk (fun t ht => (h t ht).built) nofun
  | func hrecv hname htypeParams hne hparams hresults hbody =>
      refine .funcDecl (fun t ht => (hrecv t ht).typeTree.built false) hname.built
        (fun t ht => (htypeParams t ht).typeTree.built true) hne (hparams.typeTree.built false)
        (fun t ht => (hresults t ht).typeTree.built false) fun t ht => ?_
      obtain ⟨p, rfl⟩ := hbody t ht
      exact .block nofun nofun nofun

section

variable {name params : Tree} {recv results typeParams body : Option Tree}

theorem blockReads (hbody : ∀ t ∈ body, ∃ p, t = Tree.block p (.tuple [])) :
    ∀ t ∈ body, t.BlockReads := by
  intro t ht
  obtain ⟨p, rfl⟩ := hbody t ht
  exact reads_block nofun

theorem sealed_brackets {o : Option Tree} {l r : Operator} (h : ∀ t ∈ o, ParameterList t) :
    Sealed (o.elim [] fun t => .ofOperator l :: (t.listWords ++ [.ofOperator r])) := by
  cases o with
  | none => exact .nil
  | some t => exact .operator _ (Sealed.append (h t rfl).typeTree.isSealed (Sealed.nil.operator _))

theorem sealed_body (hbody : ∀ t ∈ body, ∃ p, t = Tree.block p (.tuple [])) :
    Sealed (bodyWords body) := by
  cases body with
  | none => exact .nil
  | some t =>
      obtain ⟨p, rfl⟩ := hbody t rfl
      rw [bodyWords, Option.elim, statementWords_block (by simp)]
      exact .operator _ (Sealed.nil.operator _)

end

theorem reads (h : OutlineDeclaration t) : t.DeclarationReads := by
  cases h with
  | single hk h => exact reads_genDecl hk h.reads
  | grouped hk h => exact reads_grouped hk fun t ht => (h t ht).reads
  | func hrecv hname htypeParams hne hparams hresults hbody =>
      exact reads_funcDecl (fun t ht => (hrecv t ht).parametersReads) hname.built
        (fun t ht => (htypeParams t ht).typeParametersReads (hne t ht)) hparams.parametersReads
        (TypeTree.resultsReads fun t ht => (hresults t ht).results.reads) (blockReads hbody)

theorem unclashing_of_spells {ls : List Lexeme} (h : (t.emittedAs .declaration).Spells ls)
    (hls : Unclashing ls) : Unclashing t.declarationWords := by
  rwa [declarationWords, h.words]

theorem unclashing (h : OutlineDeclaration t) : Unclashing t.declarationWords := by
  cases h with
  | single hk h => exact unclashing_of_spells (spells_genDecl h.reads) (h.unclashing.keyword _)
  | @grouped _ _ specs hk h =>
      have hspecs : Unclashing (sequenced (specs.map specWords)) := by
        refine .sequenced fun w hw => ?_
        obtain ⟨t, ht, rfl⟩ := List.mem_map.mp hw
        exact (h t ht).unclashing
      exact unclashing_of_spells (spells_grouped fun t ht => (h t ht).reads)
        (((hspecs.append_operator .nil (by decide)).operator _).keyword _)
  | func hrecv hname htypeParams hne hparams hresults hbody =>
      have hsignature := TypeTree.sealed_signature hparams.typeTree.isSealed
        fun t ht => (hresults t ht).results.isSealed
      have hrest := (sealed_brackets (l := .LBrack) (r := .RBrack) htypeParams).append
        (hsignature.append (sealed_body hbody))
      refine unclashing_of_spells (spells_funcDecl (fun t ht => (hrecv t ht).parametersReads)
        hname.built (fun t ht => (htypeParams t ht).typeParametersReads (hne t ht))
        hparams.parametersReads (TypeTree.resultsReads fun t ht => (hresults t ht).results.reads)
        (blockReads hbody) _) ?_
      exact (Sealed.keyword _ ((sealed_brackets hrecv).append
        (Sealed.append hname.isSealed hrest))).unclashing

end OutlineDeclaration

section

variable {p package : Tree} {decls : List Tree}

-- The text of an outline is read as the outline.
theorem parse_render_outline (hpackage : TypeTree .name package)
    (h : ∀ t ∈ decls, OutlineDeclaration t) :
    Fragment.file.ReadsBack (.file p package (.tuple decls)) := by
  have hreads : ∀ t ∈ decls, t.DeclarationReads := fun t ht => (h t ht).reads
  refine Fragment.readsBack_of_rereads (.file hpackage.built fun t ht => (h t ht).built) ?_
    (Fragment.rereads_file hpackage.built hreads)
  have hdecls : Unclashing (sequenced (decls.map declarationWords)) := by
    refine .sequenced fun w hw => ?_
    obtain ⟨t, ht, rfl⟩ := List.mem_map.mp hw
    exact (h t ht).unclashing
  have hwords : Fragment.file.words (.file p package (.tuple decls)) = _ :=
    (spells_file hpackage.built hreads).words
  rw [hwords]
  exact (hpackage.isSealed.unclashing.append_operator hdecls (by decide)).keyword _

end

-- A group of imports, a type with a parameter that is a pointer, and a method without statements.
theorem parse_render_outline_method :
    ∃ package decls, TypeTree .name package ∧ (∀ t ∈ decls, OutlineDeclaration t) ∧
      (Tree.file .unknownPlace package (.tuple decls)).render =
        .ok "package p;import(.\"a\");type T[P *A,]B;func(r *T)f()()\x7b\x7d" ∧
      Fragment.file.ReadsBack (.file .unknownPlace package (.tuple decls)) := by
  let ident (s : Text) : Tree := .ident .unknownPlace (.text s)
  have hident : ∀ s ∈ ["p", "P", "A", "B", "T", "r", "f"], TypeTree .name (ident s) := by
    have hname : ∀ s ∈ ["p", "P", "A", "B", "T", "r", "f"], IsName s := by
      simp only [List.forall_mem_cons]
      exact ⟨rfl, rfl, rfl, rfl, rfl, rfl, rfl, List.forall_mem_nil _⟩
    exact fun s hs => .name (hname s hs)
  have hpath : IsLiteral .Text "\"a\"" := rfl
  let pointer (name typ : Text) : Tree := .field .unknownPlace (.tuple [ident name])
    (.star .unknownPlace (ident typ)) .absent
  have hpointer : ∀ name ∈ ["p", "P", "A", "B", "T", "r", "f"],
      ∀ typ ∈ ["p", "P", "A", "B", "T", "r", "f"], NamedParameter (pointer name typ) :=
    fun name hname typ htyp => .mk (by simp) (by simpa using hident name hname)
      (.star (.name (hident typ htyp)))
  have himport : OutlineSpec .Import (.importSpec .unknownPlace (.ofOption (some (ident ".")))
      (.basicLit .unknownPlace (.token (.literal .Text)) (.text "\"a\""))) := by
    refine .importSpec ?_ (.tag hpath)
    rintro t ⟨⟩
    exact .all
  have himports : OutlineDeclaration (.genDecl .unknownPlace (.token (.word .Import))
      (.tuple [_]) (.flag true)) := .grouped (.inl rfl) (List.forall_mem_singleton.mpr himport)
  have htype : OutlineSpec .Type (.typeSpec .unknownPlace (ident "T") (ident "B")
      (.fieldList .unknownPlace (.tuple [pointer "P" "A"])) (.flag false)) :=
    .generic (hident "T" (by simp)) (.name (hident "B" (by simp))) (by simp)
      (by simpa using hpointer "P" (by simp) "A" (by simp))
  have hnone : ParameterList (.fieldList .unknownPlace (.tuple [])) := .named (by simp)
  have hmethod : OutlineDeclaration (.funcDecl .unknownPlace
      (.ofOption (some (.fieldList .unknownPlace (.tuple [pointer "r" "T"])))) (ident "f")
      (.funcType .unknownPlace (.fieldList .unknownPlace (.tuple []))
        (.ofOption (some (.fieldList .unknownPlace (.tuple [])))) (.ofOption none) (.flag true))
      (.ofOption (some (.block .unknownPlace (.tuple []))))) := by
    refine .func ?_ (hident "f" (by simp)) nofun nofun hnone ?_ ?_
    · rintro t ⟨⟩
      exact .named (by simpa using hpointer "r" (by simp) "T" (by simp))
    · rintro t ⟨⟩
      exact hnone
    · rintro t ⟨⟩
      exact ⟨_, rfl⟩
  have hdecls : ∀ t ∈ [_, _, _], OutlineDeclaration t :=
    List.forall_mem_cons.mpr ⟨himports, List.forall_mem_cons.mpr
      ⟨.single (p := .unknownPlace) (by simp) htype, List.forall_mem_singleton.mpr hmethod⟩⟩
  exact ⟨_, _, hident "p" (by simp), hdecls, by cbv,
    parse_render_outline (hident "p" (by simp)) hdecls⟩

end GoCompact.Tree
