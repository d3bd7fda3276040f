import GoCompact.Proofs.Reread.TypeTree
import GoCompact.Proofs.Reread.Whole

namespace GoCompact

open GoCompact.Tree GoCompact.Text GoCompact.Grammar

namespace TypeTree

variable {part : TypePart} {t : Tree}

theorem lone_of_results (h : TypeTree .results t) :
    t.lone?.all (fun t => t.isType && !t.is .ParenExpr) = true := by
  cases h with
  | loneResult h hparen => simp [lone?, h.built.2, hparen]
  | results _ hlone =>
      unfold lone?
      split
      · rename_i heq
        simp only [node.injEq, List.cons.injEq, tuple.injEq, true_and, and_true] at heq
        exact absurd heq.2 (hlone _ _ _)
      · rfl

theorem legible (h : TypeTree part t) : t.Legible := by
  induction h with
  | name | openLength | numberLength | tag => exact ⟨rfl, rfl⟩
  | unqualified _ ih | plain _ ih | operand _ ih | nameLength _ ih | single _ ih | exact _ ih
  | term _ ih => exact ih
  | qualified hpackage _ ihpackage ihsel =>
      refine .node ?_ rfl ⟨ihpackage, ihsel⟩
      simpa [isPlainNode] using edge_of_isTypeName hpackage.unqualified.built.2 _
  | instantiated hx _ _ ihx ihfirst ihothers =>
      refine .node ?_ rfl ⟨ihx, .tuple (List.forall_mem_cons.mpr ⟨ihfirst, fun t ht => ihothers t ht⟩)⟩
      simpa [isPlainNode] using edge_of_isTypeName hx.built.2 _
  | star _ ih | paren _ ih => exact .node rfl rfl ih
  | arrayType _ _ ihlen ihelt => exact .node rfl rfl ⟨.ofOption fun t ht => ihlen t ht, ihelt⟩
  | mapType _ _ ihkey ihvalue => exact .node rfl rfl ⟨ihkey, ihvalue⟩
  | chanType _ _ _ ih => exact .node rfl rfl ⟨⟨rfl, rfl⟩, ih⟩
  | @funcType _ _ results _ hresults ihparams ihresults =>
      refine .node ?_ rfl ⟨ihparams, .ofOption fun t ht => ihresults t ht, ⟨rfl, rfl⟩, ⟨rfl, rfl⟩⟩
      cases results with
      | none => rfl
      | some t => exact (hresults t rfl).lone_of_results
  | structType _ ih | interfaceType _ ih =>
      exact .node rfl rfl (.node rfl rfl (.tuple fun t ht => ih t ht))
  | variadic _ ih => exact .node rfl rfl ih
  | unnamed _ ih => exact .node rfl rfl ⟨⟨rfl, rfl⟩, ih, ⟨rfl, rfl⟩⟩
  | named _ _ _ ihnames ih =>
      exact .node rfl rfl ⟨.tuple fun t ht => ihnames t ht, ih, ⟨rfl, rfl⟩⟩
  | unnamedList _ ih | namedList _ ih => exact .node rfl rfl (.tuple fun t ht => ih t ht)
  | loneResult _ _ ih =>
      exact .node rfl rfl (.tuple (by simpa using .node rfl rfl ⟨⟨rfl, rfl⟩, ih, ⟨rfl, rfl⟩⟩))
  | results _ _ ih => exact ih
  | embedded _ _ ih ihtag =>
      exact .node rfl rfl ⟨⟨rfl, rfl⟩, ih, .ofOption fun t ht => ihtag t ht⟩
  | embeddedPointer _ _ ih ihtag =>
      exact .node rfl rfl ⟨⟨rfl, rfl⟩, .node rfl rfl ih, .ofOption fun t ht => ihtag t ht⟩
  | field _ _ _ _ ihnames ih ihtag =>
      exact .node rfl rfl ⟨.tuple fun t ht => ihnames t ht, ih, .ofOption fun t ht => ihtag t ht⟩
  | @method _ _ _ _ results _ _ hresults ihname ihparams ihresults =>
      refine .node rfl rfl ⟨.tuple (by simpa using ihname), .node ?_ rfl
        ⟨ihparams, .ofOption fun t ht => ihresults t ht, ⟨rfl, rfl⟩, ⟨rfl, rfl⟩⟩, ⟨rfl, rfl⟩⟩
      cases results with
      | none => rfl
      | some t => exact (hresults t rfl).lone_of_results
  | constraint _ ih => exact .node rfl rfl ⟨⟨rfl, rfl⟩, ih, ⟨rfl, rfl⟩⟩
  | tilde _ ih => exact .node rfl rfl ⟨⟨rfl, rfl⟩, ih⟩
  | @union _ x _ _ _ ihx ihy =>
      refine .node ?_ rfl ⟨ihx, ⟨rfl, rfl⟩, ihy⟩
      simpa [isPlainNode] using edge_eq_false (by decide) rfl x

theorem combinesWithName_of_operand (h : TypeTree .operand t) : t.combinesWithName = false := by
  cases h with
  | plain h =>
      cases h with
      | unqualified h =>
          cases h
          rfl
      | qualified => rfl
  | instantiated => rfl

end TypeTree

namespace Tree

open Emission (Spells)

-- A name directly before a constraint, as it is read if the constraint does not stand by itself.
def attach (name : Tree) : Tree → Tree
  | .star p x => .binary p name (.token (.op .Mul)) x
  | .paren p x => .call p name (.tuple [x]) (.flag false)
  | .binary p x op y => .binary p (attach name x) op y
  | t => t

-- A name before a constraint is an expression with the same lexemes that is no type parameter.
structure Attached (q : Tree) (z : Text) (t : Tree) : Prop where
  built : Built (.expression true) (attach (.ident q (.text z)) t)
  legible : (attach (.ident q (.text z)) t).Legible
  spells : ((attach (.ident q (.text z)) t).emittedAs .expression).Spells
    (⟨.ident, z⟩ :: t.words)
  precedence : 4 ≤ (attach (.ident q (.text z)) t).precedence
  starts : (attach (.ident q (.text z)) t).startsIndexed = false
  parameter : (attach (.ident q (.text z)) t).typeParameter? false = none

namespace Attached

variable {p q x y : Tree} {z : Text} (hz : (⟨.ident, z⟩ : Lexeme).Whole)
include hz

-- A product with what a pointer points to.
theorem star (hx : TypeTree .type x) (helement : x.isTypeElement = false) :
    Attached q z (.star p x) where
  built := by
    refine .binary (by decide) (.ident hz) (hx.built.1 true) (Nat.le_succ 5) ?_
    rw [precedence_of_is_binary (is_binary_of_isType hx.built.2)]
    decide
  legible := .node rfl rfl ⟨⟨rfl, rfl⟩, ⟨rfl, rfl⟩, hx.legible⟩
  spells := by
    have hname : (Tree.ident q (.text z)).words = _ := words_of_spells (spells_ident hz q)
    rw [words_of_spells (spells_star hx.spells)]
    exact (spells_binary (reads_ident (b := true) hz q).spells hx.spells).of_eq (by rw [hname]; rfl)
  precedence := Nat.le_succ 4
  starts := rfl
  parameter := by simp [attach, typeParameter?, helement]

-- A call with what stands in parentheses.
theorem paren (hx : TypeTree .type x) (helement : x.isTypeElement = false) :
    Attached q z (.paren p x) where
  built := .call (.ident hz) rfl (by simpa using hx.built.1 true) nofun
  legible := .node rfl rfl ⟨⟨rfl, rfl⟩, .tuple (by simpa using hx.legible), ⟨rfl, rfl⟩⟩
  spells := by
    have hname : (Tree.ident q (.text z)).words = _ := words_of_spells (spells_ident hz q)
    rw [words_of_spells (spells_paren hx.spells)]
    exact (spells_call (reads_ident (b := true) hz q).spells (by simpa using hx.spells) false).of_eq
      (by simp [hname, Parser.listed, dots])
  precedence := by simp [attach, Tree.precedence]
  starts := rfl
  parameter := by simp [attach, typeParameter?, helement]

omit hz in
-- A union with one term more.
theorem union (h : Attached q z x) (hx : TypeTree .union x) (hy : TypeTree .term y)
    (helement : y.isTypeElement = false) : Attached q z (.binary p x (.token (.op .Or)) y) where
  built := by
    refine .binary (by decide) h.built hy.built.1 h.precedence ?_
    rw [precedence_of_is_binary hy.built.2.2]
    decide
  legible := by
    refine .node ?_ rfl ⟨h.legible, ⟨rfl, rfl⟩, hy.legible⟩
    simpa [isPlainNode] using edge_eq_false (by decide) rfl _
  spells := by
    rw [words_of_spells (spells_binary hx.reads.spells hy.reads.spells)]
    have hwords := words_of_spells h.spells
    exact (spells_binary (hwords ▸ h.spells) hy.reads.spells).of_eq (by rw [hwords]; rfl)
  precedence := Nat.le_refl 4
  starts := h.starts
  parameter := by simp [attach, typeParameter?, helement, h.parameter]

theorem of_combines {t : Tree} (h : TypeTree .union t) (hcombines : t.combinesWithName = true) :
    Attached q z t := by
  generalize hpart : TypePart.union = part at h
  induction h with
  | term h =>
      cases h with
      | exact h =>
          cases h with
          | star hx => exact star hz hx (by simpa [combinesWithName] using hcombines)
          | paren hx => exact paren hz hx (by simpa [combinesWithName] using hcombines)
          | operand h =>
              rw [h.combinesWithName_of_operand] at hcombines
              cases hcombines
          | _ => cases hcombines
      | tilde => cases hcombines
  | union hx hy ihx =>
      obtain ⟨hleft, helement⟩ := by simpa [combinesWithName] using hcombines
      exact (ihx hleft rfl).union hx hy helement
  | _ => cases hpart

end Attached

-- A declaration of a type.
def typeOf (n : Text) (typ typeParams : Tree) : Tree :=
  .genDecl .unknownPlace (.token (.word .Type)) (.tuple [.typeSpec .unknownPlace
    (.ident .unknownPlace (.text n)) typ typeParams (.flag false)]) (.flag false)

-- A list of one type parameter.
def parameterOf (z : Text) (constraint : Tree) : Tree :=
  .fieldList .unknownPlace (.tuple [.field .unknownPlace (.tuple [.ident .unknownPlace (.text z)])
    constraint .absent])

-- A type with one type parameter, and an array type of a length.
def withParameter (n z u : Text) (constraint : Tree) : Tree :=
  typeOf n (.ident .unknownPlace (.text u)) (parameterOf z constraint)

def withLength (n u : Text) (len : Tree) : Tree :=
  typeOf n (.arrayType .unknownPlace (.ofOption (some len)) (.ident .unknownPlace (.text u))) .absent

-- What is written for the first, with a comma or without.
def emittedParameter (n z u : Text) (constraint : Tree) (comma : Bool) : Emission :=
  .keyword .Type ++ (.blank ++ (.write n ++ (.operator .LBrack ++ (.write z ++ (.blank ++
    (constraint.emittedAs .expression ++ (.when comma (.operator .Comma) ++
      (.operator .RBrack ++ .write u))))))))

def textParameter (n z u constraint : Text) (comma : Bool) : Text :=
  "type " ++ n ++ "[" ++ z ++ " " ++ constraint ++ (if comma then "," else "") ++ "]" ++ u

section

variable {t : Tree} {n z u : Text} (comma : Bool)

theorem emitted_withParameter : (withParameter n z u t).emittedAs .declaration =
    emittedParameter n z u t t.combinesWithName := by
  rw [withParameter, typeOf, emitted_genDecl, emitted_typeSpec, parameterOf, emittedIf_of rfl, emitted_fieldList]
  simp only [emittedFields, List.map_cons, List.map_nil, Emission.separated, emitted_field,
    Emission.append_assoc]
  rfl

theorem text_emittedParameter (h : (t.emittedAs .expression).fault = none) :
    (emittedParameter n z u t comma).text =
      textParameter n z u (t.emittedAs .expression).text comma := by
  have hstart : ("type " : Text) = "type" ++ " " := rfl
  have hend : Text.join ["]", u] = "]" ++ u := by simp
  have hwrites : (emittedParameter n z u t comma).writes =
      Text.ofString "type" :: " " :: n :: "[" :: z :: " " ::
        ((t.emittedAs .expression).writes ++
          ((if comma then [","] else [] : List Text) ++ [Text.ofString "]", u])) := by
    rw [emittedParameter, Emission.writes_append rfl, Emission.writes_append rfl,
      Emission.writes_append rfl, Emission.writes_append rfl, Emission.writes_append rfl,
      Emission.writes_append rfl, Emission.writes_append h]
    cases comma <;> rfl
  rw [textParameter, hstart]
  simp only [Emission.text, hwrites, Text.join_cons, Text.join_append, hend, Text.append_assoc]
  cases comma <;> rfl

section

variable (h : TypeTree .union t) (hn : IsName n) (hz : IsName z) (hu : IsName u)
include h hn hz hu

open Emission (WritesSome WritesPieces EndsName) in
theorem writesSome_emittedParameter : (emittedParameter n z u t comma).WritesSome AnyChar EndsName := by
  have hname : ∀ {s : Text}, IsName s → (Emission.write s).WritesSome AnyChar EndsName :=
    fun hs => .name hs.whole fun _ _ => trivial
  have htree : (t.emittedAs .expression).WritesSome AnyChar EndsName :=
    WritesSome.any (@Built.separates _ t .expression h.built.built rfl)
  have hclose : (Emission.operator .RBrack ++ .write u).WritesSome EndsName EndsName :=
    .append (M := AnyChar) (.mark rfl (by decide)) (hname hu)
  have hcomma : (Emission.when comma (.operator .Comma)).WritesPieces EndsName EndsName :=
    .when fun _ => .mark rfl (by decide)
  have hparameter := (hname hz).append (.append (M := AnyChar) (WritesSome.blank (by decide))
    (htree.append (hcomma.append_some hclose fun _ h => h)))
  have hopen : (Emission.operator .LBrack).WritesSome EndsName AnyChar := .mark rfl (by decide)
  exact (WritesSome.keyword trivial fun _ h => h).append (.append (M := AnyChar)
    (WritesSome.blank (by decide)) ((hname hn).append (hopen.append hparameter)))

theorem spells_emittedParameter : (emittedParameter n z u t comma).Spells
    (.ofKeyword .Type :: ⟨.ident, n⟩ :: .ofOperator .LBrack :: ⟨.ident, z⟩ :: (t.words ++
      ((if comma then [.ofOperator .Comma] else []) ++ [.ofOperator .RBrack, ⟨.ident, u⟩]))) := by
  have hcomma : (Emission.when comma (.operator .Comma)).Spells
      (if comma then [.ofOperator .Comma] else []) := by
    cases comma with
    | true => exact .operator _
    | false => exact .nothing
  exact (Spells.keyword .Type).append ((Spells.blank true).append ((Spells.write hn.whole).append
    ((Spells.operator .LBrack).append ((Spells.write hz.whole).append ((Spells.blank true).append
      (h.reads.spells.append (hcomma.append ((Spells.operator .RBrack).append
        (.write hu.whole)))))))))

theorem unclashing_emittedParameter : Unclashing (emittedParameter n z u t comma).words := by
  rw [(spells_emittedParameter _ h hn hz hu).words]
  have hclose : Sealed ((if comma then [.ofOperator .Comma] else []) ++
      [.ofOperator .RBrack, ⟨.ident, u⟩]) := by
    have hlast : Sealed [.ofOperator .RBrack, ⟨.ident, u⟩] := Sealed.nil.name.operator _
    cases comma with
    | true => exact hlast.operator _
    | false => exact hlast
  exact (Sealed.keyword _ (.name (.operator _ (.name (Sealed.append h.isSealed hclose))))).unclashing

theorem strung_emittedParameter : Strung (emittedParameter n z u t comma).text.toList
    (emittedParameter n z u t comma).words [] := by
  have hsome := writesSome_emittedParameter comma h hn hz hu
  exact hsome.strung (Text.not_clashes_of_unclashing hsome.pieces
    (unclashing_emittedParameter comma h hn hz hu))

theorem built_withParameter : Built .declaration (withParameter n z u t) := by
  have hfield : Built (.named true) (.field .unknownPlace
      (.tuple [.ident .unknownPlace (.text z)]) t .absent) :=
    .namedField (by simp) (by simpa using .name hz.whole) (.fieldType h.built.built)
      (by simp [fitsNamed, h.built.isUnion])
  have hparams : Built .typeParameters (parameterOf z t) :=
    .namedTypeParameters (by simp) (by simpa using hfield)
  exact .genDecl (by simp) (by simpa using .genericSpec (.name hn.whole) (.ident hu.whole) rfl hparams)
    fun _ => rfl

omit hn hz hu in
theorem legible_withParameter : (withParameter n z u t).Legible := by
  have hname (s : Text) : (Tree.ident .unknownPlace (.text s)).Legible := ⟨rfl, rfl⟩
  have hfield : (Tree.field .unknownPlace (.tuple [.ident .unknownPlace (.text z)]) t
      .absent).Legible :=
    .node rfl rfl ⟨.tuple (List.forall_mem_singleton.mpr (hname z)), h.legible, ⟨rfl, rfl⟩⟩
  have hparams : (parameterOf z t).Legible :=
    .node rfl rfl (Legible.tuple (List.forall_mem_singleton.mpr hfield))
  have hspec : (Tree.typeSpec .unknownPlace (.ident .unknownPlace (.text n))
      (.ident .unknownPlace (.text u)) (parameterOf z t) (.flag false)).Legible :=
    .node rfl rfl ⟨hname n, hname u, hparams, ⟨rfl, rfl⟩⟩
  exact .node rfl rfl ⟨⟨rfl, rfl⟩, .tuple (List.forall_mem_singleton.mpr hspec), ⟨rfl, rfl⟩⟩

-- Without a comma the text is that of an array type whose length is a product or a call.
theorem bare_of_withLength (hcombines : t.combinesWithName = true) {d : Int} {path : Option Text}
    {v : Tree} (hparse : Fragment.declaration.parse (.atMost d)
      (emittedParameter n z u t false).text path = .ok v) :
    v.bare = (withLength n u (attach (.ident .unknownPlace (.text z)) t)).bare := by
  have hattached := Attached.of_combines (q := .unknownPlace) hz.whole h hcombines
  obtain ⟨hlength, hkept⟩ := isRead (.length hattached.built) hattached.legible
  have hkept' := hkept hattached.starts (by rw [hattached.parameter]; rfl)
  have hwords := words_of_spells hattached.spells
  generalize attach (.ident .unknownPlace (.text z)) t = len at *
  have helt := reads_ident (b := true) hu.whole .unknownPlace
  have hspec : (Tree.typeSpec .unknownPlace (.ident .unknownPlace (.text n))
      (.arrayType .unknownPlace (.ofOption (some len)) (.ident .unknownPlace (.text u))) .absent
      (.flag false)).SpecReads .Type :=
    reads_arraySpec (.name hn.whole) (by simpa using hlength) (by simpa using hkept')
      (helt.type rfl) helt.spells
  have hdecl : (withLength n u len).DeclarationReads := reads_genDecl (by simp) hspec
  have hspells : ((withLength n u len).emittedAs .declaration).Spells
      (emittedParameter n z u t false).words := by
    have hlengths : ∀ t ∈ some len, t.LengthReads := by simpa using hlength
    have harray := spells_arrayType (p := .unknownPlace) hlengths helt.spells
    have hname : (Tree.ident .unknownPlace (.text u)).words = _ :=
      words_of_spells (spells_ident hu.whole _)
    rw [withLength, typeOf, emitted_genDecl, (spells_emittedParameter _ h hn hz hu).words]
    refine ((Spells.keyword .Type).append ((Spells.blank true).append
      (spells_plainSpec hn.whole (words_of_spells harray ▸ harray)))).of_eq ?_
    rw [words_of_spells harray]
    simp [boundWords, hwords, hname, markWords]
  have hstrung : Strung (emittedParameter n z u t false).text.toList
      (Fragment.declaration.words (withLength n u len)) [] := by
    rw [Fragment.words, Fragment.role, hspells.words]
    exact strung_emittedParameter false h hn hz hu
  exact Fragment.bare_of_strung hstrung (Fragment.rereads_declaration hdecl) hparse

-- The declaration of a type with one type parameter is read from its text. The text has a comma after a
-- constraint that would be read as a part of a length, and without the comma it is another declaration.
theorem parse_render_parameter :
    ∃ text, t.render = .ok text ∧
      (withParameter n z u t).render = .ok (textParameter n z u text t.combinesWithName) ∧
      Fragment.declaration.ReadsBack (withParameter n z u t) ∧
      (t.combinesWithName = true → ∀ d path v,
        Fragment.declaration.parse (.atMost d) (textParameter n z u text false) path = .ok v →
          v.same (withParameter n z u t) = false) := by
  have hbuilt := built_withParameter h hn hz hu
  obtain ⟨hfault, -⟩ := h.reads.spells
  have htext (comma : Bool) := text_emittedParameter (n := n) (z := z) (u := u) comma hfault
  have hrender : (withParameter n z u t).render = .ok ((withParameter n z u t).emittedAs
      .declaration).text := @Fragment.render_of_built .declaration _ hbuilt
  rw [emitted_withParameter, htext] at hrender
  have hunclashing : Unclashing (Fragment.declaration.words (withParameter n z u t)) := by
    rw [Fragment.words, Fragment.role, emitted_withParameter]
    exact unclashing_emittedParameter _ h hn hz hu
  refine ⟨_, @Fragment.render_of_built .expression t h.built.built, hrender,
    Fragment.readsBack_of_rereads hbuilt hunclashing
      (Fragment.rereads_declaration (isRead hbuilt (legible_withParameter h))), ?_⟩
  intro hcombines d path v hparse
  have hbare := bare_of_withLength h hn hz hu hcombines ((htext false).symm ▸ hparse)
  rw [← Relocation.forget.same_tree, show Relocation.forget.tree v = _ from hbare,
    Relocation.forget.same_tree]
  simp [withLength, withParameter, typeOf, parameterOf, same, sameAll]

end

end

-- A union of a pointer, an instance in parentheses and a pointer to a channel.
theorem parse_render_parameter_union :
    ∃ t text, TypeTree .union t ∧ t.combinesWithName = true ∧
      text = "*A|(p.Q[map[A]P])|*<-chan A" ∧ t.render = .ok text ∧
      (withParameter "N" "P" "U" t).render = .ok (textParameter "N" "P" "U" text t.combinesWithName) ∧
      Fragment.declaration.ReadsBack (withParameter "N" "P" "U" t) ∧
      ∀ d path v, Fragment.declaration.parse (.atMost d) (textParameter "N" "P" "U" text false)
        path = .ok v → v.same (withParameter "N" "P" "U" t) = false := by
  let ident (s : Text) : Tree := .ident .unknownPlace (.text s)
  have hnames : ∀ s ∈ ["N", "P", "U", "A", "p", "Q"], IsName s := by
    simp only [List.forall_mem_cons]
    exact ⟨rfl, rfl, rfl, rfl, rfl, rfl, List.forall_mem_nil _⟩
  have hident : ∀ s ∈ ["N", "P", "U", "A", "p", "Q"], TypeTree .name (ident s) :=
    fun s hs => .name (hnames s hs)
  have htype : ∀ s ∈ ["N", "P", "U", "A", "p", "Q"], TypeTree .type (ident s) :=
    fun s hs => .operand (.plain (.unqualified (hident s hs)))
  have hpointer : TypeTree .term (.star .unknownPlace (ident "A")) :=
    .exact (.star (htype "A" (by simp)))
  have hinstance : TypeTree .term (.paren .unknownPlace (.index .unknownPlace
      (.selector .unknownPlace (ident "p") (ident "Q"))
      (.tuple [.mapType .unknownPlace (ident "A") (ident "P")]))) :=
    .exact (.paren (.operand (.instantiated (.qualified (hident "p" (by simp)) (hident "Q" (by simp)))
      (.mapType (htype "A" (by simp)) (htype "P" (by simp))) (by simp))))
  have hchannel : TypeTree .term (.star .unknownPlace (.chanType .unknownPlace
      (.direction .receive) (ident "A"))) :=
    .exact (.star (.chanType nofun (htype "A" (by simp)) nofun))
  have hunion := TypeTree.union (p := .unknownPlace)
    (.union (p := .unknownPlace) (.term hpointer) hinstance) hchannel
  obtain ⟨text, htext, hrender, hreads, hother⟩ := parse_render_parameter hunion
    (hnames "N" (by simp)) (hnames "P" (by simp)) (hnames "U" (by simp))
  obtain rfl : "*A|(p.Q[map[A]P])|*<-chan A" = text := Except.ok.inj htext
  exact ⟨_, _, hunion, rfl, rfl, htext, hrender, hreads, hother rfl⟩

end Tree

end GoCompact
