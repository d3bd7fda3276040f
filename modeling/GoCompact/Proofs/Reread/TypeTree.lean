import GoCompact.Proofs.Grammar.Sound.TypeLiteral
import GoCompact.Proofs.Reread.Declaration

namespace GoCompact

-- What the parts of a type are.
inductive TypePart
  | name
  | typeName
  | operand
  | type
  | length
  | parameterType
  | unnamed
  | named
  | parameters
  | results
  | tag
  | field
  | element
  | term
  | union

open GoCompact.Tree GoCompact.Text in
inductive TypeTree : TypePart → Tree → Prop
  | name {p : Tree} {s : Text} (h : IsName s) : TypeTree .name (.ident p (.text s))
  | unqualified {t : Tree} (h : TypeTree .name t) : TypeTree .typeName t
  | qualified {p package sel : Tree} (hpackage : TypeTree .name package)
      (hsel : TypeTree .name sel) : TypeTree .typeName (.selector p package sel)
  | plain {t : Tree} (h : TypeTree .typeName t) : TypeTree .operand t
  | instantiated {p x first : Tree} {others : List Tree} (hx : TypeTree .typeName x)
      (hfirst : TypeTree .type first) (hothers : ∀ t ∈ others, TypeTree .type t) :
      TypeTree .operand (.index p x (.tuple (first :: others)))
  | operand {t : Tree} (h : TypeTree .operand t) : TypeTree .type t
  | star {p x : Tree} (hx : TypeTree .type x) : TypeTree .type (.star p x)
  | paren {p x : Tree} (hx : TypeTree .type x) : TypeTree .type (.paren p x)
  | openLength {p : Tree} : TypeTree .length (.ellipsis p .absent)
  | nameLength {t : Tree} (h : TypeTree .name t) : TypeTree .length t
  | numberLength {p : Tree} {s : Text} (h : IsLiteral .Integer s) :
      TypeTree .length (.basicLit p (.token (.literal .Integer)) (.text s))
  | arrayType {p elt : Tree} {len : Option Tree} (hlen : ∀ t ∈ len, TypeTree .length t)
      (helt : TypeTree .type elt) : TypeTree .type (.arrayType p (.ofOption len) elt)
  | mapType {p key value : Tree} (hkey : TypeTree .type key) (hvalue : TypeTree .type value) :
      TypeTree .type (.mapType p key value)
  | chanType {p value : Tree} {d : Direction} (hd : d ≠ .neither) (hvalue : TypeTree .type value)
      (hboth : d = .both → value.isReceiver = false) :
      TypeTree .type (.chanType p (.direction d) value)
  | funcType {p params : Tree} {results : Option Tree} (hparams : TypeTree .parameters params)
      (hresults : ∀ t ∈ results, TypeTree .results t) :
      TypeTree .type (.funcType p params (.ofOption results) .absent (.flag true))
  | structType {p q : Tree} {fields : List Tree} (hfields : ∀ t ∈ fields, TypeTree .field t) :
      TypeTree .type (.structType p (.fieldList q (.tuple fields)))
  | interfaceType {p q : Tree} {elements : List Tree}
      (helements : ∀ t ∈ elements, TypeTree .element t) :
      TypeTree .type (.interfaceType p (.fieldList q (.tuple elements)))
  | single {t : Tree} (h : TypeTree .type t) : TypeTree .parameterType t
  | variadic {p t : Tree} (h : TypeTree .type t) : TypeTree .parameterType (.ellipsis p t)
  | unnamed {p t : Tree} (h : TypeTree .parameterType t) :
      TypeTree .unnamed (.field p (.tuple []) t .absent)
  | named {p t : Tree} {names : List Tree} (hne : names ≠ []) (hnames : ∀ n ∈ names, TypeTree .name n)
      (h : TypeTree .parameterType t) : TypeTree .named (.field p (.tuple names) t .absent)
  | unnamedList {p : Tree} {fields : List Tree} (hfields : ∀ t ∈ fields, TypeTree .unnamed t) :
      TypeTree .parameters (.fieldList p (.tuple fields))
  | namedList {p : Tree} {fields : List Tree} (hfields : ∀ t ∈ fields, TypeTree .named t) :
      TypeTree .parameters (.fieldList p (.tuple fields))
  | loneResult {p q t : Tree} (h : TypeTree .type t) (hparen : t.is .ParenExpr = false) :
      TypeTree .results (.fieldList p (.tuple [.field q (.tuple []) t .absent]))
  | results {p : Tree} {fields : List Tree}
      (h : TypeTree .parameters (.fieldList p (.tuple fields)))
      (hlone : ∀ q t tag, fields ≠ [.field q (.tuple []) t tag]) :
      TypeTree .results (.fieldList p (.tuple fields))
  | tag {p : Tree} {s : Text} (h : IsLiteral .Text s) :
      TypeTree .tag (.basicLit p (.token (.literal .Text)) (.text s))
  | embedded {p t : Tree} {tag : Option Tree} (h : TypeTree .operand t)
      (htag : ∀ t ∈ tag, TypeTree .tag t) :
      TypeTree .field (.field p (.tuple []) t (.ofOption tag))
  | embeddedPointer {p q t : Tree} {tag : Option Tree} (h : TypeTree .operand t)
      (htag : ∀ t ∈ tag, TypeTree .tag t) :
      TypeTree .field (.field p (.tuple []) (.star q t) (.ofOption tag))
  | field {p t : Tree} {names : List Tree} {tag : Option Tree} (hne : names ≠ [])
      (hnames : ∀ n ∈ names, TypeTree .name n) (h : TypeTree .type t)
      (htag : ∀ t ∈ tag, TypeTree .tag t) :
      TypeTree .field (.field p (.tuple names) t (.ofOption tag))
  | method {p q name params : Tree} {results : Option Tree} (hname : TypeTree .name name)
      (hparams : TypeTree .parameters params) (hresults : ∀ t ∈ results, TypeTree .results t) :
      TypeTree .element (.field p (.tuple [name])
        (.funcType q params (.ofOption results) .absent (.flag false)) .absent)
  | constraint {p t : Tree} (h : TypeTree .union t) :
      TypeTree .element (.field p (.tuple []) t .absent)
  | exact {t : Tree} (h : TypeTree .type t) : TypeTree .term t
  | tilde {p t : Tree} (h : TypeTree .type t) :
      TypeTree .term (.unary p (.token (.op .Tilde)) t)
  | term {t : Tree} (h : TypeTree .term t) : TypeTree .union t
  | union {p x y : Tree} (hx : TypeTree .union x) (hy : TypeTree .term y) :
      TypeTree .union (.binary p x (.token (.op .Or)) y)

namespace TypeTree

open GoCompact.Tree GoCompact.Text GoCompact.Parser GoCompact.Grammar
open Emission (Spells)

variable {part : TypePart} {t : Tree}

-- How a part of a type is built.
def IsBuilt : TypePart → Tree → Prop
  | .name, t => Built .name t
  | .typeName, t => (∀ b, Built (.expression b) t) ∧ t.isTypeName = true
  | .operand, t =>
    (∀ b, Built (.expression b) t) ∧ t.isType = true ∧
      (t.isTypeName = true ∨ t.is .IndexExpr = true)
  | .type, t => (∀ b, Built (.expression b) t) ∧ t.isType = true
  | .length, t => Built .length t
  | .parameterType, t => Built .fieldType t ∧ (t.is .Ellipsis = true ∨ t.isType = true)
  | .unnamed, t => ∀ c, Built (.unnamed c) t
  | .named, t => ∀ c, Built (.named c) t
  | .parameters, t => ∀ c, Built (.parameters c) t
  | .results, t => Built (.parameters false) t
  | .tag, t => Built .text t
  | .field, t => Built .structField t
  | .element, t => Built .interfaceElement t
  | .term, t => Built (.expression true) t ∧ t.isTerm = true ∧ t.is .BinaryExpr = false
  | .union, t => UnionBuilt t

theorem expression_of_name (h : Built .name t) (b : Bool) :
    Built (.expression b) t ∧ t.isTypeName = true := by
  cases h with
  | name h => exact ⟨.ident h, rfl⟩

theorem built (h : TypeTree part t) : IsBuilt part t := by
  induction h with
  | name h => exact .name h.whole
  | unqualified _ ih =>
      exact ⟨fun b => (expression_of_name ih b).1, (expression_of_name ih true).2⟩
  | qualified _ _ ihpackage ihsel =>
      cases ihpackage with
      | name hx =>
          cases ihsel with
          | name hy => exact ⟨fun b => .selector (.ident hx) rfl (.name hy), rfl⟩
  | plain _ ih => exact ⟨ih.1, isType_of_isTypeName ih.2, .inl ih.2⟩
  | instantiated _ _ _ ihx ihfirst ihothers =>
      have htypes := fun t ht => (ihothers t ht).2
      refine ⟨fun b => .index (ihx.1 b) (isPrimary_of_isTypeName ihx.2) (ihfirst.1 true)
        (fun t ht => (ihothers t ht).1 true) htypes, ?_, .inr rfl⟩
      simp [isType, areTypes, ihx.2, ihfirst.2, areTypes_iff.mpr htypes]
  | operand _ ih => exact ⟨ih.1, ih.2.1⟩
  | star _ ih => exact ⟨fun b => .star (ih.1 b) (is_binary_of_isType ih.2), ih.2⟩
  | paren _ ih => exact ⟨fun b => .paren (ih.1 true), ih.2⟩
  | openLength => exact .openLength
  | nameLength _ ih => exact .length (expression_of_name ih true).1
  | numberLength h => exact .length (.literal h.whole)
  | arrayType _ _ ihlen ihelt =>
      exact ⟨fun b => .arrayType (fun t ht => ihlen t ht) (ihelt.1 true) ihelt.2, rfl⟩
  | mapType _ _ ihkey ihvalue =>
      exact ⟨fun b => .mapType (ihkey.1 true) ihkey.2 (ihvalue.1 true) ihvalue.2, rfl⟩
  | chanType hd _ hboth ih => exact ⟨fun b => .chanType hd (ih.1 true) ih.2 hboth, rfl⟩
  | funcType _ _ ihparams ihresults =>
      exact ⟨fun b => .funcType (ihparams false) fun t ht => ihresults t ht, rfl⟩
  | structType _ ih => exact ⟨fun b => .structType fun t ht => ih t ht, rfl⟩
  | interfaceType _ ih => exact ⟨fun b => .interfaceType fun t ht => ih t ht, rfl⟩
  | single _ ih => exact ⟨.fieldType (ih.1 true), .inr ih.2⟩
  | variadic _ ih => exact ⟨.variadic (ih.1 true) ih.2, .inl rfl⟩
  | unnamed _ ih =>
      intro c
      refine .unnamedField ih.1 ?_
      rcases ih.2 with h | h <;> simp [fitsUnnamed, h]
  | named hne _ _ ihnames ih =>
      intro c
      refine .namedField hne (fun n hn => ihnames n hn) ih.1 ?_
      rcases ih.2 with h | h <;> simp [fitsNamed, h]
  | unnamedList _ ih => exact fun c => .unnamedList fun t ht => ih t ht c
  | namedList _ ih => exact fun c => .namedList fun t ht => ih t ht c
  | loneResult _ _ ih =>
      refine .unnamedList fun t ht => ?_
      obtain rfl := List.mem_singleton.mp ht
      exact .unnamedField (.fieldType (ih.1 true)) (by simp [fitsUnnamed, ih.2])
  | results _ _ ih => exact ih false
  | tag h => exact .text h.whole
  | embedded _ _ ih ihtag =>
      exact .embeddedField (.fieldType (ih.1 true)) (isEmbedded_of ih.2.1 ih.2.2)
        fun t ht => ihtag t ht
  | embeddedPointer _ _ ih ihtag =>
      refine .embeddedField (.fieldType (.star (ih.1 true) (is_binary_of_isType ih.2.1))) ?_
        fun t ht => ihtag t ht
      rcases ih.2.2 with h | h <;> simp [isEmbedded, ih.2.1, h]
  | field hne _ _ _ ihnames ih ihtag =>
      exact .structField hne (fun n hn => ihnames n hn) (ih.1 true) ih.2 fun t ht => ihtag t ht
  | method _ _ _ ihname ihparams ihresults =>
      exact .method ihname (ihparams false) fun t ht => ihresults t ht
  | constraint _ ih => exact .embeddedUnion ih.built ih.isUnion
  | exact _ ih => exact ⟨ih.1 true, isTerm_of_isType ih.2, is_binary_of_isType ih.2⟩
  | tilde _ ih =>
      exact ⟨.unary rfl (ih.1 true) (is_binary_of_isType ih.2) fun h => absurd h (by decide), ih.2, rfl⟩
  | term _ ih =>
      obtain ⟨hbuilt, hterm, hbinary⟩ := ih
      refine ⟨hbuilt, isUnion_of_isTerm hterm hbinary, ?_⟩
      rw [precedence_of_is_binary hbinary]
      decide
  | union _ _ ihx ihy => exact ihx.binary ihy.1 ihy.2.1 ihy.2.2

-- How a part of a type is read. A channel to receive from is read as an expression if what follows its
-- arrow is read as a type.
def IsRead : TypePart → Tree → Prop
  | .name, t => Built .name t
  | .typeName, t => ∀ b, t.Reads b
  | .operand, t => (∀ b, t.Reads b) ∧ t.typeStart = .ident
  | .type, t =>
    (∀ b, t.Reads b) ∧ (t.isReceiver = true → ∃ x, Received x t ∧ x.TypeReads ∧
      (x.emittedAs .expression).Spells x.words)
  | .length, t => t.LengthReads
  | .parameterType, t =>
    (∀ c, t.AfterNameReads c) ∧ ∀ c p, UnnamedField c (.field p (.tuple []) t .absent)
  | .unnamed, t => ∀ c, UnnamedField c t
  | .named, t => ∀ c, NamedField c t
  | .parameters, t =>
    ∃ p fields, t = .fieldList p (.tuple fields) ∧ ∀ c, ∃ entries, Lists c entries fields
  | .results, t => ResultsReads (some t)
  | .tag, t => Built .text t
  | .field, t => t.FieldReads
  | .element, t => t.ElementReads
  | .term, t => t.TermReads
  | .union, t => t.UnionReads

theorem fields_of_parameters {p : Tree} {fields : List Tree}
    (h : TypeTree .parameters (.fieldList p (.tuple fields))) :
    ∀ t ∈ fields, ∃ q names typ tag, t = .field q (.tuple names) typ tag := by
  intro t ht
  cases h with
  | unnamedList hfields =>
      cases hfields t ht with
      | unnamed h => exact ⟨_, _, _, _, rfl⟩
  | namedList hfields =>
      cases hfields t ht with
      | named hne hnames h => exact ⟨_, _, _, _, rfl⟩

theorem typeReads_of_reads (h : TypeTree .type t) (hread : ∀ b, t.Reads b) : t.TypeReads :=
  (hread true).type h.built.2

theorem parametersReads (h : IsRead .parameters t) : t.ParametersReads := by
  obtain ⟨p, fields, rfl, hlists⟩ := h
  obtain ⟨entries, hentries⟩ := hlists false
  exact reads_parameters hentries

theorem resultsReads {o : Option Tree} (h : ∀ t ∈ o, ResultsReads (some t)) : ResultsReads o := by
  cases o with
  | none => exact .nothing
  | some t => exact h t rfl

theorem name_of_is_ident (h : TypeTree .type t) (hident : t.is .Ident = true) :
    TypeTree .name t := by
  cases h with
  | operand h =>
      cases h with
      | plain h =>
          cases h with
          | unqualified h => exact h
          | qualified => cases hident
      | instantiated => cases hident
  | _ => cases hident

theorem unnamedField (h : TypeTree .type t) (hreads : ∀ b, t.Reads b) (c : Bool) (p : Tree) :
    UnnamedField c (.field p (.tuple []) t .absent) := by
  by_cases hident : t.is .Ident = true
  · cases h.name_of_is_ident hident with
    | name hx => exact .name hx.whole
  · have hident' : t.is .Ident = false := by simpa using hident
    exact .type (Grammar.Entry.reads_type (typeReads_of_reads h hreads) (hreads true).spells hident')
      hident'

theorem reads (h : TypeTree part t) : IsRead part t := by
  induction h with
  | name h => exact .name h.whole
  | unqualified _ ih =>
      cases ih with
      | name h => exact fun b => reads_ident h _
  | qualified hpackage _ ihpackage ihsel =>
      cases ihpackage with
      | name hx => exact fun b => reads_selector (.ident hx) (reads_ident hx _) rfl rfl ihsel
  | plain h ih => exact ⟨ih, typeStart_of_isTypeName h.built.2⟩
  | instantiated hx _ hothers ihx ihfirst ihothers =>
      refine ⟨fun b => ?_, rfl⟩
      exact reads_index (hx.built.1 b) (ihx b) (isPrimary_of_isTypeName hx.built.2)
        (edge_of_isTypeName hx.built.2 _) (ihfirst.1 true) (fun t ht => (ihothers t ht).1 true)
        fun t ht => (hothers t ht).built.2
  | operand h ih =>
      refine ⟨ih.1, fun hreceiver => ?_⟩
      have hstart := ih.2
      rw [typeStart_of_isReceiver hreceiver] at hstart
      cases hstart
  | star hx ih => exact ⟨fun b => reads_star (ih.1 b) (is_binary_of_isType hx.built.2), nofun⟩
  | paren _ ih => exact ⟨fun b => reads_paren (ih.1 true), nofun⟩
  | openLength => exact .dots
  | nameLength _ ih =>
      cases ih with
      | name h => exact .expression (reads_ident h _)
  | numberLength h => exact .expression (reads_literal h.whole _)
  | arrayType _ helt ihlen ihelt =>
      exact ⟨fun b => reads_arrayType (fun t ht => ihlen t ht) (typeReads_of_reads helt ihelt.1)
        (ihelt.1 true).spells, nofun⟩
  | mapType hkey hvalue ihkey ihvalue =>
      exact ⟨fun b => reads_mapType (typeReads_of_reads hkey ihkey.1)
        (typeReads_of_reads hvalue ihvalue.1) (ihkey.1 true).spells (ihvalue.1 true).spells, nofun⟩
  | @chanType p value d hd hvalue hboth ih =>
      have hspells := (ih.1 true).spells
      have htype := typeReads_of_reads hvalue ih.1
      by_cases hreceive : d = .receive
      · subst hreceive
        obtain ⟨x, hx, hxreads, hxspells⟩ := received_chanType (p := p) htype hspells ih.2
        have hread := typeReads_chanType (p := p) hd htype hspells hboth
        have hchan := spells_chanType (p := p) hd hspells
        exact ⟨fun b => reads_receiver hx hxreads hread (words_of_spells hchan ▸ hchan),
          fun _ => ⟨x, hx, hxreads, hxspells⟩⟩
      · refine ⟨fun b => reads_chanType hd hreceive htype hspells hboth, fun h => ?_⟩
        cases d <;> first | exact absurd rfl hreceive | cases h
  | funcType _ _ ihparams ihresults =>
      exact ⟨fun b => reads_funcType (parametersReads ihparams)
        (resultsReads fun t ht => ihresults t ht), nofun⟩
  | structType _ ih => exact ⟨fun b => reads_structType fun t ht => ih t ht, nofun⟩
  | interfaceType _ ih => exact ⟨fun b => reads_interfaceType fun t ht => ih t ht, nofun⟩
  | single h ih =>
      exact ⟨fun c => .of_type (typeReads_of_reads h ih.1) (ih.1 true).spells,
        unnamedField h ih.1⟩
  | variadic h ih =>
      have htype := typeReads_of_reads h ih.1
      have hspells := (ih.1 true).spells
      have habsent := (ih.1 true).isAbsent
      exact ⟨fun c => .variadic htype hspells habsent,
        fun c p => .type (Grammar.Entry.reads_variadic htype hspells habsent) rfl⟩
  | unnamed _ ih => exact fun c => ih.2 c _
  | named hne _ _ ihnames ih => exact fun c => .mk hne (fun n hn => ihnames n hn) (ih.1 c)
  | unnamedList _ ih => exact ⟨_, _, rfl, fun c => ⟨_, lists_unnamed fun t ht => ih t ht c⟩⟩
  | namedList _ ih => exact ⟨_, _, rfl, fun c => ⟨_, lists_named fun t ht => ih t ht c⟩⟩
  | loneResult h hparen ih =>
      exact .lone (typeReads_of_reads h ih.1) (ih.1 true).spells
        (typeStart_ne_paren h.built.2 hparen)
  | results h hlone ih =>
      exact .list (parametersReads ih) hlone (fields_of_parameters h)
  | tag h => exact .text h.whole
  | embedded h _ ih ihtag =>
      exact reads_field (.name ((ih.1 true).type h.built.2.1) (ih.1 true).spells ih.2)
        fun t ht => ihtag t ht
  | embeddedPointer h _ ih ihtag =>
      exact reads_field (.pointer ((ih.1 true).type h.built.2.1) (ih.1 true).spells ih.2)
        fun t ht => ihtag t ht
  | field hne _ h _ ihnames ih ihtag =>
      exact reads_field (.named hne (fun n hn => ihnames n hn) (typeReads_of_reads h ih.1)
        (ih.1 true).spells) fun t ht => ihtag t ht
  | method _ _ _ ihname ihparams ihresults =>
      cases ihname with
      | name h =>
          exact reads_method h (parametersReads ihparams) (resultsReads fun t ht => ihresults t ht)
  | constraint _ ih => exact reads_embedded ih
  | exact h ih => exact .type (typeReads_of_reads h ih.1) (ih.1 true).spells
  | tilde h ih => exact .tilde (typeReads_of_reads h ih.1) (ih.1 true).spells
  | term _ ih => exact ih.union
  | union _ _ ihx ihy => exact ihx.binary ihy

-- The lexemes of a part of a type do not end in a number, if it is not a length.
def IsSealed : TypePart → Tree → Prop
  | .length, t => Unclashing t.words
  | .unnamed, t | .named, t => (t.emittedAs .field).Spells t.fieldWords ∧ Sealed t.fieldWords
  | .field, t => Sealed t.fieldWords
  | .parameters, t => Sealed t.listWords
  | .results, t => Sealed (t.emittedAs .results).words
  | .element, t => Sealed t.elementWords
  | _, t => Sealed t.words

theorem sealed_of_spells {ls : List Lexeme} (h : (t.emittedAs .expression).Spells ls)
    (hls : Sealed ls) : Sealed t.words :=
  words_of_spells h ▸ hls

theorem sealed_bound {o : Option Tree} (h : ∀ t ∈ o, Sealed t.words) : Sealed (boundWords o) := by
  cases o with
  | none => exact .nil
  | some t => exact h t rfl

theorem sealed_map {ts : List Tree} {f : Tree → List Lexeme} (h : ∀ t ∈ ts, Sealed (f t)) :
    ∀ w ∈ ts.map f, Sealed w := by
  intro w hw
  obtain ⟨t, ht, rfl⟩ := List.mem_map.mp hw
  exact h t ht

theorem sealed_field {p : Tree} {names : List Tree} {tag : Option Tree}
    (hnames : ∀ n ∈ names, Built .name n) (ht : (t.emittedAs .expression).Spells t.words)
    (htag : ∀ t ∈ tag, Built .text t) (hnamesSealed : ∀ n ∈ names, Sealed n.words)
    (hsealed : Sealed t.words) (htagSealed : ∀ t ∈ tag, Sealed t.words) :
    ((Tree.field p (.tuple names) t (.ofOption tag)).emittedAs .field).Spells
        (Tree.field p (.tuple names) t (.ofOption tag)).fieldWords ∧
      Sealed (Tree.field p (.tuple names) t (.ofOption tag)).fieldWords := by
  have hnames' : (Emission.when (!names.isEmpty) (emittedNames names ++ .blank)).Spells
      (listed (names.map words)) := by
    cases names with
    | nil => exact .nothing
    | cons n ns => exact ((FieldParts.spells_names hnames).append (.blank true)).of_eq (by simp)
  have hspells : ((Tree.field p (.tuple names) t (.ofOption tag)).emittedAs .field).Spells _ :=
    (hnames'.append ht).append (spells_tag htag)
  have hwords : (Tree.field p (.tuple names) t (.ofOption tag)).fieldWords = _ := hspells.words
  rw [hwords]
  exact ⟨hspells, ((Sealed.listed (sealed_map hnamesSealed)).append hsealed).append
    (sealed_bound htagSealed)⟩

theorem sealed_fieldOf {p : Tree} {names : List Tree} (hnames : ∀ n ∈ names, Built .name n)
    (ht : (t.emittedAs .expression).Spells t.words) (hnamesSealed : ∀ n ∈ names, Sealed n.words)
    (hsealed : Sealed t.words) :
    ((Tree.field p (.tuple names) t .absent).emittedAs .field).Spells
        (Tree.field p (.tuple names) t .absent).fieldWords ∧
      Sealed (Tree.field p (.tuple names) t .absent).fieldWords :=
  @sealed_field t p names none hnames ht nofun hnamesSealed hsealed nofun

theorem sealed_list {p : Tree} {fields : List Tree}
    (h : ∀ t ∈ fields, (t.emittedAs .field).Spells t.fieldWords ∧ Sealed t.fieldWords) :
    Sealed (Tree.fieldList p (.tuple fields)).listWords := by
  have hspells : (emittedFields "," fields).Spells (listed (fields.map fieldWords)) :=
    spells_listed fun t ht => (h t ht).1
  rw [listWords, emitted_fieldList, hspells.words]
  exact .listed (sealed_map fun t ht => (h t ht).2)

theorem sealed_signature {params : Tree} {results : Option Tree} (hparams : Sealed params.listWords)
    (hresults : ∀ t ∈ results, Sealed (t.emittedAs .results).words) :
    Sealed (signatureWords params results) := by
  refine .operator _ (hparams.append (.operator _ ?_))
  cases results with
  | none => exact .nil
  | some t => exact hresults t rfl

theorem spells (h : TypeTree .type t) : (t.emittedAs .expression).Spells t.words :=
  (h.reads.1 true).spells

theorem isSealed (h : TypeTree part t) : IsSealed part t := by
  induction h with
  | name h => exact sealed_of_spells (spells_ident h.whole _) Sealed.nil.name
  | unqualified _ ih => exact ih
  | qualified hpackage hsel ihpackage =>
      cases hsel with
      | name h =>
          exact sealed_of_spells (spells_selector (hpackage.unqualified.reads true).spells h.whole)
            (Sealed.append ihpackage (Sealed.nil.name.operator _))
  | plain _ ih => exact ih
  | @instantiated _ _ first others hx hfirst hothers ihx ihfirst ihothers =>
      have hargs : ∀ t ∈ first :: others, (t.emittedAs .expression).Spells t.words :=
        List.forall_mem_cons.mpr ⟨hfirst.spells, fun t ht => (hothers t ht).spells⟩
      have hsealed : ∀ t ∈ first :: others, Sealed t.words :=
        List.forall_mem_cons.mpr ⟨ihfirst, fun t ht => ihothers t ht⟩
      exact sealed_of_spells (spells_index (hx.reads true).spells hargs) (Sealed.append ihx
        (.operator _ ((Sealed.listed (sealed_map hsealed)).append (Sealed.nil.operator _))))
  | operand _ ih => exact ih
  | star hx ih => exact sealed_of_spells (spells_star hx.spells) (.operator _ ih)
  | paren hx ih =>
      exact sealed_of_spells (spells_paren hx.spells)
        (.operator _ (Sealed.append ih (Sealed.nil.operator _)))
  | openLength => exact (sealed_of_spells LengthReads.spells_dots (Sealed.nil.operator _)).unclashing
  | nameLength _ ih => exact ih.unclashing
  | numberLength h =>
      rw [IsSealed, words_of_spells (spells_literal h.whole _)]
      exact .literal nofun
  | @arrayType _ _ len hlen helt ihlen ihelt =>
      have hlength : Unclashing (boundWords len) := by
        cases len with
        | none => exact .nil
        | some t => exact ihlen t rfl
      exact sealed_of_spells (spells_arrayType (fun t ht => (hlen t ht).reads) helt.spells)
        (.operator _ (.after hlength (by decide) ihelt))
  | mapType hkey hvalue ihkey ihvalue =>
      exact sealed_of_spells (spells_mapType hkey.spells hvalue.spells)
        (.keyword _ (.operator _ (Sealed.append ihkey (.operator _ ihvalue))))
  | @chanType _ _ d hd hvalue _ ih =>
      have hmark : Sealed (Emission.directionWords d) := by
        cases d with
        | neither => exact .nil
        | both => exact Sealed.nil.keyword _
        | send => exact (Sealed.nil.operator _).keyword _
        | receive => exact (Sealed.nil.keyword _).operator _
      exact sealed_of_spells (spells_chanType hd hvalue.spells) (hmark.append ih)
  | funcType hparams hresults ihparams ihresults =>
      exact sealed_of_spells (spells_funcType (parametersReads hparams.reads)
        (resultsReads fun t ht => (hresults t ht).reads))
        (.keyword _ (sealed_signature ihparams fun t ht => ihresults t ht))
  | structType hfields ih =>
      exact sealed_of_spells (spells_structType fun t ht => (hfields t ht).reads)
        (.keyword _ (.operator _ ((Sealed.sequenced (sealed_map fun t ht => ih t ht)).append
          (Sealed.nil.operator _))))
  | interfaceType helements ih =>
      exact sealed_of_spells (spells_interfaceType fun t ht => (helements t ht).reads)
        (.keyword _ (.operator _ ((Sealed.sequenced (sealed_map fun t ht => ih t ht)).append
          (Sealed.nil.operator _))))
  | single _ ih => exact ih
  | variadic h ih =>
      exact sealed_of_spells (spells_variadic h.spells (h.reads.1 true).isAbsent) (.operator _ ih)
  | unnamed h ih =>
      exact sealed_fieldOf nofun (h.reads.1 true).spells nofun ih
  | named _ hnames h ihnames ih =>
      exact sealed_fieldOf (fun n hn => (hnames n hn).built) (h.reads.1 true).spells
        (fun n hn => ihnames n hn) ih
  | unnamedList _ ih => exact sealed_list fun t ht => ih t ht
  | namedList _ ih => exact sealed_list fun t ht => ih t ht
  | loneResult _ _ ih => exact ih
  | results h hlone ih =>
      have hspells := ResultsReads.spells_list (parametersReads h.reads) hlone
        (fields_of_parameters h)
      rw [IsSealed, hspells.words]
      exact .operator _ (Sealed.append ih (Sealed.nil.operator _))
  | tag h => exact sealed_of_spells (spells_literal h.whole _) .text
  | embedded h htag ih ihtag =>
      exact And.right (sealed_field nofun h.operand.spells (fun t ht => (htag t ht).built) nofun ih
        fun t ht => ihtag t ht)
  | @embeddedPointer _ q t _ h htag ih ihtag =>
      exact And.right (sealed_field nofun h.operand.star.spells (fun t ht => (htag t ht).built) nofun
        (sealed_of_spells (spells_star h.operand.spells) (.operator _ ih)) fun t ht => ihtag t ht)
  | field _ hnames h htag ihnames ih ihtag =>
      exact (sealed_field (fun n hn => (hnames n hn).built) h.spells
        (fun t ht => (htag t ht).built) (fun n hn => ihnames n hn) ih fun t ht => ihtag t ht).2
  | method hname hparams hresults ihname ihparams ihresults =>
      cases hname with
      | name h =>
          rw [IsSealed, elementWords, (spells_method h.whole (parametersReads hparams.reads)
            (resultsReads fun t ht => (hresults t ht).reads)).words]
          exact .name (sealed_signature ihparams fun t ht => ihresults t ht)
  | constraint _ ih => exact ih
  | exact _ ih => exact ih
  | tilde h ih => exact sealed_of_spells (spells_unary h.spells) (.operator _ ih)
  | term _ ih => exact ih
  | union hx hy ihx ihy =>
      exact sealed_of_spells (spells_binary hx.reads.spells hy.reads.spells)
        (Sealed.append ihx (.operator _ ihy))

end TypeTree

namespace Tree

open Text GoCompact.Grammar
open Emission (Spells)

variable {t : Tree} {x : Text}

-- The declaration of a variable of a type.
def variableOf (x : Text) (typ : Tree) : Tree :=
  .genDecl .unknownPlace (.token (.word .Var)) (.tuple [.valueSpec .unknownPlace
    (.tuple [.ident .unknownPlace (.text x)]) typ (.tuple [])]) (.flag false)

theorem emitted_variableOf (h : TypeTree .type t) : (variableOf x t).emittedAs .declaration =
    .keyword .Var ++ (.blank ++ (.write x ++ (.blank ++ t.emittedAs .expression))) := by
  have habsent := (h.reads.1 true).isAbsent
  rw [variableOf, emitted_genDecl, emitted_valueSpec, emittedIf_of habsent, emittedValues,
    Emission.append_nothing]
  rfl

theorem text_variableOf (h : TypeTree .type t) : ((variableOf x t).emittedAs .declaration).text =
    "var " ++ x ++ " " ++ (t.emittedAs .expression).text := by
  have hwrites : ((variableOf x t).emittedAs .declaration).writes =
      Text.ofString "var" :: " " :: x :: " " :: (t.emittedAs .expression).writes := by
    rw [emitted_variableOf h]
    rfl
  simp only [Emission.text, hwrites, Text.join_cons, ← Text.append_assoc]
  rfl

section

variable (h : TypeTree .type t) (hx : IsName x)
include h hx

theorem built_variableOf : Built .declaration (variableOf x t) := by
  have hspec : Built (.spec .Var) (.valueSpec .unknownPlace
      (.tuple [.ident .unknownPlace (.text x)]) (.ofOption (some t)) (.tuple [])) :=
    .valueSpec (.inr rfl) (by simp) (by simpa using .name hx.whole)
      (by simpa using h.built.1 true) (by simpa using h.built.2) (by simp) nofun
  exact .genDecl (by simp) (by simpa using hspec) fun _ => rfl

theorem reads_variableOf : (variableOf x t).DeclarationReads := by
  have hspec : (Tree.valueSpec .unknownPlace (.tuple [.ident .unknownPlace (.text x)])
      (.ofOption (some t)) (.tuple [])).SpecReads .Var :=
    reads_valueSpec (.inr rfl) (by simp) (by simpa using .name hx.whole)
      (by simpa using TypeTree.typeReads_of_reads h h.reads.1) (by simpa using h.spells) (by simp)
      nofun
  exact reads_genDecl (by simp) hspec

theorem sealed_variableOf : Sealed (variableOf x t).declarationWords := by
  have hspells : ((variableOf x t).emittedAs .declaration).Spells
      (.ofKeyword .Var :: ⟨.ident, x⟩ :: t.words) := by
    rw [emitted_variableOf h]
    exact (Spells.keyword .Var).append ((Spells.blank true).append
      ((Spells.write hx.whole).append ((Spells.blank true).append h.spells)))
  rw [declarationWords, hspells.words]
  exact .keyword _ (.name h.isSealed)

-- The text of a type after the name of a variable is read as the declaration of the variable.
theorem parse_render_type :
    ∃ text, t.render = .ok text ∧ (variableOf x t).render = .ok ("var " ++ x ++ " " ++ text) ∧
      Fragment.declaration.ReadsBack (variableOf x t) := by
  have hbuilt := built_variableOf h hx
  have hrender : (variableOf x t).render = .ok ((variableOf x t).emittedAs .declaration).text :=
    @Fragment.render_of_built .declaration _ hbuilt
  rw [text_variableOf h] at hrender
  exact ⟨_, @Fragment.render_of_built .expression t (h.built.1 true), hrender,
    Fragment.readsBack_of_rereads hbuilt (sealed_variableOf h hx).unclashing
      (Fragment.rereads_declaration (reads_variableOf h hx))⟩

end

-- A map to channels of functions.
theorem parse_render_type_map :
    ∃ t, TypeTree .type t ∧ t.render = .ok "map[K]<-chan func(a,b []T)p.Q[T]" ∧
      ∃ text, t.render = .ok text ∧
        (variableOf "x" t).render = .ok ("var " ++ "x" ++ " " ++ text) ∧
        Fragment.declaration.ReadsBack (variableOf "x" t) := by
  let ident (s : Text) : Tree := .ident .unknownPlace (.text s)
  have hname : ∀ s ∈ ["x", "K", "T", "a", "b", "p", "Q"], IsName s := by
    simp only [List.forall_mem_cons]
    exact ⟨rfl, rfl, rfl, rfl, rfl, rfl, rfl, List.forall_mem_nil _⟩
  have hident : ∀ s ∈ ["x", "K", "T", "a", "b", "p", "Q"], TypeTree .name (ident s) :=
    fun s hs => .name (hname s hs)
  have htype : ∀ s ∈ ["x", "K", "T", "a", "b", "p", "Q"], TypeTree .type (ident s) :=
    fun s hs => .operand (.plain (.unqualified (hident s hs)))
  let params : Tree := .fieldList .unknownPlace (.tuple [.field .unknownPlace
    (.tuple [ident "a", ident "b"]) (.arrayType .unknownPlace .absent (ident "T")) .absent])
  have hparams : TypeTree .parameters params := by
    refine .namedList (List.forall_mem_singleton.mpr (.named (by simp) ?_ (.single ?_)))
    · simpa using ⟨hident "a" (by simp), hident "b" (by simp)⟩
    · exact @TypeTree.arrayType .unknownPlace (ident "T") none nofun (htype "T" (by simp))
  let result : Tree := .index .unknownPlace
    (.selector .unknownPlace (ident "p") (ident "Q")) (.tuple [ident "T"])
  have hresult : TypeTree .type result :=
    .operand (.instantiated (.qualified (hident "p" (by simp)) (hident "Q" (by simp)))
      (htype "T" (by simp)) (by simp))
  have hfunc : TypeTree .type (.funcType .unknownPlace params (.ofOption (some (.fieldList
      .unknownPlace (.tuple [.field .unknownPlace (.tuple []) result .absent])))) .absent
      (.flag true)) := by
    refine .funcType hparams ?_
    rintro t ⟨⟩
    exact .loneResult hresult rfl
  have hmap : TypeTree .type (.mapType .unknownPlace (ident "K") (.chanType .unknownPlace
      (.direction .receive) _)) := .mapType (htype "K" (by simp)) (.chanType nofun hfunc nofun)
  exact ⟨_, hmap, by rfl, parse_render_type hmap (hname "x" (by simp))⟩

end Tree

end GoCompact
