import GoCompact.Proofs.Grammar.Sound.Parameter

namespace GoCompact.Grammar

open GoCompact.Parser GoCompact.Tree Emission

variable {g : Grammar} {s : Scope} {t : Tree} {c d c' : Cursor}

theorem stringLiteral_sound (hc : c.Valid) (hkind : c.current.kind = .literal .Text)
    (h : stringLiteral.Gives s c t c') :
    ∃ p x, t = .basicLit p (.token (.literal .Text)) (.text x) ∧
      (⟨.literal .Text, x⟩ : Lexeme).Whole ∧ Spans c (write x) 0 True c' := by
  simp only [stringLiteral, gives_advance_bind, gives_pure] at h
  obtain ⟨rfl, rfl⟩ := h
  have hwhole : c.current.toLexeme.Whole := hc.whole (by simp [hkind]) (by simp [hkind])
  refine ⟨_, _, rfl, ?_, Spans.literal hc (by rw [hkind]; rfl) hwhole⟩
  rw [← hkind]
  exact hwhole

-- The names before a type.
theorem names_sound {p : Tree} {x : Text} {others : List Tree}
    (hx : (⟨.ident, x⟩ : Lexeme).Whole) (hname : Spans c (write x) 0 True d)
    (h : (afterCommas none ident).Gives s d others c') :
    (∀ n ∈ .ident p (.text x) :: others, Built .name n) ∧
      Spans c (emittedNames (.ident p (.text x) :: others)) 0 True c' := by
  obtain ⟨hread, hbuilt⟩ := Spans.commas (f := Rule.nameOf) (n := fun _ => 0) (P := fun _ => True)
    (Q := Built .name) (x := Tree.ident p (.text x)) (fun hc h => by
      obtain ⟨q, y, rfl, hy, -, -, hspans⟩ := ident_sound hc h
      exact ⟨hspans, .name hy⟩) hname (afterCommas_of_gives h)
  exact ⟨List.forall_mem_cons.mpr ⟨.name hx, hbuilt⟩, hread.imp (by simp) fun _ => trivial⟩

-- The names and the type of a struct field.
structure FieldRead (names : List Tree) (typ : Tree) (c c' : Cursor) : Prop where
  built : ∀ p (tag : Option Tree), (∀ t ∈ tag, Built .text t) →
    Built .structField (.field p (.tuple names) typ (.ofOption tag))
  areNames : ∀ n ∈ names, Built .name n
  read : Spans c (when (!names.isEmpty) (emittedNames names ++ blank) ++
    typ.emittedAs .expression) typ.loops (typ.plain = true) c'

theorem FieldRead.embedded {P : Prop} (h : Built .fieldType t) (hembedded : t.isEmbedded = true)
    (hread : t.ReadAs .expression c P c') : FieldRead [] t c c' :=
  ⟨fun _ _ htag => .embeddedField h hembedded htag, by simp, hread.plain⟩

theorem FieldRead.named {names : List Tree} (hne : names ≠ []) (hbuilt : ∀ n ∈ names, Built .name n)
    (hnames : Spans c (emittedNames names) 0 True d) (htyp : TypeRead t d c') :
    FieldRead names t c c' := by
  refine ⟨fun _ _ htag => .structField hne hbuilt (htyp.built true) htyp.isType htag, hbuilt, ?_⟩
  have hempty : names.isEmpty = false := by simpa using hne
  rw [hempty]
  exact ((hnames.append (Spans.blank hnames.valid)).append htyp.read).imp (by simp)
    fun h => h.2.1

theorem isEmbedded_of {x : Tree} (htype : x.isType = true)
    (h : x.isTypeName = true ∨ x.is .IndexExpr = true) : x.isEmbedded = true := by
  unfold isEmbedded
  split
  · rcases h with h | h <;> cases h
  · rcases h with h | h <;> simp [h, htype]

theorem isEmbedded_of_isIndexed (h : t.isIndexed = true) : t.isEmbedded = true := by
  unfold isIndexed at h
  split at h
  · simp [isEmbedded, isIndexed]
  · cases h

theorem Sound.namesAndType {r : List Tree × Tree} (hg : g.Sound) (hs : -1 ≤ s.level) (hc : c.Valid)
    (h : g.namesAndType.Gives s c r c') : FieldRead r.1 r.2 c c' := by
  obtain ⟨name, d, hname, h⟩ := gives_bind.mp h
  obtain ⟨p, x, rfl, hx, hname', -, hspans⟩ := ident_sound hc hname
  simp only [gives_peek_bind, gives_ite] at h
  rcases h with ⟨-, h⟩ | ⟨-, h⟩
  · obtain ⟨typ, e, htyp, h⟩ := gives_bind.mp h
    obtain ⟨rfl, rfl⟩ := gives_pure.mp h
    obtain ⟨htyp', hkind⟩ := hg.namedType hs hx hname' hspans htyp
    exact .embedded (.fieldType (htyp'.built true)) (isEmbedded_of htyp'.isType hkind) htyp'.read
  · obtain ⟨others, e, hothers, h⟩ := gives_bind.mp h
    obtain ⟨hbuilt, hnames⟩ := names_sound (p := p) hx hspans hothers
    simp only [gives_peek_bind, gives_ite] at h
    rcases h with ⟨hbracket, h⟩ | ⟨-, h⟩
    · obtain ⟨r, f, hr, h⟩ := gives_bind.mp h
      obtain ⟨rfl, rfl⟩ := gives_pure.mp h
      simp only [Bool.and_eq_true, List.isEmpty_iff] at hbracket
      obtain ⟨rfl, -⟩ := hbracket
      rcases hg.arrayOrInstance hs hx hnames hr with ⟨typ, rfl, htyp⟩ | ⟨typ, rfl, htyp⟩
      · exact .named (by simp) hbuilt hnames htyp
      · exact .embedded htyp.built (isEmbedded_of_isIndexed htyp.isIndexed) htyp.read
    · obtain ⟨typ, f, htyp, h⟩ := gives_bind.mp h
      obtain ⟨rfl, rfl⟩ := gives_pure.mp h
      exact .named (by simp) hbuilt hnames (hg.type hs hnames.valid htyp)

theorem Sound.embeddedPointer {r : List Tree × Tree} (hg : g.Sound) (hs : -1 ≤ s.level)
    (hc : c.Valid) (hkind : c.current.kind = .op .Mul) (h : g.embeddedPointer.Gives s c r c') :
    FieldRead r.1 r.2 c c' := by
  simp only [Grammar.embeddedPointer, gives_advance_bind] at h
  obtain ⟨name, d, hname, h⟩ := gives_bind.mp h
  obtain ⟨typ, e, htyp, h⟩ := gives_bind.mp h
  obtain ⟨rfl, rfl⟩ := gives_pure.mp h
  obtain ⟨p, x, rfl, hx, hname', -, hspans⟩ := ident_sound (hc.advance (by simp [hkind])) hname
  obtain ⟨htyp', hkind'⟩ := hg.namedType hs hx hname' hspans htyp
  refine .embedded (P := True) (.fieldType (.star (htyp'.built true)
    (is_binary_of_isType htyp'.isType))) ?_ ?_
  · simpa [isEmbedded, htyp'.isType] using hkind'
  · rw [ReadAs, emitted_star]
    refine (Spans.after hc hkind htyp'.read).imp ((loops_of rfl).trans (by simp [loopsAll]))
      fun h => ⟨plain_of rfl ?_, trivial⟩
    simp [allPlain, h.1]

theorem tag_sound (hc : c.Valid) (h : tag.Gives s c t c') :
    ∃ o, t = ofOption o ∧ (∀ u ∈ o, Built .text u) ∧ t.loops = 0 ∧ t.plain = true ∧
      Spans c (t.emittedIf (Rule.fieldText "value" t)) 0 True c' := by
  simp only [tag, gives_peek_bind, gives_ite] at h
  rcases h with ⟨hkind, h⟩ | ⟨-, h⟩
  · obtain ⟨p, x, rfl, hx, hspans⟩ := stringLiteral_sound hc hkind h
    exact ⟨some _, rfl, by rintro u ⟨⟩; exact .text hx, rfl, rfl, hspans⟩
  · obtain ⟨rfl, rfl⟩ := gives_pure.mp h
    exact ⟨none, rfl, by simp, rfl, rfl, .nothing hc⟩

-- A field after its names and its type.
theorem FieldRead.tagged {names : List Tree} {p typ : Tree} (hfield : FieldRead names typ c d)
    (h : Gives (do
      let tag ← tag
      expectEnd
      return .field p (.tuple names) typ tag) s d t c') :
    Built .structField t ∧ t.ReadAs .field c True c' := by
  obtain ⟨tag, e, htag, h⟩ := gives_bind.mp h
  simp only [gives_expectEnd_bind, gives_pure] at h
  obtain ⟨f, hend, rfl, rfl⟩ := h
  obtain ⟨o, rfl, htagBuilt, hloops, hplain, hspans⟩ := tag_sound hfield.read.valid htag
  refine ⟨hfield.built _ o htagBuilt, ?_⟩
  rw [ReadAs, emitted_field]
  have hall := (hfield.read.append hspans).append (Spans.ends hspans.valid hend)
  rw [append_nothing] at hall
  refine hall.imp ((loops_of rfl).trans ?_) fun h => ⟨plain_of rfl ?_, trivial⟩
  · simp [loopsAll, hloops, Gathers.loops_names hfield.areNames]
  · simp [allPlain, h.1.1, hplain, Gathers.plain_names hfield.areNames]

theorem Sound.structField (hg : g.Sound) (hs : -1 ≤ s.level) (hc : c.Valid)
    (h : g.structField.Gives s c t c') : Built .structField t ∧ t.ReadAs .field c True c' := by
  simp only [Grammar.structField, gives_current_bind] at h
  split at h
  · obtain ⟨r, d, hr, h⟩ := gives_bind.mp h
    exact (hg.namesAndType hs hc hr).tagged h
  · rename_i hkind
    obtain ⟨r, d, hr, h⟩ := gives_bind.mp h
    exact (hg.embeddedPointer hs hc hkind hr).tagged h
  · obtain ⟨r, d, hr, h⟩ := gives_bind.mp h
    exact absurd hr gives_refuse

theorem Sound.structType (hg : g.Sound) (hs : -1 ≤ s.level) (hc : c.Valid)
    (h : g.structType.Gives s c t c') : TypeRead t c c' := by
  obtain ⟨hstruct, hopen, fields, d, hfields, ⟨hclose, rfl⟩, rfl⟩ := by
    simpa [Grammar.structType] using h
  have hstart := Spans.joined hc hstruct hopen
  obtain ⟨hread, hbuilt, -, -⟩ := Spans.items (I := Cursor.Valid)
    (f := fun t => t.emittedAs .field) (n := Tree.loops) (P := fun t => t.plain = true)
    (Q := Built .structField) (R := fun _ => False) id
    (fun hc _ h => ⟨(hg.structField hs hc h).2.plain, (hg.structField hs hc h).1,
      Spans.valid (hg.structField hs hc h).2, False.elim⟩) hstart.valid
    (items_of_manyWhile hfields)
  refine ⟨fun b => .structType hbuilt, rfl, ?_, hstruct⟩
  rw [ReadAs, emitted_structType]
  refine ((hstart.append hread).append (Spans.operator hread.valid hclose)).imp
    ((loops_of rfl).trans ?_) fun h => ⟨plain_of rfl ?_, rfl⟩
  · simp [loopsAll, loops_of (k := .FieldList) rfl, loops_tuple]
  · simp [allPlain, plain_of (k := .FieldList) rfl, plain_tuple.mpr h.1.2]

-- A type or a union in an interface.
theorem Sound.interfaceUnion {x : Tree} (hg : g.Sound) (hs : -1 ≤ s.level) (hx : TermRead x c d)
    (h : (g.interfaceUnion x).Gives s d t c') :
    Built .interfaceElement t ∧ t.ReadAs .interfaceElement c True c' := by
  obtain ⟨typ, e, htyp, h⟩ := gives_bind.mp h
  obtain ⟨rfl, rfl⟩ := gives_pure.mp h
  obtain ⟨hunion, hread⟩ := hg.union (I := UnionBuilt) hs UnionBuilt.binary (.of_term hx) hx.read htyp
  refine ⟨.embeddedUnion hunion.built hunion.isUnion, ?_⟩
  rw [ReadAs, emitted_embedded]
  refine hread.imp ((loops_of rfl).trans (by simp [loopsAll, loops_tuple]))
    fun h => ⟨plain_of rfl ?_, trivial⟩
  simp [allPlain, h.1, plain_tuple]

theorem Sound.interfaceElement (hg : g.Sound) (hs : -1 ≤ s.level) (hc : c.Valid)
    (h : g.interfaceElement.Gives s c t c') :
    Built .interfaceElement t ∧ t.ReadAs .interfaceElement c True c' := by
  simp only [Grammar.interfaceElement, gives_peek_bind, gives_ite] at h
  rcases h with ⟨-, h⟩ | ⟨-, h⟩
  · obtain ⟨name, d, hname, h⟩ := gives_bind.mp h
    obtain ⟨p, x, rfl, hx, hname', -, hspans⟩ := ident_sound hc hname
    simp only [gives_peek_bind, gives_ite] at h
    rcases h with ⟨-, h⟩ | ⟨-, h⟩
    · obtain ⟨method, e, hmethod, h⟩ := gives_bind.mp h
      obtain ⟨rfl, rfl⟩ := gives_pure.mp h
      obtain ⟨params, results, rfl, hparams, hresults, hread⟩ :=
        hg.signature hs hspans.valid hmethod
      refine ⟨.method (.name hx) hparams hresults, ?_⟩
      rw [ReadAs, emitted_method]
      refine (hspans.append hread).imp ((loops_of rfl).trans (by simp [loopsAll, loops_tuple]))
        fun h => ⟨plain_of rfl ?_, trivial⟩
      simp [allPlain, h.2.1, plain_tuple]
    · obtain ⟨typ, e, htyp, h⟩ := gives_bind.mp h
      exact hg.interfaceUnion hs (.of_type (hg.namedType hs hx hname' hspans htyp).1) h
  · obtain ⟨typ, e, htyp, h⟩ := gives_bind.mp h
    exact hg.interfaceUnion hs (hg.constraintTerm hs hc htyp) h

theorem Sound.interfaceType (hg : g.Sound) (hs : -1 ≤ s.level) (hc : c.Valid)
    (h : g.interfaceType.Gives s c t c') : TypeRead t c c' := by
  obtain ⟨hinterface, hopen, methods, d, hmethods, ⟨hclose, rfl⟩, rfl⟩ := by
    simpa [Grammar.interfaceType] using h
  have hstart := Spans.joined hc hinterface hopen
  obtain ⟨hread, hbuilt, -, -⟩ := Spans.items (I := Cursor.Valid)
    (f := fun t => t.emittedAs .interfaceElement) (n := Tree.loops) (P := fun t => t.plain = true)
    (Q := Built .interfaceElement) (R := fun _ => False) id
    (fun hc _ h => by
      obtain ⟨d, ht, hend⟩ := by simpa using h
      obtain ⟨hbuilt, hread⟩ := hg.interfaceElement hs hc ht
      have hall := hread.append (Spans.ends (Spans.valid hread) hend)
      rw [append_nothing] at hall
      exact ⟨hall.imp rfl fun h => h.1.1, hbuilt, hall.valid, False.elim⟩) hstart.valid
    (items_of_manyWhile hmethods)
  refine ⟨fun b => .interfaceType hbuilt, rfl, ?_, hinterface⟩
  rw [ReadAs, emitted_interfaceType]
  refine ((hstart.append hread).append (Spans.operator hread.valid hclose)).imp
    ((loops_of rfl).trans ?_) fun h => ⟨plain_of rfl ?_, rfl⟩
  · simp [loopsAll, loops_of (k := .FieldList) rfl, loops_tuple]
  · simp [allPlain, plain_of (k := .FieldList) rfl, plain_tuple.mpr h.1.2]

theorem TypeRead.star {p x : Tree} (hc : c.Valid) (hkind : c.current.kind = .op .Mul)
    (hx : TypeRead x c.advance c') : TypeRead (.star p x) c c' := by
  refine ⟨fun b => .star (hx.built b) (is_binary_of_isType hx.isType), hx.isType, ?_, hkind⟩
  rw [ReadAs, emitted_star]
  refine (Spans.after hc hkind hx.read).imp ((loops_of rfl).trans (by simp [loopsAll]))
    fun h => ⟨plain_of rfl ?_, h.2⟩
  simp [allPlain, h.1]

theorem TypeRead.parenthesized {p x : Tree} (hc : c.Valid) (hkind : c.current.kind = .op .LParen)
    (hx : TypeRead x c.advance d) (hclose : d.current.kind = .op .RParen) :
    TypeRead (.paren p x) c d.advance := by
  refine ⟨fun b => .paren (hx.built true), hx.isType, ?_, hkind⟩
  rw [ReadAs, emitted_paren]
  refine (((Spans.operator hc hkind).append hx.read).append (Spans.operator hx.valid hclose)).imp
    ((loops_of rfl).trans (by simp [loopsAll])) fun h => ⟨plain_of rfl ?_, rfl⟩
  simp [allPlain, h.1.2.1]

-- The type that begins with the current token, if one does.
theorem Sound.typeHere {o : Option Tree} (hg : g.Sound) (hs : -1 ≤ s.level) (hc : c.Valid)
    (h : g.typeHere.Gives s c o c') : MaybeTypeRead c o c' := by
  simp only [Grammar.typeHere, gives_peek_bind] at h
  split at h
  · obtain ⟨t, ht, rfl⟩ := gives_map.mp h
    obtain ⟨name, d, hname, ht⟩ := gives_bind.mp ht
    obtain ⟨p, x, rfl, hx, hname', -, hspans⟩ := ident_sound hc hname
    exact .some (hg.namedType hs hx hname' hspans ht).1
  · rename_i hkind
    obtain ⟨t, ht, rfl⟩ := gives_map.mp h
    simp only [gives_advance_bind] at ht
    obtain ⟨o, d, ho, ht⟩ := gives_bind.mp ht
    have hopen := Spans.operator hc hkind
    obtain ⟨hbuilt, hread, -⟩ := hg.arrayLength hs hopen.valid ho
    exact .some (hg.arrayElement hs hkind hopen hbuilt hread ht).1
  · obtain ⟨t, ht, rfl⟩ := gives_map.mp h
    exact .some (hg.structType hs hc ht)
  · rename_i hkind
    obtain ⟨t, ht, rfl⟩ := gives_map.mp h
    simp only [gives_advance_bind] at ht
    obtain ⟨x, d, hx, ht⟩ := gives_bind.mp ht
    obtain ⟨rfl, rfl⟩ := gives_pure.mp ht
    exact .some (.star hc hkind (hg.type hs (hc.advance (by simp [hkind])) hx))
  · rename_i hkind
    obtain ⟨t, ht, rfl⟩ := gives_map.mp h
    simp only [gives_advance_bind] at ht
    exact .some (hg.funcType hs hc hkind ht)
  · obtain ⟨t, ht, rfl⟩ := gives_map.mp h
    exact .some (hg.interfaceType hs hc ht)
  · obtain ⟨t, ht, rfl⟩ := gives_map.mp h
    exact .some (hg.mapType hs hc ht)
  · obtain ⟨t, ht, rfl⟩ := gives_map.mp h
    exact .some (hg.chanType hs hc ht)
  · obtain ⟨t, ht, rfl⟩ := gives_map.mp h
    exact .some (hg.chanType hs hc ht)
  · rename_i hkind
    obtain ⟨t, ht, rfl⟩ := gives_map.mp h
    simp only [gives_advance_bind] at ht
    obtain ⟨x, d, hx, ht⟩ := gives_bind.mp ht
    obtain ⟨⟨hclose, rfl⟩, rfl⟩ := by simpa using ht
    exact .some (.parenthesized hc hkind (hg.type hs (hc.advance (by simp [hkind])) hx) hclose)
  · obtain ⟨rfl, rfl⟩ := gives_pure.mp h
    refine .none ?_
    unfold TokenKind.beginsType
    split <;> simp_all

theorem Sound.typeRule? {o : Option Tree} (hg : g.Sound) (hs : -1 ≤ s.level) (hc : c.Valid)
    (h : g.typeRule?.Gives s c o c') : MaybeTypeRead c o c' :=
  hg.typeHere (s := s.deeper) hs hc (gives_nested.mp h).2

theorem Sound.typeRule (hg : g.Sound) (hs : -1 ≤ s.level) (hc : c.Valid)
    (h : g.typeRule.Gives s c t c') : TypeRead t c c' :=
  Sound.required (hg.typeRule? hs hc) h

end GoCompact.Grammar
