import GoCompact.Proofs.Reread.Constraint

namespace GoCompact

namespace Tree

open GoCompact.Parser GoCompact.Grammar Cursor
open Emission (Spells)

variable {b : Bool} {p q t x y : Tree}

structure ExpressionReads (b : Bool) (t : Tree) : Prop where
  reads : t.Reads b
  name : t.NameReads
  constraint : t.ConstraintReads
  joins : t.isTakenApart = true → ∀ {q : Tree} {z : Text}, ∃ x, Joins (.ident q (.text z)) t x
  received : t.isReceiver = true →
    ∃ x, Received x t ∧ x.TypeReads ∧ (x.emittedAs .expression).Spells x.words
  embedded : t.isEmbedded = true → FieldParts [] t
  spec : t.is .ArrayType = true → t.keepsLength = true → ∀ {p name : Tree}, Built .name name →
    (Tree.typeSpec p name t .absent (.flag false)).SpecReads .Type

-- Whether a tree is read as the same operand in every position.
def isOperand (t : Tree) : Bool :=
  !t.is .BinaryExpr && !t.is .UnaryExpr && !t.is .StarExpr && !t.is .ParenExpr &&
    !t.is .ArrayType && !t.isReceiver

theorem isTakenApart_of_is (hbinary : t.is .BinaryExpr = false) (hstar : t.is .StarExpr = false)
    (hparen : t.is .ParenExpr = false) : t.isTakenApart = false := by
  unfold isTakenApart
  split
  · cases hstar
  · cases hparen
  · cases hbinary
  · rfl

theorem typeStart_of_is (hstar : t.is .StarExpr = false) (hparen : t.is .ParenExpr = false) :
    t.typeStart ≠ .op .Mul ∧ t.typeStart ≠ .op .LParen := by
  unfold typeStart
  split
  · cases hstar
  · cases hparen
  all_goals exact ⟨by decide, by decide⟩

theorem typeStart_of_is_index (h : t.is .IndexExpr = true) : t.typeStart = .ident := by
  unfold typeStart
  split <;> first | rfl | cases h

-- A type name, perhaps with arguments, or a name with brackets.
theorem ConstraintReads.fieldParts (h : t.ConstraintReads)
    (hspells : (t.emittedAs .expression).Spells t.words) (hstar : t.is .StarExpr = false)
    (hembedded : t.isEmbedded = true) : FieldParts [] t := by
  unfold isEmbedded at hembedded
  split at hembedded
  · cases hstar
  simp only [Bool.or_eq_true, Bool.and_eq_true] at hembedded
  rcases hembedded with (hname | ⟨htype, hindex⟩) | hindexed
  · exact .name (h.type (isType_of_isTypeName hname)) hspells (typeStart_of_isTypeName hname)
  · exact .name (h.type htype) hspells (typeStart_of_is_index hindex)
  · exact .indexed (h.indexed hindexed) hspells

namespace ExpressionReads

theorem of_operand (h : t.Reads b) (hkind : t.isOperand = true) (hname : t.NameReads)
    (hident : t.is .Ident = true → Built .name t) (hindexed : t.isIndexed = true → t.InstanceReads) :
    t.ExpressionReads b := by
  simp only [isOperand, Bool.and_eq_true, Bool.not_eq_true'] at hkind
  obtain ⟨⟨⟨⟨⟨hbinary, hunary⟩, hstar⟩, hparen⟩, harray⟩, hreceiver⟩ := hkind
  obtain ⟨hmul, hleft⟩ := typeStart_of_is hstar hparen
  have hconstraint : t.ConstraintReads := .of_reads h hbinary hunary hident hindexed hmul hleft
  refine ⟨h, hname, hconstraint, fun hapart => ?_, fun hreceived => ?_,
    hconstraint.fieldParts h.spells hstar, fun h => ?_⟩
  · simp [isTakenApart_of_is hbinary hstar hparen] at hapart
  · simp [hreceiver] at hreceived
  · simp [harray] at h

-- An operand that does not begin with a name.
theorem of_begins (h : t.Reads b) (hkind : t.isOperand = true) (hident : t.is .Ident = false)
    (hindexed : t.isIndexed = false) (hbegins : Begins (· ≠ .ident) t.words) :
    t.ExpressionReads b :=
  .of_operand h hkind (.of_begins hbegins) (by simp [hident]) (by simp [hindexed])

theorem words_ne_nil (h : t.ExpressionReads b) : t.words ≠ [] := h.reads.begins.ne_nil

-- An operand that goes on after another one.
theorem of_after {l : Lexeme} {rest : List Lexeme} (hx : x.ExpressionReads b) (h : t.Reads b)
    (hkind : t.isOperand = true) (hprimary : t.isPrimary = true)
    (hwords : t.words = x.words ++ l :: rest)
    (hstarts : t.startsIndexed = false →
      x.startsIndexed = false ∧ (x.is .Ident = true → l.kind ≠ .op .LBrack))
    (hident : t.is .Ident = false) (hindexed : t.isIndexed = true → t.InstanceReads) :
    t.ExpressionReads b :=
  .of_operand h hkind (hx.name.after hx.words_ne_nil (h.free.primary hprimary) hwords hstarts)
    (by simp [hident]) hindexed

theorem ident {z : Text} (hz : (⟨.ident, z⟩ : Lexeme).Whole) :
    (Tree.ident p (.text z)).ExpressionReads b :=
  .of_operand (reads_ident hz p) rfl (.ident hz) (fun _ => .name hz) nofun

theorem literal {k : Literal} {z : Text} (hz : (⟨.literal k, z⟩ : Lexeme).Whole) :
    (Tree.basicLit p (.token (.literal k)) (.text z)).ExpressionReads b :=
  .of_begins (reads_literal hz p) rfl rfl rfl
    ⟨_, _, words_of_spells (spells_literal hz p), nofun⟩

theorem paren {c : Bool} (hx : x.ExpressionReads c) : (Tree.paren p x).ExpressionReads b := by
  have hreads : (Tree.paren p x).Reads b := reads_paren hx.reads
  have hjoins : ∀ {q : Tree} {z : Text}, ∃ u, Joins (.ident q (.text z)) (.paren p x) u :=
    fun {q z} => ⟨_, .paren hx.reads.free⟩
  have hbegins : Begins (· ≠ .ident) (Tree.paren p x).words :=
    ⟨_, _, words_of_spells (spells_paren hx.reads.spells), by decide⟩
  have hconstraint : (Tree.paren p x).ConstraintReads :=
    .of_type hreads.spells rfl rfl nofun hreads.type nofun fun _ => .joined hjoins
  exact ⟨hreads, .of_begins hbegins, hconstraint, fun _ => hjoins, nofun,
    hconstraint.fieldParts hreads.spells rfl, nofun⟩

theorem star (hx : x.ExpressionReads b) (hbinary : x.is .BinaryExpr = false) :
    (Tree.star p x).ExpressionReads b := by
  have hreads : (Tree.star p x).Reads b := reads_star hx.reads hbinary
  have hjoins : ∀ {q : Tree} {z : Text}, ∃ u, Joins (.ident q (.text z)) (.star p x) u :=
    fun {q z} => ⟨_, .star hx.reads.free hbinary⟩
  have hbegins : Begins (· ≠ .ident) (Tree.star p x).words :=
    ⟨_, _, words_of_spells (spells_star hx.reads.spells), by decide⟩
  refine ⟨hreads, .of_begins hbegins, .of_type hreads.spells rfl rfl nofun hreads.type nofun
    fun _ => .joined hjoins, fun _ => hjoins, nofun, fun hembedded => ?_, nofun⟩
  have hname : x.isType = true ∧ (x.isTypeName = true ∨ x.is .IndexExpr = true) := by
    simpa [isEmbedded] using hembedded
  exact .pointer (hx.reads.type hname.1) hx.reads.spells
    (hname.2.elim typeStart_of_isTypeName typeStart_of_is_index)

theorem unary {o : Operator} (ho : o.isPrefix = true) (hx : x.ExpressionReads b)
    (hbinary : x.is .BinaryExpr = false) (hchan : o = .Arrow → x.is .ChanType = false) :
    (Tree.unary p (.token (.op o)) x).ExpressionReads b := by
  have hbegins : Begins (· ≠ .ident) (Tree.unary p (.token (.op o)) x).words :=
    ⟨_, _, words_of_spells (spells_unary hx.reads.spells), by simp⟩
  exact ⟨reads_unary ho hx.reads hbinary hchan, .of_begins hbegins, .unary hx.reads, nofun, nofun,
    nofun, nofun⟩

theorem binary {o : Operator} (ho : 0 < o.precedence) (hx : x.ExpressionReads b)
    (hy : y.ExpressionReads b) (hleft : o.precedence ≤ x.precedence)
    (hright : o.precedence < y.precedence) (hedge : x.edge (.op o) = false) :
    (Tree.binary p x (.token (.op o)) y).ExpressionReads b := by
  refine ⟨reads_binary ho hx.reads hy.reads hleft hright hedge,
    hx.name.binary hx.words_ne_nil hy.reads.free hx.reads.spells ho hleft hright hedge,
    hx.constraint.binary hy.constraint hx.reads.spells hy.reads.free, fun hapart => ?_, nofun,
    nofun, nofun⟩
  have hor : o = .Or ∧ x.isTakenApart = true ∧ 4 < y.precedence := by
    cases o <;> first | cases hapart | simpa [isTakenApart] using hapart
  obtain ⟨rfl, hxApart, hbinds⟩ := hor
  intro q z
  obtain ⟨u, hu⟩ := hx.joins hxApart (q := q) (z := z)
  exact ⟨_, hu.union hy.reads.free hbinds⟩

theorem selector {sel : Tree} (hbuilt : Built (.expression b) x) (hx : x.ExpressionReads b)
    (hprimary : x.isPrimary = true) (hedge : x.edge (.op .Period) = false)
    (hsel : Built .name sel) : (Tree.selector p x sel).ExpressionReads b := by
  have hreads : (Tree.selector p x sel).Reads b :=
    reads_selector hbuilt hx.reads hprimary hedge hsel
  cases hsel with
  | @name q z hz =>
      refine hx.of_after hreads rfl rfl (words_of_spells (spells_selector hx.reads.spells hz))
        (fun hstarts => ⟨hstarts, fun _ => ?_⟩) rfl nofun
      decide

theorem index {first : Tree} {others : List Tree} (hbuilt : Built (.expression b) x)
    (hx : x.ExpressionReads b) (hprimary : x.isPrimary = true) (hedge : x.edge (.op .LBrack) = false)
    (hfirst : first.Reads true) (hothers : ∀ t ∈ others, t.Reads true)
    (htypes : ∀ t ∈ others, t.isType = true) :
    (Tree.index p x (.tuple (first :: others))).ExpressionReads b := by
  have hreads : (Tree.index p x (.tuple (first :: others))).Reads b :=
    reads_index hbuilt hx.reads hprimary hedge hfirst hothers htypes
  have hspells := spells_index (p := p) hx.reads.spells (List.forall_mem_cons.mpr
    ⟨hfirst.spells, fun t ht => (hothers t ht).spells⟩)
  refine hx.of_after hreads rfl rfl (words_of_spells hspells) (fun hstarts => ?_) rfl
    fun hindexed => ?_
  · have hboth : x.is .Ident = false ∧ x.startsIndexed = false := by
      simpa [startsIndexed] using hstarts
    exact ⟨hboth.2, by simp [hboth.1]⟩
  · cases hbuilt with
    | ident hz =>
        exact instanceReads_index hz (.expression hfirst)
          (fun t ht => (hothers t ht).type (htypes t ht)) fun t ht => (hothers t ht).spells
    | _ => cases hindexed

theorem slice {low high max : Option Tree} (hx : x.ExpressionReads b)
    (hprimary : x.isPrimary = true) (hedge : x.edge (.op .LBrack) = false)
    (hlow : ∀ t ∈ low, t.Reads true) (hhigh : ∀ t ∈ high, t.Reads true)
    (hmax : ∀ t ∈ max, t.Reads true) (hfull : max.isSome = true → high.isSome = true) :
    (Tree.slice p x (.ofOption low) (.ofOption high) (.ofOption max)).ExpressionReads b := by
  have hspells := spells_slice (p := p) hx.reads.spells hlow hhigh hmax
  refine hx.of_after (reads_slice hx.reads hprimary hedge hlow hhigh hmax hfull) rfl rfl
    (words_of_spells hspells) (fun hstarts => ?_) rfl nofun
  have hboth : x.is .Ident = false ∧ x.startsIndexed = false := by
    simpa [startsIndexed] using hstarts
  exact ⟨hboth.2, by simp [hboth.1]⟩

theorem typeAssert {typ : Option Tree} (hx : x.ExpressionReads b) (hprimary : x.isPrimary = true)
    (hedge : x.edge (.op .Period) = false) (htyp : ∀ t ∈ typ, t.Reads true)
    (htypes : ∀ t ∈ typ, t.isType = true) :
    (Tree.typeAssert p x (.ofOption typ)).ExpressionReads b := by
  refine hx.of_after (reads_typeAssert hx.reads hprimary hedge htyp htypes) rfl rfl
    (words_of_spells (spells_typeAssert hx.reads.spells htyp))
    (fun hstarts => ⟨hstarts, fun _ => ?_⟩) rfl nofun
  decide

theorem call {args : List Tree} {spread : Bool} (hx : x.ExpressionReads b)
    (hprimary : x.isPrimary = true) (hedge : x.edge (.op .LParen) = false)
    (hargs : ∀ t ∈ args, t.Reads true) (hspread : spread = true → args ≠ []) :
    (Tree.call p x (.tuple args) (.flag spread)).ExpressionReads b := by
  refine hx.of_after (reads_call hx.reads hprimary hedge hargs hspread) rfl rfl
    (words_of_spells (spells_call hx.reads.spells (fun t ht => (hargs t ht).spells) spread))
    (fun hstarts => ⟨hstarts, fun _ => ?_⟩) rfl nofun
  decide

theorem compositeLit {elts : List Tree} (hx : x.ExpressionReads b)
    (hbraces : x.takesBraces b = true) (helts : ∀ t ∈ elts, t.ItemReads) :
    (Tree.compositeLit p x (.tuple elts)).ExpressionReads b := by
  refine hx.of_after (reads_compositeLit hx.reads hbraces helts) rfl rfl
    (words_of_spells (spells_compositeLit hx.reads.spells hx.reads.isAbsent
      fun t ht => (helts t ht).spells)) (fun hstarts => ⟨hstarts, fun _ => ?_⟩) rfl nofun
  decide

section

variable {params body : Tree} {results : Option Tree}

theorem funcLit (hparams : params.ParametersReads) (hresults : ResultsReads results)
    (hbody : body.BlockReads) :
    (Tree.funcLit p (.funcType q params (.ofOption results) .absent
      (.flag true)) body).ExpressionReads b :=
  .of_begins (reads_funcLit hparams hresults hbody) rfl rfl rfl
    ⟨_, _, words_of_spells (spells_funcLit hparams hresults hbody), nofun⟩

theorem funcType (hparams : params.ParametersReads) (hresults : ResultsReads results) :
    (Tree.funcType p params (.ofOption results) .absent (.flag true)).ExpressionReads b :=
  .of_begins (reads_funcType hparams hresults) rfl rfl rfl
    ⟨_, _, words_of_spells (spells_funcType hparams hresults), nofun⟩

end

-- A type literal other than an array or a channel to receive from.
theorem of_type (h : t.Reads b) (hkind : t.isOperand = true) (htype : t.isType = true)
    (hident : t.is .Ident = false) (hindexed : t.isIndexed = false) (hstart : t.typeStart ≠ .ident) :
    t.ExpressionReads b :=
  .of_begins h hkind hident hindexed ((h.type htype).begins.mono fun _ hk => hk ▸ hstart)

-- An array type, which after the name of a type begins as type parameters do.
theorem arrayType {elt : Tree} {len : Option Tree} (hlen : ∀ t ∈ len, t.LengthReads)
    (hkept : ∀ t ∈ len, t.startsIndexed = false →
      (t.typeParameter? false).any (·.2.isSome) = false → t.KeptLength)
    (helt : elt.TypeReads) (hspells : (elt.emittedAs .expression).Spells elt.words) :
    (Tree.arrayType p (.ofOption len) elt).ExpressionReads b := by
  have hreads : (Tree.arrayType p (.ofOption len) elt).Reads b := reads_arrayType hlen helt hspells
  have hbegins : Begins (· ≠ .ident) (Tree.arrayType p (.ofOption len) elt).words :=
    ⟨_, _, words_of_spells (spells_arrayType hlen hspells), by decide⟩
  have hconstraint : (Tree.arrayType p (.ofOption len) elt).ConstraintReads :=
    .of_reads hreads rfl rfl nofun nofun nofun nofun
  refine ⟨hreads, .of_begins hbegins, hconstraint, nofun, nofun, nofun, fun _ hkeeps => ?_⟩
  intro q name hname
  refine reads_arraySpec hname hlen (fun t ht => ?_) helt hspells
  obtain rfl := Option.mem_def.mp ht
  have hboth : (t.typeParameter? false).any (·.2.isSome) = false ∧ t.startsIndexed = false := by
    simpa only [keepsLength, ofOption_some, Bool.and_eq_true, Bool.not_eq_true'] using hkeeps
  exact hkept t rfl hboth.2 hboth.1

theorem chanType {d : Direction} {value : Tree} (hd : d ≠ .neither)
    (hvalue : value.ExpressionReads true) (htype : value.isType = true)
    (hboth : d = .both → value.isReceiver = false) :
    (Tree.chanType p (.direction d) value).ExpressionReads b := by
  have hvalueReads := hvalue.reads.type htype
  by_cases hreceive : d = .receive
  · subst hreceive
    obtain ⟨x, hx, hxReads, hxSpells⟩ := received_chanType (p := p) hvalueReads
      hvalue.reads.spells hvalue.received
    have hspells := spells_chanType (p := p) hd hvalue.reads.spells
    have hwords := words_of_spells hspells
    have htypeReads := typeReads_chanType (p := p) hd hvalueReads hvalue.reads.spells hboth
    have hreads : (Tree.chanType p (.direction .receive) value).Reads b :=
      reads_receiver hx hxReads htypeReads (hwords ▸ hspells)
    exact ⟨hreads, .of_begins ⟨_, _, hwords, nofun⟩, .of_reads hreads rfl rfl nofun nofun nofun nofun,
      nofun, fun _ => ⟨x, hx, hxReads, hxSpells⟩, nofun, nofun⟩
  · refine .of_type (reads_chanType hd hreceive hvalueReads hvalue.reads.spells hboth) ?_ rfl rfl rfl ?_
    · cases d <;> first | rfl | exact absurd rfl hd | exact absurd rfl hreceive
    · cases d <;> nofun

end ExpressionReads

end Tree

end GoCompact
