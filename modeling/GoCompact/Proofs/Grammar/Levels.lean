import GoCompact.Proofs.Grammar.Run

namespace GoCompact

namespace NodeKind

-- Parentheses and operators before an operand.
@[simp]
def isGuard (k : NodeKind) : Bool := k == .ParenExpr || k == .UnaryExpr || k == .StarExpr

-- Kinds of nodes that need no level for themselves, and of which the fields are nothing special.
@[simp]
def passes (k : NodeKind) : Bool :=
  !k.isGuard && k != .CompositeLit && k != .StructType && k != .TypeSpec

end NodeKind

namespace Tree

-- The trees directly below one.
def children : Tree → List Tree
  | .node _ _ fields => fields
  | .tuple items => items
  | _ => []

-- A way from a tree down to a leaf.
inductive Path : Tree → List Tree → Prop
  | leaf {t : Tree} (h : t.children = []) : Path t [t]
  | step {t u : Tree} {us : List Tree} (hu : u ∈ t.children) (h : Path u us) : Path t (t :: us)

-- How a tree stands in what is around it: as the elements of a literal, or of a literal without a
-- type that is itself an element; as an element, or the key or value of one; as one of the fields of
-- a struct; as the type of an embedded field; or as anything else.
inductive Standing
  | ordinary | braces | bareBraces | element | member | embedded
deriving DecidableEq

namespace Standing

-- Whether a tree is part of the elements of a literal.
def ofLiteral : Standing → Bool
  | .braces | .bareBraces | .element => true
  | _ => false

end Standing

-- What a way down to a tree has passed: a tilde, and the declaration of a type.
structure Passed where
  tilde : Bool
  declared : Bool

namespace Passed

def nothing : Passed := ⟨false, false⟩

-- What an operator before an operand adds.
def behind (w : Passed) (kind : TokenKind) : Passed :=
  if kind = .op .Tilde then { w with tilde := true } else w

-- What the declaration of a type adds.
def declaring (w : Passed) : Passed := { w with declared := true }

def through (w : Passed) : Tree → Passed
  | .unary _ (.token kind) _ => w.behind kind
  | .node .TypeSpec _ _ => w.declaring
  | _ => w

-- A type may need one level more than those that were entered for it: the star of an embedded field is
-- read with the field.
def typeRoom (w : Passed) : Nat := if w.tilde then 0 else 1

-- So may an expression: a literal in it that has no elements with a level of their own.
def expressionRoom (w : Passed) : Nat := if w.declared then 0 else 1

end Passed

def isList : Tree → Bool
  | .tuple _ => true
  | _ => false

-- The standing of what is directly below a tree.
def standingBelow (standing : Standing) (t u : Tree) : Standing :=
  match t with
  | .compositeLit _ typ _ =>
    if !u.isList then .ordinary
    else if standing = .element && typ.isAbsent then .bareBraces else .braces
  | .keyValue _ _ _ => if standing = .element then .element else .ordinary
  | .structType _ _ => .member
  | .fieldList _ _ => if standing = .member then .member else .ordinary
  | .field _ (.tuple []) _ _ => if standing = .member then .embedded else .ordinary
  | .tuple _ =>
    match standing with
    | .braces | .bareBraces => .element
    | .embedded => .ordinary
    | standing => standing
  | _ => .ordinary

-- Whether a tree is read one level deeper as an element of a literal. Of a key and a value each is.
def isDeeper : Tree → Bool
  | .compositeLit _ .absent _ => false
  | .keyValue _ _ _ => false
  | .node _ _ _ => true
  | _ => false

-- Whether a tree is the star of an embedded field below a tilde. The type after a tilde has just one
-- level for both.
def isSparedStar (standing : Standing) (w : Passed) (t : Tree) : Bool :=
  standing = .embedded && w.tilde && t.is .StarExpr

-- Whether a node is parentheses or an operator before an operand.
def isGuard (t : Tree) : Bool := t.kind?.any NodeKind.isGuard

-- The levels that a tree needs for itself. A literal needs one for its elements, but what begins with
-- a name in the declaration of a type is read without a level: there it is the elements that need one.
def ownLevels (standing : Standing) (w : Passed) (t : Tree) : Nat :=
  (if t.isGuard && !isSparedStar standing w t then 1 else 0) +
    if w.declared then if standing = .element && t.isDeeper then 1 else 0
    else if standing = .braces then 1 else 0

mutual

def levelsAs (standing : Standing) (w : Passed) : Tree → Nat
  | .node kind p fields =>
    ownLevels standing w (.node kind p fields) + levelsBelow standing w (.node kind p fields) fields
  | .tuple items => ownLevels standing w (.tuple items) + levelsBelow standing w (.tuple items) items
  | t => ownLevels standing w t

def levelsBelow (standing : Standing) (w : Passed) (t : Tree) : List Tree → Nat
  | [] => 0
  | u :: us => max (levelsAs (standingBelow standing t u) (w.through t) u) (levelsBelow standing w t us)

end

def levels (w : Passed) (t : Tree) : Nat := t.levelsAs .ordinary w

variable {t u x p : Tree} {ts : List Tree} {k : NodeKind} {n : Nat} {st : Standing} {w : Passed}

namespace Passed

theorem typeRoom_le : w.typeRoom ≤ 1 := by
  unfold typeRoom
  split <;> omega

theorem expressionRoom_le : w.expressionRoom ≤ 1 := by
  unfold expressionRoom
  split <;> omega

end Passed

theorem levelsBelow_le :
    levelsBelow st w t ts ≤ n ↔ ∀ u ∈ ts, u.levelsAs (standingBelow st t u) (w.through t) ≤ n := by
  induction ts with
  | nil => simp [levelsBelow]
  | cons t ts ih => simp [levelsBelow, ih]

theorem ownLevels_of_guarded (hspared : isSparedStar st w t = false)
    (hw : w.declared = true → st.ofLiteral = false) :
    ownLevels st w t = (if t.isGuard then 1 else 0) + if st = .braces then 1 else 0 := by
  rw [ownLevels, hspared]
  cases hdeclared : w.declared with
  | false => simp
  | true =>
      have hst := hw hdeclared
      cases st <;> simp_all [Standing.ofLiteral]

-- Outside of literals and embedded fields just parentheses and operators need a level.
@[simp]
theorem ownLevels_ordinary : ownLevels .ordinary w t = if t.isGuard then 1 else 0 := by
  rw [ownLevels_of_guarded rfl fun _ => rfl]
  simp

@[simp]
theorem levels_datum {v : Json} : (Tree.datum v).levels w = 0 := ownLevels_ordinary

@[simp]
theorem levels_token {kind : TokenKind} : (Tree.token kind).levels w = 0 := ownLevels_ordinary

@[simp]
theorem levels_direction {d : Direction} : (Tree.direction d).levels w = 0 := ownLevels_ordinary

@[simp]
theorem levels_tuple : (Tree.tuple ts).levels w ≤ n ↔ ∀ t ∈ ts, t.levels w ≤ n := by
  have hown : ownLevels .ordinary w (.tuple ts) = 0 := ownLevels_ordinary
  rw [levels, levelsAs, hown, Nat.zero_add]
  exact levelsBelow_le

@[simp]
theorem levels_ofOption {o : Option Tree} :
    (Tree.ofOption o).levels w ≤ n ↔ ∀ t ∈ o, t.levels w ≤ n := by
  cases o <;> simp [ofOption]

-- In most nodes nothing stands specially.
theorem standingBelow_ordinary (h : k.passes = true) :
    standingBelow .ordinary (.node k p ts) u = .ordinary := by
  unfold standingBelow
  split <;> first | rfl | simp_all

theorem through_of_passes (h : k.passes = true) : w.through (.node k p ts) = w := by
  unfold Passed.through
  split <;> first | rfl | simp_all

@[simp]
theorem levels_node (h : k.passes = true) :
    (Tree.node k p ts).levels w ≤ n ↔ ∀ t ∈ ts, t.levels w ≤ n := by
  have hguard : k.isGuard = false := by
    simp only [NodeKind.passes, Bool.and_eq_true, Bool.not_eq_true'] at h
    exact h.1.1.1
  have hown : ownLevels .ordinary w (.node k p ts) = 0 := by
    simp [-NodeKind.isGuard, isGuard, kind?, hguard]
  rw [levels, levelsAs, hown, Nat.zero_add, levelsBelow_le]
  simp only [standingBelow_ordinary h, through_of_passes h, levels]

-- In the declaration of a type.
theorem levels_typeSpec :
    (Tree.node .TypeSpec p ts).levels w ≤ n ↔ ∀ t ∈ ts, t.levels w.declaring ≤ n := by
  have hown : ownLevels .ordinary w (.node .TypeSpec p ts) = 0 := ownLevels_ordinary
  rw [levels, levelsAs, hown, Nat.zero_add, levelsBelow_le]
  exact Iff.rfl

@[simp]
theorem levels_paren : (Tree.paren p x).levels w = x.levels w + 1 := by
  have hown : ownLevels .ordinary w (.paren p x) = 1 := ownLevels_ordinary
  rw [levels, levelsAs, hown]
  change 1 + max (x.levels w) 0 = _
  omega

@[simp]
theorem levels_star : (Tree.star p x).levels w = x.levels w + 1 := by
  have hown : ownLevels .ordinary w (.star p x) = 1 := ownLevels_ordinary
  rw [levels, levelsAs, hown]
  change 1 + max (x.levels w) 0 = _
  omega

@[simp]
theorem levels_unary {kind : TokenKind} :
    (Tree.unary p (.token kind) x).levels w = x.levels (w.behind kind) + 1 := by
  have hown : ownLevels .ordinary w (.unary p (.token kind) x) = 1 := ownLevels_ordinary
  have htoken : (Tree.token kind).levels (w.behind kind) = 0 := levels_token
  rw [levels, levelsAs, hown]
  change 1 + max ((Tree.token kind).levels (w.behind kind)) (max (x.levels (w.behind kind)) 0) = _
  omega

theorem expressionRoom_behind {kind : TokenKind} :
    (w.behind kind).expressionRoom = w.expressionRoom := by
  unfold Passed.behind
  split <;> rfl

@[simp]
theorem expressionRoom_declaring : w.declaring.expressionRoom = 0 := rfl

theorem levelsBelow_congr {st' : Standing} (h : ∀ u, standingBelow st t u = standingBelow st' t u) :
    levelsBelow st w t ts = levelsBelow st' w t ts := by
  induction ts with
  | nil => rfl
  | cons u us ih => simp only [levelsBelow, h, ih]

theorem levelsBelow_add_le {st' : Standing} {r : Nat} (hr : r ≤ 1)
    (h : ∀ u ∈ ts, u.levelsAs (standingBelow st t u) (w.through t) + r ≤
      u.levelsAs (standingBelow st' t u) (w.through t) + 1) :
    levelsBelow st w t ts + r ≤ levelsBelow st' w t ts + 1 := by
  induction ts with
  | nil =>
      simp only [levelsBelow]
      omega
  | cons u us ih =>
      obtain ⟨hu, hus⟩ := List.forall_mem_cons.mp h
      have hrest := ih hus
      simp only [levelsBelow]
      omega

theorem ownLevels_bareBraces_le : ownLevels .bareBraces w t ≤ ownLevels .braces w t := by
  simp [ownLevels, isSparedStar]

-- A list below a literal that is itself an element.
theorem levelsAs_bareBraces_le (h : t.isList = true) :
    t.levelsAs .bareBraces w ≤ t.levelsAs .braces w := by
  cases t with
  | tuple items =>
      exact Nat.add_le_add ownLevels_bareBraces_le (Nat.le_of_eq (levelsBelow_congr fun _ => rfl))
  | _ => cases h

theorem eq_absent (h : t.isAbsent = true) : t = .absent := by
  unfold isAbsent at h
  split at h
  · rfl
  · cases h

theorem through_eq (hspec : t.is .TypeSpec = false) (hguard : t.isGuard = false) :
    w.through t = w := by
  unfold Passed.through
  split
  · cases hguard
  · cases hspec
  · rfl

-- An element stands as anything else does to what is below it, unless it has no level for itself.
theorem standingBelow_element (t u : Tree) :
    standingBelow .element t u = standingBelow .ordinary t u ∨
      t.isDeeper = false ∧ t.is .TypeSpec = false ∧ t.isGuard = false ∧
        (standingBelow .element t u = .element ∧ standingBelow .ordinary t u = .ordinary ∨
          u.isList = true ∧ standingBelow .element t u = .bareBraces ∧
            standingBelow .ordinary t u = .braces) := by
  unfold standingBelow
  split
  · rename_i p typ elts
    cases hlist : u.isList <;> cases habsent : typ.isAbsent <;> simp
    rw [eq_absent habsent]
    exact ⟨rfl, rfl, rfl⟩
  all_goals simp [isDeeper, is, isGuard, kind?]

theorem ownLevels_element (h : t.isDeeper = false) :
    ownLevels .element w t = if t.isGuard then 1 else 0 := by
  simp [ownLevels, isSparedStar, h]

theorem ownLevels_element_deeper (h : t.isDeeper = true) :
    ownLevels .element w t + w.expressionRoom = (if t.isGuard then 1 else 0) + 1 := by
  simp only [ownLevels, isSparedStar, Passed.expressionRoom, h]
  cases w.declared <;> simp

-- An element of a literal needs one level more than by itself at most.
theorem levelsAs_element_le (t : Tree) :
    t.levelsAs .element w + w.expressionRoom ≤ t.levels w + 1 := by
  have hroom : w.expressionRoom ≤ 1 := Passed.expressionRoom_le
  have hbelow (ts : List Tree) (hts : ∀ u ∈ ts, sizeOf u < sizeOf t) :
      levelsBelow .element w t ts + w.expressionRoom ≤ levelsBelow .ordinary w t ts + 1 := by
    refine levelsBelow_add_le hroom fun u hu => ?_
    rcases standingBelow_element t u with hsame | ⟨-, hspec, hguard, hcase⟩
    · rw [hsame]
      omega
    · rw [through_eq hspec hguard]
      rcases hcase with ⟨helement, hordinary⟩ | ⟨hlist, hbare, hbraces⟩
      · rw [helement, hordinary]
        have := hts u hu
        exact levelsAs_element_le u
      · rw [hbare, hbraces]
        have := levelsAs_bareBraces_le (w := w) hlist
        omega
  cases hdeeper : t.isDeeper with
  | true =>
      have hsame (ts : List Tree) : levelsBelow .element w t ts = levelsBelow .ordinary w t ts :=
        levelsBelow_congr fun u => by
          rcases standingBelow_element t u with h | ⟨h, -⟩
          · exact h
          · rw [hdeeper] at h
            cases h
      have hown := ownLevels_element_deeper (w := w) hdeeper
      cases t with
      | node k p fields =>
          simp only [levels, levelsAs, hsame, ownLevels_ordinary]
          omega
      | _ => cases hdeeper
  | false =>
      have hown := ownLevels_element (w := w) hdeeper
      cases t with
      | node k p fields =>
          have := hbelow fields fun u hu => by
            have := List.sizeOf_lt_of_mem hu
            simp only [node.sizeOf_spec]
            omega
          simp only [levels, levelsAs, ownLevels_ordinary]
          omega
      | tuple items =>
          have := hbelow items fun u hu => by
            have := List.sizeOf_lt_of_mem hu
            simp only [tuple.sizeOf_spec]
            omega
          simp only [levels, levelsAs, ownLevels_ordinary]
          omega
      | _ =>
          simp only [levels, levelsAs, ownLevels_ordinary]
          omega
termination_by sizeOf t

-- Elements of a literal.
theorem levelsAs_element {t : Tree} (h : t.levels w < n + w.expressionRoom) :
    t.levelsAs .element w ≤ n := by
  have := levelsAs_element_le (w := w) t
  omega

theorem levelsAs_keyValue {key value : Tree} :
    (Tree.keyValue p key value).levelsAs .element w ≤ n ↔
      key.levelsAs .element w ≤ n ∧ value.levelsAs .element w ≤ n := by
  have hown : ownLevels .element w (.keyValue p key value) = 0 := ownLevels_element rfl
  rw [levelsAs, hown, Nat.zero_add, levelsBelow_le]
  change (∀ u ∈ [key, value], u.levelsAs .element w ≤ n) ↔ _
  simp

theorem levelsAs_braces :
    (Tree.tuple ts).levelsAs .braces w ≤ n + w.expressionRoom ↔
      ∀ t ∈ ts, t.levelsAs .element w ≤ n := by
  have hown : ownLevels .braces w (.tuple ts) = w.expressionRoom := by
    simp [ownLevels, isGuard, kind?, Passed.expressionRoom]
  rw [levelsAs, hown, Nat.add_comm, Nat.add_le_add_iff_right, levelsBelow_le]
  rfl

theorem levels_compositeLit {typ : Tree} (h : typ.isList = false)
    (htyp : typ.levels w ≤ n + w.expressionRoom) (hts : ∀ t ∈ ts, t.levelsAs .element w ≤ n) :
    (Tree.compositeLit p typ (.tuple ts)).levels w ≤ n + w.expressionRoom := by
  have hown : ownLevels .ordinary w (.compositeLit p typ (.tuple ts)) = 0 := ownLevels_ordinary
  have htype : standingBelow .ordinary (.compositeLit p typ (.tuple ts)) typ = .ordinary := by
    simp [standingBelow, h]
  rw [levels, levelsAs, hown, Nat.zero_add, levelsBelow_le]
  refine List.forall_mem_cons.mpr ⟨?_, List.forall_mem_singleton.mpr (levelsAs_braces.mpr hts)⟩
  rw [htype]
  exact htyp

-- A literal without a type is no deeper than what it stands in.
theorem levelsAs_bareLiteral (hts : ∀ t ∈ ts, t.levelsAs .element w ≤ n) :
    (Tree.compositeLit p .absent (.tuple ts)).levelsAs .element w ≤ n := by
  have hown : ownLevels .element w (.compositeLit p .absent (.tuple ts)) = 0 := ownLevels_element rfl
  have htuple : ownLevels .bareBraces w (.tuple ts) = 0 := by simp [ownLevels, isGuard, kind?]
  have helts : (Tree.tuple ts).levelsAs .bareBraces w ≤ n := by
    rw [levelsAs, htuple, Nat.zero_add, levelsBelow_le]
    exact hts
  rw [levelsAs, hown, Nat.zero_add, levelsBelow_le]
  refine List.forall_mem_cons.mpr ⟨?_, List.forall_mem_singleton.mpr helts⟩
  exact Nat.le_trans (Nat.le_of_eq ownLevels_ordinary) (Nat.zero_le n)

-- The fields of a struct, and the type of an embedded one.
theorem ownLevels_member : ownLevels .member w t = if t.isGuard then 1 else 0 := by
  rw [ownLevels_of_guarded rfl fun _ => rfl]
  simp

theorem levels_structType {q : Tree} :
    (Tree.structType p (.fieldList q (.tuple ts))).levels w ≤ n ↔
      ∀ t ∈ ts, t.levelsAs .member w ≤ n := by
  have hown : ownLevels .ordinary w (.structType p (.fieldList q (.tuple ts))) = 0 := ownLevels_ordinary
  have hlist : ownLevels .member w (.fieldList q (.tuple ts)) = 0 := ownLevels_member
  have htuple : ownLevels .member w (.tuple ts) = 0 := ownLevels_member
  have hfields : (Tree.tuple ts).levelsAs .member w ≤ n ↔ ∀ t ∈ ts, t.levelsAs .member w ≤ n := by
    rw [levelsAs, htuple, Nat.zero_add]
    exact levelsBelow_le
  rw [levels, levelsAs, hown, Nat.zero_add, levelsBelow_le]
  change (∀ u ∈ [Tree.fieldList q (.tuple ts)], u.levelsAs .member w ≤ n) ↔ _
  rw [List.forall_mem_singleton, levelsAs, hlist, Nat.zero_add, levelsBelow_le]
  change (∀ u ∈ [Tree.tuple ts], u.levelsAs .member w ≤ n) ↔ _
  rw [List.forall_mem_singleton, hfields]

theorem standingBelow_embedded (t u : Tree) :
    standingBelow .embedded t u = standingBelow .ordinary t u := by
  unfold standingBelow
  split <;> simp

theorem ownLevels_embedded_le : ownLevels .embedded w t ≤ ownLevels .ordinary w t := by
  have hordinary : isSparedStar .ordinary w t = false := rfl
  simp only [ownLevels, hordinary]
  cases isSparedStar .embedded w t <;> simp

theorem levelsAs_embedded_le : t.levelsAs .embedded w ≤ t.levels w := by
  have hbelow : ∀ us, levelsBelow .embedded w t us = levelsBelow .ordinary w t us :=
    fun _ => levelsBelow_congr (standingBelow_embedded t)
  cases t with
  | node k p fields =>
      rw [levels, levelsAs, levelsAs, hbelow]
      exact Nat.add_le_add_right ownLevels_embedded_le _
  | tuple items =>
      rw [levels, levelsAs, levelsAs, hbelow]
      exact Nat.add_le_add_right ownLevels_embedded_le _
  | _ => exact ownLevels_embedded_le

theorem levelsAs_field {names typ tag : Tree} (hnames : names.levels w ≤ n) (htyp : typ.levels w ≤ n)
    (htag : tag.levels w ≤ n) : (Tree.field p names typ tag).levelsAs .member w ≤ n := by
  have hown : ownLevels .member w (.field p names typ tag) = 0 := ownLevels_member
  have hstanding : ∀ u, standingBelow .member (.field p names typ tag) u = .ordinary ∨
      standingBelow .member (.field p names typ tag) u = .embedded := by
    intro u
    cases names with
    | tuple names =>
        cases names with
        | nil => exact Or.inr rfl
        | cons => exact Or.inl rfl
    | _ => exact Or.inl rfl
  rw [levelsAs, hown, Nat.zero_add, levelsBelow_le]
  have hfields : ∀ u ∈ [names, typ, tag], u.levels w ≤ n := by simp [hnames, htyp, htag]
  intro u hu
  rcases hstanding u with h | h
  · rw [h]
    exact hfields u hu
  · rw [h]
    exact Nat.le_trans levelsAs_embedded_le (hfields u hu)

theorem levelsAs_embeddedPointer {q typ tag : Tree} (htyp : typ.levels w ≤ n)
    (htag : tag.levels w ≤ n) :
    (Tree.field p (.tuple []) (.star q typ) tag).levelsAs .member w ≤ n + w.typeRoom := by
  have hown : ownLevels .member w (.field p (.tuple []) (.star q typ) tag) = 0 := ownLevels_member
  have hnames : (Tree.tuple []).levelsAs .embedded w ≤ n :=
    Nat.le_trans levelsAs_embedded_le (by simp)
  have hstar : (Tree.star q typ).levelsAs .embedded w ≤ n + w.typeRoom := by
    have hstar : ownLevels .embedded w (.star q typ) = w.typeRoom := by
      cases htilde : w.tilde <;>
        simp [ownLevels, isSparedStar, Passed.typeRoom, isGuard, is, kind?, htilde]
    rw [levelsAs, hstar]
    change w.typeRoom + max (typ.levels w) 0 ≤ n + w.typeRoom
    omega
  have htag' := Nat.le_trans (levelsAs_embedded_le (t := tag)) htag
  rw [levelsAs, hown, Nat.zero_add, levelsBelow_le]
  change ∀ u ∈ [Tree.tuple [], .star q typ, tag], u.levelsAs .embedded w ≤ n + w.typeRoom
  simp [hstar]
  omega

end Tree

end GoCompact
