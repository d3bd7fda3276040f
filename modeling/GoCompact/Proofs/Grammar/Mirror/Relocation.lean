import GoCompact.Proofs.Grammar.Reading

namespace GoCompact

structure Relocation where
  token : Token → Token
  place : Tree → Tree
  toLexeme_token : ∀ t, (token t).toLexeme = t.toLexeme
  place_token : ∀ t, (token t).place = place t.place
  place_unknownPlace : place .unknownPlace = .unknownPlace

namespace Relocation

open GoCompact.Grammar

-- Nothing is moved.
def stay : Relocation where
  token := id
  place := id
  toLexeme_token _ := rfl
  place_token _ := rfl
  place_unknownPlace := rfl

-- Every place is forgotten.
def forget : Relocation where
  token t := ⟨t.toLexeme, 0, 0, 0, 0, none⟩
  place _ := .unknownPlace
  toLexeme_token _ := rfl
  place_token _ := rfl
  place_unknownPlace := rfl

variable (r : Relocation)

attribute [simp] toLexeme_token place_token place_unknownPlace

@[simp]
theorem kind_token (t : Token) : (r.token t).kind = t.kind :=
  congrArg Lexeme.kind (r.toLexeme_token t)

@[simp]
theorem text_token (t : Token) : (r.token t).text = t.text :=
  congrArg Lexeme.text (r.toLexeme_token t)

def cursor (c : Cursor) : Cursor := ⟨r.token c.current, c.upcoming.map r.token⟩

@[simp]
theorem current_cursor (c : Cursor) : (r.cursor c).current = r.token c.current := rfl

@[simp]
theorem upcoming_cursor (c : Cursor) : (r.cursor c).upcoming = c.upcoming.map r.token := rfl

@[simp]
theorem advance_cursor (c : Cursor) : (r.cursor c).advance = r.cursor c.advance := by
  obtain ⟨t, ts⟩ := c
  cases ts <;> rfl

mutual

def tree : Tree → Tree
  | .node k p fields => .node k (r.place p) (trees fields)
  | .tuple items => .tuple (trees items)
  | t => t

def trees : List Tree → List Tree
  | [] => []
  | t :: ts => tree t :: trees ts

end

theorem trees_eq_map (ts : List Tree) : r.trees ts = ts.map r.tree := by
  induction ts with
  | nil => rfl
  | cons t ts ih => rw [trees, ih, List.map_cons]

@[simp]
theorem tree_node (k : NodeKind) (p : Tree) (fields : List Tree) :
    r.tree (.node k p fields) = .node k (r.place p) (fields.map r.tree) := by
  rw [tree, trees_eq_map]

@[simp]
theorem tree_tuple (items : List Tree) : r.tree (.tuple items) = .tuple (items.map r.tree) := by
  rw [tree, trees_eq_map]

@[simp]
theorem tree_datum (v : Json) : r.tree (.datum v) = .datum v := rfl

@[simp]
theorem tree_token (k : TokenKind) : r.tree (.token k) = .token k := rfl

@[simp]
theorem tree_direction (d : Direction) : r.tree (.direction d) = .direction d := rfl

@[simp]
theorem tree_location (l : Location) : r.tree (.location l) = .location l := rfl

@[simp]
theorem tree_ofOption (o : Option Tree) : r.tree (.ofOption o) = .ofOption (o.map r.tree) := by
  cases o <;> rfl

@[simp]
theorem kind?_tree (t : Tree) : (r.tree t).kind? = t.kind? := by
  cases t <;> simp [Tree.kind?]

@[simp]
theorem is_tree (t : Tree) (k : NodeKind) : (r.tree t).is k = t.is k := by
  simp [Tree.is]

@[simp]
theorem placeOf_tree (t : Tree) : (r.tree t).placeOf = r.place t.placeOf := by
  cases t <;> simp [Tree.placeOf, Tree.place?]

@[simp]
theorem isAbsent_tree (t : Tree) : (r.tree t).isAbsent = t.isAbsent := by
  cases t <;> simp [Tree.isAbsent]

-- A tree that is moved to a node is one of the same kind.
theorem eq_node_of_tree {t p : Tree} {k : NodeKind} {fields : List Tree}
    (h : r.tree t = .node k p fields) : ∃ q ts, t = .node k q ts ∧ ts.map r.tree = fields := by
  cases t with
  | node j q ts =>
      simp only [tree_node, Tree.node.injEq] at h
      obtain ⟨rfl, -, hts⟩ := h
      exact ⟨q, ts, rfl, hts⟩
  | _ => simp at h

theorem eq_one_of_map {ts : List Tree} {a : Tree} (h : ts.map r.tree = [a]) :
    ∃ x, ts = [x] ∧ r.tree x = a := by
  obtain ⟨x, xs, rfl, hx, hxs⟩ := List.map_eq_cons_iff.mp h
  rw [List.map_eq_nil_iff.mp hxs]
  exact ⟨x, rfl, hx⟩

theorem eq_two_of_map {ts : List Tree} {a b : Tree} (h : ts.map r.tree = [a, b]) :
    ∃ x y, ts = [x, y] ∧ r.tree x = a ∧ r.tree y = b := by
  obtain ⟨x, xs, rfl, hx, hxs⟩ := List.map_eq_cons_iff.mp h
  obtain ⟨y, rfl, hy⟩ := r.eq_one_of_map hxs
  exact ⟨x, y, rfl, hx, hy⟩

theorem eq_three_of_map {ts : List Tree} {a b c : Tree} (h : ts.map r.tree = [a, b, c]) :
    ∃ x y z, ts = [x, y, z] ∧ r.tree x = a ∧ r.tree y = b ∧ r.tree z = c := by
  obtain ⟨x, xs, rfl, hx, hxs⟩ := List.map_eq_cons_iff.mp h
  obtain ⟨y, z, rfl, hy, hz⟩ := r.eq_two_of_map hxs
  exact ⟨x, y, z, rfl, hx, hy, hz⟩

theorem eq_tuple_of_tree {t : Tree} {us : List Tree} (h : r.tree t = .tuple us) :
    ∃ ts, t = .tuple ts ∧ ts.map r.tree = us := by
  cases t with
  | tuple ts => exact ⟨ts, rfl, by simpa using h⟩
  | _ => simp at h

theorem tree_eq_token {t : Tree} {k : TokenKind} : r.tree t = .token k ↔ t = .token k := by
  cases t <;> simp

theorem tree_eq_datum {t : Tree} {v : Json} : r.tree t = .datum v ↔ t = .datum v := by
  cases t <;> simp

@[simp]
theorem isTypeElement_tree (t : Tree) : (r.tree t).isTypeElement = t.isTypeElement := by
  induction t using Tree.isTypeElement.induct with
  | case1 p x op y ihx ihy => simp [Tree.isTypeElement, ihx, ihy]
  | case2 => simp [Tree.isTypeElement]
  | case3 p op x h => cases op <;> simp [Tree.isTypeElement]
  | case4 p x ih => simp [Tree.isTypeElement, ih]
  | case5 k p fields hbinary hunary hparen =>
      rw [tree_node, Tree.isTypeElement.eq_5 _ _ _ hbinary hunary hparen,
        Tree.isTypeElement.eq_5]
      · intro x op y hk hfields
        obtain ⟨x, op, y, rfl, -⟩ := r.eq_three_of_map hfields
        exact hbinary x op y hk rfl
      · intro op x hk hfields
        obtain ⟨op, x, rfl, -⟩ := r.eq_two_of_map hfields
        exact hunary op x hk rfl
      · intro x hk hfields
        obtain ⟨x, rfl, -⟩ := r.eq_one_of_map hfields
        exact hparen x hk rfl
  | case6 t _ _ _ hnode =>
      cases t with
      | node k p fields => exact (hnode k p fields rfl).elim
      | _ => simp [Tree.isTypeElement]

theorem cursor_stay (c : Cursor) : stay.cursor c = c := by
  simp [cursor, stay]

theorem tree_stay (t : Tree) : stay.tree t = t := by
  induction t using tree.induct (motive_2 := fun ts => stay.trees ts = ts) with
  | case1 k p fields ih => simpa [trees_eq_map, stay] using ih
  | case2 items ih => simpa [trees_eq_map] using ih
  | case3 t hnode htuple => cases t <;> simp_all
  | case4 => rfl
  | case5 t ts ht hts => rw [trees, ht, hts]

theorem tree?_stay (o : Option Tree) : o.map stay.tree = o := by
  cases o with
  | none => rfl
  | some t => exact congrArg some (tree_stay t)

theorem trees_stay (ts : List Tree) : ts.map stay.tree = ts :=
  (List.map_congr_left fun t _ => tree_stay t).trans (List.map_id ts)

end Relocation

end GoCompact
