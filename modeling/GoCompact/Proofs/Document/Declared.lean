import GoCompact.Proofs.Document.Normal
import GoCompact.Tree.Equality

namespace GoCompact

-- The locations that tokens have: four numbers, and a file or none.
inductive Location.Declared : Location → Prop
  | mk (line column offset endOffset : Int) (file : Option Text) :
      Declared ⟨.int line, .int column, .int offset, .int endOffset, (file.map Json.str).getD .null⟩

-- What a slot is meant to hold. A node is meant with all its fields.
inductive Slot.Holds : Slot → Tree → Prop
  | text {s : Text} : Holds .text (.text s)
  | flag {b : Bool} : Holds .flag (.flag b)
  | token {k : TokenKind} : Holds .token (.token k)
  | noToken : Holds .optionalToken .absent
  | someToken {k : TokenKind} : Holds .optionalToken (.token k)
  | direction {d : Direction} : Holds .direction (.direction d)
  | one {c : NodeClass} {k : NodeKind} {l : Location} {fields : List Tree} (hkind : c.holds k = true)
      (hlocation : l.Declared) (hlength : fields.length = k.fields.length)
      (hfields : ∀ p ∈ k.fields.zip fields, Holds p.1.slot p.2) :
      Holds (.one c) (.node k (.location l) fields)
  | none {c : NodeClass} : Holds (.optional c) .absent
  | some {c : NodeClass} {t : Tree} (h : Holds (.one c) t) : Holds (.optional c) t
  | many {c : NodeClass} {ts : List Tree} (h : ∀ t ∈ ts, Holds (.one c) t) :
      Holds (.many c) (.tuple ts)

-- In two lists of one length each member of the second stands beside one of the first.
theorem exists_mem_zip {α β : Type} {xs : List α} {ys : List β} (hlength : ys.length = xs.length)
    {y : β} (h : y ∈ ys) : ∃ p ∈ xs.zip ys, p.2 = y := by
  rw [← List.map_snd_zip (Nat.le_of_eq hlength), List.mem_map] at h
  exact h

namespace Tree

-- A node of which every field holds what it is meant for.
def Declared (t : Tree) : Prop := ∃ c, (Slot.one c).Holds t

mutual

-- The locations of all nodes of a tree.
def places : Tree → List Tree
  | .node _ place fields => place :: placesAll fields
  | .tuple items => placesAll items
  | _ => []

def placesAll : List Tree → List Tree
  | [] => []
  | t :: ts => places t ++ placesAll ts

end

theorem placesAll_eq_flatMap (ts : List Tree) : placesAll ts = ts.flatMap places := by
  induction ts with
  | nil => rfl
  | cons t ts ih => rw [placesAll, ih, List.flatMap_cons]

theorem places_forget (t : Tree) :
    ∀ place ∈ (Relocation.forget.tree t).places, place = .unknownPlace := by
  induction t using Relocation.tree.induct
    (motive_2 := fun ts => ∀ place ∈ placesAll (Relocation.forget.trees ts), place = .unknownPlace)
    with
  | case1 k p fields ih => exact List.forall_mem_cons.mpr ⟨rfl, ih⟩
  | case2 items ih => exact ih
  | case3 t hnode htuple =>
      cases t with
      | node k p fields => exact absurd rfl (hnode k p fields)
      | tuple items => exact absurd rfl (htuple items)
      | _ => simp [Relocation.tree, places]
  | case4 place h => cases h
  | case5 t ts ht hts place h => exact List.forall_mem_append.mpr ⟨ht, hts⟩ place h

theorem sameAll_map {f : Tree → Tree} {ts : List Tree} (h : ∀ t ∈ ts, (f t).same t = true) :
    sameAll (ts.map f) ts = true := by
  induction ts with
  | nil => rfl
  | cons t ts ih =>
      obtain ⟨ht, hts⟩ := List.forall_mem_cons.mp h
      rw [List.map_cons, sameAll, ht, ih hts, Bool.and_self]

end Tree

namespace Slot.Holds

open GoCompact.Tree

variable {slot : Slot} {t : Tree}

theorem normal (h : slot.Holds t) : t.Normal := by
  induction h with
  | text => exact .datum rfl
  | flag => exact .datum rfl
  | token => exact .token
  | noToken => exact .datum rfl
  | someToken => exact .token
  | direction => exact .direction
  | one _ _ hlength _ ih =>
      refine .node .location hlength fun t ht => ?_
      obtain ⟨p, hp, rfl⟩ := exists_mem_zip hlength ht
      exact ih p hp
  | none => exact .datum rfl
  | some _ ih => exact ih
  | many _ ih => exact .tuple ih

-- A tree that was moved is equal to what it was.
theorem same_tree (h : slot.Holds t) (r : Relocation) : (r.tree t).same t = true := by
  induction h with
  | @text s => simp [same, Json.same]
  | @flag b => simp [same, Json.same, Json.toInt?]
  | token => simp [same]
  | noToken => simp [same, Json.same]
  | someToken => simp [same]
  | direction => simp [same]
  | one _ _ hlength _ ih =>
      rw [Relocation.tree_node, same, beq_self_eq_true, Bool.true_and]
      refine sameAll_map fun t ht => ?_
      obtain ⟨p, hp, rfl⟩ := exists_mem_zip hlength ht
      exact ih p hp
  | none => simp [same, Json.same]
  | some _ ih => exact ih
  | many _ ih =>
      rw [Relocation.tree_tuple, same]
      exact sameAll_map ih

end Slot.Holds

namespace Tree

-- A declared tree is read back from its document, with all its locations or with none of them.
theorem ofJson_toJson_of_declared {t : Tree} (h : t.Declared) :
    ofJson (t.toJson true) = .ok t ∧
      ∃ u, ofJson (t.toJson false) = .ok u ∧ u.same t = true ∧
        ∀ place ∈ u.places, place = .unknownPlace := by
  obtain ⟨c, h⟩ := h
  have hread := h.normal.ofValue_toJson true
  rw [tree_kept] at hread
  have hbare := h.normal.ofValue_toJson false
  have hsame := h.same_tree .forget
  cases h with
  | one =>
      exact ⟨ofJson_of_ofValue hread, _, ofJson_of_ofValue hbare, hsame, places_forget _⟩

-- A channel type in a file, with a direction that is none.
theorem ofJson_toJson_of_declared_chan :
    ∃ t, t = .chanType (.location ⟨.int 3, .int (-1), .int 0, .int 9, .str "é.go"⟩) (.direction .neither)
        (.ident (.location ⟨.int 3, .int 6, .int 0, .int 9, .null⟩) (.text "\"T")) ∧
      t.Declared ∧ ofJson (t.toJson true) = .ok t ∧
      ∃ u, ofJson (t.toJson false) = .ok u ∧ u.same t = true ∧
        ∀ place ∈ u.places, place = .unknownPlace := by
  have hname : (Slot.one .expression).Holds
      (.ident (.location ⟨.int 3, .int 6, .int 0, .int 9, .null⟩) (.text "\"T")) :=
    .one rfl (.mk 3 6 0 9 none) rfl (List.forall_mem_singleton.mpr .text)
  have hdeclared : Tree.Declared
      (.chanType (.location ⟨.int 3, .int (-1), .int 0, .int 9, .str "é.go"⟩) (.direction .neither)
        (.ident (.location ⟨.int 3, .int 6, .int 0, .int 9, .null⟩) (.text "\"T"))) :=
    ⟨.expression, .one rfl (.mk 3 (-1) 0 9 (some "é.go")) rfl
      (List.forall_mem_cons.mpr ⟨.direction, List.forall_mem_singleton.mpr hname⟩)⟩
  exact ⟨_, rfl, hdeclared, ofJson_toJson_of_declared hdeclared⟩

end Tree

end GoCompact
