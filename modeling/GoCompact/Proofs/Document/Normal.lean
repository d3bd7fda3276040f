import GoCompact.Proofs.Grammar.Mirror.Relocation
import GoCompact.Tree.Document

namespace GoCompact

open GoCompact.Tree

theorem bind_eq_ok {ε α β : Type} {x : Except ε α} {f : α → Except ε β} {b : β} :
    x >>= f = .ok b ↔ ∃ a, x = .ok a ∧ f a = .ok b := by
  cases x with
  | error e => simp [bind, Except.bind]
  | ok a => simp [bind, Except.bind]

namespace NodeKind

@[simp]
theorem ofName?_name (k : NodeKind) : ofName? k.name = some k := by
  cases k <;> rfl

-- The names under which an object holds anything but a node.
theorem name_ne_tag (k : NodeKind) :
    k.name ≠ "SourceLocation" ∧ k.name ≠ "TokenType" ∧ k.name ≠ "ChanDir" := by
  cases k <;> decide

-- The members of the document of a node have different names.
theorem nodup_memberNames (k : NodeKind) :
    (Text.ofString "_type" :: "location" :: k.fieldNames).Nodup := by
  cases k <;> decide

end NodeKind

namespace TokenKind

@[simp]
theorem ofName?_name (k : TokenKind) : ofName? k.name = some k := by
  cases k with
  | eof => rfl
  | ident => rfl
  | literal l => cases l <;> rfl
  | op o => cases o <;> rfl
  | word w => cases w <;> rfl

end TokenKind

namespace Direction

@[simp]
theorem ofInt_value (d : Direction) : ofInt d.value = d := by
  cases d <;> rfl

end Direction

namespace Json

-- Values that reading leaves as they are: all but lists and objects that name a kind.
def staysPlain : Json → Bool
  | .arr _ => false
  | .obj members =>
    match members.lookup ("_type" : Text) with
    | none | some .null => true
    | some _ => false
  | _ => true

end Json

namespace Tree

-- What the value of a field is read as.
inductive Normal : Tree → Prop
  | datum {v : Json} (h : v.staysPlain = true) : Normal (.datum v)
  | tuple {items : List Tree} (h : ∀ t ∈ items, Normal t) : Normal (.tuple items)
  | token {k : TokenKind} : Normal (.token k)
  | direction {d : Direction} : Normal (.direction d)
  | location {l : Location} : Normal (.location l)
  | node {k : NodeKind} {place : Tree} {fields : List Tree} (hplace : Normal place)
      (hlength : fields.length = k.fields.length) (hfields : ∀ t ∈ fields, Normal t) :
      Normal (.node k place fields)

theorem toJsonAll_eq_map (locations : Bool) (ts : List Tree) :
    toJsonAll locations ts = ts.map (toJson locations) := by
  induction ts with
  | nil => rfl
  | cons t ts ih => rw [toJsonAll, ih, List.map_cons]

theorem ofValues_map {items : List Tree} {f : Tree → Json} {g : Tree → Tree}
    (h : ∀ t ∈ items, ofValue (f t) = .ok (g t)) : ofValues (items.map f) = .ok (items.map g) := by
  induction items with
  | nil => rfl
  | cons t items ih =>
      obtain ⟨ht, hitems⟩ := List.forall_mem_cons.mp h
      simp only [List.map_cons, ofValues, ht, ih hitems]
      rfl

theorem ofMembers_eq_map (members : List (Text × Json)) :
    ofMembers members = members.map fun m => (m.1, ofValue m.2) := by
  induction members with
  | nil => rfl
  | cons m members ih => rw [ofMembers, ih, List.map_cons]

theorem lookup_map {α β : Type} (f : α → β) (members : List (Text × α)) (name : Text) :
    (members.map fun m => (m.1, f m.2)).lookup name = (members.lookup name).map f := by
  induction members with
  | nil => rfl
  | cons m members ih =>
      rw [List.map_cons, List.lookup_cons, List.lookup_cons, ih]
      cases name == m.1 <;> rfl

theorem lookup_ofMembers (members : List (Text × Json)) (name : Text) :
    (ofMembers members).lookup name = (members.lookup name).map ofValue := by
  rw [ofMembers_eq_map, lookup_map]

theorem ofValue_of_staysPlain {v : Json} (h : v.staysPlain = true) : ofValue v = .ok (.datum v) := by
  cases v with
  | arr items => cases h
  | obj members =>
      simp only [Json.staysPlain] at h
      rw [ofValue, valueOfObject]
      split at h
      · rename_i hnone
        simp only [hnone]
        rfl
      · rename_i hnull
        simp only [hnull]
        rfl
      · cases h
  | _ => rfl

-- Of members with different names each is found under its name.
theorem lookup_of_mem {α : Type} {members : List (Text × α)}
    (hnames : (members.map Prod.fst).Nodup) {name : Text} {x : α} (h : (name, x) ∈ members) :
    members.lookup name = some x := by
  induction members with
  | nil => cases h
  | cons m members ih =>
      obtain ⟨k, y⟩ := m
      rw [List.map_cons, List.nodup_cons] at hnames
      rw [List.lookup_cons]
      rcases List.mem_cons.mp h with heq | hmem
      · obtain ⟨rfl, rfl⟩ := Prod.mk.inj heq
        rw [beq_self_eq_true]
      · have hne : name ≠ k := by
          rintro rfl
          exact hnames.1 (List.mem_map.mpr ⟨_, hmem, rfl⟩)
        rw [beq_false_of_ne hne]
        exact ih hnames.2 hmem

theorem lookup_eq_none {α : Type} {members : List (Text × α)} {name : Text}
    (h : name ∉ members.map Prod.fst) : members.lookup name = none := by
  rw [List.lookup_eq_none_iff]
  intro m hm
  rw [bne_iff_ne]
  rintro rfl
  exact h (List.mem_map_of_mem hm)

-- Fields that are given are taken as they were read.
theorem givenFields_eq {members : ReadMembers} {rules : List FieldRule} {ts : List Tree}
    (hlength : ts.length = rules.length)
    (h : ∀ p ∈ rules.zip ts, members.lookup p.1.name = some (.ok p.2)) :
    givenFields members rules = .ok (ts.map some) := by
  induction rules generalizing ts with
  | nil =>
      rw [List.length_eq_zero_iff.mp hlength]
      rfl
  | cons rule rules ih =>
      match ts, hlength with
      | t :: ts, hlength =>
          obtain ⟨hlookup, hrest⟩ := List.forall_mem_cons.mp h
          dsimp only at hlookup
          simp only [givenFields, hlookup, ih (Nat.succ.inj hlength) hrest]
          rfl

theorem completedFields_some (kind : NodeKind) {rules : List FieldRule} {ts : List Tree}
    (hlength : ts.length = rules.length) :
    completedFields kind rules (ts.map some) = .ok ts := by
  induction rules generalizing ts with
  | nil =>
      rw [List.length_eq_zero_iff.mp hlength]
      rfl
  | cons rule rules ih =>
      match ts, hlength with
      | t :: ts, hlength =>
          simp only [List.map_cons, completedFields, ih (Nat.succ.inj hlength)]
          rfl

-- What the members of an object are read as makes up a node.
structure Spells (members : List (Text × Json)) (k : NodeKind) (place : Tree)
    (fields : List Tree) : Prop where
  kind : members.lookup ("_type" : Text) = some (.str k.name)
  place : ((members.lookup ("location" : Text)).map ofValue).getD (.ok .unknownPlace) = .ok place
  length : fields.length = k.fields.length
  fields : ∀ p ∈ k.fields.zip fields, (members.lookup p.1.name).map ofValue = some (.ok p.2)

section

variable {members : List (Text × Json)} {k : NodeKind} {place : Tree} {fields : List Tree}

theorem Spells.ofJson (h : Spells members k place fields) :
    ofJson (.obj members) = .ok (.node k place fields) := by
  have hgiven : givenFields (ofMembers members) k.fields = .ok (fields.map some) := by
    refine givenFields_eq h.length fun p hp => ?_
    rw [lookup_ofMembers]
    exact h.fields p hp
  have hplace : ((ofMembers members).lookup ("location" : Text)).getD (.ok .unknownPlace) = .ok place := by
    rw [lookup_ofMembers]
    exact h.place
  have hnode : nodeOfMembers k (ofMembers members) = .ok (.node k place fields) := by
    simp only [nodeOfMembers, bind, Except.bind, pure, Except.pure, hplace, hgiven,
      completedFields_some k h.length]
  simp only [Tree.ofJson, nodeOfObject, h.kind, kindNamed, NodeKind.ofName?_name]
  exact hnode

-- An object that names the kind of a node stands for a node.
theorem valueOfObject_of_kind {read : ReadMembers}
    (h : members.lookup ("_type" : Text) = some (.str k.name)) :
    valueOfObject members read = nodeOfObject members read := by
  obtain ⟨hlocation, htoken, hdirection⟩ := k.name_ne_tag
  simp only [valueOfObject, h, if_neg hlocation, if_neg htoken, if_neg hdirection]

theorem Spells.ofValue (h : Spells members k place fields) :
    ofValue (.obj members) = .ok (.node k place fields) := by
  rw [← h.ofJson, Tree.ofValue, valueOfObject_of_kind h.kind, Tree.ofJson]

end

-- The members of the document of a node.
def memberList (locations : Bool) (k : NodeKind) (place : Tree) (fields : List Tree) :
    List (Text × Json) :=
  ("_type", .str k.name) ::
    ((if locations then [(Text.ofString "location", place.toJson locations)] else []) ++
      k.fieldNames.zip (fields.map (toJson locations)))

theorem toJson_node (locations : Bool) (k : NodeKind) (place : Tree) (fields : List Tree) :
    (Tree.node k place fields).toJson locations = .obj (memberList locations k place fields) := by
  rw [toJson, toJsonAll_eq_map]
  rfl

section

variable {locations : Bool} {k : NodeKind} {place : Tree} {fields : List Tree}

theorem names_memberList (hlength : fields.length = k.fields.length) :
    (memberList locations k place fields).map Prod.fst =
      Text.ofString "_type" ::
        ((if locations then [Text.ofString "location"] else []) ++ k.fieldNames) := by
  have hzip : (k.fieldNames.zip (fields.map (toJson locations))).map Prod.fst = k.fieldNames :=
    List.map_fst_zip (by simp [NodeKind.fieldNames, hlength])
  rw [memberList, List.map_cons, List.map_append, hzip]
  cases locations <;> rfl

theorem nodup_memberList (hlength : fields.length = k.fields.length) :
    ((memberList locations k place fields).map Prod.fst).Nodup := by
  rw [names_memberList hlength]
  cases locations with
  | true => exact k.nodup_memberNames
  | false => exact k.nodup_memberNames.sublist (.cons_cons _ (.cons _ (.refl _)))

theorem mem_memberList_of_mem_zip {p : FieldRule × Tree} (h : p ∈ k.fields.zip fields) :
    (p.1.name, p.2.toJson locations) ∈ memberList locations k place fields := by
  have hzip : k.fieldNames.zip (fields.map (toJson locations)) =
      (k.fields.zip fields).map fun p => (p.1.name, p.2.toJson locations) :=
    List.zip_map ..
  refine List.mem_cons_of_mem _ (List.mem_append_right _ ?_)
  rw [hzip]
  exact List.mem_map.mpr ⟨p, h, rfl⟩

end

-- What a document keeps of the places of nodes.
def kept (locations : Bool) : Relocation := if locations then .stay else .forget

theorem tree_kept (t : Tree) : (kept true).tree t = t := Relocation.tree_stay t

-- An object spells a node if it holds the members of its document, whatever their order, and the
-- change of values does not change what they are read as.
theorem spells_of_lookup {locations : Bool} {k : NodeKind} {place : Tree} {fields : List Tree}
    {members : List (Text × Json)} {change : Json → Json} {f : Tree → Tree}
    (hlookup : ∀ name, members.lookup name =
      ((memberList locations k place fields).lookup name).map change)
    (hkind : change (.str k.name) = .str k.name) (hlength : fields.length = k.fields.length)
    (hplace : locations = true → ofValue (change (place.toJson locations)) = .ok (f place))
    (hfields : ∀ t ∈ fields, ofValue (change (t.toJson locations)) = .ok (f t)) :
    Spells members k (if locations then f place else .unknownPlace) (fields.map f) where
  kind := by
    rw [hlookup, memberList, List.lookup_cons_self, Option.map_some, hkind]
  place := by
    cases locations with
    | true =>
        have hmem : (Text.ofString "location", place.toJson true) ∈ memberList true k place fields := by
          simp [memberList]
        rw [hlookup, lookup_of_mem (nodup_memberList hlength) hmem]
        exact hplace rfl
    | false =>
        have hnot : Text.ofString "location" ∉ (memberList false k place fields).map Prod.fst := by
          rw [names_memberList hlength]
          have hnodup := k.nodup_memberNames
          simp only [List.nodup_cons, List.mem_cons] at hnodup
          simp [hnodup.2.1]
        rw [hlookup, lookup_eq_none hnot]
        rfl
  length := by rw [List.length_map, hlength]
  fields p hp := by
    rw [List.zip_map_right, List.mem_map] at hp
    obtain ⟨q, hq, rfl⟩ := hp
    dsimp only [Prod.map]
    rw [id, hlookup, lookup_of_mem (nodup_memberList hlength) (mem_memberList_of_mem_zip hq)]
    exact congrArg some (hfields q.2 (List.of_mem_zip hq).2)

-- A normal tree is read back from its document.
theorem Normal.ofValue_toJson (locations : Bool) {t : Tree} (h : t.Normal) :
    ofValue (t.toJson locations) = .ok ((kept locations).tree t) := by
  induction h with
  | datum h => exact ofValue_of_staysPlain h
  | @tuple items _ ih =>
      rw [toJson, toJsonAll_eq_map, ofValue, ofValues_map ih, Relocation.tree_tuple]
      rfl
  | @token k =>
      rw [toJson, ofValue]
      simp [valueOfObject, tokenOfMembers, List.lookup]
      rfl
  | @direction d =>
      simp [toJson, ofValue, valueOfObject, directionOfMembers, List.lookup]
      rfl
  | @location l => rfl
  | @node k place fields hplace hlength hfields ihplace ihfields =>
      have hspells : Spells (memberList locations k place fields) k _ _ :=
        spells_of_lookup (fun _ => Option.map_id'.symm) rfl hlength (fun _ => ihplace) ihfields
      rw [toJson_node, hspells.ofValue, Relocation.tree_node]
      cases locations with
      | true => rw [if_pos rfl, tree_kept]; rfl
      | false => rfl

-- What a field holds when a document leaves it out is normal.
theorem normal_default {k : NodeKind} {rule : FieldRule} (hrule : rule ∈ k.fields) {t : Tree}
    (h : rule.default = some t) : t.Normal := by
  have hcases : rule.default = none ∨ rule.default = some .absent ∨
      rule.default = some (.tuple []) ∨ ∃ b, rule.default = some (.flag b) := by
    revert rule
    cases k <;> simp [NodeKind.fields, FieldRule.text, FieldRule.token, FieldRule.flag,
      FieldRule.one, FieldRule.given, FieldRule.optional, FieldRule.many, FieldRule.anyNumber]
  rcases hcases with h' | h' | h' | ⟨b, h'⟩ <;> rw [h] at h' <;> cases h'
  · exact .datum rfl
  · exact .tuple (by simp)
  · exact .datum rfl

-- Of members that are read as normal trees each is found as one.
theorem normal_of_lookup {members : ReadMembers}
    (hmembers : ∀ m ∈ members, ∀ t, m.2 = .ok t → t.Normal) {name : Text} {t : Tree}
    (h : members.lookup name = some (.ok t)) : t.Normal := by
  obtain ⟨before, after, hsplit, -⟩ := List.lookup_eq_some_iff.mp h
  exact hmembers (name, .ok t) (by simp [hsplit]) t rfl

theorem normal_of_givenFields {members : ReadMembers} {rules : List FieldRule}
    {given : List (Option Tree)} (hmembers : ∀ m ∈ members, ∀ t, m.2 = .ok t → t.Normal)
    (h : givenFields members rules = .ok given) :
    given.length = rules.length ∧ ∀ t, some t ∈ given → t.Normal := by
  induction rules generalizing given with
  | nil =>
      obtain rfl := Except.ok.inj h
      exact ⟨rfl, by simp⟩
  | cons rule rules ih =>
      simp only [givenFields] at h
      split at h
      · rename_i read hlookup
        obtain ⟨t, rfl, hrest⟩ := bind_eq_ok.mp h
        obtain ⟨others, hothers, hgiven⟩ := bind_eq_ok.mp hrest
        obtain rfl := Except.ok.inj hgiven
        obtain ⟨hlength, hnormal⟩ := ih hothers
        refine ⟨by simp [hlength], fun u hu => ?_⟩
        rcases List.mem_cons.mp hu with hu | hu
        · obtain rfl := Option.some.inj hu
          exact normal_of_lookup hmembers hlookup
        · exact hnormal u hu
      · obtain ⟨others, hothers, h⟩ := bind_eq_ok.mp h
        obtain rfl := Except.ok.inj h
        obtain ⟨hlength, hnormal⟩ := ih hothers
        exact ⟨by simp [hlength], fun u hu => hnormal u (by simpa using hu)⟩

-- The completed fields are normal if the given ones and the defaults are.
theorem normal_of_completedFields {kind : NodeKind} {rules : List FieldRule}
    {given : List (Option Tree)} {ts : List Tree} (hlength : given.length = rules.length)
    (hgiven : ∀ t, some t ∈ given → t.Normal)
    (hdefault : ∀ rule ∈ rules, ∀ t, rule.default = some t → t.Normal)
    (h : completedFields kind rules given = .ok ts) :
    ts.length = rules.length ∧ ∀ t ∈ ts, t.Normal := by
  induction rules generalizing given ts with
  | nil =>
      obtain rfl := Except.ok.inj h
      exact ⟨rfl, by simp⟩
  | cons rule rules ih =>
      match given, hlength with
      | o :: given, hlength =>
          obtain ⟨hrule, hrules⟩ := List.forall_mem_cons.mp hdefault
          simp only [completedFields] at h
          split at h
          · rename_i t hor
            obtain ⟨others, hothers, h⟩ := bind_eq_ok.mp h
            obtain rfl := Except.ok.inj h
            obtain ⟨hlength', hnormal⟩ := ih (Nat.succ.inj hlength)
              (fun u hu => hgiven u (List.mem_cons_of_mem _ hu)) hrules hothers
            refine ⟨by simp [hlength'], List.forall_mem_cons.mpr ⟨?_, hnormal⟩⟩
            cases o with
            | some u =>
                obtain rfl := Option.some.inj hor
                exact hgiven u (by simp)
            | none => exact hrule t hor
          · cases h

theorem normal_of_nodeOfMembers {kind : NodeKind} {members : ReadMembers} {t : Tree}
    (hmembers : ∀ m ∈ members, ∀ u, m.2 = .ok u → u.Normal)
    (h : nodeOfMembers kind members = .ok t) :
    t.Normal ∧ ∃ place fields, t = .node kind place fields := by
  obtain ⟨place, hplace, h⟩ := bind_eq_ok.mp h
  obtain ⟨given, hgiven, h⟩ := bind_eq_ok.mp h
  obtain ⟨fields, hfields, h⟩ := bind_eq_ok.mp h
  obtain rfl := Except.ok.inj h
  obtain ⟨hlength, hnormal⟩ := normal_of_givenFields hmembers hgiven
  obtain ⟨hlength', hnormal'⟩ := normal_of_completedFields hlength hnormal
    (fun rule hrule u hu => normal_default hrule hu) hfields
  refine ⟨.node ?_ hlength' hnormal', place, fields, rfl⟩
  cases hlookup : members.lookup ("location" : Text) with
  | none =>
      rw [hlookup] at hplace
      obtain rfl := Except.ok.inj hplace
      exact .location
  | some read =>
      rw [hlookup] at hplace
      obtain rfl : read = .ok place := hplace
      exact normal_of_lookup hmembers hlookup

theorem normal_of_nodeOfObject {members : List (Text × Json)} {read : ReadMembers} {t : Tree}
    (hread : ∀ m ∈ read, ∀ u, m.2 = .ok u → u.Normal)
    (h : nodeOfObject members read = .ok t) :
    t.Normal ∧ ∃ kind place fields, t = .node kind place fields := by
  simp only [nodeOfObject] at h
  split at h
  · cases h
  · cases h
  · obtain ⟨kind, -, h⟩ := bind_eq_ok.mp h
    obtain ⟨hnormal, hnode⟩ := normal_of_nodeOfMembers hread h
    exact ⟨hnormal, kind, hnode⟩

-- A location, a token kind or a direction.
theorem normal_of_valueOfObject {members : List (Text × Json)} {read : ReadMembers} {t : Tree}
    (hread : ∀ m ∈ read, ∀ u, m.2 = .ok u → u.Normal)
    (h : valueOfObject members read = .ok t) : t.Normal := by
  simp only [valueOfObject] at h
  split at h
  · rename_i hnone
    obtain rfl := Except.ok.inj h
    exact .datum (by simp [Json.staysPlain, hnone])
  · rename_i hnull
    obtain rfl := Except.ok.inj h
    exact .datum (by simp [Json.staysPlain, hnull])
  · split_ifs at h
    · obtain ⟨l, -, rfl⟩ : ∃ l, Location.ofMembers members = .ok l ∧ Tree.location l = t := by
        cases hl : Location.ofMembers members with
        | error e => rw [hl] at h; cases h
        | ok l => rw [hl] at h; exact ⟨l, rfl, Except.ok.inj h⟩
      exact .location
    · simp only [tokenOfMembers] at h
      split at h
      · cases h
      · split at h
        · obtain rfl := Except.ok.inj h
          exact .token
        · cases h
      · cases h
      · cases h
      · cases h
    · simp only [directionOfMembers] at h
      split at h
      · cases h
      · obtain rfl := Except.ok.inj h
        exact .direction
      · split at h
        · split at h
          · obtain rfl := Except.ok.inj h
            exact .direction
          · cases h
        · cases h
    · exact (normal_of_nodeOfObject hread h).1
  · exact (normal_of_nodeOfObject hread h).1

theorem mem_of_ofValues {vs : List Json} {ts : List Tree} (h : ofValues vs = .ok ts) {t : Tree}
    (ht : t ∈ ts) : ∃ v ∈ vs, ofValue v = .ok t := by
  induction vs generalizing ts with
  | nil =>
      obtain rfl := Except.ok.inj h
      cases ht
  | cons v vs ih =>
      obtain ⟨u, hu, h⟩ := bind_eq_ok.mp h
      obtain ⟨us, hus, h⟩ := bind_eq_ok.mp h
      obtain rfl := Except.ok.inj h
      rcases List.mem_cons.mp ht with rfl | ht
      · exact ⟨v, by simp, hu⟩
      · obtain ⟨w, hw, hread⟩ := ih hus ht
        exact ⟨w, List.mem_cons_of_mem _ hw, hread⟩

-- What reading makes of a value is normal, whatever the value holds.
theorem normal_of_ofValue {v : Json} {t : Tree} (h : ofValue v = .ok t) : t.Normal := by
  generalize hn : sizeOf v = n
  induction n using Nat.strongRecOn generalizing v t with
  | ind n ih =>
      subst hn
      cases v with
      | arr items =>
          obtain ⟨ts, hts, h⟩ := bind_eq_ok.mp h
          obtain rfl := Except.ok.inj h
          refine .tuple fun u hu => ?_
          obtain ⟨w, hw, hread⟩ := mem_of_ofValues hts hu
          have hless := List.sizeOf_lt_of_mem hw
          exact ih (sizeOf w) (by simp only [Json.arr.sizeOf_spec]; omega) hread rfl
      | obj members =>
          refine normal_of_valueOfObject (fun m hm u hu => ?_) h
          rw [ofMembers_eq_map, List.mem_map] at hm
          obtain ⟨⟨name, w⟩, hw, rfl⟩ := hm
          have hless := List.sizeOf_lt_of_mem hw
          simp only [Prod.mk.sizeOf_spec] at hless
          exact ih (sizeOf w) (by simp only [Json.obj.sizeOf_spec]; omega) hu rfl
      | _ =>
          obtain rfl := Except.ok.inj h
          exact .datum rfl

-- The document of a node is read as a node, whatever its locations are.
theorem ofJson_of_ofValue {locations : Bool} {k : NodeKind} {place t : Tree} {fields : List Tree}
    (h : ofValue ((Tree.node k place fields).toJson locations) = .ok t) :
    ofJson ((Tree.node k place fields).toJson locations) = .ok t := by
  have hkind : (memberList locations k place fields).lookup ("_type" : Text) = some (.str k.name) :=
    List.lookup_cons_self
  rw [toJson_node] at h ⊢
  rwa [ofValue, valueOfObject_of_kind hkind] at h

-- Reading a document fills in, leaves out and reorders; the document of the result is read as the
-- same tree.
theorem ofJson_toJson_of_ofJson {d : Json} {t : Tree} (h : ofJson d = .ok t) :
    ofJson (t.toJson true) = .ok t := by
  obtain ⟨hnormal, kind, place, fields, rfl⟩ :
      t.Normal ∧ ∃ kind place fields, t = .node kind place fields := by
    cases d with
    | obj members =>
        refine normal_of_nodeOfObject (fun m hm u hu => ?_) h
        rw [ofMembers_eq_map, List.mem_map] at hm
        obtain ⟨⟨name, v⟩, -, rfl⟩ := hm
        exact normal_of_ofValue hu
    | _ => cases h
  have hread := hnormal.ofValue_toJson true
  rw [tree_kept] at hread
  exact ofJson_of_ofValue hread

-- A call whose callee is a plain object and whose arguments are lists, with a number for its location
-- and a member that is no field.
theorem ofJson_toJson_of_ofJson_call :
    ∃ t, ofJson (.obj [("_type", .str "CallExpr"), ("fun", .obj [("x", .arr [.int 1])]),
        ("location", .int 7), ("args", .arr [.arr [.null]]), ("z", .bool true)]) = .ok t ∧
      t = .call (.datum (.int 7)) (.datum (.obj [("x", .arr [.int 1])]))
        (.tuple [.tuple [.absent]]) (.flag false) ∧
      ofJson (t.toJson true) = .ok t :=
  ⟨_, rfl, rfl, ofJson_toJson_of_ofJson (d := .obj [("_type", .str "CallExpr"),
    ("fun", .obj [("x", .arr [.int 1])]), ("location", .int 7), ("args", .arr [.arr [.null]]),
    ("z", .bool true)]) rfl⟩

end Tree

end GoCompact
