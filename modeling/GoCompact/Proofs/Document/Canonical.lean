import GoCompact.Proofs.Document.Merged

namespace GoCompact

namespace Json

-- The layout for an indent: a number of blanks for each level, or none for a single line.
def Style.ofIndent : Option Int → Style
  | none => .compact
  | some n => .indented (List.replicate n.toNat ' ')

theorem Style.isBlank_ofIndent (indent : Option Int) : (Style.ofIndent indent).IsBlank := by
  cases indent with
  | none => trivial
  | some n =>
      intro c hc
      rw [(List.mem_replicate.mp hc).2]
      rfl

theorem lookup_perm {α : Type} {members others : List (Text × α)} (h : members.Perm others)
    (hnames : (others.map Prod.fst).Nodup) (name : Text) :
    members.lookup name = others.lookup name := by
  by_cases hname : name ∈ others.map Prod.fst
  · obtain ⟨⟨_, x⟩, hmem, rfl⟩ := List.mem_map.mp hname
    rw [Tree.lookup_of_mem hnames hmem,
      Tree.lookup_of_mem ((h.map Prod.fst).nodup_iff.mpr hnames) (h.mem_iff.mpr hmem)]
  · rw [Tree.lookup_eq_none hname,
      Tree.lookup_eq_none fun hmem => hname ((h.map Prod.fst).mem_iff.mp hmem)]

-- A member is found in its place among the others in order.
theorem lookup_byName {members : List (Text × Json)} (hnames : (members.map Prod.fst).Nodup)
    (name : Text) :
    ((byName members).map fun m => (m.1, m.2.ordered)).lookup name =
      (members.lookup name).map ordered := by
  rw [Tree.lookup_map, lookup_perm (byName_perm members) hnames]

theorem lt_pow_mostDigits {n : Nat} (h : n < 10) : n < 10 ^ mostDigits :=
  h.trans_le (Nat.le_self_pow (by decide) 10)

end Json

-- Locations whose numbers can be written: those of not too many digits.
def Location.Short (l : Location) : Prop :=
  ∀ n : Int, .int n ∈ [l.line, l.column, l.offset, l.endOffset] → n.natAbs < 10 ^ Json.mostDigits

theorem Location.Declared.isShort_toJson_iff {l : Location} (h : l.Declared) :
    l.toJson.isShort = true ↔ l.Short := by
  cases h with
  | mk line column offset endOffset file =>
      have hfile : ((file.map Json.str).getD .null).isShort = true := by cases file <;> rfl
      simp [toJson, Short, Json.isShort, Json.haveShort, hfile]

theorem Location.Declared.regular {l : Location} (h : l.Declared) (hshort : l.Short) :
    l.toJson.Regular := by
  cases h with
  | mk line column offset endOffset file =>
      refine .obj (by simp) (by simp) fun m hm => ?_
      simp only [List.mem_cons, List.not_mem_nil, or_false] at hm
      rcases hm with rfl | rfl | rfl | rfl | rfl | rfl
      · exact .str
      · exact .int (hshort _ (by simp))
      · exact .int (hshort _ (by simp))
      · exact .int (hshort _ (by simp))
      · exact .int (hshort _ (by simp))
      · cases file with
        | none => exact .null
        | some s => exact .str

namespace Tree

theorem mem_memberList {locations : Bool} {k : NodeKind} {place : Tree} {fields : List Tree}
    {m : Text × Json} (h : m ∈ memberList locations k place fields) :
    m.2 = .str k.name ∨ (locations = true ∧ m.2 = place.toJson locations) ∨
      ∃ t ∈ fields, m.2 = t.toJson locations := by
  rcases List.mem_cons.mp h with rfl | h
  · exact .inl rfl
  · rcases List.mem_append.mp h with h | h
    · cases locations with
      | true =>
          obtain rfl := List.mem_singleton.mp h
          exact .inr (.inl ⟨rfl, rfl⟩)
      | false => cases h
    · obtain ⟨t, ht, hm⟩ := List.mem_map.mp (List.of_mem_zip h).2
      exact .inr (.inr ⟨t, ht, hm.symm⟩)

theorem mem_places_of_mem {place : Tree} {ts : List Tree} {t : Tree} (ht : t ∈ ts)
    (h : place ∈ t.places) : place ∈ placesAll ts := by
  rw [placesAll_eq_flatMap]
  exact List.mem_flatMap.mpr ⟨t, ht, h⟩

theorem merged_of_mem_memberList {locations : Bool} {k : NodeKind} {place : Tree} {fields : List Tree}
    {m : Text × Json} (h : m ∈ memberList locations k place fields) : m.1.merged = m.1 := by
  rcases List.mem_cons.mp h with rfl | h
  · exact Text.merged_ofString _
  · rcases List.mem_append.mp h with h | h
    · cases locations with
      | true =>
          obtain rfl := List.mem_singleton.mp h
          exact Text.merged_ofString _
      | false => cases h
    · obtain ⟨rule, hrule, hname⟩ := List.mem_map.mp (List.of_mem_zip h).1
      exact hname ▸ NodeKind.merged_fieldName hrule

theorem isShort_memberList_iff {locations : Bool} {k : NodeKind} {place : Tree} {fields : List Tree}
    (hlength : fields.length = k.fields.length) :
    (∀ m ∈ memberList locations k place fields, m.2.isShort = true) ↔
      (locations = true → (place.toJson locations).isShort = true) ∧
        ∀ t ∈ fields, (t.toJson locations).isShort = true := by
  constructor
  · refine fun h => ⟨?_, fun t ht => ?_⟩
    · rintro rfl
      exact h (Text.ofString "location", place.toJson true) (by simp [memberList])
    · obtain ⟨p, hp, rfl⟩ := exists_mem_zip hlength ht
      exact h _ (mem_memberList_of_mem_zip hp)
  · rintro ⟨hplace, hfields⟩ m hm
    rcases mem_memberList hm with hm | ⟨hlocations, hm⟩ | ⟨t, ht, hm⟩ <;> rw [hm]
    · rfl
    · exact hplace hlocations
    · exact hfields t ht

-- The document of a token kind can be read back.
theorem regular_token (k : TokenKind) (locations : Bool) :
    ((Tree.token k).toJson locations).Regular :=
  .obj (by simp) (by simp) (by simp [Json.Regular.str])

-- Equality does not look at places.
theorem same_tree_left (r : Relocation) (t u : Tree) : (r.tree t).same u = t.same u := by
  induction t using Relocation.tree.induct
    (motive_2 := fun ts => ∀ us, sameAll (r.trees ts) us = sameAll ts us) generalizing u with
  | case1 k p fields ih =>
      rw [Relocation.tree]
      cases u with
      | node j q others => rw [same, same, ih]
      | _ => rfl
  | case2 items ih =>
      rw [Relocation.tree]
      cases u with
      | tuple others => rw [same, same, ih]
      | _ => rfl
  | case3 t hnode htuple =>
      cases t with
      | node k p fields => exact absurd rfl (hnode k p fields)
      | tuple items => exact absurd rfl (htuple items)
      | _ => rfl
  | case4 us => rfl
  | case5 t ts ht hts us =>
      cases us with
      | nil => rfl
      | cons u us => rw [Relocation.trees, sameAll, sameAll, ht, hts]

theorem map_eq_of_sameAll {f : Tree → Json} {ts us : List Tree} (h : sameAll ts us = true)
    (hstep : ∀ p ∈ ts.zip us, p.1.same p.2 = true → f p.1 = f p.2) : ts.map f = us.map f := by
  induction ts generalizing us with
  | nil =>
      cases us with
      | nil => rfl
      | cons u us => cases h
  | cons t ts ih =>
      cases us with
      | nil => cases h
      | cons u us =>
          rw [sameAll, Bool.and_eq_true] at h
          obtain ⟨hhead, hrest⟩ := List.forall_mem_cons.mp hstep
          rw [List.map_cons, List.map_cons, hhead h.1, ih h.2 hrest]

-- Members of two lists that stand side by side stand beside the same member of a third.
theorem exists_mem_zip_zip {α : Type} {xs : List α} {ts us : List Tree}
    (hts : ts.length = xs.length) {p : Tree × Tree} (hp : p ∈ ts.zip us) :
    ∃ x, (x, p.1) ∈ xs.zip ts ∧ (x, p.2) ∈ xs.zip us := by
  obtain ⟨i, hi, rfl⟩ := List.mem_iff_getElem.mp hp
  rw [List.length_zip, lt_min_iff] at hi
  refine ⟨xs[i], List.mem_iff_getElem.mpr ⟨i, ?_, ?_⟩, List.mem_iff_getElem.mpr ⟨i, ?_, ?_⟩⟩
  · rw [List.length_zip]
    omega
  · simp
  · rw [List.length_zip]
    omega
  · simp

theorem ofValue_ordered_token (k : TokenKind) :
    ofValue ((Tree.token k).toJson false).ordered = .ok (.token k) := by
  have hlookup := Json.lookup_byName
    (show ([(Text.ofString "_type", Json.str "TokenType"), ("name", .str k.name)].map
      Prod.fst).Nodup by simp)
  have htag := hlookup "_type"
  have hname := (hlookup "name").trans (show _ = some (.str k.name) from rfl)
  rw [toJson, Json.ordered_obj, ofValue, valueOfObject, htag]
  change tokenOfMembers _ = _
  simp only [tokenOfMembers, hname, TokenKind.ofName?_name]
  rfl

theorem ofValue_ordered_direction (d : Direction) :
    ofValue ((Tree.direction d).toJson false).ordered = .ok (.direction d) := by
  have hlookup := Json.lookup_byName
    (show ([(Text.ofString "_type", Json.str "ChanDir"), ("value", .int d.value)].map
      Prod.fst).Nodup by simp)
  have htag := hlookup "_type"
  have hvalue := hlookup "value"
  rw [toJson, Json.ordered_obj, ofValue, valueOfObject, htag]
  change directionOfMembers _ = _
  rw [directionOfMembers, hvalue]
  exact congrArg (fun d => Except.ok (Tree.direction d)) d.ofInt_value

end Tree

namespace Slot.Holds

open GoCompact.Tree

variable {slot : Slot} {t u : Tree}

-- The document of a declared tree can be read back from its text.
theorem regular (h : slot.Holds t) (locations : Bool)
    (hshort : locations = true → ∀ l, .location l ∈ t.places → l.Short) :
    (t.toJson locations).Regular := by
  induction h with
  | text => exact .str
  | flag => exact .bool
  | @token k => exact regular_token k locations
  | noToken => exact .null
  | @someToken k => exact regular_token k locations
  | @direction d =>
      refine .obj (by simp) (by simp) (List.forall_mem_cons.mpr ⟨.str, List.forall_mem_singleton.mpr ?_⟩)
      exact .int (Json.lt_pow_mostDigits (by cases d <;> decide))
  | one _ hlocation hlength _ ih =>
      rw [toJson_node]
      refine .obj (nodup_memberList hlength) (fun m => merged_of_mem_memberList) fun m hm => ?_
      rcases mem_memberList hm with hm | ⟨hlocations, hm⟩ | ⟨t, ht, hm⟩ <;> rw [hm]
      · exact .str
      · exact hlocation.regular (hshort hlocations _ (List.mem_cons_self ..))
      · obtain ⟨p, hp, rfl⟩ := exists_mem_zip hlength ht
        exact ih p hp fun hlocations l hl =>
          hshort hlocations l (List.mem_cons_of_mem _ (mem_places_of_mem ht hl))
  | none => exact .null
  | some _ ih => exact ih hshort
  | many _ ih =>
      rw [toJson, toJsonAll_eq_map]
      refine .arr fun v hv => ?_
      obtain ⟨t, ht, rfl⟩ := List.mem_map.mp hv
      exact ih t ht fun hlocations l hl => hshort hlocations l (mem_places_of_mem ht hl)

-- A document has no number that is too long except in locations.
theorem isShort_toJson_iff (h : slot.Holds t) (locations : Bool) :
    (t.toJson locations).isShort = true ↔
      (locations = true → ∀ l, .location l ∈ t.places → l.Short) := by
  induction h with
  | @one _ _ l fields _ hlocation hlength _ ih =>
      rw [toJson_node, Json.isShort_obj, isShort_memberList_iff hlength]
      constructor
      · rintro ⟨hplace, hfields⟩ hlocations l' hl'
        rcases List.mem_cons.mp hl' with hl' | hl'
        · obtain rfl := Tree.location.inj hl'
          exact hlocation.isShort_toJson_iff.mp (hplace hlocations)
        · rw [placesAll_eq_flatMap] at hl'
          obtain ⟨t, ht, hl'⟩ := List.mem_flatMap.mp hl'
          obtain ⟨p, hp, rfl⟩ := exists_mem_zip hlength ht
          exact (ih p hp).mp (hfields _ ht) hlocations l' hl'
      · refine fun h => ⟨fun hlocations => hlocation.isShort_toJson_iff.mpr ?_, fun t ht => ?_⟩
        · exact h hlocations l (List.mem_cons_self ..)
        · obtain ⟨p, hp, rfl⟩ := exists_mem_zip hlength ht
          exact (ih p hp).mpr fun hlocations l' hl' =>
            h hlocations l' (List.mem_cons_of_mem _ (mem_places_of_mem ht hl'))
  | some _ ih => exact ih
  | many _ ih =>
      rw [toJson, toJsonAll_eq_map, Json.isShort_arr, List.forall_mem_map, places]
      constructor
      · intro hitems hlocations l hl
        rw [placesAll_eq_flatMap] at hl
        obtain ⟨t, ht, hl⟩ := List.mem_flatMap.mp hl
        exact (ih t ht).mp (hitems t ht) hlocations l hl
      · exact fun h t ht => (ih t ht).mpr fun hlocations l hl => h hlocations l (mem_places_of_mem ht hl)
  | @direction d =>
      have hvalue : d.value < 10 ^ Json.mostDigits := Json.lt_pow_mostDigits (by cases d <;> decide)
      simp [toJson, Json.isShort, Json.haveShort, places, hvalue]
  | _ => simp [toJson, Json.isShort, Json.haveShort, places]

-- The order of members does not matter to reading.
theorem ofValue_ordered (h : slot.Holds t) :
    ofValue (t.toJson false).ordered = .ok (Relocation.forget.tree t) := by
  induction h with
  | text => rfl
  | flag => rfl
  | token => exact ofValue_ordered_token _
  | noToken => rfl
  | someToken => exact ofValue_ordered_token _
  | direction => exact ofValue_ordered_direction _
  | one _ _ hlength _ ih =>
      rw [toJson_node, Json.ordered_obj, Relocation.tree_node]
      refine (spells_of_lookup (Json.lookup_byName (nodup_memberList hlength)) rfl hlength
        (fun h => by cases h) fun t ht => ?_).ofValue
      obtain ⟨p, hp, rfl⟩ := exists_mem_zip hlength ht
      exact ih p hp
  | none => rfl
  | some _ ih => exact ih
  | @many _ ts _ ih =>
      have hitems : ofValues (ts.map fun t => (t.toJson false).ordered) = .ok _ := ofValues_map ih
      rw [toJson, toJsonAll_eq_map, Json.ordered_arr, List.map_map, Relocation.tree_tuple, ofValue]
      exact hitems ▸ rfl

-- Equal trees have the same document.
theorem toJson_eq_of_same (ht : slot.Holds t) (hu : slot.Holds u) (h : t.same u = true) :
    t.toJson false = u.toJson false := by
  induction ht generalizing u with
  | @text s =>
      cases hu with
      | @text s' =>
          have heq : s = s' := by simpa [same, Json.same] using h
          rw [heq]
  | @flag b =>
      cases hu with
      | @flag b' =>
          have heq : b = b' := by
            revert h
            cases b <;> cases b' <;> simp [same, Json.same, Json.toInt?]
          rw [heq]
  | @token k =>
      cases hu with
      | @token k' =>
          have heq : k = k' := by simpa [same] using h
          rw [heq]
  | noToken =>
      cases hu with
      | noToken => rfl
      | someToken => simp [same] at h
  | @someToken k =>
      cases hu with
      | noToken => simp [same] at h
      | @someToken k' =>
          have heq : k = k' := by simpa [same] using h
          rw [heq]
  | @direction d =>
      cases hu with
      | @direction d' =>
          have heq : d = d' := by simpa [same] using h
          rw [heq]
  | one _ _ hlength _ ih =>
      cases hu with
      | one _ _ _ hfields =>
          rw [same, Bool.and_eq_true, beq_iff_eq] at h
          obtain ⟨rfl, h⟩ := h
          rw [toJson_node, toJson_node, memberList, memberList]
          rw [map_eq_of_sameAll h fun p hp hsame => ?_]
          · rfl
          · obtain ⟨rule, ht, hu⟩ := exists_mem_zip_zip hlength hp
            exact ih _ ht (hfields _ hu) hsame
  | none =>
      cases hu with
      | none => rfl
      | some hu =>
          cases hu with
          | one => simp [same] at h
  | some ht ih =>
      cases hu with
      | none =>
          cases ht with
          | one => simp [same] at h
      | some hu => exact ih hu h
  | many hts ih =>
      cases hu with
      | many hus =>
          rw [same] at h
          rw [toJson, toJson, toJsonAll_eq_map, toJsonAll_eq_map, map_eq_of_sameAll h]
          intro p hp hsame
          obtain ⟨ht, hu⟩ := List.of_mem_zip hp
          exact ih _ ht (hus _ hu) hsame

end Slot.Holds

namespace Tree

-- Equal nodes are meant for the same places.
theorem holds_of_same {c : NodeClass} {a b : Tree} (ha : (Slot.one c).Holds a) (hb : b.Declared)
    (h : a.same b = true) : (Slot.one c).Holds b := by
  obtain ⟨d, hb⟩ := hb
  cases ha with
  | one hkind =>
      cases hb with
      | one _ hlocation hlength hfields =>
          rw [same, Bool.and_eq_true, beq_iff_eq] at h
          obtain ⟨rfl, -⟩ := h
          exact .one hkind hlocation hlength hfields

theorem documentIn?_merged (style : Json.Style) (locations : Bool) (t : Tree) :
    t.merged.documentIn? style locations = t.documentIn? style locations := by
  rw [documentIn?, toJson_merged, Json.textIn?_merged, documentIn?]

theorem isSome_documentIn?_iff {t : Tree} (h : t.Declared) (style : Json.Style) (locations : Bool) :
    (t.documentIn? style locations).isSome = true ↔
      (locations = true → ∀ l, .location l ∈ t.places → l.Short) := by
  obtain ⟨c, hholds⟩ := h
  rw [← hholds.isShort_toJson_iff locations, documentIn?, Json.textIn?]
  cases (t.toJson locations).isShort <;> simp

-- What the text of a document is read as.
theorem read_documentIn? {t : Tree} (h : t.Declared) {style : Json.Style} (hstyle : style.IsBlank)
    {locations : Bool} {text : Text} (htext : t.documentIn? style locations = some text) :
    (∀ c ∈ text.toList, c.toNat < 128) ∧
      Json.read text = .ok (t.merged.toJson locations).ordered := by
  have hshort := (isSome_documentIn?_iff h style locations).mp (by rw [htext]; rfl)
  obtain ⟨c, hholds⟩ := h
  have hregular := hholds.regular locations hshort
  have hwritten : text = Text.ofList (Json.write style 0 (t.toJson locations)) := by
    rw [documentIn?, Json.textIn?] at htext
    split at htext
    · exact (Option.some.inj htext).symm
    · cases htext
  rw [hwritten, toJson_merged]
  exact ⟨hregular.isAscii hstyle 0, hregular.read_write hstyle⟩

-- Trees whose documents without locations have one text are equal when their pairs are merged.
theorem same_of_documentIn?_eq {a b : Tree} (ha : a.Declared) (hb : b.Declared) {style : Json.Style}
    (hstyle : style.IsBlank) (h : a.documentIn? style false = b.documentIn? style false) :
    a.merged.same b.merged = true := by
  obtain ⟨text, htext⟩ := Option.isSome_iff_exists.mp
    ((isSome_documentIn?_iff ha style false).mpr (by simp))
  -- The text is read as one document, which is read as both trees without their places.
  have hread := (read_documentIn? ha hstyle htext).2
  rw [(read_documentIn? hb hstyle (h ▸ htext)).2] at hread
  obtain ⟨c, hholds⟩ := ha.merged
  obtain ⟨d, hholds'⟩ := hb.merged
  have hforget : Relocation.forget.tree a.merged = Relocation.forget.tree b.merged := by
    have hvalue := hholds.ofValue_ordered
    rw [← Except.ok.inj hread, hholds'.ofValue_ordered] at hvalue
    exact (Except.ok.inj hvalue).symm
  rw [← same_tree_left .forget, hforget]
  exact hholds'.same_tree .forget

-- Two trees have the same text of their documents without locations exactly where they are equal up to
-- pairs of surrogates, which are written as one character. The text, with or without locations, is
-- ASCII and is read back as the document, up to the same pairs. There is a text unless a number of a
-- location is too long to be written.
theorem documentIn_canonical {a b : Tree} (ha : a.Declared) (hb : b.Declared)
    (indent : Option Int) :
    (a.documentIn? (.ofIndent indent) false = b.documentIn? (.ofIndent indent) false ↔
        a.merged.same b.merged = true) ∧
      (∀ locations, ((a.documentIn? (.ofIndent indent) locations).isSome = true ↔
        (locations = true → ∀ l, .location l ∈ a.places → l.Short))) ∧
      (∀ locations text, a.documentIn? (.ofIndent indent) locations = some text →
        (∀ c ∈ text.toList, c.toNat < 128) ∧
          Json.read text = .ok (a.merged.toJson locations).ordered) ∧
      (a.merged = a ↔ ∀ s ∈ a.texts, s.Unpaired) := by
  have hstyle := Json.Style.isBlank_ofIndent indent
  refine ⟨⟨same_of_documentIn?_eq ha hb hstyle, fun hsame => ?_⟩, isSome_documentIn?_iff ha _,
    fun locations text htext => read_documentIn? ha hstyle htext, ?_⟩
  · obtain ⟨c, hdeclared⟩ := ha.merged
    have hdocument := hdeclared.toJson_eq_of_same (holds_of_same hdeclared hb.merged hsame) hsame
    rw [← documentIn?_merged, documentIn?, hdocument, ← documentIn?, documentIn?_merged]
  · obtain ⟨c, hdeclared⟩ := ha
    exact hdeclared.merged_eq_self_iff

-- A name beyond the basic plane, in two places.
theorem documentIn_canonical_ident :
    ∃ a b : Tree,
      a = .ident (.location ⟨.int 1, .int 2, .int (-3), .int 4, .str "\n.go"⟩) (.text "𝒳\"") ∧
      b = .ident (.location ⟨.int 5, .int 0, .int 7, .int 9, .null⟩) (.text "𝒳\"") ∧
      a.Declared ∧ b.Declared ∧
      a.documentIn? (.ofIndent (some 2)) false = b.documentIn? (.ofIndent (some 2)) false ∧
      ∃ text, a.documentIn? (.ofIndent (some 2)) true = some text ∧
        (∀ c ∈ text.toList, c.toNat < 128) ∧ Json.read text = .ok (a.toJson true).ordered := by
  have ha : Tree.Declared
      (.ident (.location ⟨.int 1, .int 2, .int (-3), .int 4, .str "\n.go"⟩) (.text "𝒳\"")) :=
    ⟨.expression, .one rfl (.mk 1 2 (-3) 4 (some "\n.go")) rfl
      (List.forall_mem_singleton.mpr .text)⟩
  have hb : Tree.Declared
      (.ident (.location ⟨.int 5, .int 0, .int 7, .int 9, .null⟩) (.text "𝒳\"")) :=
    ⟨.expression, .one rfl (.mk 5 0 7 9 none) rfl (List.forall_mem_singleton.mpr .text)⟩
  obtain ⟨hkey, hexists, hread, hmerged⟩ := documentIn_canonical ha hb (some 2)
  have hself : Tree.merged _ = _ := hmerged.mpr fun s hs => by
    simp only [texts, textsAll, List.cons_append, List.nil_append, List.mem_cons, List.not_mem_nil,
      or_false] at hs
    rcases hs with rfl | rfl <;> exact Text.unpaired_ofString _
  obtain ⟨text, htext⟩ := Option.isSome_iff_exists.mp ((hexists true).mpr fun _ l hl n hn => by
    obtain rfl := Tree.location.inj (List.mem_singleton.mp hl)
    simp only [List.mem_cons, Json.int.injEq, List.not_mem_nil, or_false] at hn
    exact Json.lt_pow_mostDigits (by omega))
  rw [hself] at hread
  exact ⟨_, _, rfl, rfl, ha, hb, hkey.mpr rfl, text, htext, hread true text htext⟩

-- A string literal that a text consists of.
def loneLiteral (endOffset : Int) (value : Text) : Tree :=
  .basicLit (.location ⟨.int 1, .int 1, .int 0, .int endOffset, .null⟩) (.token (.literal .Text))
    (.text value)

theorem merged_loneLiteral (endOffset : Int) (value : Text) :
    (loneLiteral endOffset value).merged = loneLiteral endOffset value.merged := rfl

theorem declared_loneLiteral (endOffset : Int) (value : Text) :
    (loneLiteral endOffset value).Declared :=
  ⟨.expression, .one rfl (.mk 1 1 0 endOffset none) rfl
    (List.forall_mem_cons.mpr ⟨.token, List.forall_mem_singleton.mpr .text⟩)⟩

-- A literal with the two surrogates of a pair, and the literal with the character they stand for: two
-- trees with one text, which is read as the second.
theorem documentIn_pair :
    ∃ a b : Tree,
      Fragment.expression.parse (.atMost 100)
        (.ofList ['"', .surrogate 0, .surrogate 1024, '"']) none = .ok a ∧
      Fragment.expression.parse (.atMost 100) (.ofList ['"', .ofNat 0x10000, '"']) none = .ok b ∧
      a.Declared ∧ b.Declared ∧ a.same b = false ∧
      a.documentIn? .compact false = b.documentIn? .compact false ∧
      ∃ text, a.documentIn? .compact false = some text ∧
        Json.read text = .ok (b.toJson false).ordered ∧
        (a.toJson false).ordered ≠ (b.toJson false).ordered := by
  have hpair : Text.merged (.ofList ['"', .surrogate 0, .surrogate 1024, '"']) =
      .ofList ['"', .ofNat 0x10000, '"'] := by decide
  have hmerged : ((loneLiteral 4 (.ofList ['"', .surrogate 0, .surrogate 1024, '"'])).merged).toJson
      false = (loneLiteral 3 (.ofList ['"', .ofNat 0x10000, '"'])).toJson false := by
    rw [merged_loneLiteral, hpair]
    rfl
  have ha := declared_loneLiteral 4 (.ofList ['"', .surrogate 0, .surrogate 1024, '"'])
  have hb := declared_loneLiteral 3 (.ofList ['"', .ofNat 0x10000, '"'])
  obtain ⟨text, htext⟩ := Option.isSome_iff_exists.mp
    ((isSome_documentIn?_iff ha .compact false).mpr (by simp))
  have hread := (read_documentIn? ha (Json.Style.isBlank_ofIndent none) htext).2
  rw [hmerged] at hread
  refine ⟨loneLiteral 4 (.ofList ['"', .surrogate 0, .surrogate 1024, '"']),
    loneLiteral 3 (.ofList ['"', .ofNat 0x10000, '"']), rfl, rfl, ha, hb, rfl, ?_, text, htext, hread,
    fun h => ?_⟩
  · rw [← documentIn?_merged, documentIn?, hmerged, documentIn?]
  · obtain ⟨c, ha⟩ := ha
    obtain ⟨d, hb⟩ := hb
    have hvalue := ha.ofValue_ordered
    rw [h, hb.ofValue_ordered] at hvalue
    have hsame := hb.same_tree .forget
    rw [Except.ok.inj hvalue, same_tree_left] at hsame
    cases hsame

end Tree

end GoCompact
