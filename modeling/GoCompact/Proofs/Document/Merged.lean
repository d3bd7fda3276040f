import GoCompact.Proofs.Document.Declared
import GoCompact.Proofs.Json.RoundTrip

namespace GoCompact

open CodePoint (char)

-- A text without two surrogates side by side that make a pair.
def Text.Unpaired (t : Text) : Prop := t.toList.IsChain fun c d => ¬ Json.IsPair c d

namespace Json

theorem joinPairs_of_isChain {cs : List CodePoint} (h : cs.IsChain fun c d => ¬ IsPair c d) :
    joinPairs cs = cs := by
  induction cs using joinPairs.induct with
  | case1 c d rest hpair ih => exact absurd hpair (List.isChain_cons_cons.mp h).1
  | case2 c d rest hpair ih => rw [joinPairs, if_neg hpair, ih (List.isChain_cons_cons.mp h).2]
  | case3 c => rfl
  | case4 => rfl

theorem length_joinPairs_le (cs : List CodePoint) : (joinPairs cs).length ≤ cs.length := by
  induction cs using joinPairs.induct with
  | case1 c d rest hpair ih =>
      rw [joinPairs, if_pos hpair]
      simp only [List.length_cons]
      omega
  | case2 c d rest hpair ih =>
      rw [joinPairs, if_neg hpair]
      simpa using ih
  | case3 c => exact le_refl _
  | case4 => exact le_refl _

-- A pair that is merged is lost: the text becomes shorter.
theorem isChain_of_joinPairs {cs : List CodePoint} (h : joinPairs cs = cs) :
    cs.IsChain fun c d => ¬ IsPair c d := by
  induction cs using joinPairs.induct with
  | case1 c d rest hpair ih =>
      rw [joinPairs, if_pos hpair] at h
      have hlength := congrArg List.length h
      have hle := length_joinPairs_le rest
      simp only [List.length_cons] at hlength
      omega
  | case2 c d rest hpair ih =>
      rw [joinPairs, if_neg hpair] at h
      exact List.isChain_cons_cons.mpr ⟨hpair, ih (List.cons.inj h).2⟩
  | case3 c => exact .singleton c
  | case4 => exact .nil

-- A pair is written as the character that it stands for.
theorem escapeChar_joinSurrogates {c d : CodePoint} (h : IsPair c d) :
    escapeChar (.ofNat (joinSurrogates c.toNat d.toNat)) = escapeChar c ++ escapeChar d := by
  obtain ⟨hc, hd⟩ := isPair_iff.mp h
  have hmerged : (CodePoint.ofNat (joinSurrogates c.toNat d.toNat)).toNat =
      0x10000 + (c.toNat - 0xD800) * 0x400 + (d.toNat - 0xDC00) :=
    CodePoint.toNat_ofNat (by unfold joinSurrogates; omega)
  generalize CodePoint.ofNat (joinSurrogates c.toNat d.toNat) = e at hmerged ⊢
  have hhigh : 0xD800 + (e.toNat - 0x10000) / 0x400 = c.toNat := by omega
  have hlow : 0xDC00 + (e.toNat - 0x10000) % 0x400 = d.toNat := by omega
  rw [escapeChar_of_not_special (not_special_of_le (by omega)), if_neg (by omega), if_neg (by omega),
    escapeChar_of_not_special (not_special_of_le (by omega)), if_neg (by omega), if_pos (by omega),
    escapeChar_of_not_special (not_special_of_le (by omega)), if_neg (by omega), if_pos (by omega), hhigh,
    hlow]

theorem flatMap_joinPairs (cs : List CodePoint) :
    (joinPairs cs).flatMap escapeChar = cs.flatMap escapeChar := by
  induction cs using joinPairs.induct with
  | case1 c d rest hpair ih =>
      rw [joinPairs, if_pos hpair, List.flatMap_cons, List.flatMap_cons, List.flatMap_cons, ih,
        escapeChar_joinSurrogates hpair, List.append_assoc]
  | case2 c d rest hpair ih =>
      rw [joinPairs, if_neg hpair, List.flatMap_cons, ih]
      rfl
  | case3 c => rfl
  | case4 => rfl

theorem writeString_merged (s : Text) : writeString s.merged = writeString s := by
  simp only [writeString, Text.merged, flatMap_joinPairs]

-- Joining pairs changes nothing in what is written.
theorem write_merged (style : Style) (v : Json) (depth : Nat) :
    write style depth v.merged = write style depth v := by
  induction v using merged.induct
    (motive_2 := fun members => ∀ depth,
      writeMembers style depth (mergedMembers members) = writeMembers style depth members)
    (motive_3 := fun items => ∀ depth,
      writeItems style depth (mergedItems items) = writeItems style depth items)
    generalizing depth with
  | case1 s => exact writeString_merged s
  | case2 items ih => rw [merged, write, write, ih]
  | case3 members ih => rw [merged, write, write, ih]
  | case4 v hstr harr hobj => cases v <;> first | rfl | simp_all
  | case5 depth => rfl
  | case6 v vs hv hvs depth => rw [mergedItems, writeItems, writeItems, hv, hvs]
  | case7 depth => rfl
  | case8 name v rest hv hrest depth => rw [mergedMembers, writeMembers, writeMembers, hv, hrest]

theorem isShort_merged (v : Json) : v.merged.isShort = v.isShort := by
  induction v using merged.induct
    (motive_2 := fun members => haveShort (mergedMembers members) = haveShort members)
    (motive_3 := fun items => areShort (mergedItems items) = areShort items) with
  | case1 s => rfl
  | case2 items ih => exact ih
  | case3 members ih => exact ih
  | case4 v hstr harr hobj => cases v <;> first | rfl | simp_all
  | case5 => rfl
  | case6 v vs hv hvs => rw [mergedItems, areShort, areShort, hv, hvs]
  | case7 => rfl
  | case8 name v rest hv hrest => rw [mergedMembers, haveShort, haveShort, hv, hrest]

theorem textIn?_merged (style : Style) (v : Json) : v.merged.textIn? style = v.textIn? style := by
  rw [textIn?, textIn?, isShort_merged, write_merged]

theorem isShort_arr {items : List Json} :
    (Json.arr items).isShort = true ↔ ∀ v ∈ items, v.isShort = true := by
  rw [isShort]
  induction items with
  | nil => simp [areShort]
  | cons v vs ih => rw [areShort, Bool.and_eq_true, ih, List.forall_mem_cons]

theorem isShort_obj {members : List (Text × Json)} :
    (Json.obj members).isShort = true ↔ ∀ m ∈ members, m.2.isShort = true := by
  rw [isShort]
  induction members with
  | nil => simp [haveShort]
  | cons m ms ih => rw [haveShort, Bool.and_eq_true, ih, List.forall_mem_cons]

end Json

namespace Text

theorem merged_eq_self_iff {t : Text} : t.merged = t ↔ t.Unpaired := by
  rw [← toList_inj]
  exact ⟨Json.isChain_of_joinPairs, Json.joinPairs_of_isChain⟩

-- No character is half of a pair.
theorem unpaired_ofString (s : String) : (ofString s).Unpaired := by
  have hchar : ∀ (c : Char) (d : CodePoint), ¬ Json.IsPair (char c) d := by
    intro c d hpair
    have hc := (Json.isPair_iff.mp hpair).1
    have hvalid : c.toNat < 0xD800 ∨ 0xDFFF < c.toNat ∧ c.toNat < 0x110000 := c.valid
    rw [CodePoint.toNat_char] at hc
    omega
  rw [Unpaired, toList_ofString, List.isChain_map]
  induction s.toList with
  | nil => exact .nil
  | cons c cs ih =>
      cases cs with
      | nil => exact .singleton c
      | cons d ds => exact .cons_cons (hchar c _) ih

@[simp]
theorem merged_ofString (s : String) : (ofString s).merged = ofString s :=
  merged_eq_self_iff.mpr (unpaired_ofString s)

end Text

namespace NodeKind

theorem merged_name (k : NodeKind) : k.name.merged = k.name := by
  cases k <;> exact Text.merged_ofString _

theorem merged_fieldName {k : NodeKind} {rule : FieldRule} (h : rule ∈ k.fields) :
    rule.name.merged = rule.name := by
  revert rule
  cases k <;> simp [NodeKind.fields, FieldRule.text, FieldRule.token, FieldRule.flag,
    FieldRule.one, FieldRule.given, FieldRule.optional, FieldRule.many, FieldRule.anyNumber]

end NodeKind

theorem TokenKind.merged_name (k : TokenKind) : k.name.merged = k.name := by
  cases k with
  | eof => exact Text.merged_ofString _
  | ident => exact Text.merged_ofString _
  | literal l => cases l <;> exact Text.merged_ofString _
  | op o => cases o <;> exact Text.merged_ofString _
  | word w => cases w <;> exact Text.merged_ofString _

def Location.merged (l : Location) : Location :=
  ⟨l.line.merged, l.column.merged, l.offset.merged, l.endOffset.merged, l.file.merged⟩

theorem Location.toJson_merged (l : Location) : l.merged.toJson = l.toJson.merged := by
  simp [toJson, merged, Json.merged, Json.mergedMembers]

namespace Tree

mutual

-- A tree with the pairs of surrogates in all its texts merged.
def merged : Tree → Tree
  | .datum v => .datum v.merged
  | .tuple items => .tuple (mergedAll items)
  | .location l => .location l.merged
  | .node kind place fields => .node kind (merged place) (mergedAll fields)
  | t => t

def mergedAll : List Tree → List Tree
  | [] => []
  | t :: ts => merged t :: mergedAll ts

end

theorem mergedAll_eq_map (ts : List Tree) : mergedAll ts = ts.map merged := by
  induction ts with
  | nil => rfl
  | cons t ts ih => rw [mergedAll, ih, List.map_cons]

theorem merged_tuple (items : List Tree) : (Tree.tuple items).merged = .tuple (items.map merged) := by
  rw [merged, mergedAll_eq_map]

theorem merged_node (k : NodeKind) (place : Tree) (fields : List Tree) :
    (Tree.node k place fields).merged = .node k place.merged (fields.map merged) := by
  rw [merged, mergedAll_eq_map]

theorem memberList_merged {locations : Bool} {k : NodeKind} {place place' : Tree} {ts us : List Tree}
    (hplace : place'.toJson locations = (place.toJson locations).merged)
    (hfields : us.map (toJson locations) = ts.map fun t => (t.toJson locations).merged) :
    memberList locations k place' us =
      (memberList locations k place ts).map fun m => (m.1, m.2.merged) := by
  have hzip : (k.fieldNames.zip (ts.map (toJson locations))).map (fun m => (m.1, m.2.merged)) =
      k.fieldNames.zip (us.map (toJson locations)) := by
    rw [hfields, List.zip_map_right, List.zip_map_right, List.map_map]
    rfl
  rw [memberList, memberList, List.map_cons, List.map_append, hzip, hplace, Json.merged, k.merged_name]
  cases locations <;> rfl

-- The document of a tree with its pairs merged is the document with its pairs merged.
theorem toJson_merged (locations : Bool) (t : Tree) :
    t.merged.toJson locations = (t.toJson locations).merged := by
  induction t using merged.induct
    (motive_2 := fun ts => (mergedAll ts).map (toJson locations) =
      ts.map fun t => (t.toJson locations).merged) with
  | case1 v => rfl
  | case2 items ih =>
      rw [merged, toJson, toJson, toJsonAll_eq_map, toJsonAll_eq_map, Json.merged_arr, ih, List.map_map]
      rfl
  | case3 l => exact l.toJson_merged
  | case4 k place fields hplace hfields =>
      rw [merged, toJson_node, toJson_node, Json.merged_obj, memberList_merged hplace hfields]
  | case5 t hdatum htuple hlocation hnode =>
      cases t with
      | token k => simp [merged, toJson, Json.merged, Json.mergedMembers, k.merged_name]
      | direction d => simp [merged, toJson, Json.merged, Json.mergedMembers]
      | _ => simp_all
  | case6 => rfl
  | case7 t ts ht hts => rw [mergedAll, List.map_cons, ht, hts, List.map_cons]

end Tree

theorem Location.Declared.merged {l : Location} (h : l.Declared) : l.merged.Declared := by
  cases h with
  | mk line column offset endOffset file =>
      cases file with
      | none => exact .mk line column offset endOffset none
      | some s => exact .mk line column offset endOffset (some s.merged)

namespace Tree

mutual

-- The texts in the fields and the locations of a tree.
def texts : Tree → List Text
  | .datum (.str s) => [s]
  | .tuple items => textsAll items
  | .location l =>
    match l.file with
    | .str s => [s]
    | _ => []
  | .node _ place fields => texts place ++ textsAll fields
  | _ => []

def textsAll : List Tree → List Text
  | [] => []
  | t :: ts => texts t ++ textsAll ts

end

theorem textsAll_eq_flatMap (ts : List Tree) : textsAll ts = ts.flatMap texts := by
  induction ts with
  | nil => rfl
  | cons t ts ih => rw [textsAll, ih, List.flatMap_cons]

theorem map_merged_eq_self_iff {ts : List Tree}
    (h : ∀ t ∈ ts, (t.merged = t ↔ ∀ s ∈ t.texts, s.Unpaired)) :
    ts.map merged = ts ↔ ∀ s ∈ textsAll ts, s.Unpaired := by
  have hmap : ts.map merged = ts ↔ ∀ t ∈ ts, t.merged = t := by
    conv => lhs; rhs; rw [← List.map_id ts]
    exact List.map_inj_left
  rw [hmap, textsAll_eq_flatMap, List.forall_mem_flatMap]
  exact forall₂_congr h

end Tree

theorem Location.Declared.merged_eq_self_iff {l : Location} (h : l.Declared) :
    (Tree.location l).merged = .location l ↔ ∀ s ∈ (Tree.location l).texts, s.Unpaired := by
  cases h with
  | mk line column offset endOffset file =>
      cases file with
      | none => simp [Tree.merged, Location.merged, Json.merged, Tree.texts]
      | some s => simp [Tree.merged, Location.merged, Json.merged, Tree.texts, Text.merged_eq_self_iff]

namespace Slot.Holds

open GoCompact.Tree

variable {slot : Slot} {t : Tree}

theorem merged (h : slot.Holds t) : slot.Holds t.merged := by
  induction h with
  | text => exact .text
  | flag => exact .flag
  | token => exact .token
  | noToken => exact .noToken
  | someToken => exact .someToken
  | direction => exact .direction
  | one hkind hlocation hlength _ ih =>
      rw [merged_node]
      refine .one hkind hlocation.merged (by rw [List.length_map, hlength]) fun p hp => ?_
      rw [List.zip_map_right, List.mem_map] at hp
      obtain ⟨q, hq, rfl⟩ := hp
      exact ih q hq
  | none => exact .none
  | some _ ih => exact .some ih
  | many _ ih =>
      rw [merged_tuple]
      exact .many (List.forall_mem_map.mpr ih)

-- Joining changes just the trees in which two surrogates side by side make a pair.
theorem merged_eq_self_iff (h : slot.Holds t) : t.merged = t ↔ ∀ s ∈ t.texts, s.Unpaired := by
  induction h with
  | @text s => simp [Tree.merged, Json.merged, texts, Text.merged_eq_self_iff]
  | one _ hlocation hlength _ ih =>
      have hfields := map_merged_eq_self_iff fun t ht => by
        obtain ⟨p, hp, rfl⟩ := exists_mem_zip hlength ht
        exact ih p hp
      rw [merged_node, texts, List.forall_mem_append, ← hfields, ← hlocation.merged_eq_self_iff,
        Tree.node.injEq]
      exact and_iff_right rfl
  | some _ ih => exact ih
  | many _ ih => rw [merged_tuple, texts, ← map_merged_eq_self_iff ih, Tree.tuple.injEq]
  | _ => simp [Tree.merged, Json.merged, texts]

end Slot.Holds

namespace Tree

theorem Declared.merged {t : Tree} (h : t.Declared) : t.merged.Declared := by
  obtain ⟨c, hholds⟩ := h
  exact ⟨c, hholds.merged⟩

end Tree

end GoCompact
