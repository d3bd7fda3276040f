import GoCompact.Proofs.Json.Scalar

namespace GoCompact.Json

open CodePoint (char)

-- Values without fractions, whose whole numbers are not too long and whose members have names of
-- their own, without pairs of surrogates.
inductive Regular : Json → Prop
  | null : Regular .null
  | bool {b : Bool} : Regular (.bool b)
  | int {n : Int} (h : n.natAbs < 10 ^ mostDigits) : Regular (.int n)
  | str {s : Text} : Regular (.str s)
  | arr {items : List Json} (h : ∀ v ∈ items, Regular v) : Regular (.arr items)
  | obj {members : List (Text × Json)} (hnames : (members.map Prod.fst).Nodup)
      (hmerged : ∀ m ∈ members, m.1.merged = m.1) (h : ∀ m ∈ members, Regular m.2) :
      Regular (.obj members)

-- Members in the order of their names.
def byName (members : List (Text × Json)) : List (Text × Json) :=
  members.mergeSort fun a b => inOrder a.1.toList b.1.toList

theorem byName_perm (members : List (Text × Json)) : (byName members).Perm members :=
  List.mergeSort_perm ..

mutual

-- A value with the members of all its objects in order.
def ordered : Json → Json
  | .arr items => .arr (orderedItems items)
  | .obj members => .obj (byName (orderedMembers members))
  | v => v

def orderedItems : List Json → List Json
  | [] => []
  | v :: vs => ordered v :: orderedItems vs

def orderedMembers : List (Text × Json) → List (Text × Json)
  | [] => []
  | (name, v) :: rest => (name, ordered v) :: orderedMembers rest

end

theorem ordered_arr (items : List Json) : ordered (.arr items) = .arr (items.map ordered) := by
  rw [ordered]
  congr 1
  induction items with
  | nil => rfl
  | cons v vs ih => rw [orderedItems, ih, List.map_cons]

theorem orderedMembers_eq_map (members : List (Text × Json)) :
    orderedMembers members = members.map fun m => (m.1, m.2.ordered) := by
  induction members with
  | nil => rfl
  | cons m rest ih => rw [orderedMembers, ih, List.map_cons]

theorem ordered_obj (members : List (Text × Json)) :
    ordered (.obj members) = .obj ((byName members).map fun m => (m.1, m.2.ordered)) := by
  have hsort : (byName members).map (fun m => (m.1, m.2.ordered)) =
      byName (members.map fun m => (m.1, m.2.ordered)) :=
    List.map_mergeSort fun _ _ _ _ => rfl
  rw [ordered, orderedMembers_eq_map, hsort]

mutual

-- A value with the pairs of surrogates in all its texts merged, but not in names.
def merged : Json → Json
  | .str s => .str s.merged
  | .arr items => .arr (mergedItems items)
  | .obj members => .obj (mergedMembers members)
  | v => v

def mergedItems : List Json → List Json
  | [] => []
  | v :: vs => merged v :: mergedItems vs

def mergedMembers : List (Text × Json) → List (Text × Json)
  | [] => []
  | (name, v) :: rest => (name, merged v) :: mergedMembers rest

end

theorem merged_arr (items : List Json) : merged (.arr items) = .arr (items.map merged) := by
  rw [merged]
  congr 1
  induction items with
  | nil => rfl
  | cons v vs ih => rw [mergedItems, ih, List.map_cons]

theorem merged_obj (members : List (Text × Json)) :
    merged (.obj members) = .obj (members.map fun m => (m.1, m.2.merged)) := by
  rw [merged]
  congr 1
  induction members with
  | nil => rfl
  | cons m rest ih => rw [mergedMembers, ih, List.map_cons]

-- What a list and an object are read back as.
theorem reread_arr (items : List Json) :
    (merged (.arr items)).ordered = .arr (items.map fun v => v.merged.ordered) := by
  rw [merged_arr, ordered_arr, List.map_map]
  rfl

theorem reread_obj (members : List (Text × Json)) :
    (merged (.obj members)).ordered =
      .obj ((byName members).map fun m => (m.1, m.2.merged.ordered)) := by
  have hsort : (byName members).map (fun m => (m.1, m.2.merged)) =
      byName (members.map fun m => (m.1, m.2.merged)) :=
    List.map_mergeSort fun _ _ _ _ => rfl
  rw [merged_obj, ordered_obj, ← hsort, List.map_map]
  rfl

-- A member as it is written.
def writeMember (style : Style) (depth : Nat) (m : Text × Json) : List CodePoint :=
  writeString m.1 ++ [char ':', char ' '] ++ write style depth m.2

theorem write_arr (style : Style) (depth : Nat) (items : List Json) :
    write style depth (.arr items) =
      style.enclose '[' ']' depth (items.map (write style (depth + 1))) := by
  rw [write]
  congr 1
  induction items with
  | nil => rfl
  | cons v vs ih => rw [writeItems, ih, List.map_cons]

theorem writeMembers_eq_map (style : Style) (depth : Nat) (members : List (Text × Json)) :
    writeMembers style depth members =
      members.map fun m => (m.1.toList, write style depth m.2) := by
  induction members with
  | nil => rfl
  | cons m rest ih => rw [writeMembers, ih, List.map_cons]

theorem write_obj (style : Style) (depth : Nat) (members : List (Text × Json)) :
    write style depth (.obj members) =
      style.enclose '{' '}' depth ((byName members).map (writeMember style (depth + 1))) := by
  have hsort : (byName members).map (fun m => (m.1.toList, write style (depth + 1) m.2)) =
      (members.map fun m => (m.1.toList, write style (depth + 1) m.2)).mergeSort
        fun a b => inOrder a.1 b.1 :=
    List.map_mergeSort fun _ _ _ _ => rfl
  rw [write, writeMembers_eq_map, ← hsort, List.map_map]
  rfl

-- A text that begins neither with a blank nor with what closes a container.
def Opens (cs : List CodePoint) : Prop :=
  ∃ c rest, cs = c :: rest ∧ isBlank c = false ∧ c ≠ ']' ∧ c ≠ '}'

theorem Opens.append {cs : List CodePoint} (h : Opens cs) (rest : List CodePoint) :
    Opens (cs ++ rest) := by
  obtain ⟨c, r, rfl, hc⟩ := h
  exact ⟨c, r ++ rest, rfl, hc⟩

theorem skipBlanks_append {bs cs : List CodePoint} (hb : ∀ b ∈ bs, isBlank b = true) :
    skipBlanks (bs ++ cs) = skipBlanks cs :=
  List.dropWhile_append_of_pos hb

theorem Opens.skipBlanks {cs : List CodePoint} (h : Opens cs) : Json.skipBlanks cs = cs := by
  obtain ⟨c, r, rfl, hc, -⟩ := h
  rw [Json.skipBlanks, List.dropWhile_cons_of_neg (by simp [hc])]

theorem opens_writeString (s : Text) : Opens (writeString s) :=
  ⟨_, _, rfl, by decide, by decide, by decide⟩

theorem opens_of_isDigit {c : CodePoint} (cs : List CodePoint) (h : c.isDigit = true) :
    Opens (c :: cs) := by
  refine ⟨c, cs, rfl, ?_, ?_, ?_⟩
  · rw [← Bool.not_eq_true]
    intro hblank
    simp only [isBlank, Bool.or_eq_true, beq_iff_eq] at hblank
    rcases hblank with ((rfl | rfl) | rfl) | rfl <;> exact absurd h (by decide)
  · rintro rfl
    exact absurd h (by decide)
  · rintro rfl
    exact absurd h (by decide)

-- The digits of a number begin with one.
theorem exists_decimal (n : Nat) : ∃ d ds, decimal n = d :: ds ∧ d.isDigit = true := by
  cases h : decimal n with
  | nil => exact absurd h decimal_ne_nil
  | cons d ds => exact ⟨d, ds, rfl, isDigit_of_mem_decimal (n := n) (by simp [h])⟩

theorem toList_repr (n : Nat) : Text.toList n.repr = decimal n := by
  rw [Text.toList_ofString, Nat.repr_eq_ofList_toDigits, String.toList_ofList, decimal]

theorem toList_toString (n : Int) :
    Text.toList (toString n) = decimal n.natAbs ∧ 0 ≤ n ∨
      Text.toList (toString n) = char '-' :: decimal n.natAbs ∧ n < 0 := by
  cases n with
  | ofNat n => exact .inl ⟨toList_repr n, Int.natCast_nonneg n⟩
  | negSucc n =>
      refine .inr ⟨?_, Int.negSucc_lt_zero n⟩
      change Text.toList ("-" ++ (n + 1).repr : String) = _
      rw [Text.toList_ofString, String.toList_append, List.map_append,
        ← Text.toList_ofString (w := (n + 1).repr), toList_repr]
      rfl

theorem opens_enclose (style : Style) {opening closing : CodePoint} (depth : Nat)
    (items : List (List CodePoint)) (h : Opens [opening]) :
    Opens (style.enclose opening closing depth items) := by
  cases items with
  | nil => exact h.append [closing]
  | cons x xs => exact (h.append _).append _

theorem Regular.opens {v : Json} (h : v.Regular) (style : Style) (depth : Nat) :
    Opens (write style depth v) := by
  cases h with
  | null => exact ⟨'n', _, rfl, by decide, by decide, by decide⟩
  | @bool b =>
      cases b with
      | true => exact ⟨'t', _, rfl, by decide, by decide, by decide⟩
      | false => exact ⟨'f', _, rfl, by decide, by decide, by decide⟩
  | @int n =>
      obtain ⟨d, ds, hds, hd⟩ := exists_decimal n.natAbs
      rw [write]
      rcases toList_toString n with ⟨htext, -⟩ | ⟨htext, -⟩
      · rw [htext, hds]
        exact opens_of_isDigit ds hd
      · rw [htext]
        exact ⟨'-', _, rfl, by decide, by decide, by decide⟩
  | @str s => exact opens_writeString s
  | arr => exact write_arr .. ▸ opens_enclose _ _ _ ⟨_, _, rfl, by decide, by decide, by decide⟩
  | obj => exact write_obj .. ▸ opens_enclose _ _ _ ⟨_, _, rfl, by decide, by decide, by decide⟩

-- A whole number is read as it was written.
theorem scalar_toString {n : Int} (hn : n.natAbs < 10 ^ mostDigits) {rest : List CodePoint}
    (h : Closes rest) : scalar (Text.toList (toString n) ++ rest) = .ok (.int n, rest) := by
  obtain ⟨d, ds, hds, hd⟩ := exists_decimal n.natAbs
  have hne : ∀ c, c.isDigit = false → d ≠ c := by
    rintro c hc rfl
    rw [hd] at hc
    cases hc
  rcases toList_toString n with ⟨htext, hsign⟩ | ⟨htext, hsign⟩
  · have hnumber := number_decimal false n.natAbs hn h
    rw [htext]
    rw [hds] at hnumber ⊢
    have hscalar : scalar (d :: ds ++ rest) = number false (d :: ds ++ rest) := by
      unfold scalar
      split <;> simp_all
    rw [hscalar, hnumber]
    simp [abs_of_nonneg hsign]
  · have hnumber := number_decimal true n.natAbs hn h
    rw [htext]
    rw [hds] at hnumber ⊢
    have hscalar : scalar (char '-' :: (d :: ds) ++ rest) = number true (d :: ds ++ rest) := by
      unfold scalar
      split <;> simp_all
    rw [hscalar, hnumber]
    simp [abs_of_neg hsign]

-- Layouts whose indent is made of blanks.
def Style.IsBlank : Style → Prop
  | .compact => True
  | .indented indent => ∀ c ∈ indent, isBlank c = true

theorem Style.IsBlank.lineAt {style : Style} (h : style.IsBlank) (depth : Nat) :
    ∀ c ∈ style.lineAt depth, isBlank c = true := by
  cases style with
  | compact => simp [Style.lineAt]
  | indented indent =>
      intro c hc
      rcases List.mem_cons.mp hc with rfl | hc
      · decide
      · obtain ⟨line, hline, hc⟩ := List.mem_flatten.mp hc
        rw [(List.mem_replicate.mp hline).2] at hc
        exact h c hc

theorem Style.IsBlank.comma {style : Style} (h : style.IsBlank) (depth : Nat) :
    ∃ bs, style.comma depth = char ',' :: bs ∧ ∀ b ∈ bs, isBlank b = true := by
  cases style with
  | compact => exact ⟨[' '], rfl, List.forall_mem_singleton.mpr rfl⟩
  | indented indent => exact ⟨_, rfl, h.lineAt depth⟩

-- A value is read up to its end, given enough calls for its length.
def ReadsBack (style : Style) (depth : Nat) (v : Json) : Prop :=
  ∀ bound rest, 2 * (write style depth v).length ≤ bound → Closes rest →
    value bound (write style depth v ++ rest) = .ok (v.merged.ordered, rest)

theorem closes_of_mem {c : CodePoint} (rest : List CodePoint)
    (h : c ∈ [char ' ', '\t', '\n', '\r', ',', ']', '}']) : Closes (c :: rest) := by
  intro d hd
  obtain rfl : c = d := Option.some.inj hd
  simp only [List.mem_cons, List.not_mem_nil, or_false] at h
  rcases h with rfl | rfl | rfl | rfl | rfl | rfl | rfl <;> decide

-- After the last item of a container comes a blank or what closes it.
theorem closes_of_blanks {bs : List CodePoint} (hb : ∀ b ∈ bs, isBlank b = true) {c : CodePoint}
    (hc : c = ']' ∨ c = '}') (rest : List CodePoint) : Closes (bs ++ c :: rest) := by
  cases bs with
  | nil => exact closes_of_mem rest (by rcases hc with rfl | rfl <;> decide)
  | cons b bs =>
      refine closes_of_mem _ ?_
      have hblank := hb b (by simp)
      simp only [isBlank, Bool.or_eq_true, beq_iff_eq] at hblank
      rcases hblank with ((rfl | rfl) | rfl) | rfl <;> decide

theorem Opens.intercalate {cs : List CodePoint} (h : Opens cs) (separator : List CodePoint)
    (others : List (List CodePoint)) : Opens (separator.intercalate (cs :: others)) := by
  cases others with
  | nil => exact List.intercalate_singleton ▸ h
  | cons next others =>
      rw [List.intercalate_cons_cons, List.append_assoc]
      exact h.append _

theorem intercalate_map_cons {α : Type} (separator : List CodePoint) (f : α → List CodePoint) (x y : α)
    (zs : List α) :
    separator.intercalate ((x :: y :: zs).map f) =
      f x ++ separator ++ separator.intercalate ((y :: zs).map f) :=
  List.intercalate_cons_cons

-- The items of a list are read up to what closes it.
theorem items_write {style : Style} (hstyle : style.IsBlank) {depth : Nat} {v : Json}
    {vs : List Json} (hopens : ∀ w ∈ v :: vs, Opens (write style depth w))
    (hreads : ∀ w ∈ v :: vs, ReadsBack style depth w) (bound : Nat) {tail rest : List CodePoint}
    (hbound : 2 * ((style.comma depth).intercalate
      ((v :: vs).map (write style depth))).length < bound)
    (htail : skipBlanks tail = char ']' :: rest) (hcloses : Closes tail) :
    items bound ((style.comma depth).intercalate ((v :: vs).map (write style depth)) ++ tail) =
      .ok ((v :: vs).map fun w => w.merged.ordered, rest) := by
  induction vs generalizing v bound with
  | nil =>
      obtain ⟨b, rfl⟩ : ∃ b, bound = b + 1 := ⟨bound - 1, by omega⟩
      rw [List.map_singleton, List.intercalate_singleton] at hbound ⊢
      rw [items, hreads v (by simp) b tail (by omega) hcloses]
      simp only [bind, Except.bind, htail]
      rfl
  | cons w ws ih =>
      obtain ⟨b, rfl⟩ : ∃ b, bound = b + 1 := ⟨bound - 1, by omega⟩
      obtain ⟨bs, hcomma, hbs⟩ := hstyle.comma depth
      obtain ⟨hv, hvs⟩ := List.forall_mem_cons.mp hreads
      obtain ⟨-, hopens⟩ := List.forall_mem_cons.mp hopens
      have hnext := (hopens w (by simp)).intercalate (style.comma depth)
        (ws.map (write style depth))
      rw [← List.map_cons] at hnext
      have ih := ih hopens hvs b
      rw [intercalate_map_cons] at hbound ⊢
      generalize (style.comma depth).intercalate ((w :: ws).map (write style depth)) = others
        at hbound hnext ih ⊢
      rw [hcomma, List.length_append, List.length_append, List.length_cons] at hbound
      have hskip : skipBlanks (bs ++ (others ++ tail)) = others ++ tail := by
        rw [skipBlanks_append hbs, (hnext.append tail).skipBlanks]
      rw [hcomma, List.append_assoc, List.append_assoc, List.cons_append, items,
        hv b _ (by omega) (closes_of_mem _ (by decide))]
      have hmark : skipBlanks (char ',' :: (bs ++ (others ++ tail))) =
          char ',' :: (bs ++ (others ++ tail)) := rfl
      simp only [bind, Except.bind, hmark, hskip, ih (by omega)]
      rfl

-- Members of new names are added at the end.
theorem setMember_of_not_mem {members : List (Text × Json)} {name : Text} (v : Json)
    (h : name ∉ members.map Prod.fst) : setMember members name v = members ++ [(name, v)] := by
  induction members with
  | nil => rfl
  | cons m rest ih =>
      rw [List.map_cons, List.mem_cons, not_or] at h
      rw [setMember, if_neg (Ne.symm h.1), ih h.2, List.cons_append]

theorem opens_writeMember (style : Style) (depth : Nat) (m : Text × Json) :
    Opens (writeMember style depth m) :=
  ((opens_writeString m.1).append _).append _

-- A member is read up to what follows its value, which is what decides how the object goes on.
theorem members_writeMember {style : Style} {depth : Nat} {m : Text × Json}
    (hopens : Opens (write style depth m.2)) (hreads : ReadsBack style depth m.2)
    (hmerged : m.1.merged = m.1) {bound : Nat}
    {rest : List CodePoint} (before : List (Text × Json))
    (hbound : 2 * (writeMember style depth m).length ≤ bound) (hcloses : Closes rest) :
    members (bound + 1) before (writeMember style depth m ++ rest) =
      (match skipBlanks rest with
        | '}' :: rest => .ok (setMember before m.1 m.2.merged.ordered, rest)
        | ',' :: rest => members bound (setMember before m.1 m.2.merged.ordered) (skipBlanks rest)
        | _ => .error .malformed) := by
  have htext : writeMember style depth m ++ rest =
      char '"' :: (m.1.toList.flatMap escapeChar ++ char '"' :: ':' :: ' ' ::
        (write style depth m.2 ++ rest)) := by
    simp [writeMember, writeString]
  have hlength : (write style depth m.2).length ≤ (writeMember style depth m).length := by
    simp only [writeMember, List.length_append]
    omega
  have hcolon : skipBlanks (char ':' :: ' ' :: (write style depth m.2 ++ rest)) =
      char ':' :: ' ' :: (write style depth m.2 ++ rest) := rfl
  have hskip : skipBlanks (char ' ' :: (write style depth m.2 ++ rest)) =
      write style depth m.2 ++ rest := (hopens.append rest).skipBlanks
  rw [htext, members, readString_writeString, hmerged]
  simp only [bind, Except.bind, hcolon, hskip, hreads bound rest (by omega) hcloses]
  rfl

-- The members of an object are read up to what closes it.
theorem members_write {style : Style} (hstyle : style.IsBlank) {depth : Nat} {m : Text × Json}
    {ms : List (Text × Json)} (hopens : ∀ n ∈ m :: ms, Opens (write style depth n.2))
    (hreads : ∀ n ∈ m :: ms, ReadsBack style depth n.2)
    (hmerged : ∀ n ∈ m :: ms, n.1.merged = n.1) (bound : Nat) (before : List (Text × Json))
    {tail rest : List CodePoint}
    (hnames : (before.map Prod.fst ++ (m :: ms).map Prod.fst).Nodup)
    (hbound : 2 * ((style.comma depth).intercalate
      ((m :: ms).map (writeMember style depth))).length < bound)
    (htail : skipBlanks tail = char '}' :: rest) (hcloses : Closes tail) :
    members bound before
        ((style.comma depth).intercalate ((m :: ms).map (writeMember style depth)) ++ tail) =
      .ok (before ++ (m :: ms).map fun n => (n.1, n.2.merged.ordered), rest) := by
  induction ms generalizing m bound before with
  | nil =>
      obtain ⟨b, rfl⟩ : ∃ b, bound = b + 1 := ⟨bound - 1, by omega⟩
      have hnew : m.1 ∉ before.map Prod.fst := fun hmem =>
        (List.nodup_append.mp hnames).2.2 m.1 hmem m.1 (by simp) rfl
      rw [List.map_singleton, List.intercalate_singleton] at hbound ⊢
      rw [members_writeMember (hopens m (by simp)) (hreads m (by simp)) (hmerged m (by simp)) before
        (by omega) hcloses,
        htail, setMember_of_not_mem _ hnew]
      rfl
  | cons n ns ih =>
      obtain ⟨b, rfl⟩ : ∃ b, bound = b + 1 := ⟨bound - 1, by omega⟩
      obtain ⟨bs, hcomma, hbs⟩ := hstyle.comma depth
      obtain ⟨hm, hms⟩ := List.forall_mem_cons.mp hreads
      obtain ⟨hopen, hopens⟩ := List.forall_mem_cons.mp hopens
      obtain ⟨hname, hnames'⟩ := List.forall_mem_cons.mp hmerged
      have hnew : m.1 ∉ before.map Prod.fst := fun hmem =>
        (List.nodup_append.mp hnames).2.2 m.1 hmem m.1 (by simp) rfl
      have hnodup : ((before ++ [(m.1, m.2.merged.ordered)]).map Prod.fst ++
          (n :: ns).map Prod.fst).Nodup := by
        simpa using hnames
      have ih := ih hopens hms hnames' b (before ++ [(m.1, m.2.merged.ordered)]) hnodup
      have hnext := (opens_writeMember style depth n).intercalate (style.comma depth)
        (ns.map (writeMember style depth))
      rw [← List.map_cons] at hnext
      rw [intercalate_map_cons] at hbound ⊢
      generalize (style.comma depth).intercalate ((n :: ns).map (writeMember style depth)) = others
        at hbound hnext ih ⊢
      rw [hcomma, List.length_append, List.length_append, List.length_cons] at hbound
      have hskip : skipBlanks (bs ++ (others ++ tail)) = others ++ tail := by
        rw [skipBlanks_append hbs, (hnext.append tail).skipBlanks]
      have hmark : skipBlanks (char ',' :: (bs ++ (others ++ tail))) =
          char ',' :: (bs ++ (others ++ tail)) := rfl
      rw [hcomma, List.append_assoc, List.append_assoc, List.cons_append,
        members_writeMember hopen hm hname before (by omega) (closes_of_mem _ (by decide)), hmark]
      simp only [hskip, setMember_of_not_mem _ hnew, ih (by omega)]
      simp

-- What stands before the end of a container is skipped.
theorem skipBlanks_closing {bs : List CodePoint} (hb : ∀ b ∈ bs, isBlank b = true) {c : CodePoint}
    (hc : c = ']' ∨ c = '}') (rest : List CodePoint) : skipBlanks (bs ++ c :: rest) = c :: rest := by
  rw [skipBlanks_append hb]
  rcases hc with rfl | rfl <;> rfl

theorem value_scalar {cs : List CodePoint} (bound : Nat) (hquote : cs.head? ≠ some (char '"'))
    (hlist : cs.head? ≠ some (char '[')) (hobject : cs.head? ≠ some (char '{')) :
    value (bound + 1) cs = scalar cs := by
  unfold value
  split <;> simp_all

theorem Opens.exists_bound {cs : List CodePoint} (h : Opens cs) {bound : Nat}
    (hbound : 2 * cs.length ≤ bound) : ∃ b, bound = b + 1 := by
  obtain ⟨c, rest, rfl, -⟩ := h
  rw [List.length_cons] at hbound
  exact ⟨bound - 1, by omega⟩

theorem enclose_cons (style : Style) (opening closing : CodePoint) (depth : Nat) (x : List CodePoint)
    (xs : List (List CodePoint)) (rest : List CodePoint) :
    style.enclose opening closing depth (x :: xs) ++ rest =
      opening :: (style.lineAt (depth + 1) ++ ((style.comma (depth + 1)).intercalate (x :: xs) ++
        (style.lineAt depth ++ closing :: rest))) := by
  simp [Style.enclose]

theorem length_enclose_cons (style : Style) (opening closing : CodePoint) (depth : Nat)
    (x : List CodePoint) (xs : List (List CodePoint)) :
    ((style.comma (depth + 1)).intercalate (x :: xs)).length + 2 ≤
      (style.enclose opening closing depth (x :: xs)).length := by
  simp only [Style.enclose, List.length_append, List.length_cons, List.length_nil]
  omega

-- A list is read item by item, if it has any.
theorem readsBack_arr {style : Style} (hstyle : style.IsBlank) {depth : Nat} {items : List Json}
    (hopens : ∀ v ∈ items, Opens (write style (depth + 1) v))
    (hreads : ∀ v ∈ items, ReadsBack style (depth + 1) v) :
    ReadsBack style depth (.arr items) := by
  intro bound rest hbound hcloses
  rw [write_arr] at hbound ⊢
  obtain ⟨b, rfl⟩ := (opens_enclose style depth _
    ⟨_, _, rfl, by decide, by decide, by decide⟩).exists_bound hbound
  rw [reread_arr]
  cases items with
  | nil => rfl
  | cons v vs =>
      have hlength := length_enclose_cons style '[' ']' depth (write style (depth + 1) v)
        (vs.map (write style (depth + 1)))
      have hread := items_write hstyle hopens hreads b
        (by rw [List.map_cons] at hbound ⊢; omega)
        (skipBlanks_closing (hstyle.lineAt depth) (.inl rfl) rest)
        (closes_of_blanks (hstyle.lineAt depth) (.inl rfl) rest)
      have hfirst := (hopens v (by simp)).intercalate (style.comma (depth + 1))
        (vs.map (write style (depth + 1)))
      rw [List.map_cons, enclose_cons, ← List.map_cons]
      rw [← List.map_cons] at hfirst
      obtain ⟨c, text, hc, hblank, hbracket, -⟩ :=
        hfirst.append (style.lineAt depth ++ char ']' :: rest)
      have hskip := (hfirst.append (style.lineAt depth ++ char ']' :: rest)).skipBlanks
      rw [hc] at hread hskip ⊢
      simp only [value, skipBlanks_append (hstyle.lineAt (depth + 1)), hskip]
      split
      · rename_i heq
        exact absurd (List.cons.inj heq).1 hbracket
      · rw [hread]
        rfl

-- An object is read member by member, if it has any.
theorem readsBack_obj {style : Style} (hstyle : style.IsBlank) {depth : Nat}
    {ms : List (Text × Json)} (hnames : (ms.map Prod.fst).Nodup)
    (hmerged : ∀ m ∈ ms, m.1.merged = m.1)
    (hopens : ∀ m ∈ ms, Opens (write style (depth + 1) m.2))
    (hreads : ∀ m ∈ ms, ReadsBack style (depth + 1) m.2) :
    ReadsBack style depth (.obj ms) := by
  intro bound rest hbound hcloses
  rw [write_obj] at hbound ⊢
  obtain ⟨b, rfl⟩ := (opens_enclose style depth _
    ⟨_, _, rfl, by decide, by decide, by decide⟩).exists_bound hbound
  rw [reread_obj]
  have hperm := byName_perm ms
  replace hnames := (hperm.map Prod.fst).nodup_iff.mpr hnames
  replace hmerged := fun m hm => hmerged m (hperm.mem_iff.mp hm)
  replace hopens := fun m hm => hopens m (hperm.mem_iff.mp hm)
  replace hreads := fun m hm => hreads m (hperm.mem_iff.mp hm)
  generalize byName ms = ms at hnames hmerged hopens hreads hbound ⊢
  cases ms with
  | nil => rfl
  | cons m ms =>
      have hlength := length_enclose_cons style '{' '}' depth (writeMember style (depth + 1) m)
        (ms.map (writeMember style (depth + 1)))
      have hread := members_write hstyle hopens hreads hmerged b [] hnames
        (by rw [List.map_cons] at hbound ⊢; omega)
        (skipBlanks_closing (hstyle.lineAt depth) (.inr rfl) rest)
        (closes_of_blanks (hstyle.lineAt depth) (.inr rfl) rest)
      have hfirst := (opens_writeMember style (depth + 1) m).intercalate (style.comma (depth + 1))
        (ms.map (writeMember style (depth + 1)))
      rw [List.map_cons, enclose_cons, ← List.map_cons]
      rw [← List.map_cons] at hfirst
      obtain ⟨c, text, hc, hblank, -, hbrace⟩ :=
        hfirst.append (style.lineAt depth ++ char '}' :: rest)
      have hskip := (hfirst.append (style.lineAt depth ++ char '}' :: rest)).skipBlanks
      rw [hc] at hread hskip ⊢
      simp only [value, skipBlanks_append (hstyle.lineAt (depth + 1)), hskip]
      split
      · rename_i heq
        exact absurd (List.cons.inj heq).1 hbrace
      · rw [hread]
        rfl

-- A regular value is read back, with its members in order and its pairs merged.
theorem Regular.readsBack {style : Style} (hstyle : style.IsBlank) {v : Json} (h : v.Regular)
    (depth : Nat) : ReadsBack style depth v := by
  induction h generalizing depth with
  | null =>
      intro bound rest hbound _
      obtain ⟨b, rfl⟩ := (Regular.null.opens style depth).exists_bound hbound
      rfl
  | @bool b =>
      intro bound rest hbound _
      obtain ⟨n, rfl⟩ := (Regular.bool.opens style depth).exists_bound hbound
      cases b <;> rfl
  | @int n hn =>
      intro bound rest hbound hcloses
      obtain ⟨b, rfl⟩ := ((Regular.int hn).opens style depth).exists_bound hbound
      obtain ⟨d, ds, hds, hd⟩ := exists_decimal n.natAbs
      have hhead : ∀ c : CodePoint, c.isDigit = false → c ≠ '-' →
          (Text.toList (toString n) ++ rest).head? ≠ some c := by
        intro c hc hminus
        rcases toList_toString n with ⟨htext, -⟩ | ⟨htext, -⟩ <;> rw [htext]
        · rw [hds, List.cons_append, List.head?_cons]
          rintro ⟨⟩
          rw [hd] at hc
          cases hc
        · rw [List.cons_append, List.head?_cons]
          rintro ⟨⟩
          exact hminus rfl
      rw [write, value_scalar b (hhead _ (by decide) (by decide))
        (hhead _ (by decide) (by decide)) (hhead _ (by decide) (by decide)),
        scalar_toString hn hcloses]
      rfl
  | @str s =>
      intro bound rest hbound _
      obtain ⟨b, rfl⟩ := (Regular.str.opens style depth).exists_bound hbound
      have htext : writeString s ++ rest =
          char '"' :: (s.toList.flatMap escapeChar ++ char '"' :: rest) := by
        simp [writeString]
      rw [write, htext, value, readString_writeString]
      rfl
  | arr hitems ih =>
      exact readsBack_arr hstyle (fun v hv => (hitems v hv).opens style (depth + 1))
        fun v hv => ih v hv (depth + 1)
  | obj hnames hmerged hmembers ih =>
      exact readsBack_obj hstyle hnames hmerged (fun m hm => (hmembers m hm).opens style (depth + 1))
        fun m hm => ih m hm (depth + 1)

-- A whole text is read as the value it was written for, with its pairs merged.
theorem Regular.read_write {style : Style} (hstyle : style.IsBlank) {v : Json} (h : v.Regular) :
    read (Text.ofList (write style 0 v)) = .ok v.merged.ordered := by
  have hread := h.readsBack hstyle 0 (2 * (write style 0 v).length + 2) [] (by omega)
    (by simp [Closes])
  rw [List.append_nil] at hread
  rw [read, Text.toList_ofList, (h.opens style 0).skipBlanks, hread]
  rfl

def IsAscii (cs : List CodePoint) : Prop := ∀ c ∈ cs, c.toNat < 128

theorem isAscii_append {cs ds : List CodePoint} (hc : IsAscii cs) (hd : IsAscii ds) :
    IsAscii (cs ++ ds) :=
  List.forall_mem_append.mpr ⟨hc, hd⟩

theorem isAscii_unitEscape (n : Nat) : IsAscii (unitEscape n) := by
  have hdigit : ∀ m, (Text.hexDigit (m % 16)).toNat < 128 := by
    intro m
    have hlt : m % 16 < 16 := Nat.mod_lt m (by decide)
    generalize m % 16 = d at hlt
    revert d
    decide
  simp [unitEscape, Text.hex_four, IsAscii, hdigit]

theorem isAscii_pair {c d : CodePoint} (hc : c.toNat < 128) (hd : d.toNat < 128) : IsAscii [c, d] :=
  List.forall_mem_cons.mpr ⟨hc, List.forall_mem_singleton.mpr hd⟩

theorem isAscii_escapeChar (c : CodePoint) : IsAscii (escapeChar c) := by
  unfold escapeChar
  split_ifs with h1 h2 h3 h4 h5 h6 h7 h8
  · exact isAscii_pair (by decide) (by decide)
  · exact isAscii_pair (by decide) (by decide)
  · exact isAscii_pair (by decide) (by decide)
  · exact isAscii_pair (by decide) (by decide)
  · exact isAscii_pair (by decide) (by decide)
  · exact isAscii_pair (by decide) (by decide)
  · exact isAscii_pair (by decide) (by decide)
  · simp only [Bool.and_eq_true, decide_eq_true_eq] at h8
    exact List.forall_mem_singleton.mpr (by omega)
  · exact isAscii_unitEscape _
  · exact isAscii_append (isAscii_unitEscape _) (isAscii_unitEscape _)

theorem isAscii_writeString (s : Text) : IsAscii (writeString s) := by
  have hquote : IsAscii ['"'] := List.forall_mem_singleton.mpr (by decide)
  refine List.forall_mem_cons.mpr ⟨by decide, isAscii_append (fun c hc => ?_) hquote⟩
  obtain ⟨d, -, hc⟩ := List.mem_flatMap.mp hc
  exact isAscii_escapeChar d c hc

theorem isAscii_intercalate {separator : List CodePoint} (hseparator : IsAscii separator)
    {texts : List (List CodePoint)} (h : ∀ text ∈ texts, IsAscii text) :
    IsAscii (separator.intercalate texts) := by
  induction texts with
  | nil => simp [IsAscii]
  | cons text texts ih =>
      obtain ⟨htext, htexts⟩ := List.forall_mem_cons.mp h
      cases texts with
      | nil => exact List.intercalate_singleton ▸ htext
      | cons next texts =>
          rw [List.intercalate_cons_cons]
          exact isAscii_append (isAscii_append htext hseparator) (ih htexts)

theorem isAscii_of_isBlank {bs : List CodePoint} (h : ∀ b ∈ bs, isBlank b = true) : IsAscii bs := by
  intro b hb
  have hblank := h b hb
  simp only [isBlank, Bool.or_eq_true, beq_iff_eq] at hblank
  rcases hblank with ((rfl | rfl) | rfl) | rfl <;> decide

theorem isAscii_enclose {style : Style} (hstyle : style.IsBlank) {opening closing : CodePoint}
    (hopening : opening.toNat < 128) (hclosing : closing.toNat < 128) (depth : Nat)
    {texts : List (List CodePoint)} (h : ∀ text ∈ texts, IsAscii text) :
    IsAscii (style.enclose opening closing depth texts) := by
  cases texts with
  | nil => exact isAscii_pair hopening hclosing
  | cons x xs =>
      obtain ⟨bs, hcomma, hbs⟩ := hstyle.comma (depth + 1)
      have hseparator : IsAscii (style.comma (depth + 1)) := by
        rw [hcomma]
        exact List.forall_mem_cons.mpr ⟨by decide, isAscii_of_isBlank hbs⟩
      have hlines := fun d => isAscii_of_isBlank (hstyle.lineAt d)
      exact isAscii_append (isAscii_append (List.forall_mem_cons.mpr
        ⟨hopening, isAscii_append (hlines _) (isAscii_intercalate hseparator h)⟩) (hlines _))
          (List.forall_mem_singleton.mpr hclosing)

-- Nothing but ASCII is written for a regular value.
theorem Regular.isAscii {style : Style} (hstyle : style.IsBlank) {v : Json} (h : v.Regular)
    (depth : Nat) : IsAscii (write style depth v) := by
  induction h generalizing depth with
  | null => simp [IsAscii, write]
  | @bool b => cases b <;> simp [IsAscii, write]
  | @int n =>
      have hdigits : IsAscii (decimal n.natAbs) := by
        intro d hd
        have hdigit := isDigit_of_mem_decimal hd
        exact lt_of_le_of_lt (CodePoint.isDigit_iff_toNat.mp hdigit).2 (by decide)
      rw [write]
      rcases toList_toString n with ⟨htext, -⟩ | ⟨htext, -⟩ <;> rw [htext]
      · exact hdigits
      · exact List.forall_mem_cons.mpr ⟨by decide, hdigits⟩
  | @str s => exact isAscii_writeString s
  | arr _ ih =>
      rw [write_arr]
      refine isAscii_enclose hstyle (by decide) (by decide) depth fun text htext => ?_
      obtain ⟨v, hv, rfl⟩ := List.mem_map.mp htext
      exact ih v hv (depth + 1)
  | obj _ _ _ ih =>
      rw [write_obj]
      refine isAscii_enclose hstyle (by decide) (by decide) depth fun text htext => ?_
      obtain ⟨m, hm, rfl⟩ := List.mem_map.mp htext
      exact isAscii_append (isAscii_append (isAscii_writeString m.1)
        (isAscii_pair (by decide) (by decide))) (ih m ((byName_perm _).mem_iff.mp hm) (depth + 1))

end GoCompact.Json
