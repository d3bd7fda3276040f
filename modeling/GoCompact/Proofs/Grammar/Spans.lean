import GoCompact.Proofs.Grammar.Plain
import GoCompact.Proofs.Layout.Words

namespace GoCompact

open GoCompact.Parser Emission

-- The emission `e` writes the content of the text from `c` to `c'`. It costs `n` besides its groupings,
-- and if the text costs no more, then `plain` holds.
structure Spans (c : Cursor) (e : Emission) (n : Nat) (plain : Prop) (c' : Cursor) : Prop where
  fault : e.fault = none
  segment : Segment c (content e.words) (groupings e.words + n) plain c'

namespace Spans

variable {c d c' : Cursor} {e f : Emission} {n m : Nat} {P Q : Prop}

theorem valid (h : Spans c e n P c') : c'.Valid := h.segment.valid

theorem progress (h : Spans c e n P c') : c'.upcoming.length ≤ c.upcoming.length :=
  h.segment.progress

theorem append (h : Spans c e n P d) (h' : Spans d f m Q c') :
    Spans c (e ++ f) (n + m) (P ∧ Q) c' where
  fault := by rw [fault_append h.fault, h'.fault]
  segment := by
    refine (h.segment.trans h'.segment).weaken ?_ ?_ fun _ hpq => hpq
    · rw [words_append h.fault, content_append]
    · rw [words_append h.fault, groupings_append]
      omega

theorem imp (h : Spans c e n P d) (hn : m = n) (hpq : P → Q) : Spans c e m Q d where
  fault := h.fault
  segment := h.segment.weaken rfl (by omega) fun _ => hpq

-- Another emission may take the place of one if it writes the same content.
theorem replace (h : Spans c e n P d) (hfault : f.fault = none)
    (hcontent : content f.words = content e.words)
    (hgroupings : groupings f.words = groupings e.words) : Spans c f n P d where
  fault := hfault
  segment := h.segment.weaken hcontent (by omega) fun _ hp => hp

theorem nothing (hc : c.Valid) : Spans c nothing 0 True c where
  fault := rfl
  segment := Segment.refl hc

-- An emission that writes only what may be left out.
theorem silent (hc : c.Valid) (hfault : e.fault = none) (hcontent : content e.words = [])
    (hgroupings : groupings e.words = 0) : Spans c e 0 True c :=
  (nothing hc).replace hfault hcontent hgroupings

theorem blank (hc : c.Valid) : Spans c blank 0 True c :=
  silent hc rfl (by simp) (by simp)

-- A blank may be written where none is read.
theorem insert_blank {w : Text} (h : Spans c (write w ++ e) n P d) :
    Spans c (write w ++ Emission.blank ++ e) n P d := by
  have hfault := h.fault
  rw [fault_append (fault_write w)] at hfault
  refine h.replace ?_ ?_ ?_
  · rwa [append_assoc, fault_append (fault_write w), fault_append fault_blank]
  · rw [append_assoc, words_append (fault_write w), words_append (fault_write w),
      words_append fault_blank, words_blank, List.nil_append]
  · rw [append_assoc, words_append (fault_write w), words_append (fault_write w),
      words_append fault_blank, words_blank, List.nil_append]

theorem semicolon (hc : c.Valid) : Spans c (operator .Semicolon) 0 True c :=
  silent hc rfl (by rw [words_operator]; rfl) (by rw [words_operator]; rfl)

theorem when_blank (hc : c.Valid) (condition : Bool) :
    Spans c (when condition Emission.blank) 0 True c := by
  cases condition
  · exact nothing hc
  · exact blank hc

theorem operator {o : Operator} (hc : c.Valid) (hkind : c.current.kind = .op o) :
    Spans c (Emission.operator o) 0 True c.advance where
  fault := rfl
  segment := by
    rw [words_operator]
    exact Segment.operator hc hkind

theorem keyword {k : Keyword} (hc : c.Valid) (hkind : c.current.kind = .word k) :
    Spans c (Emission.keyword k) 0 (k = .For → c.advance.current.kind ≠ .op .Semicolon)
      c.advance where
  fault := rfl
  segment := by
    rw [words_keyword]
    exact Segment.keyword hc hkind

theorem spaced {k : Keyword} (hc : c.Valid) (hkind : c.current.kind = .word k) :
    Spans c (Emission.spaced k) 0 (k = .For → c.advance.current.kind ≠ .op .Semicolon) c.advance :=
  (keyword hc hkind).replace rfl (by simp) (by simp)

-- A loop whose header begins with a semicolon.
theorem openLoop (hc : c.Valid) (hkind : c.current.kind = .word .For)
    (hnext : c.advance.current.kind = .op .Semicolon) :
    Spans c (Emission.spaced .For) 1 True c.advance where
  fault := rfl
  segment := by
    rw [words_spaced]
    exact Segment.openLoop hc hkind hnext

theorem joined {k : Keyword} {o : Operator} (hc : c.Valid) (hkind : c.current.kind = .word k)
    (hnext : c.advance.current.kind = .op o) :
    Spans c (Emission.joined k o) 0 True c.advance.advance := by
  have hk := keyword hc hkind
  refine ((hk.append (operator hk.valid hnext)).replace rfl ?_ ?_).imp rfl fun _ => trivial
  · rw [words_append hk.fault]
    simp
  · rw [words_append hk.fault]
    simp

theorem assertion (hc : c.Valid) (hkind : c.current.kind = .op .Period)
    (hnext : c.advance.current.kind = .op .LParen) :
    Spans c Emission.assertion 0 True c.advance.advance := by
  have ho := operator hc hkind
  refine ((ho.append (operator ho.valid hnext)).replace rfl ?_ ?_).imp rfl fun _ => trivial
  · rw [words_append ho.fault]
    simp
  · rw [words_append ho.fault]
    simp

-- A name or a literal.
theorem literal (hc : c.Valid) (hkind : c.current.kind.isLiteral = true)
    (hwhole : c.current.toLexeme.Whole) : Spans c (write c.current.text) 0 True c.advance where
  fault := rfl
  segment := by
    rw [words_write, (Text.word_single hwhole).lexemes]
    refine (Segment.literal hc hkind).weaken rfl ?_ fun _ h => h
    have hgroups : c.current.groups = false := by
      cases hk : c.current.kind <;> rw [hk] at hkind <;> simp_all [Lexeme.groups]
      cases hkind
    simp [groupings, hgroups]

-- A token that is read and not written. If it groups, the text costs more than what is written.
theorem dropped {o : Operator} (hc : c.Valid) (hkind : c.current.kind = .op o)
    (hcontent : content [.ofOperator o] = []) :
    Spans c Emission.nothing 0 (groupings [.ofOperator o] = 0) c.advance where
  fault := rfl
  segment := by
    refine (Segment.operator hc hkind).weaken hcontent.symm (Nat.zero_le _) fun h _ => ?_
    exact h.symm

theorem comma (hc : c.Valid) (hkind : c.current.kind = .op .Comma) :
    Spans c Emission.nothing 0 False c.advance :=
  (dropped hc hkind rfl).imp rfl fun h => absurd h (by decide)

theorem ends (hc : c.Valid) (h : Ends c d) : Spans c Emission.nothing 0 True d where
  fault := rfl
  segment := Segment.ends hc h

section Lists

variable {α : Type} {s : Scope} {p : Parser α} {f : α → Emission} {n : α → Nat} {P Q : α → Prop}

-- Items with commas between them.
theorem listed {xs : List α}
    (hp : ∀ {c x d}, c.Valid → p.Gives s c x d → Spans c (f x) (n x) (P x) d ∧ Q x)
    (hc : c.Valid) (h : Listed p s c xs c') :
    Spans c (separated "," (xs.map f)) (xs.map n).sum (∀ x ∈ xs, P x) c' ∧ ∀ x ∈ xs, Q x := by
  induction h with
  | nil => exact ⟨(nothing hc).imp rfl (by simp), by simp⟩
  | last h =>
      obtain ⟨hspans, hq⟩ := hp hc h
      exact ⟨hspans.imp (by simp) (by simp), by simpa using hq⟩
  | @cons c d _ x xs h hcomma hs ih =>
      obtain ⟨hspans, hq⟩ := hp hc h
      obtain ⟨hrest, hqs⟩ := ih (operator hspans.valid hcomma).valid
      refine ⟨?_, List.forall_mem_cons.mpr ⟨hq, hqs⟩⟩
      cases xs with
      | nil =>
          -- The comma after the last item is not written.
          have h' := (hspans.append (comma hspans.valid hcomma)).append hrest
          simp only [separated, List.map_nil, append_nothing] at h'
          exact h'.imp (by simp) fun hx => hx.1.2.elim
      | cons y ys =>
          have h' := hspans.append ((operator hspans.valid hcomma).append hrest)
          exact h'.imp (by simp) fun hx => List.forall_mem_cons.mpr ⟨hx.1, hx.2.2⟩

-- An item and others after commas.
theorem commas {closing : Option TokenKind} {x : α} {xs : List α}
    (hp : ∀ {c x d}, c.Valid → p.Gives s c x d → Spans c (f x) (n x) (P x) d ∧ Q x)
    (hx : Spans c (f x) (n x) (P x) d) (h : AfterCommas closing p s d xs c') :
    Spans c (separated "," ((x :: xs).map f)) ((x :: xs).map n).sum (∀ y ∈ x :: xs, P y) c' ∧
      ∀ y ∈ xs, Q y := by
  induction h generalizing c x with
  | nil => exact ⟨hx.imp (by simp) (by simp), by simp⟩
  | trailing hcomma _ =>
      have h' := hx.append (comma hx.valid hcomma)
      rw [append_nothing] at h'
      exact ⟨h'.imp (by simp) fun hx => hx.2.elim, by simp⟩
  | cons hcomma h _ ih =>
      have hcomma' := operator hx.valid hcomma
      obtain ⟨hspans, hq⟩ := hp hcomma'.valid h
      obtain ⟨hrest, hqs⟩ := ih hspans
      refine ⟨?_, List.forall_mem_cons.mpr ⟨hq, hqs⟩⟩
      have h' := hx.append (hcomma'.append hrest)
      exact h'.imp (by simp) fun hx => List.forall_mem_cons.mpr ⟨hx.1, hx.2.2⟩

-- Items that end in themselves, with semicolons written between them. If nothing can follow an item
-- for which `R` holds, then it holds of the last one at most.
theorem items {more : TokenKind → Bool} {I : Cursor → Prop} {R : α → Prop} {xs : List α}
    (hvalid : ∀ {c}, I c → c.Valid)
    (hp : ∀ {c x d}, I c → more c.current.kind = true → p.Gives s c x d →
      Spans c (f x) (n x) (P x) d ∧ Q x ∧ I d ∧ (R x → more d.current.kind = false))
    (hc : I c) (h : Items more p s c xs c') :
    Spans c (separated ";" (xs.map f)) (xs.map n).sum (∀ x ∈ xs, P x) c' ∧ (∀ x ∈ xs, Q x) ∧
      I c' ∧ ∀ x ∈ xs.dropLast, ¬R x := by
  induction h with
  | nil => exact ⟨(nothing (hvalid hc)).imp rfl (by simp), by simp, hc, by simp⟩
  | @cons c d _ x xs hmore h hs ih =>
      obtain ⟨hspans, hq, hd, hlast⟩ := hp hc hmore h
      obtain ⟨hrest, hqs, hc', hlasts⟩ := ih hd
      refine ⟨?_, List.forall_mem_cons.mpr ⟨hq, hqs⟩, hc', ?_⟩
      · cases xs with
        | nil =>
            have h' := hspans.append hrest
            simp only [separated, List.map_nil, append_nothing] at h'
            exact h'.imp (by simp) fun hx => by simpa using hx.1
        | cons y ys =>
            have h' := hspans.append ((semicolon hspans.valid).append hrest)
            exact h'.imp (by simp) fun hx => List.forall_mem_cons.mpr ⟨hx.1, hx.2.2⟩
      · cases xs with
        | nil => simp
        | cons y ys =>
            have hnext : more d.current.kind = true := by
              cases hs with
              | cons hmore _ _ => exact hmore
            rw [List.dropLast_cons_of_ne_nil (by simp)]
            refine List.forall_mem_cons.mpr ⟨fun hr => ?_, hlasts⟩
            rw [hlast hr] at hnext
            cases hnext

end Lists

end Spans

namespace Tree

theorem plain_of {k : NodeKind} {p : Tree} {fields : List Tree}
    (h : isPlainNode k fields = true) (hfields : allPlain fields = true) :
    (Tree.node k p fields).plain = true :=
  Bool.and_eq_true_iff.mpr ⟨h, hfields⟩

theorem loops_of {k : NodeKind} {p : Tree} {fields : List Tree}
    (h : opensLoop k fields = false) : (Tree.node k p fields).loops = loopsAll fields := by
  simp [loops, h]

@[simp]
theorem ofOption_some (t : Tree) : ofOption (some t) = t := rfl

@[simp]
theorem ofOption_none : ofOption none = .absent := rfl

@[simp]
theorem isAbsent_absent : Tree.absent.isAbsent = true := rfl

-- What has no parts is plain.
@[simp]
theorem plain_datum (v : Json) : (Tree.datum v).plain = true := rfl

@[simp]
theorem plain_token (k : TokenKind) : (Tree.token k).plain = true := rfl

@[simp]
theorem plain_direction (d : Direction) : (Tree.direction d).plain = true := rfl

@[simp]
theorem plain_ident (p : Tree) (x : Text) : (Tree.ident p (.text x)).plain = true := rfl

@[simp]
theorem plain_basicLit (p : Tree) (k : TokenKind) (x : Text) :
    (Tree.basicLit p (.token k) (.text x)).plain = true :=
  rfl

@[simp]
theorem loops_datum (v : Json) : (Tree.datum v).loops = 0 := rfl

@[simp]
theorem loops_token (k : TokenKind) : (Tree.token k).loops = 0 := rfl

@[simp]
theorem loops_direction (d : Direction) : (Tree.direction d).loops = 0 := rfl

@[simp]
theorem loops_ident (p : Tree) (x : Text) : (Tree.ident p (.text x)).loops = 0 := rfl

@[simp]
theorem loops_basicLit (p : Tree) (k : TokenKind) (x : Text) :
    (Tree.basicLit p (.token k) (.text x)).loops = 0 :=
  rfl

theorem plain_tuple {ts : List Tree} :
    (Tree.tuple ts).plain = true ↔ ∀ t ∈ ts, t.plain = true := by
  change allPlain ts = true ↔ _
  induction ts with
  | nil => simp [allPlain]
  | cons t ts ih => simp [allPlain, ih]

theorem loops_tuple (ts : List Tree) : (Tree.tuple ts).loops = (ts.map loops).sum := by
  change loopsAll ts = _
  induction ts with
  | nil => rfl
  | cons t ts ih => simp [loopsAll, ih]

-- A tree is read from `c` to `c'` in a role.
def ReadAs (role : Role) (t : Tree) (c : Cursor) (P : Prop) (c' : Cursor) : Prop :=
  Spans c (t.emittedAs role) t.loops (t.plain = true ∧ P) c'

theorem ReadAs.plain {role : Role} {t : Tree} {c c' : Cursor} {P : Prop}
    (h : t.ReadAs role c P c') : Spans c (t.emittedAs role) t.loops (t.plain = true) c' :=
  h.imp rfl And.left

-- A part that may be left out is read from `c` to `c'`.
def MaybeRead (role : Role) (o : Option Tree) (c c' : Cursor) : Prop :=
  Spans c ((ofOption o).emittedIf ((ofOption o).emittedAs role)) (ofOption o).loops
    ((ofOption o).plain = true) c'

theorem MaybeRead.none {c : Cursor} (role : Role) (hc : c.Valid) : MaybeRead role none c c :=
  (Spans.nothing hc).imp rfl fun _ => rfl

theorem emittedIf_of {t : Tree} (h : t.isAbsent = false) (e : Emission) : t.emittedIf e = e := by
  simp [emittedIf, when, h]

theorem maybeRead_some {role : Role} {t : Tree} {c c' : Cursor} (ht : t.isAbsent = false) :
    MaybeRead role (some t) c c' ↔
      Spans c (t.emittedAs role) t.loops (t.plain = true) c' := by
  change Spans c (t.emittedIf (t.emittedAs role)) t.loops (t.plain = true) c' ↔ _
  rw [emittedIf_of ht]

theorem MaybeRead.some {role : Role} {t : Tree} {c c' : Cursor} {P : Prop}
    (h : t.ReadAs role c P c') (ht : t.isAbsent = false) : MaybeRead role (some t) c c' :=
  (maybeRead_some ht).mpr h.plain

-- A list of trees is read from `c` to `c'`.
def ListRead (ts : List Tree) (c c' : Cursor) : Prop :=
  Spans c (emittedList ts) (Tree.tuple ts).loops ((Tree.tuple ts).plain = true) c'

section Lists

variable {s : Scope} {c d c' : Cursor} {p : Parser Tree} {Q : Tree → Prop}

theorem listRead_of_listed {ts : List Tree}
    (hp : ∀ {c t d}, c.Valid → p.Gives s c t d →
      Spans c (t.emittedAs .expression) t.loops (t.plain = true) d ∧ Q t)
    (hc : c.Valid) (h : Listed p s c ts c') : ListRead ts c c' ∧ ∀ t ∈ ts, Q t := by
  obtain ⟨hread, hq⟩ := Spans.listed hp hc h
  exact ⟨hread.imp (loops_tuple ts) plain_tuple.mpr, hq⟩

theorem listRead_of_commas {closing : Option TokenKind} {t : Tree} {ts : List Tree}
    (hp : ∀ {c t d}, c.Valid → p.Gives s c t d →
      Spans c (t.emittedAs .expression) t.loops (t.plain = true) d ∧ Q t)
    (ht : Spans c (t.emittedAs .expression) t.loops (t.plain = true) d)
    (h : AfterCommas closing p s d ts c') : ListRead (t :: ts) c c' ∧ ∀ u ∈ ts, Q u := by
  obtain ⟨hread, hq⟩ := Spans.commas hp ht h
  exact ⟨hread.imp (loops_tuple _) plain_tuple.mpr, hq⟩

end Lists

end Tree

end GoCompact
