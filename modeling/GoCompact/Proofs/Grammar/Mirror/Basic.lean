import GoCompact.Proofs.Grammar.Mirror.Relocation
import GoCompact.Proofs.Grammar.Sound.Basic

namespace GoCompact

-- How two runs are compared: how the tokens are moved, whether the limit of the first run may be the
-- lower one, how many tokens may come after the current one, and in which tokens the texts end. The
-- texts that are alike up to there both go on behind it, or both end there.
structure Comparison where
  moves : Relocation
  cuts : Prop
  bound : Nat
  rest : List Token
  rest' : List Token
  ends : rest = [] ↔ rest' = []

-- Where a run stands. At the start of a rule, so many levels are entered before a token is read, and one
-- has to be read. Behind a token another one has to be read by what can be repeated, and none by what
-- only goes on.
inductive Phase
  | start (need : Nat)
  | part
  | inside

namespace Phase

-- The levels that may be entered before a token is read.
def need : Phase → Nat
  | .start k => k
  | .part | .inside => 3

-- Whether a token has to be read.
def reads : Phase → Bool
  | .start _ | .part => true
  | .inside => false

def Admits (n : Nat) : Phase → Cursor → Prop
  | .start _, c => c.upcoming.length ≤ n
  | .part, c | .inside, c => c.upcoming.length < n

@[simp]
theorem need_inside : inside.need = 3 := rfl

@[simp]
theorem need_part : part.need = 3 := rfl

@[simp]
theorem need_start (k : Nat) : (start k).need = k := rfl

@[simp]
theorem reads_inside : inside.reads = false := rfl

@[simp]
theorem reads_part : part.reads = true := rfl

variable {n : Nat} {phase : Phase} {c d : Cursor}

theorem Admits.le (h : phase.Admits n c) : c.upcoming.length ≤ n := by
  cases phase with
  | start k => exact h
  | part => exact Nat.le_of_lt h
  | inside => exact Nat.le_of_lt h

theorem Admits.mono (h : phase.Admits n c) (hle : d.upcoming.length ≤ c.upcoming.length) :
    phase.Admits n d := by
  cases phase with
  | start k => exact Nat.le_trans hle h
  | part => exact Nat.lt_of_le_of_lt hle h
  | inside => exact Nat.lt_of_le_of_lt hle h

-- When the token is read that has to be read, the run stands behind it.
theorem Admits.behind (h : phase.Admits n c) (hle : d.upcoming.length ≤ c.upcoming.length)
    (hread : phase.reads = true → d.upcoming.length < c.upcoming.length) :
    inside.Admits n d ∧ 3 + 3 * d.upcoming.length ≤ phase.need + 3 * c.upcoming.length := by
  cases phase with
  | start k =>
      have hlt := hread rfl
      exact ⟨Nat.lt_of_lt_of_le hlt h, by simp only [need_start]; omega⟩
  | part => exact ⟨Nat.lt_of_le_of_lt hle h, by simp only [need_part]; omega⟩
  | inside => exact ⟨Nat.lt_of_le_of_lt hle h, by simp only [need_inside]; omega⟩

end Phase

-- The limit does not let a run enter so many levels before each of the tokens that are left.
def Scope.Exceeds (s : Scope) (k : Nat) (c : Cursor) : Prop :=
  s.limit.admits (s.depth + k + 3 * c.upcoming.length) = some false

theorem Limit.admits_mono {limit : Limit} {m n : Nat} (h : limit.admits m = some false)
    (hle : m ≤ n) : limit.admits n = some false := by
  cases limit with
  | atMost l =>
      simp only [Limit.admits, Option.some.injEq, decide_eq_false_iff_not] at h ⊢
      omega
  | unbounded => cases h
  | incomparable => cases h

theorem Scope.Exceeds.mono {s : Scope} {j k : Nat} {c d : Cursor} (h : s.Exceeds j d)
    (hle : j + 3 * d.upcoming.length ≤ k + 3 * c.upcoming.length) : s.Exceeds k c :=
  Limit.admits_mono h (by omega)

-- The cursor at which a run ends.
def Cursor.reached {α : Type} : Except Refusal (α × Cursor) → Cursor
  | .ok (_, d) => d
  | .error r => r.cursor

theorem Cursor.advance_suffix (c : Cursor) : c.advance.upcoming <:+ c.upcoming := by
  obtain ⟨t, ts⟩ := c
  cases ts with
  | nil => exact List.suffix_refl _
  | cons u us => exact List.suffix_cons u us

namespace Comparison

-- Texts of which all tokens are alike.
def whole (moves : Relocation) (cuts : Prop) (bound : Nat) : Comparison where
  moves
  cuts
  bound
  rest := []
  rest' := []
  ends := Iff.rfl

variable (C : Comparison) {α β : Type}

-- The same comparison where one more token may come.
def next : Comparison := { C with bound := C.bound + 1 }

abbrev tree : Tree → Tree := C.moves.tree

abbrev tree? : Option Tree → Option Tree := Option.map C.tree

abbrev trees : List Tree → List Tree := List.map C.tree

-- The scope of the first run and that of the second one. Where braces may begin a literal, it does not
-- matter how far brackets are nested.
structure Below (s s' : Scope) : Prop where
  level : s'.level = s.level ∨ (0 ≤ s.level ∧ 0 ≤ s'.level)
  limit : ∀ n, s'.limit.admits (s'.depth + n) = s.limit.admits (s.depth + n) ∨
    (C.cuts ∧ s.limit.admits (s.depth + n) = some false)

-- The cursors of both runs, as long as the texts are alike.
def Faces (c c' : Cursor) : Prop :=
  ∀ shared, c.upcoming = shared ++ C.rest →
    c' = ⟨C.moves.token c.current, shared.map C.moves.token ++ C.rest'⟩

-- What a run reads: one of the tokens that come next or more, if it has to read any and `took` holds of
-- its result. It is too deep only if `deep` holds.
inductive Falls (took : α → Prop) (reads : Bool) (deep : Prop) (c : Cursor) :
    Except Refusal (α × Cursor) → Prop
  | ok {a : α} {d : Cursor} (hd : d.Valid) (hle : d.upcoming <:+ c.upcoming)
      (hread : reads = true → took a → d.upcoming.length < c.upcoming.length) :
      Falls took reads deep c (.ok (a, d))
  | error {r : Refusal} (hle : r.cursor.upcoming <:+ c.upcoming)
      (h : r.cause = .nestingTooDeep → deep) : Falls took reads deep c (.error r)

-- What the two runs give.
inductive Agrees (view : α → β) :
    Except Refusal (α × Cursor) → Except Refusal (β × Cursor) → Prop
  | ok {a : α} {d d' : Cursor} (h : C.Faces d d') : Agrees view (.ok (a, d)) (.ok (view a, d'))
  | error {cause : Cause} {t : Token} {d d' : Cursor} {l l' : Int} (h : C.Faces d d') :
      Agrees view (.error ⟨cause, t, d, l⟩) (.error ⟨cause, C.moves.token t, d', l'⟩)
  | cut {t : Token} {d : Cursor} {l : Int} {o : Except Refusal (β × Cursor)} (h : C.cuts) :
      Agrees view (.error ⟨.nestingTooDeep, t, d, l⟩) o
  | beyond {o : Except Refusal (α × Cursor)} {o' : Except Refusal (β × Cursor)}
      (h : ¬C.rest <:+ (Cursor.reached o).upcoming) : Agrees view o o'

structure Outcome (took : α → Prop) (reads : Bool) (view : α → β) (deep : Prop) (c : Cursor)
    (o : Except Refusal (α × Cursor)) (o' : Except Refusal (β × Cursor)) : Prop where
  falls : Falls took reads deep c o
  agrees : C.Agrees view o o'

-- The second parser does from `c` on what the first one does. If a token has to be read, it is read by
-- those runs for whose result `took` holds.
def MirrorsIf (took : α → Prop) (phase : Phase) (view : α → β) (p : Parser α) (q : Parser β)
    (c : Cursor) : Prop :=
  ∀ s s' c', C.Below s s' → c.Valid → phase.Admits C.bound c → C.Faces c c' →
    C.Outcome took phase.reads view (s.Exceeds phase.need c) c (p s c) (q s' c')

abbrev Mirrors (phase : Phase) (view : α → β) (p : Parser α) (q : Parser β) (c : Cursor) : Prop :=
  C.MirrorsIf (fun _ => True) phase view p q c

variable {C} {c c' d : Cursor}

theorem Below.refl (s : Scope) : C.Below s s := ⟨.inl rfl, fun _ => .inl rfl⟩

theorem Faces.eq (h : C.Faces c c') (hshared : C.rest <:+ c.upcoming) :
    ∃ shared, c.upcoming = shared ++ C.rest ∧
      c' = ⟨C.moves.token c.current, shared.map C.moves.token ++ C.rest'⟩ := by
  obtain ⟨shared, hs⟩ := hshared
  exact ⟨shared, hs.symm, h shared hs.symm⟩

theorem Faces.current (h : C.Faces c c') (hshared : C.rest <:+ c.upcoming) :
    c'.current = C.moves.token c.current := by
  obtain ⟨shared, -, rfl⟩ := h.eq hshared
  rfl

theorem Faces.advance (h : C.Faces c c') : C.Faces c.advance c'.advance := by
  obtain ⟨t, ts⟩ := c
  cases ts with
  | nil =>
      -- The end is not passed by either run.
      intro shared hs
      obtain ⟨rfl, hrest⟩ := List.append_eq_nil_iff.mp hs.symm
      rw [h [] hrest.symm, C.ends.mp hrest]
      rfl
  | cons u us =>
      intro shared hs
      rw [h (u :: shared) (congrArg (u :: ·) hs)]
      rfl

theorem faces_whole (moves : Relocation) (cuts : Prop) (bound : Nat) (c : Cursor) :
    (whole moves cuts bound).Faces c (moves.cursor c) := by
  obtain ⟨t, ts⟩ := c
  intro shared hs
  obtain rfl : ts = shared := hs.trans (List.append_nil shared)
  exact congrArg (Cursor.mk (moves.token t)) (List.append_nil _).symm

-- Behind the tokens that the texts share any cursor may stand for that of the second run.
theorem faces_of_beyond (h : ¬C.rest <:+ c.upcoming) (c' : Cursor) : C.Faces c c' :=
  fun shared hs => absurd ⟨shared, hs.symm⟩ h

section Outcomes

variable {took took' : α → Prop} {view : α → β} {reads reads' : Bool} {P Q : Prop}
  {o : Except Refusal (α × Cursor)} {o' o'' : Except Refusal (β × Cursor)}

theorem Falls.reached (h : Falls took reads P c o) : (Cursor.reached o).upcoming <:+ c.upcoming := by
  cases h with
  | ok hd hle hread => exact hle
  | error hle h => exact hle

-- A run from a later cursor on. A token is read there, or was read before.
theorem Falls.weaken (h : Falls took reads P d o) (hle : d.upcoming <:+ c.upcoming) (hpq : P → Q)
    (hread : reads' = true → reads = true ∧ (∀ a, took' a → took a) ∨
      d.upcoming.length < c.upcoming.length) : Falls took' reads' Q c o := by
  cases h with
  | ok hd hle' hread' =>
      refine .ok hd (hle'.trans hle) fun hreads htook => ?_
      rcases hread hreads with ⟨hreads', himp⟩ | hlt
      · exact Nat.lt_of_lt_of_le (hread' hreads' (himp _ htook)) hle.length_le
      · exact Nat.lt_of_le_of_lt hle'.length_le hlt
  | error hle' h => exact .error (hle'.trans hle) fun hcause => hpq (h hcause)

theorem Outcome.weaken (h : C.Outcome took reads view P d o o') (hle : d.upcoming <:+ c.upcoming)
    (hpq : P → Q)
    (hread : reads' = true → reads = true ∧ (∀ a, took' a → took a) ∨
      d.upcoming.length < c.upcoming.length) : C.Outcome took' reads' view Q c o o' :=
  ⟨h.falls.weaken hle hpq hread, h.agrees⟩

-- Behind the tokens that the texts share nothing is said of the second run.
theorem Outcome.beyond (h : C.Outcome took reads view P c o o') (hbeyond : ¬C.rest <:+ c.upcoming) :
    C.Outcome took reads view P c o o'' :=
  ⟨h.falls, .beyond fun hrest => hbeyond (hrest.trans h.falls.reached)⟩

end Outcomes

end Comparison

namespace Parser

variable {α β : Type} {p : Parser α} {f : α → Parser β} {s : Scope} {c d : Cursor}

theorem run_bind_ok {a : α} (h : p s c = .ok (a, d)) : (p >>= f) s c = f a s d := by
  simp only [bind, ReaderT.bind, StateT.bind, Except.bind, h]

theorem run_bind_error {r : Refusal} (h : p s c = .error r) : (p >>= f) s c = .error r := by
  simp only [bind, ReaderT.bind, StateT.bind, Except.bind, h]

theorem run_read_bind {f : Scope → Parser β} : (read >>= f) s c = f s s c := rfl

theorem run_nested (h : s.limit.admits (s.depth + 1) = some true) :
    nested p s c = p s.deeper c := by
  rw [nested, run_read_bind, h]
  rfl

theorem run_nested_deep (h : s.limit.admits (s.depth + 1) = some false) :
    nested p s c = .error ⟨.nestingTooDeep, c.current, c, s.level⟩ := by
  rw [nested, run_read_bind, h]
  rfl

theorem run_nested_none (h : s.limit.admits (s.depth + 1) = none) :
    nested p s c = .error ⟨.limitNotANumber, c.current, c, s.level⟩ := by
  rw [nested, run_read_bind, h]
  rfl

end Parser

namespace Comparison.Mirrors

open GoCompact.Parser

variable {C : Comparison} {phase : Phase} {α β γ δ : Type} {v : α → β} {w : γ → δ} {c : Cursor}
  {kind : TokenKind} {took : α → Prop} {took' : γ → Prop} {p : Parser α} {q q' : Parser β}

-- A rule that enters fewer levels.
theorem start {k : Nat} (h : C.MirrorsIf took (.start k) v p q c) (hk : k ≤ phase.need) :
    C.MirrorsIf took phase v p q c := by
  intro s s' c' hs hc hadmits hfaces
  refine (h s s' c' hs hc hadmits.le hfaces).weaken (List.suffix_refl _) (fun h => h.mono ?_)
    fun _ => .inl ⟨rfl, fun _ h => h⟩
  simp only [Phase.need_start]
  omega

-- Where nothing has to be read, it does not matter what is.
theorem inside (h : C.MirrorsIf took .part v p q c) {took'' : α → Prop} :
    C.MirrorsIf took'' .inside v p q c := by
  intro s s' c' hs hc hadmits hfaces
  exact (h s s' c' hs hc hadmits hfaces).weaken (List.suffix_refl _) id fun h => by cases h

theorem unread (h : C.MirrorsIf took .inside v p q c) :
    C.MirrorsIf (fun _ => False) .part v p q c := by
  intro s s' c' hs hc hadmits hfaces
  have hrun := h s s' c' hs hc hadmits hfaces
  generalize p s c = o at hrun ⊢
  obtain ⟨hfalls, hagrees⟩ := hrun
  cases hfalls with
  | ok hd hle hread => exact ⟨.ok hd hle fun _ h => h.elim, hagrees⟩
  | error hle h => exact ⟨.error hle h, hagrees⟩

theorem imp (h : C.MirrorsIf took phase v p q c) {took'' : α → Prop}
    (htook : ∀ a, took'' a → took a) : C.MirrorsIf took'' phase v p q c := by
  intro s s' c' hs hc hadmits hfaces
  exact (h s s' c' hs hc hadmits hfaces).weaken (List.suffix_refl _) id fun h => .inl ⟨h, htook⟩

-- Behind the tokens that the texts share any parser may stand for the second one.
theorem beyond (h : C.MirrorsIf took phase v p q c) (hbeyond : ¬C.rest <:+ c.upcoming) :
    C.MirrorsIf took phase v p q' c := by
  intro s s' c' hs hc hadmits hfaces
  exact (h s s' c' hs hc hadmits hfaces).beyond hbeyond

-- A result without reading anything.
theorem pureIf {a : α} {b : β} (h : v a = b) (hread : phase.reads = true → ¬took a) :
    C.MirrorsIf took phase v (Pure.pure a) (Pure.pure b) c := by
  intro s s' c' hs hc hadmits hfaces
  subst h
  exact ⟨.ok hc (List.suffix_refl _) fun hreads htook => absurd htook (hread hreads), .ok hfaces⟩

theorem pure {a : α} {b : β} (h : v a = b) :
    C.MirrorsIf took .inside v (Pure.pure a) (Pure.pure b) c :=
  pureIf h fun h => by cases h

-- Behind the first part nothing has to be read if it read something.
theorem bindIf {f : α → Parser γ} {f' : β → Parser δ} (h : C.MirrorsIf took phase v p q c)
    (hin : ∀ a d, took a → d.upcoming.length ≤ c.upcoming.length →
      (phase.reads = true → d.upcoming.length < c.upcoming.length) →
        C.MirrorsIf took' .inside w (f a) (f' (v a)) d)
    (hout : ∀ a d, ¬took a → C.MirrorsIf took' phase w (f a) (f' (v a)) d) :
    C.MirrorsIf took' phase w (p >>= f) (q >>= f') c := by
  intro s s' c' hs hc hadmits hfaces
  have hrun := h s s' c' hs hc hadmits hfaces
  generalize ho : p s c = o at hrun
  generalize ho' : q s' c' = o' at hrun
  obtain ⟨hfalls, hagrees⟩ := hrun
  cases hfalls with
  | @ok a d hd hle hread =>
      rw [run_bind_ok ho]
      have hlength := hle.length_le
      have hrest : ∀ (r : Parser δ) (d' : Cursor), C.Faces d d' →
          (∀ phase', C.MirrorsIf took' phase' w (f a) (f' (v a)) d →
            C.MirrorsIf took' phase' w (f a) r d) →
          C.Outcome took' phase.reads w (s.Exceeds phase.need c) c (f a s d) (r s' d') := by
        intro r d' hfaces' hr
        by_cases htook : took a
        · obtain ⟨hinside, hdeep⟩ := hadmits.behind hlength fun h => hread h htook
          exact (hr _ (hin a d htook hlength fun h => hread h htook) s s' d' hs hd hinside
            hfaces').weaken hle (fun h => h.mono hdeep) fun h => .inr (hread h htook)
        · exact (hr _ (hout a d htook) s s' d' hs hd (hadmits.mono hlength) hfaces').weaken hle
            (fun h => h.mono (by omega)) fun h => .inl ⟨h, fun _ h => h⟩
      cases hagrees with
      | ok hfaces' =>
          rw [run_bind_ok ho']
          exact hrest _ _ hfaces' fun _ h => h
      | beyond hbeyond =>
          exact hrest (fun _ _ => (q >>= f') s' c') d (faces_of_beyond hbeyond d)
            fun _ h => beyond h hbeyond
  | error hle hdeep =>
      rw [run_bind_error ho]
      refine ⟨.error hle hdeep, ?_⟩
      cases hagrees with
      | error hfaces' =>
          rw [run_bind_error ho']
          exact .error hfaces'
      | cut hcuts => exact .cut hcuts
      | beyond hbeyond => exact .beyond hbeyond

theorem bind {f : α → Parser γ} {f' : β → Parser δ} (h : C.Mirrors phase v p q c)
    (hf : ∀ a d, C.MirrorsIf took' .inside w (f a) (f' (v a)) d) :
    C.MirrorsIf took' phase w (p >>= f) (q >>= f') c :=
  bindIf h (fun a d _ _ _ => hf a d) fun _ _ htook => absurd trivial htook

-- A first part that need not read anything.
theorem before {f : α → Parser γ} {f' : β → Parser δ} (h : C.MirrorsIf took .inside v p q c)
    (hf : ∀ a d, C.MirrorsIf took' .part w (f a) (f' (v a)) d) :
    C.MirrorsIf took' .part w (p >>= f) (q >>= f') c :=
  bindIf (unread h) (fun _ _ htook => htook.elim) fun a d _ => hf a d

-- A first part that reads something, so that fewer tokens are left.
theorem partBind {f : α → Parser γ} {f' : β → Parser δ} (h : C.MirrorsIf took .part v p q c)
    (hin : ∀ a d, took a → d.upcoming.length < c.upcoming.length →
      C.MirrorsIf took' .inside w (f a) (f' (v a)) d)
    (hout : ∀ a d, ¬took a → C.MirrorsIf took' .inside w (f a) (f' (v a)) d) :
    C.MirrorsIf took' .inside w (p >>= f) (q >>= f') c :=
  inside (bindIf h (fun a d htook _ hlt => imp (hin a d htook (hlt rfl)) fun _ h => h.elim)
    fun a d htook => unread (hout a d htook))

theorem map {f : α → γ} {f' : β → δ} (h : C.Mirrors phase v p q c) (hf : ∀ a, w (f a) = f' (v a)) :
    C.MirrorsIf took' phase w (f <$> p) (f' <$> q) c := by
  rw [map_eq_pure_bind, map_eq_pure_bind]
  exact bind h fun a d => pure (hf a)

-- A result that may be there, and is.
theorem some {took : Option α → Prop} (h : C.Mirrors phase v p q c) :
    C.MirrorsIf took phase (Option.map v) (Option.some <$> p) (Option.some <$> q) c :=
  map h fun _ => rfl

-- What is decided by the current token is decided alike.
theorem peek_bind {f : TokenKind → Parser γ} {f' : TokenKind → Parser δ}
    (h : C.MirrorsIf took' phase w (f c.current.kind) (f' c.current.kind) c) :
    C.MirrorsIf took' phase w (peek >>= f) (peek >>= f') c := by
  intro s s' c' hs hc hadmits hfaces
  have hrun := h s s' c' hs hc hadmits hfaces
  change C.Outcome took' _ w _ c (f c.current.kind s c) (f' c'.current.kind s' c')
  by_cases hshared : C.rest <:+ c.upcoming
  · rw [hfaces.current hshared, C.moves.kind_token]
    exact hrun
  · exact hrun.beyond hshared

theorem current_bind {f : Token → Parser γ} {f' : Token → Parser δ}
    (h : C.MirrorsIf took' phase w (f c.current) (f' (C.moves.token c.current)) c) :
    C.MirrorsIf took' phase w (current >>= f) (current >>= f') c := by
  intro s s' c' hs hc hadmits hfaces
  have hrun := h s s' c' hs hc hadmits hfaces
  change C.Outcome took' _ w _ c (f c.current s c) (f' c'.current s' c')
  by_cases hshared : C.rest <:+ c.upcoming
  · rw [hfaces.current hshared]
    exact hrun
  · exact hrun.beyond hshared

theorem read_bind {f : Scope → Parser γ} {f' : Scope → Parser δ}
    (h : ∀ s s', C.Below s s' → C.MirrorsIf took' phase w (f s) (f' s') c) :
    C.MirrorsIf took' phase w (read >>= f) (read >>= f') c :=
  fun s s' c' hs => h s s' hs s s' c' hs

-- Behind a token there is room for three more levels.
theorem advance_bind_lt {f : Token → Parser γ} {f' : Token → Parser δ}
    (hkind : c.current.kind ≠ .eof)
    (h : c.advance.upcoming.length < c.upcoming.length →
      C.MirrorsIf took' .inside w (f c.current) (f' (C.moves.token c.current)) c.advance) :
    C.MirrorsIf took' phase w (advance >>= f) (advance >>= f') c := by
  intro s s' c' hs hc hadmits hfaces
  have hlt := hc.advance_lt hkind
  have hrun := h hlt s s' c'.advance hs (hc.advance hkind) (Nat.lt_of_lt_of_le hlt hadmits.le)
    hfaces.advance
  have hlater : C.Outcome took' phase.reads w (s.Exceeds phase.need c) c
      (f c.current s c.advance) (f' (C.moves.token c.current) s' c'.advance) :=
    hrun.weaken c.advance_suffix (fun h => h.mono (by simp only [Phase.need_inside]; omega))
      fun _ => .inr hlt
  change C.Outcome took' _ w _ c (f c.current s c.advance) (f' c'.current s' c'.advance)
  by_cases hshared : C.rest <:+ c.upcoming
  · rw [hfaces.current hshared]
    exact hlater
  · exact hlater.beyond hshared

theorem advance_bind {f : Token → Parser γ} {f' : Token → Parser δ} (hkind : c.current.kind ≠ .eof)
    (h : C.MirrorsIf took' .inside w (f c.current) (f' (C.moves.token c.current)) c.advance) :
    C.MirrorsIf took' phase w (advance >>= f) (advance >>= f') c :=
  advance_bind_lt hkind fun _ => h

theorem refuseAt {cause : Cause} {t : Token} (h : cause ≠ .nestingTooDeep) :
    C.MirrorsIf took phase v (refuseAt cause t) (refuseAt cause (C.moves.token t)) c :=
  fun _ _ _ _ _ _ hfaces => ⟨.error (List.suffix_refl _) fun hcause => absurd hcause h, .error hfaces⟩

theorem refuse {cause : Cause} (h : cause ≠ .nestingTooDeep) :
    C.MirrorsIf took phase v (refuse cause) (refuse cause) c :=
  current_bind (refuseAt h)

theorem expected {what : Wanted} : C.MirrorsIf took phase v (expected what) (expected what) c := by
  refine current_bind ?_
  rw [C.moves.toLexeme_token]
  exact refuse (by simp)

theorem got_bind_lt {f : Bool → Parser γ} {f' : Bool → Parser δ} (hkind : kind ≠ .eof)
    (htrue : ∀ d, d.upcoming.length < c.upcoming.length →
      C.MirrorsIf took' .inside w (f true) (f' true) d)
    (hfalse : C.MirrorsIf took' phase w (f false) (f' false) c) :
    C.MirrorsIf took' phase w (got kind >>= f) (got kind >>= f') c := by
  simp only [got, bind_assoc]
  refine peek_bind ?_
  split
  · rename_i h
    simp only [discard_bind, bind_assoc, pure_bind]
    exact advance_bind_lt (by rw [h]; exact hkind) (htrue _)
  · simpa only [pure_bind] using hfalse

theorem got_bind {f : Bool → Parser γ} {f' : Bool → Parser δ} (hkind : kind ≠ .eof)
    (htrue : ∀ d, C.MirrorsIf took' .inside w (f true) (f' true) d)
    (hfalse : C.MirrorsIf took' phase w (f false) (f' false) c) :
    C.MirrorsIf took' phase w (got kind >>= f) (got kind >>= f') c :=
  got_bind_lt hkind (fun d _ => htrue d) hfalse

-- A choice by a token that is read if it is there.
theorem got_ite {p p' : Parser γ} {q q' : Parser δ} (hkind : kind ≠ .eof)
    (hthen : ∀ d, C.MirrorsIf took' .inside w p q d) (helse : C.MirrorsIf took' phase w p' q' c) :
    C.MirrorsIf took' phase w (got kind >>= fun b => if b = true then p else p')
      (got kind >>= fun b => if b = true then q else q') c :=
  got_bind hkind hthen helse

-- Nothing follows a refusal.
theorem refuseAt_bind {cause : Cause} {t : Token} {f : α → Parser γ} {f' : β → Parser δ}
    (h : cause ≠ .nestingTooDeep) :
    C.MirrorsIf took' phase w (Parser.refuseAt cause t >>= f)
      (Parser.refuseAt cause (C.moves.token t) >>= f') c := by
  intro s s' c' hs hc hadmits hfaces
  rw [run_bind_error rfl, run_bind_error rfl]
  exact ⟨.error (List.suffix_refl _) fun hcause => absurd hcause h, .error hfaces⟩

theorem refuse_bind {cause : Cause} {f : α → Parser γ} {f' : β → Parser δ}
    (h : cause ≠ .nestingTooDeep) :
    C.MirrorsIf took' phase w (Parser.refuse cause >>= f) (Parser.refuse cause >>= f') c := by
  simp only [Parser.refuse, bind_assoc]
  exact current_bind (refuseAt_bind h)

theorem expected_bind {what : Wanted} {f : α → Parser γ} {f' : β → Parser δ} :
    C.MirrorsIf took' phase w (Parser.expected what >>= f) (Parser.expected what >>= f') c := by
  simp only [Parser.expected, bind_assoc]
  refine current_bind ?_
  rw [C.moves.toLexeme_token]
  exact refuse_bind (by simp)

theorem expect_bind {f : Token → Parser γ} {f' : Token → Parser δ} (hkind : kind ≠ .eof)
    (h : ∀ t d, C.MirrorsIf took' .inside w (f t) (f' (C.moves.token t)) d) :
    C.MirrorsIf took' phase w (expect kind >>= f) (expect kind >>= f') c := by
  simp only [expect, bind_assoc]
  refine peek_bind ?_
  split
  · rename_i hc
    exact advance_bind (by rw [hc]; exact hkind) (h _ _)
  · exact expected_bind

theorem expectEnd : C.Mirrors .inside id expectEnd expectEnd c := by
  refine peek_bind ?_
  split
  · exact pure rfl
  · exact pure rfl
  · exact pure rfl
  · rename_i hkind
    rw [← bind_pure (discard advance)]
    simp only [discard_bind]
    exact advance_bind (by simp [hkind]) (pure rfl)
  · exact expected

theorem expectEnd_bind {f : Unit → Parser γ} {f' : Unit → Parser δ}
    (h : ∀ d, C.MirrorsIf took' .inside w (f ()) (f' ()) d) :
    C.MirrorsIf took' .inside w (Parser.expectEnd >>= f) (Parser.expectEnd >>= f') c :=
  bind expectEnd fun _ d => h d

-- A level is entered, or the limit of the first run forbids it.
theorem nested {k : Nat} (h : C.MirrorsIf took (.start k) v p q c) (hk : k + 1 ≤ phase.need) :
    C.MirrorsIf took phase v (nested p) (nested q) c := by
  intro s s' c' hs hc hadmits hfaces
  have hdeep : s.limit.admits (s.depth + 1) = Option.some false → s.Exceeds phase.need c :=
    fun h => Limit.admits_mono h (by omega)
  have hrefused : ∀ {cause : Cause}, (cause = .nestingTooDeep → s.Exceeds phase.need c) →
      Falls took phase.reads (s.Exceeds phase.need c) c
        (.error ⟨cause, c.current, c, s.level⟩) :=
    fun h => .error (List.suffix_refl _) h
  have hrefuse : ∀ {cause : Cause}, (cause = .nestingTooDeep → s.Exceeds phase.need c) →
      C.Outcome took phase.reads v (s.Exceeds phase.need c) c
        (.error ⟨cause, c.current, c, s.level⟩) (.error ⟨cause, c'.current, c', s'.level⟩) := by
    intro cause hcause
    refine ⟨hrefused hcause, ?_⟩
    by_cases hshared : C.rest <:+ c.upcoming
    · rw [hfaces.current hshared]
      exact .error hfaces
    · exact .beyond hshared
  rcases hs.limit 1 with hsame | ⟨hcuts, hfalse⟩
  · cases ho : s.limit.admits (s.depth + 1) with
    | none =>
        rw [run_nested_none ho, run_nested_none (hsame.trans ho)]
        exact hrefuse (by simp)
    | some b =>
        cases b with
        | false =>
            rw [run_nested_deep ho, run_nested_deep (hsame.trans ho)]
            exact hrefuse fun _ => hdeep ho
        | true =>
            rw [run_nested ho, run_nested (hsame.trans ho)]
            have hdeeper : C.Below s.deeper s'.deeper := by
              refine ⟨hs.level, fun n => ?_⟩
              simp only [Scope.deeper, Nat.add_assoc]
              exact hs.limit (1 + n)
            refine (h s.deeper s'.deeper c' hdeeper hc hadmits.le hfaces).weaken (List.suffix_refl _)
              (fun h => Limit.admits_mono h ?_) fun _ => .inl ⟨rfl, fun _ h => h⟩
            simp only [Scope.deeper, Phase.need_start]
            omega
  · rw [run_nested_deep hfalse]
    exact ⟨hrefused fun _ => hdeep hfalse, .cut hcuts⟩

theorem bracketed (h : C.MirrorsIf took phase v p q c) :
    C.MirrorsIf took phase v (bracketed p) (bracketed q) c := by
  intro s s' c' hs hc hadmits hfaces
  refine h s.bracketed s'.bracketed c' ⟨?_, hs.limit⟩ hc hadmits hfaces
  have hlevel := hs.level
  simp only [Scope.bracketed]
  omega

theorem inHeader (h : C.MirrorsIf took phase v p q c) :
    C.MirrorsIf took phase v (inHeader p) (inHeader q) c := by
  intro s s' c' hs hc hadmits hfaces
  exact h s.header s'.header c' ⟨.inl rfl, hs.limit⟩ hc hadmits hfaces

section Loops

-- A loop of as many rounds as there are tokens left. Each of its rounds reads one of them, so that none
-- of the runs is out of rounds before the other one.
theorem rounds {ι : Type} {f : ι → List Token → Parser γ} {k : ι → List Token → Parser δ} (i : ι)
    (hnil : ∀ i c, C.MirrorsIf took' .inside w (f i []) (k i []) c)
    (hcons : ∀ i c r r' rounds rounds',
      (∀ i d, d.upcoming.length < c.upcoming.length →
        C.MirrorsIf took' .inside w (f i rounds) (k i rounds') d) →
      C.MirrorsIf took' .inside w (f i (r :: rounds)) (k i (r' :: rounds')) c) :
    C.MirrorsIf took' .inside w (ahead >>= f i) (ahead >>= k i) c := by
  -- Both loops have equally many rounds, or as many more as there are tokens in one text than in the
  -- other, and then there are enough of them.
  have main : ∀ (rounds rounds' : List Token) (i : ι) (c : Cursor),
      (rounds.length = rounds'.length ∨
        (rounds.length + C.rest'.length = rounds'.length + C.rest.length ∧
          c.upcoming.length ≤ rounds.length)) →
        C.MirrorsIf took' .inside w (f i rounds) (k i rounds') c := by
    intro rounds
    induction rounds with
    | nil =>
        intro rounds' i c hpace
        cases rounds' with
        | nil => exact hnil i c
        | cons r' rounds' =>
            refine beyond (hnil i c) fun hshared => ?_
            simp only [List.length_nil, List.length_cons] at hpace
            have hlength := hshared.length_le
            have hrest := C.ends.mp (List.length_eq_zero_iff.mp (by omega))
            rw [hrest, List.length_nil] at hpace
            omega
    | cons r rounds ih =>
        intro rounds' i c hpace
        cases rounds' with
        | nil =>
            refine beyond (hcons i c r r rounds rounds fun i d _ => ih rounds i d (.inl rfl))
              fun hshared => ?_
            simp only [List.length_nil, List.length_cons] at hpace
            have hlength := hshared.length_le
            have hrest := C.ends.mpr (List.length_eq_zero_iff.mp (by omega))
            rw [hrest, List.length_nil] at hpace
            omega
        | cons r' rounds' =>
            refine hcons i c r r' rounds rounds' fun i d hlt => ih rounds' i d ?_
            simp only [List.length_cons] at hpace
            omega
  intro s s' c' hs hc hadmits hfaces
  by_cases hshared : C.rest <:+ c.upcoming
  · obtain ⟨shared, hupcoming, rfl⟩ := hfaces.eq hshared
    refine main c.upcoming (shared.map C.moves.token ++ C.rest') i c (.inr ⟨?_, Nat.le_refl _⟩) s s'
      _ hs hc hadmits hfaces
    simp only [hupcoming, List.length_append, List.length_map]
    omega
  · exact (main c.upcoming c.upcoming i c (.inl rfl) s s' c' hs hc hadmits hfaces).beyond hshared

theorem grow {step step' : Tree → Parser (Option Tree)} {t : Tree}
    (h : ∀ t d, C.MirrorsIf (·.isSome) .part C.tree? (step t) (step' (C.tree t)) d) :
    C.Mirrors .inside C.tree (grow step t) (grow step' (C.tree t)) c := by
  refine rounds (f := fun t rounds => growWithin step rounds t)
    (k := fun t rounds => growWithin step' rounds (C.tree t)) t (fun t c => pure rfl) ?_
  intro t c r r' rounds rounds' ih
  refine partBind (h t c) (fun o d ho hlt => ?_) fun o d ho => ?_
  · obtain ⟨u, rfl⟩ := Option.isSome_iff_exists.mp ho
    exact ih u d hlt
  · obtain rfl := Option.not_isSome_iff_eq_none.mp ho
    exact pure rfl

theorem manyWhile {more : TokenKind → Bool}
    (h : ∀ d, more d.current.kind = true → C.Mirrors .part v p q d) :
    C.Mirrors .inside (List.map v) (manyWhile more p) (manyWhile more q) c := by
  refine rounds (f := fun _ => manyWithin more p) (k := fun _ => manyWithin more q) ()
    (fun _ c => pure rfl) ?_
  intro _ c r r' rounds rounds' ih
  refine peek_bind ?_
  split
  · rename_i hmore
    exact partBind (h c hmore) (fun x d _ hlt => bind (ih () d hlt) fun xs e => pure rfl)
      fun _ _ htook => absurd trivial htook
  · exact pure rfl

-- After a part that need not read anything there are not more tokens left.
theorem insideBind {f : α → Parser γ} {f' : β → Parser δ} (h : C.Mirrors .inside v p q c)
    (hf : ∀ a d, d.upcoming.length ≤ c.upcoming.length →
      C.MirrorsIf took' .inside w (f a) (f' (v a)) d) :
    C.MirrorsIf took' .inside w (p >>= f) (q >>= f') c :=
  bindIf h (fun a d _ hle _ => hf a d hle) fun _ _ htook => absurd trivial htook

theorem afterCommas {closing : Option TokenKind} (h : ∀ d, C.Mirrors .inside v p q d) :
    C.Mirrors .inside (List.map v) (afterCommas closing p) (afterCommas closing q) c := by
  refine rounds (f := fun _ => afterCommasWithin closing p)
    (k := fun _ => afterCommasWithin closing q) () (fun _ c => pure rfl) ?_
  intro _ c r r' rounds rounds' ih
  refine got_bind_lt (by decide) (fun d hlt => peek_bind ?_) (pure rfl)
  split
  · exact pure rfl
  · exact insideBind (h d) fun x e hle =>
      bind (ih () e (Nat.lt_of_le_of_lt hle hlt)) fun xs e => pure rfl

theorem commaList (h : C.Mirrors phase v p q c) (hinside : ∀ d, C.Mirrors .inside v p q d) :
    C.Mirrors phase (List.map v) (commaList p) (commaList q) c :=
  bind h fun _ _ => bind (afterCommas hinside) fun _ _ => pure rfl

theorem itemsUntil {closing : TokenKind} (h : ∀ d, C.Mirrors .inside v p q d) :
    C.Mirrors .inside (List.map v) (itemsUntil closing p) (itemsUntil closing q) c := by
  refine rounds (f := fun _ => itemsWithin closing p) (k := fun _ => itemsWithin closing q) ()
    (fun _ c => pure rfl) ?_
  intro _ c r r' rounds rounds' ih
  refine peek_bind ?_
  split
  · exact pure rfl
  · refine insideBind (h c) fun x d hle => got_bind_lt (by decide) (fun e hlt => ?_) (pure rfl)
    exact bind (ih () e (Nat.lt_of_lt_of_le hlt hle)) fun xs e => pure rfl

end Loops

-- If the texts are alike to their ends, the second parser gives what the first one gives.
theorem gives {moves : Relocation} {cuts : Prop} {bound : Nat} {s s' : Scope} {a : α} {d : Cursor}
    (h : (whole moves cuts bound).MirrorsIf took phase v p q c)
    (hs : (whole moves cuts bound).Below s s') (hc : c.Valid) (hadmits : phase.Admits bound c)
    (hp : p.Gives s c a d) : q.Gives s' (moves.cursor c) (v a) (moves.cursor d) := by
  have hrun := (h s s' _ hs hc hadmits (faces_whole moves cuts bound c)).agrees
  rw [show p s c = .ok (a, d) from hp] at hrun
  generalize ho' : q s' (moves.cursor c) = o' at hrun
  cases hrun with
  | ok hfaces =>
      rw [hfaces d.upcoming (List.append_nil _).symm] at ho'
      rw [Gives, ho']
      simp [whole, Relocation.cursor]
  | beyond hbeyond => exact absurd List.nil_suffix hbeyond

-- What is left after a run are the last of the tokens that were left before it, and fewer of them if the
-- run has to read one.
theorem left_of_gives {moves : Relocation} {cuts : Prop} {bound : Nat} {s : Scope} {a : α}
    {d : Cursor} (h : (whole moves cuts bound).MirrorsIf took phase v p q c) (hc : c.Valid)
    (hadmits : phase.Admits bound c) (hp : p.Gives s c a d) :
    d.Valid ∧ d.upcoming <:+ c.upcoming ∧
      (phase.reads = true → took a → d.upcoming.length < c.upcoming.length) := by
  have hrun := (h s s _ (.refl s) hc hadmits (faces_whole moves cuts bound c)).falls
  rw [show p s c = .ok (a, d) from hp] at hrun
  cases hrun with
  | ok hd hle hread => exact ⟨hd, hle, hread⟩

-- Where nothing is moved or cut off, both give the same.
theorem gives_stay_iff {bound : Nat} {took : α → Prop} {v : α → α} {p q : Parser α} {s s' : Scope}
    {a : α} {d : Cursor} (h : (whole .stay False bound).MirrorsIf took phase v p q c)
    (hv : ∀ a, v a = a) (hs : (whole .stay False bound).Below s s') (hc : c.Valid)
    (hadmits : phase.Admits bound c) : p.Gives s c a d ↔ q.Gives s' c a d := by
  have hgives : ∀ {b : α} {e : Cursor}, p.Gives s c b e → q.Gives s' c b e := by
    intro b e hp
    have hq := gives h hs hc hadmits hp
    rwa [hv, Relocation.cursor_stay, Relocation.cursor_stay] at hq
  refine ⟨hgives, fun hq => ?_⟩
  have hrun := (h s s' _ hs hc hadmits (faces_whole .stay False bound c)).agrees
  rw [Relocation.cursor_stay, show q s' c = .ok (a, d) from hq] at hrun
  cases hp : p s c with
  | ok r =>
      obtain ⟨b, e⟩ := r
      obtain ⟨rfl, rfl⟩ := Prod.mk.inj (Except.ok.inj ((hgives hp).symm.trans hq))
      exact hp
  | error r =>
      rw [hp] at hrun
      cases hrun with
      | cut hcuts => exact hcuts.elim
      | beyond hbeyond => exact absurd List.nil_suffix hbeyond

end Comparison.Mirrors

-- The parts of two grammars that rules come back to, behind a token. A type is read by reading a token,
-- and so is a statement, unless it ends before the closing brace of a block.
structure Grammar.Mirrored (C : Comparison) (g g' : Grammar) : Prop where
  binary {least : Nat} {c : Cursor} : 1 ≤ least →
    C.Mirrors .inside C.tree (g.binary least) (g'.binary least) c
  unary {c : Cursor} : C.Mirrors .inside C.tree g.unary g'.unary c
  type? {c : Cursor} : C.MirrorsIf (·.isSome) .part C.tree? g.type? g'.type? c
  bareLiteral {c : Cursor} : C.Mirrors .inside C.tree g.bareLiteral g'.bareLiteral c
  statement {c : Cursor} :
    C.MirrorsIf (fun _ => c.current.kind ≠ .op .RBrace) .part C.tree g.statement g'.statement c
  ifStatement {c : Cursor} : C.Mirrors .inside C.tree g.ifStatement g'.ifStatement c

end GoCompact
