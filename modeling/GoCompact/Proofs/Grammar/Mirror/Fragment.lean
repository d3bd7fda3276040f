import GoCompact.Proofs.Grammar.Mirror.Statement
import GoCompact.Proofs.Lexing.Boundary

namespace GoCompact

open GoCompact.Parser Comparison Comparison.Mirrors

namespace Grammar

variable {C : Comparison} {g g' : Grammar}

-- A rule over parts that are mirrored up to a bound is itself mirrored behind one more token.
theorem mirrors_part {α β : Type} {took : α → Prop} {v : α → β} {p : Parser α} {q : Parser β}
    {c : Cursor} {k : Nat} (h : C.MirrorsIf took (.start k) v p q c) (hk : k ≤ 3) :
    C.next.MirrorsIf took .part v p q c := by
  intro s s' c' hs hc hadmits hfaces
  have hrun := h s s' c' ⟨hs.level, hs.limit⟩ hc (Nat.le_of_lt_succ hadmits) hfaces
  have hdeep : s.Exceeds k c → s.Exceeds 3 c := fun h => h.mono (by omega)
  generalize p s c = o at hrun ⊢
  generalize q s' c' = o' at hrun ⊢
  obtain ⟨hfalls, hagrees⟩ := hrun
  refine ⟨hfalls.weaken (List.suffix_refl _) hdeep fun _ => .inl ⟨rfl, fun _ h => h⟩, ?_⟩
  cases hagrees with
  | ok hfaces' => exact .ok hfaces'
  | error hfaces' => exact .error hfaces'
  | cut hcuts => exact .cut hcuts
  | beyond hbeyond => exact .beyond hbeyond

theorem Mirrored.extend (hg : Mirrored C g g') : Mirrored C.next g.extend g'.extend where
  binary hleast := inside (mirrors_part (hg.binaryRule hleast (Nat.le_refl 2)) (by decide))
  unary := inside (mirrors_part (hg.unaryRule (Nat.le_refl 2)) (by decide))
  type? := mirrors_part (hg.typeRule? (Nat.le_refl 1)) (by decide)
  bareLiteral := inside (mirrors_part (k := 0) hg.literalValue (by decide))
  statement := mirrors_part (hg.statementRule (Nat.le_refl 3)) (by decide)
  ifStatement := inside (mirrors_part (k := 0) hg.ifRule (by decide))

-- As many rounds as there are tokens are enough: more of them change nothing.
theorem mirrored_upTo (C : Comparison) {n m : Nat} (h : n ≤ m) :
    Mirrored { C with bound := n } (upTo n) (upTo m) := by
  induction n generalizing m with
  | zero => constructor <;> intros <;> exact fun _ _ _ _ _ h => absurd h (Nat.not_lt_zero _)
  | succ n ih =>
      obtain ⟨m, rfl⟩ : ∃ k, m = k + 1 := ⟨m - 1, by omega⟩
      exact (ih (Nat.le_of_succ_le_succ h)).extend

theorem mirrored_whole (moves : Relocation) (cuts : Prop) {n m : Nat} (h : n ≤ m) :
    Mirrored (whole moves cuts n) (upTo n) (upTo m) :=
  mirrored_upTo (whole moves cuts n) h

end Grammar

namespace Fragment

variable {C : Comparison} {g g' : Grammar} {c c' : Cursor} {phase : Phase}

theorem mirrors_finish : C.MirrorsIf (fun _ => False) phase id finish finish c := by
  simp only [finish, discard_bind]
  refine got_bind (by decide) (fun c => peek_bind ?_) (peek_bind ?_)
  · split
    · exact expected
    · exact pure rfl
  · split
    · exact expected
    · exact pureIf rfl fun _ h => h

theorem mirrors_alone {took : Tree → Prop} {p q : Parser Tree}
    (h : C.MirrorsIf took phase C.tree p q c) :
    C.MirrorsIf (fun _ => False) phase C.tree (alone p) (alone q) c := by
  have hend : ∀ {phase : Phase} (t : Tree) (d : Cursor), C.MirrorsIf (fun _ => False) phase C.tree
      (finish >>= fun _ => Pure.pure t) (finish >>= fun _ => Pure.pure (C.tree t)) d :=
    fun t d => bindIf mirrors_finish (fun _ _ h => h.elim) fun _ _ _ => pureIf rfl fun _ h => h
  exact bindIf h (fun t d _ _ _ => hend t d) fun t d _ => hend t d

theorem mirrors_fileRule (hg : Grammar.Mirrored C g g') :
    C.Mirrors (.start 3) C.tree (fileRule g) (fileRule g') c := by
  refine expect_bind (by decide) fun start c => bind Grammar.mirrors_ident fun package c => ?_
  refine expectEnd_bind fun c => bind (manyWhile fun _ _ => hg.genDecl) fun imports c => ?_
  exact bind (manyWhile fun _ _ => hg.declaration) fun others c => pure (by simp)

theorem mirrors_rule (hg : Grammar.Mirrored C g g') (fragment : Fragment) :
    C.MirrorsIf (fun _ => False) (.start 3) C.tree (fragment.rule g) (fragment.rule g') c := by
  cases fragment with
  | file => exact imp (mirrors_fileRule hg) fun _ h => h.elim
  | expression => exact mirrors_alone (hg.expressionRule (by simp))
  | statement => exact mirrors_alone (hg.statementRule (by simp))
  | declaration => exact mirrors_alone hg.declaration

-- What two runs over all tokens answer where the texts are alike. The first one is too deep only if
-- `deep` holds.
inductive Answers (C : Comparison) (deep : Prop) :
    Except Refusal Tree → Except Refusal Tree → Prop
  | ok {t : Tree} : Answers C deep (.ok t) (.ok (C.tree t))
  | error {cause : Cause} {t : Token} {d d' : Cursor} {l l' : Int}
      (h : cause = .nestingTooDeep → deep) (hfaces : C.Faces d d') :
      Answers C deep (.error ⟨cause, t, d, l⟩) (.error ⟨cause, C.moves.token t, d', l'⟩)
  | cut {t : Token} {d : Cursor} {l : Int} {o : Except Refusal Tree} (hcuts : C.cuts) (h : deep) :
      Answers C deep (.error ⟨.nestingTooDeep, t, d, l⟩) o

theorem fresh_ofTokens {ts : List Token} (h : Sourced false (ts.map (·.toLexeme))) :
    (Cursor.ofTokens ts).Fresh := by
  cases ts with
  | nil => exact absurd rfl h.ne_nil
  | cons t ts => exact h

theorem valid_ofTokens {ts : List Token} (h : Sourced false (ts.map (·.toLexeme))) :
    (Cursor.ofTokens ts).Valid :=
  (fresh_ofTokens h).valid

section

variable {fragment : Fragment} {limit : Limit} {ts : List Token}

theorem parseTokens_ok {t : Tree} {d : Cursor}
    (h : fragment.rule (Grammar.upTo ts.length) ⟨0, 0, limit⟩ (Cursor.ofTokens ts) = .ok (t, d)) :
    fragment.parseTokens limit ts = .ok t := by
  simp only [parseTokens, parseIn, ReaderT.run, StateT.run, h]

theorem parseTokens_error {r : Refusal}
    (h : fragment.rule (Grammar.upTo ts.length) ⟨0, 0, limit⟩ (Cursor.ofTokens ts) = .error r) :
    fragment.parseTokens limit ts = .error r := by
  simp only [parseTokens, parseIn, ReaderT.run, StateT.run, h]

end

-- From the start of two texts on both runs are compared.
theorem outcome_rule {n m : Nat} {limit limit' : Limit} (C : Comparison) (fragment : Fragment)
    (hnm : n ≤ m) (hc : c.Valid) (hn : c.upcoming.length < n) (hfaces : C.Faces c c')
    (hlimit : ∀ n, limit'.admits n = limit.admits n ∨
      (C.cuts ∧ limit.admits n = Option.some false)) :
    ({ C with bound := n } : Comparison).Outcome (fun _ => False) true C.tree
      (limit.admits (3 * n) = Option.some false) c
      (fragment.rule (Grammar.upTo n) ⟨0, 0, limit⟩ c)
      (fragment.rule (Grammar.upTo m) ⟨0, 0, limit'⟩ c') := by
  have hrule := mirrors_rule (c := c) (Grammar.mirrored_upTo C hnm) fragment
  refine (hrule ⟨0, 0, limit⟩ ⟨0, 0, limit'⟩ c' ⟨.inl rfl, fun k => ?_⟩ hc (Nat.le_of_lt hn)
    hfaces).weaken (List.suffix_refl _) (fun hexceeds => ?_) fun _ => .inl ⟨rfl, fun _ h => h⟩
  · exact hlimit (0 + k)
  · exact Limit.admits_mono hexceeds (by change 0 + 3 + _ ≤ _; omega)

theorem length_ofTokens {ts : List Token} (h : Sourced false (ts.map (·.toLexeme))) :
    (Cursor.ofTokens ts).upcoming.length + 1 = ts.length := by
  cases ts with
  | nil => exact absurd rfl h.ne_nil
  | cons t ts => rfl

theorem answers_parseTokens {ts : List Token} {limit limit' : Limit} (moves : Relocation)
    (cuts : Prop) (fragment : Fragment) (h : Sourced false (ts.map (·.toLexeme)))
    (hlimit : ∀ n, limit'.admits n = limit.admits n ∨ (cuts ∧ limit.admits n = Option.some false)) :
    Answers (.whole moves cuts ts.length) (limit.admits (3 * ts.length) = Option.some false)
      (fragment.parseTokens limit ts) (fragment.parseTokens limit' (ts.map moves.token)) := by
  have hlength := length_ofTokens h
  have hmap : moves.cursor (Cursor.ofTokens ts) = Cursor.ofTokens (ts.map moves.token) := by
    cases ts with
    | nil => exact absurd rfl h.ne_nil
    | cons t ts => rfl
  have hrun := outcome_rule (.whole moves cuts ts.length) fragment (Nat.le_refl ts.length)
    (valid_ofTokens h) (by omega) (faces_whole moves cuts ts.length _) hlimit
  rw [hmap] at hrun
  generalize ho : fragment.rule (Grammar.upTo ts.length) ⟨0, 0, limit⟩ (Cursor.ofTokens ts) = o
    at hrun
  generalize ho' : fragment.rule (Grammar.upTo ts.length) ⟨0, 0, limit'⟩
    (Cursor.ofTokens (ts.map moves.token)) = o' at hrun
  rw [← ts.length_map moves.token] at ho'
  obtain ⟨hfalls, hagrees⟩ := hrun
  cases hagrees with
  | ok =>
      rw [parseTokens_ok ho, parseTokens_ok ho']
      exact .ok
  | error hfaces' =>
      rw [parseTokens_error ho, parseTokens_error ho']
      cases hfalls with
      | error hle hdeep => exact .error hdeep hfaces'
  | cut hcuts =>
      rw [parseTokens_error ho]
      cases hfalls with
      | error hle hdeep => exact .cut hcuts (hdeep rfl)
  | beyond hbeyond => exact absurd (List.nil_suffix) hbeyond

end Fragment

end GoCompact
