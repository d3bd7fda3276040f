import GoCompact.Proofs.Grammar.Independence
import GoCompact.Proofs.Reread.Expression

namespace GoCompact

open CodePoint (char)

open GoCompact.Tree GoCompact.Parser Emission Cursor

namespace Text

-- A text that is a name.
def IsName (s : Text) : Prop := Lexer.written s = .ok [⟨.ident, s⟩]

-- A text that is one lexeme is read from its own text.
theorem whole_of_written {s : Text} {l : Lexeme} (h : Lexer.written s = .ok [l]) : l.Whole := by
  obtain ⟨ms, hlexes, hms⟩ := Lexer.lexes_of_written h
  have hwhole := hlexes.sourced.content.1
  rw [hms] at hwhole
  exact hwhole l (by simp)

theorem IsName.whole {s : Text} (h : IsName s) : (⟨.ident, s⟩ : Lexeme).Whole :=
  whole_of_written h

theorem IsLiteral.whole {k : Literal} {s : Text} (h : IsLiteral k s) :
    (⟨.literal k, s⟩ : Lexeme).Whole :=
  whole_of_written h

end Text

namespace Lexeme

-- An integer is not followed by what begins with a point.
def Apart (l m : Lexeme) : Prop :=
  l.kind = .literal .Integer → m.text.toList.head? ≠ some (char '.')

end Lexeme

-- No number among these lexemes goes on in the one after it.
structure Unclashing (ls : List Lexeme) : Prop where
  apart : ls.IsChain Lexeme.Apart
  marked : ∀ l ∈ ls, l.kind = .literal .Floating → Scan.endsInMark l.text.toList = false

namespace Unclashing

variable {l : Lexeme} {ls ms : List Lexeme}

theorem nil : Unclashing [] := ⟨.nil, by simp⟩

theorem append (h : Unclashing ls) (h' : Unclashing ms)
    (hseam : ∀ l ∈ ls.getLast?, ∀ m ∈ ms.head?, l.Apart m) : Unclashing (ls ++ ms) :=
  ⟨h.apart.append h'.apart hseam, List.forall_mem_append.mpr ⟨h.marked, h'.marked⟩⟩

-- A lexeme that is no integer before others.
theorem cons (hkind : l.kind ≠ .literal .Integer)
    (hmark : l.kind = .literal .Floating → Scan.endsInMark l.text.toList = false)
    (h : Unclashing ls) : Unclashing (l :: ls) := by
  refine ⟨?_, List.forall_mem_cons.mpr ⟨hmark, h.marked⟩⟩
  cases ls with
  | nil => exact .singleton l
  | cons m ls => exact List.isChain_cons_cons.mpr ⟨fun h => absurd h hkind, h.apart⟩

theorem operator (o : Operator) (h : Unclashing ls) : Unclashing (.ofOperator o :: ls) :=
  h.cons (by simp) (by simp)

theorem keyword (k : Keyword) (h : Unclashing ls) : Unclashing (.ofKeyword k :: ls) :=
  h.cons (by simp) (by simp)

theorem name {x : Text} (h : Unclashing ls) : Unclashing (⟨.ident, x⟩ :: ls) :=
  h.cons (by simp) (by simp)

theorem append_keyword {k : Keyword} (h : Unclashing ls) (h' : Unclashing ms) :
    Unclashing (ls ++ .ofKeyword k :: ms) := by
  refine h.append (h'.keyword k) ?_
  rintro l - m hm - hpoint
  obtain rfl := Option.some.inj hm
  cases k <;> exact absurd hpoint (by decide)

theorem literal {k : Literal} {x : Text}
    (hmark : k = .Floating → Scan.endsInMark x.toList = false) : Unclashing [⟨.literal k, x⟩] :=
  ⟨.singleton _, by simpa using hmark⟩

-- Anything may stand before an operator that begins with no point.
theorem append_operator {o : Operator} (h : Unclashing ls) (h' : Unclashing ms)
    (ho : o.head ≠ '.') : Unclashing (ls ++ .ofOperator o :: ms) := by
  refine h.append (h'.operator o) ?_
  rintro l - m hm - hpoint
  obtain rfl := Option.some.inj hm
  rw [show (Lexeme.ofOperator o).text.toList.head? = some o.head from o.head?_spelling] at hpoint
  exact ho (Option.some.inj hpoint)

theorem append_flatMap {o : Operator} {ws : List (List Lexeme)} (h : Unclashing ls)
    (ho : o.head ≠ '.') (hws : ∀ w ∈ ws, Unclashing w) :
    Unclashing (ls ++ ws.flatMap (.ofOperator o :: ·)) := by
  induction ws generalizing ls with
  | nil => simpa using h
  | cons w ws ih =>
      obtain ⟨hw, hws⟩ := List.forall_mem_cons.mp hws
      exact h.append_operator (ih hw hws) ho

theorem listed {ws : List (List Lexeme)} (h : ∀ w ∈ ws, Unclashing w) : Unclashing (listed ws) := by
  cases ws with
  | nil => exact .nil
  | cons w ws =>
      obtain ⟨hw, hws⟩ := List.forall_mem_cons.mp h
      exact hw.append_flatMap (by decide) hws

theorem sequenced {ws : List (List Lexeme)} (h : ∀ w ∈ ws, Unclashing w) :
    Unclashing (sequenced ws) := by
  cases ws with
  | nil => exact .nil
  | cons w ws =>
      obtain ⟨hw, hws⟩ := List.forall_mem_cons.mp h
      exact hw.append_flatMap (by decide) hws

end Unclashing

-- Lexemes that do not end in a number either, so that anything may follow them.
structure Sealed (ls : List Lexeme) : Prop where
  unclashing : Unclashing ls
  last : ∀ l ∈ ls.getLast?, l.kind ≠ .literal .Integer

namespace Sealed

variable {ls ms : List Lexeme}

theorem nil : Sealed [] := ⟨.nil, by simp⟩

theorem append (h : Sealed ls) (h' : Sealed ms) : Sealed (ls ++ ms) := by
  refine ⟨h.unclashing.append h'.unclashing fun l hl _ _ hkind => absurd hkind (h.last l hl), ?_⟩
  intro l hl
  rw [List.getLast?_append, Option.mem_def, Option.or_eq_some_iff] at hl
  rcases hl with hl | ⟨-, hl⟩
  · exact h'.last l hl
  · exact h.last l hl

theorem of_lexeme {l : Lexeme} (hinteger : l.kind ≠ .literal .Integer)
    (hfloating : l.kind ≠ .literal .Floating) : Sealed [l] :=
  ⟨Unclashing.nil.cons hinteger fun h => absurd h hfloating, by simpa using hinteger⟩

theorem operator (o : Operator) (h : Sealed ls) : Sealed (.ofOperator o :: ls) :=
  (of_lexeme (by simp) (by simp)).append h

theorem keyword (k : Keyword) (h : Sealed ls) : Sealed (.ofKeyword k :: ls) :=
  (of_lexeme (by simp) (by simp)).append h

theorem name {x : Text} (h : Sealed ls) : Sealed (⟨.ident, x⟩ :: ls) :=
  (of_lexeme (by simp) (by simp)).append h

theorem text {x : Text} : Sealed [⟨.literal .Text, x⟩] := of_lexeme nofun nofun

-- A number may stand before an operator that begins with no point.
theorem after {o : Operator} (h : Unclashing ls) (ho : o.head ≠ '.') (h' : Sealed ms) :
    Sealed (ls ++ .ofOperator o :: ms) := by
  refine ⟨h.append_operator h'.unclashing ho, fun l hl => (h'.operator o).last l ?_⟩
  rwa [List.getLast?_append_of_ne_nil _ (by simp)] at hl

theorem flatMap {α : Type} {f : α → List Lexeme} {xs : List α} (h : ∀ x ∈ xs, Sealed (f x)) :
    Sealed (xs.flatMap f) := by
  induction xs with
  | nil => exact .nil
  | cons x xs ih =>
      obtain ⟨hx, hxs⟩ := List.forall_mem_cons.mp h
      exact hx.append (ih hxs)

theorem listed {ws : List (List Lexeme)} (h : ∀ w ∈ ws, Sealed w) : Sealed (listed ws) := by
  cases ws with
  | nil => exact .nil
  | cons w ws =>
      obtain ⟨hw, hws⟩ := List.forall_mem_cons.mp h
      exact hw.append (flatMap fun v hv => (hws v hv).operator _)

theorem sequenced {ws : List (List Lexeme)} (h : ∀ w ∈ ws, Sealed w) : Sealed (sequenced ws) := by
  cases ws with
  | nil => exact .nil
  | cons w ws =>
      obtain ⟨hw, hws⟩ := List.forall_mem_cons.mp h
      exact hw.append (flatMap fun v hv => (hws v hv).operator _)

end Sealed

-- A text that does not begin with a blank begins as its first lexeme does.
theorem Strung.head?_eq {cs : List CodePoint} {ls : List Lexeme} {d : CodePoint} (h : Strung cs ls [])
    (hd : cs.head? = some d) (hblank : d ≠ ' ') :
    ∃ l ms, ls = l :: ms ∧ l.text.toList.head? = some d := by
  cases h with
  | nil => cases hd
  | blank => exact absurd (Option.some.inj hd).symm hblank
  | @token cs _ l ls hl hend h =>
      rw [List.head?_append_of_ne_nil _ hl.text_ne_nil] at hd
      exact ⟨l, ls, rfl, hd⟩

theorem Text.not_clashes_of_unclashing {ws : List Text} (hpiece : ∀ w ∈ ws, Piece w)
    (h : Unclashing (ws.flatMap lexemes)) : ws.IsChain fun w v => ¬Clashes w v := by
  rw [List.isChain_iff_forall_rel_of_append_cons_cons]
  rintro w v us vs rfl hclash
  have hv : Piece v := hpiece v (by simp)
  rcases hclash with ⟨hint, hhead⟩ | ⟨hfloat, hmark, -⟩
  · obtain ⟨l, ms, hl, hpoint⟩ := hv.strung.head?_eq hhead (by decide)
    have hapart := h.apart
    rw [List.isChain_iff_forall_rel_of_append_cons_cons] at hapart
    have hsplit : (us ++ w :: v :: vs).flatMap lexemes =
        us.flatMap lexemes ++ ⟨.literal .Integer, w⟩ :: l :: (ms ++ vs.flatMap lexemes) := by
      simp [lexemes_eq hint, hl]
    exact hapart hsplit rfl hpoint
  · have hmem : (⟨.literal .Floating, w⟩ : Lexeme) ∈ (us ++ w :: v :: vs).flatMap lexemes := by
      simp [lexemes_eq hfloat]
    rw [h.marked _ hmem rfl] at hmark
    cases hmark

-- What is written in pieces that fit is read as its lexemes.
theorem Emission.WritesPieces.strung {P Q : CodePoint → Prop} {e : Emission} (h : e.WritesPieces P Q)
    (hclear : e.writes.IsChain fun w v => ¬Text.Clashes w v) :
    Strung e.text.toList e.words [] := by
  refine Text.strung_join h.pieces ?_
  have hseams := h.seams
  rw [List.isChain_iff_forall_rel_of_append_cons_cons] at hseams hclear ⊢
  intro w v us vs hws
  exact (hseams hws).resolve_right (hclear hws)

-- No number that is written for a tree goes on in what is written after it.
def Tree.WritesApart (t : Tree) : Prop := t.emission.writes.IsChain fun w v => ¬Text.Clashes w v

instance {k : Literal} {w : Text} : Decidable (Text.IsLiteral k w) :=
  inferInstanceAs (Decidable (_ = _))

instance {w v : Text} : Decidable (Text.Clashes w v) := inferInstanceAs (Decidable (_ ∨ _))

instance {t : Tree} : Decidable t.WritesApart := inferInstanceAs (Decidable (List.IsChain _ _))

namespace Fragment

variable {fragment : Fragment} {t : Tree}

-- The lexemes of a tree.
def words (fragment : Fragment) (t : Tree) : List Lexeme := (t.emittedAs fragment.role).words

-- What is written for a tree is read as the tree.
def Rereads (fragment : Fragment) (t : Tree) : Prop :=
  ∀ ⦃n : Nat⦄ ⦃limit : Limit⦄, (fragment.words t).length ≤ n →
    (∀ i ≤ 3 * (fragment.words t).length, limit.admits i = some true) →
    ∃ c, (fragment.rule (.upTo n)).Gives ⟨0, 0, limit⟩
      (before (fragment.words t ++ Strung.ending (Strung.pendingAfter false (fragment.words t))))
      t.bare c

theorem writesApart_of_unclashing (hbuilt : Built fragment.category t)
    (h : Unclashing (fragment.words t)) : t.WritesApart := by
  obtain ⟨P, Q, hpieces⟩ := writesPieces_of_built hbuilt
  rw [WritesApart, emission, ownRole_of_built hbuilt]
  exact Text.not_clashes_of_unclashing hpieces.pieces h

-- The tokens of the text of a tree.
theorem tokens_text (hbuilt : Built fragment.category t) (hclear : t.WritesApart) :
    Strung (t.emittedAs fragment.role).text.toList (fragment.words t) [] := by
  obtain ⟨P, Q, hpieces⟩ := writesPieces_of_built hbuilt
  rw [WritesApart, emission, ownRole_of_built hbuilt] at hclear
  exact hpieces.strung hclear

theorem render_of_built (h : Built fragment.category t) :
    t.render = .ok (t.emittedAs fragment.role).text := by
  obtain ⟨P, Q, hpieces⟩ := writesPieces_of_built h
  rw [Tree.render, emission, ownRole_of_built h, hpieces.fault]

-- A text that has the lexemes of a tree is read as the tree, blanks apart.
theorem parse_of_strung {text : Text} {limit : Limit}
    (hstrung : Strung text.toList (fragment.words t) []) (hreads : fragment.Rereads t)
    (hlimit : ∀ i ≤ 3 * (fragment.words t).length, limit.admits i = some true)
    (file : Option Text) : ∃ u, fragment.parse limit text file = .ok u ∧ u.bare = t.bare := by
  obtain ⟨ts, hts, hlexemes⟩ := Lexer.tokens_of_lexes hstrung.lexes_all file
  -- The tokens of the text are read as their lexemes are.
  have hforget : ts.map Relocation.forget.token = (ts.map (·.toLexeme)).map Lexeme.bare := by
    rw [List.map_map]
    rfl
  have hanswers : Answers _ _ (fragment.parseTokens limit ts) (fragment.parseTokens limit _) :=
    answers_parseTokens .forget False fragment (sourced_of_tokens hts) fun _ => .inl rfl
  have hlength : (fragment.words t).length ≤ ts.length := by
    have hlength := congrArg List.length hlexemes
    rw [List.length_map, List.length_append] at hlength
    omega
  obtain ⟨c, hgives⟩ := hreads hlength hlimit
  rw [← hlexemes] at hgives
  have hbare : fragment.parseTokens limit (ts.map Relocation.forget.token) = .ok t.bare := by
    refine parseTokens_ok (d := c) ?_
    rw [List.length_map, hforget]
    exact hgives
  rcases hanswers.eq_of_not_cuts id with ⟨u, hu, hu'⟩ | ⟨r, q, -, hq, -⟩
  · exact ⟨u, parse_of_ok hts hu, Except.ok.inj (hu'.symm.trans hbare)⟩
  · cases hq.symm.trans hbare

theorem parse_of_writesApart (hbuilt : Built fragment.category t) (hclear : t.WritesApart)
    (hreads : fragment.Rereads t) :
    ∃ text, t.render = .ok text ∧ Lexer.written text = .ok (fragment.words t) ∧
      ∀ limit file, (∀ i ≤ 3 * (fragment.words t).length, limit.admits i = some true) →
        ∃ u, fragment.parse limit text file = .ok u ∧ u.same t = true := by
  have hstrung := tokens_text hbuilt hclear
  refine ⟨_, render_of_built hbuilt, hstrung.written, fun limit file hlimit => ?_⟩
  obtain ⟨u, hu, hbare⟩ := parse_of_strung hstrung hreads hlimit file
  refine ⟨u, hu, ?_⟩
  rw [← Relocation.forget.same_tree, show Relocation.forget.tree u = _ from hbare,
    Relocation.forget.same_tree]
  exact hbuilt.same_self

theorem parse_of_rereads (hbuilt : Built fragment.category t)
    (hclear : Unclashing (fragment.words t)) (hreads : fragment.Rereads t) :
    ∃ text, t.render = .ok text ∧ Lexer.written text = .ok (fragment.words t) ∧
      ∀ limit file, (∀ i ≤ 3 * (fragment.words t).length, limit.admits i = some true) →
        ∃ u, fragment.parse limit text file = .ok u ∧ u.same t = true :=
  parse_of_writesApart hbuilt (writesApart_of_unclashing hbuilt hclear) hreads

-- The text of a tree is read as the tree, unless the limit on nesting is met. One that is high enough
-- is not.
def ReadsBack (fragment : Fragment) (t : Tree) : Prop :=
  ∃ text, t.render = .ok text ∧
    (∃ least : Int, ∀ d file, least ≤ d →
      ∃ u, fragment.parse (.atMost d) text file = .ok u ∧ u.same t = true) ∧
    ∀ d file, (∃ u, fragment.parse (.atMost d) text file = .ok u ∧ u.same t = true) ∨
      ∃ diagnostic, fragment.parse (.atMost d) text file = .error diagnostic ∧
        diagnostic.cause = .nestingTooDeep

-- A low limit changes nothing, or it is met.
theorem parse_eq_of_high {source : Text} {path : Option Text} {d d' : Int} {u : Tree}
    (h : fragment.parse (.atMost d') source path = .ok u) (hle : d ≤ d') :
    fragment.parse (.atMost d) source path = .ok u ∨
      ∃ diagnostic, fragment.parse (.atMost d) source path = .error diagnostic ∧
        diagnostic.cause = .nestingTooDeep := by
  obtain ⟨ts, hts⟩ := tokens_of_parse h
  rw [← h]
  exact parse_eq_or_deep hts hle

theorem admits_of_le {m : Nat} {d : Int} (h : 3 * (m : Int) ≤ d) :
    ∀ i ≤ 3 * m, (Limit.atMost d).admits i = some true := by
  intro i hi
  simp only [Limit.admits, Option.some.injEq, decide_eq_true_eq]
  omega

theorem readsBack_of_writesApart (hbuilt : Built fragment.category t) (hclear : t.WritesApart)
    (hreads : fragment.Rereads t) : fragment.ReadsBack t := by
  obtain ⟨text, hrender, -, hparse⟩ := parse_of_writesApart hbuilt hclear hreads
  refine ⟨text, hrender, ⟨_, fun d file hd => hparse _ file (admits_of_le hd)⟩, fun d file => ?_⟩
  obtain ⟨u, hu, hsame⟩ := hparse (.atMost (max d (3 * (fragment.words t).length))) file
    (admits_of_le (le_max_right _ _))
  exact (parse_eq_of_high hu (le_max_left _ _)).imp_left fun h => ⟨u, h, hsame⟩

-- Whatever is read from a text with the lexemes of a tree is that tree.
theorem bare_of_strung {text : Text} {d : Int} {path : Option Text} {u : Tree}
    (hstrung : Strung text.toList (fragment.words t) []) (hreads : fragment.Rereads t)
    (h : fragment.parse (.atMost d) text path = .ok u) : u.bare = t.bare := by
  obtain ⟨v, hv, hbare⟩ := parse_of_strung hstrung hreads
    (admits_of_le (le_max_right d (3 * ((fragment.words t).length : Int)))) path
  rcases parse_eq_of_high hv (le_max_left _ _) with hd | ⟨diagnostic, hd, -⟩
  · obtain rfl := Except.ok.inj (h.symm.trans hd)
    exact hbare
  · cases h.symm.trans hd

theorem readsBack_of_rereads (hbuilt : Built fragment.category t)
    (hclear : Unclashing (fragment.words t)) (hreads : fragment.Rereads t) :
    fragment.ReadsBack t :=
  readsBack_of_writesApart hbuilt (writesApart_of_unclashing hbuilt hclear) hreads

-- After the last statement nothing but its end is left.
theorem finish_ending (s : Scope) (pending : Bool) :
    ∃ c, finish.Gives s (before (Strung.ending pending)) () c := by
  cases pending with
  | false => exact ⟨_, by simp [finish, Strung.ending, Lexeme.ending]; rfl⟩
  | true => exact ⟨_, by simp [finish, Strung.ending, Lexeme.ending, Lexeme.newline]; rfl⟩

theorem admits_of_limit {limit : Limit} {m : Nat} (h : ∀ i ≤ m, limit.admits i = some true) :
    (⟨0, 0, limit⟩ : Scope).Admits m :=
  ⟨fun i hi => by simpa using h i hi, (by decide : (-1 : Int) ≤ 0)⟩

-- An expression by itself.
theorem rereads_expression {b : Bool} (h : t.Reads b) : expression.Rereads t := by
  intro n limit hn hlimit
  have hroom : Room (n + 1) ⟨0, 0, limit⟩ t.words.length 1 :=
    ⟨Nat.le_succ_of_le hn, (admits_of_limit hlimit).mono (Nat.sub_le _ _)⟩
  have htakes := h.takes hroom fun _ => rfl
  generalize Strung.pendingAfter false (expression.words t) = pending
  obtain ⟨c, hfinish⟩ := finish_ending ⟨0, 0, limit⟩ pending
  refine ⟨c, Gives.bind ?_ (hfinish.bind (gives_pure.mpr ⟨rfl, rfl⟩))⟩
  cases pending with
  | false => exact htakes .ending [] ⟨rfl, stops_of_closes rfl _ _⟩
  | true => exact htakes .newline [.ending] ⟨rfl, stops_of_closes rfl _ _⟩

end Fragment

end GoCompact
