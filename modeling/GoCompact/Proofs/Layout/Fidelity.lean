import GoCompact.Proofs.Grammar.Nesting
import GoCompact.Proofs.Grammar.Sound.Fragment
import GoCompact.Proofs.Layout.Sink
import GoCompact.Proofs.Layout.Separation

namespace GoCompact

open GoCompact.Tree Emission

namespace Text

-- The characters that separate and group.
def isSeparator (c : CodePoint) : Bool := c == ' ' || c == ',' || c == ';' || c == '(' || c == ')'

def stripped (cs : List CodePoint) : List CodePoint := cs.filter (!isSeparator ·)

-- A text without them.
def strip (s : Text) : Text := Text.ofList (stripped s.toList)

theorem stripped_append (cs ds : List CodePoint) : stripped (cs ++ ds) = stripped cs ++ stripped ds :=
  List.filter_append ..

theorem stripped_flatMap {α : Type} (xs : List α) (f : α → List CodePoint) :
    stripped (xs.flatMap f) = xs.flatMap fun x => stripped (f x) := by
  induction xs with
  | nil => rfl
  | cons x xs ih => rw [List.flatMap_cons, List.flatMap_cons, stripped_append, ih]

end Text

open Text in
theorem Strung.stripped {cs rest : List CodePoint} {ls : List Lexeme} (h : Strung cs ls rest) :
    stripped cs = ls.flatMap fun l => stripped l.text.toList := by
  induction h with
  | nil => rfl
  | blank _ ih => exact ih
  | token _ _ _ ih => rw [stripped_append, ih, List.flatMap_cons]

open Text in
-- Pieces are stripped to their lexemes.
theorem stripped_join {ws : List Text} (h : ∀ w ∈ ws, Piece w) :
    stripped (Text.join ws).toList =
      (ws.flatMap lexemes).flatMap fun l => stripped l.text.toList := by
  induction ws with
  | nil => rfl
  | cons w ws ih =>
      obtain ⟨hw, hws⟩ := List.forall_mem_cons.mp h
      rw [Text.join_cons, Text.toList_append, stripped_append, ih hws, hw.strung.stripped,
        List.flatMap_cons, List.flatMap_append]

open Text in
-- What only separates or groups, and what stands for an end, is stripped away.
theorem stripped_content {ls : List Lexeme} (h : ∀ l ∈ ls, l.Whole) :
    ls.flatMap (fun l => stripped l.text.toList) =
      (content ls).flatMap fun l => stripped l.text.toList := by
  induction ls with
  | nil => rfl
  | cons l ls ih =>
      obtain ⟨hl, hls⟩ := List.forall_mem_cons.mp h
      rw [content_cons, List.flatMap_append, List.flatMap_cons, ih hls]
      congr 1
      cases hseparates : l.separates with
      | false => simp [content, hseparates]
      | true =>
          have hnil : stripped l.text.toList = [] := by
            simp only [Lexeme.separates, Bool.or_eq_true, beq_iff_eq] at hseparates
            rcases hseparates with ((hk | hk) | hk) | hk <;> rw [hl.eq_ofOperator hk] <;> decide
          simp [content, hseparates, hnil]

-- The lexemes of a text that stand in it, and the end.
theorem Sourced.content {pending : Bool} {ls : List Lexeme} (h : Sourced pending ls) :
    (∀ l ∈ ls.filter Lexeme.isWritten, l.Whole) ∧
      content ls = content (ls.filter Lexeme.isWritten) ++ [.ending] := by
  induction h with
  | finish => exact ⟨by simp [Lexeme.isWritten_ending], rfl⟩
  | newline _ ih =>
      rw [List.filter_cons_of_neg (by decide)]
      exact ⟨ih.1, by rw [content_cons, ih.2]; rfl⟩
  | token hl _ ih =>
      rw [List.filter_cons_of_pos hl.isWritten]
      refine ⟨List.forall_mem_cons.mpr ⟨hl, ih.1⟩, ?_⟩
      rw [content_cons, ih.2, content_cons _ (List.filter _ _), List.append_assoc]

theorem Cursor.Valid.lexemes_of_eof {c : Cursor} (h : c.Valid) (hkind : c.current.kind = .eof) :
    c.lexemes = [.ending] := by
  obtain ⟨pending, h⟩ := h
  generalize hl : c.lexemes = ls at h
  have hhead : ls.head?.map (·.kind) = some .eof := by
    rw [← hl, ← hkind]
    rfl
  cases h with
  | finish => rfl
  | newline => cases hhead
  | token hwhole => exact absurd (Option.some.inj hhead) hwhole.kind_ne_eof

namespace Fragment

variable {fragment : Fragment} {limit : Limit} {source : Text} {file : Option Text} {t : Tree}
  {c c' : Cursor}

-- A fragment that was read can be written.
theorem Read.render (h : fragment.Read t c c') :
    t.render = .ok (t.emittedAs fragment.role).text := by
  rw [Tree.render, emission, ownRole_of_built h.built, h.read.fault]

theorem takes_role (fragment : Fragment) : fragment.category.Takes fragment.role := by
  cases fragment <;> rfl

-- A fragment is written in pieces that fit.
theorem writesPieces_of_built (h : Built fragment.category t) :
    ∃ P Q, WritesPieces P Q (t.emittedAs fragment.role) := by
  have hpieces := h.separates fragment.takes_role
  cases fragment with
  | file => exact ⟨_, _, WritesSome.toWritesPieces hpieces⟩
  | expression => exact ⟨_, _, WritesSome.toWritesPieces hpieces⟩
  | statement => exact ⟨_, _, hpieces⟩
  | declaration => exact ⟨_, _, WritesSome.toWritesPieces hpieces⟩

-- A text that is read has tokens, and its tree was read from them.
theorem read_of_parse (h : fragment.parse limit source file = .ok t) :
    ∃ ts c', Lexer.tokens source file = .ok ts ∧ fragment.Read t (Cursor.ofTokens ts) c' := by
  obtain ⟨ts, c', hts, hgives⟩ := gives_of_parse h
  exact ⟨ts, c', hts, read_rule (Grammar.sound_upTo _) (Int.le_refl 0)
    (fresh_ofTokens (sourced_of_tokens hts)) hgives⟩

-- Each text that is written is read by itself, and all of them together are read as one after the
-- other exactly where no number goes on in the next text.
theorem written_writes (h : fragment.parse limit source file = .ok t) :
    (∀ w ∈ t.emission.writes, Lexer.written w = .ok (Text.lexemes w)) ∧
      (Lexer.written (Text.join t.emission.writes) =
          .ok (t.emission.writes.flatMap Text.lexemes) ↔
        t.emission.writes.IsChain fun w v => ¬Text.Clashes w v) := by
  obtain ⟨ts, c', -, hread⟩ := read_of_parse h
  obtain ⟨P, Q, hpieces⟩ := writesPieces_of_built hread.built
  rw [emission, ownRole_of_built hread.built]
  exact ⟨fun w hw => Text.written_of_piece (hpieces.pieces w hw),
    Text.written_join_iff hpieces.pieces hpieces.seams⟩

-- The selection of a field of an integer, which is written without a blank.
theorem written_writes_selector :
    ∃ t, expression.parse (.atMost 100) "1 .y" none = .ok t ∧
      (∀ w ∈ t.emission.writes, Lexer.written w = .ok (Text.lexemes w)) ∧
        (Lexer.written (Text.join t.emission.writes) =
            .ok (t.emission.writes.flatMap Text.lexemes) ↔
          t.emission.writes.IsChain fun w v => ¬Text.Clashes w v) := by
  cases h : expression.parse (.atMost 100) "1 .y" none with
  | ok t => exact ⟨t, rfl, written_writes h⟩
  | error d =>
      have hread : (expression.parse (.atMost 100) "1 .y" none).toOption.isSome = true :=
        rfl
      rw [h] at hread
      cases hread

-- Nothing but separators changes between a text and what its tree is written as.
theorem strip_render (h : fragment.parse limit source file = .ok t) :
    ∃ ts text, Lexer.tokens source file = .ok ts ∧ t.render = .ok text ∧
      Text.strip text =
        Text.strip (Text.join ((ts.filter (·.toLexeme.isWritten)).map (·.text))) := by
  obtain ⟨ts, c', hts, hread⟩ := read_of_parse h
  obtain ⟨P, Q, hpieces⟩ := writesPieces_of_built hread.built
  refine ⟨ts, _, hts, hread.render, congrArg Text.ofList ?_⟩
  have hsourced := sourced_of_tokens hts
  have hlexemes : (Cursor.ofTokens ts).lexemes = ts.map (·.toLexeme) := by
    cases ts with
    | nil => exact absurd rfl hsourced.ne_nil
    | cons t ts => rfl
  obtain ⟨hwhole, hcontent⟩ := hsourced.content
  have hread' := hread.read.segment.content
  rw [Cursor.content, hlexemes, hcontent, Cursor.content,
    hread.read.valid.lexemes_of_eof hread.ending] at hread'
  have hwords : ∀ l ∈ (t.emittedAs fragment.role).words, l.Whole := by
    intro l hl
    obtain ⟨w, hw, hl⟩ := List.mem_flatMap.mp hl
    exact (hpieces.pieces w hw).strung.whole l hl
  calc Text.stripped (t.emittedAs fragment.role).text.toList
      = (t.emittedAs fragment.role).words.flatMap (Text.stripped ·.text.toList) :=
        stripped_join hpieces.pieces
    _ = (content (t.emittedAs fragment.role).words).flatMap (Text.stripped ·.text.toList) :=
        stripped_content hwords
    _ = (content ((ts.map (·.toLexeme)).filter Lexeme.isWritten)).flatMap
          (Text.stripped ·.text.toList) := by
        rw [List.append_cancel_right hread']
    _ = ((ts.map (·.toLexeme)).filter Lexeme.isWritten).flatMap (Text.stripped ·.text.toList) :=
        (stripped_content hwhole).symm
    _ = Text.stripped
          (Text.join ((ts.filter (·.toLexeme.isWritten)).map (·.text))).toList := by
        rw [Text.toList_join, Text.stripped_flatMap, List.filter_map, List.flatMap_map,
          List.flatMap_map]
        rfl

-- A declaration from which a semicolon, a comma and parentheses are left out.
theorem strip_render_var :
    ∃ t ts text, declaration.parse (.atMost 100) "var (x func(int,) (int);)" none = .ok t ∧
      Lexer.tokens "var (x func(int,) (int);)" none = .ok ts ∧ t.render = .ok text ∧
      Text.strip text =
        Text.strip (Text.join ((ts.filter (·.toLexeme.isWritten)).map (·.text))) := by
  cases h : declaration.parse (.atMost 100) "var (x func(int,) (int);)" none with
  | ok t =>
      obtain ⟨ts, text, hall⟩ := strip_render h
      exact ⟨t, ts, text, rfl, hall⟩
  | error d =>
      have hread : (declaration.parse (.atMost 100) "var (x func(int,) (int);)"
          none).toOption.isSome = true :=
        rfl
      rw [h] at hread
      cases hread

-- Whatever was read is written without a fault, at once as a whole or text by text.
theorem receive_emission (h : fragment.parse limit source file = .ok t) :
    ∃ text sink, t.render = .ok text ∧ Sink.unlimited.receive t.emission = (sink, none) ∧
      sink.written = t.emission.writes ∧ Text.join sink.written = text := by
  obtain ⟨ts, c', -, hread⟩ := read_of_parse h
  have hemission : t.emission = t.emittedAs fragment.role := by
    rw [emission, ownRole_of_built hread.built]
  have hfault : t.emission.fault = none := by rw [hemission, hread.read.fault]
  have hwritten : Sink.written ⟨t.emission.made.reverse, none⟩ = t.emission.writes := by
    rw [Sink.written, Sink.writes, List.reverse_reverse, Emission.writes]
  refine ⟨_, ⟨t.emission.made.reverse, none⟩, hread.render, ?_, hwritten, ?_⟩
  · simp [Sink.receive, Sink.unlimited, Sink.writeAll_unlimited, (Emission.fault_eq_none.mp hfault).1]
  · rw [hwritten, hemission, Emission.text]

-- A channel of channels that was read inside out, and a chain of other branches.
theorem receive_emission_if :
    ∃ t, statement.parse (.atMost 100)
        "if x := <-chan (<-chan int)(y); ok\x7b\x7d else if z\x7b\x7d else\x7b\x7d" none = .ok t ∧
      ∃ text sink, t.render = .ok text ∧ Sink.unlimited.receive t.emission = (sink, none) ∧
        sink.written = t.emission.writes ∧ Text.join sink.written = text := by
  cases h : statement.parse (.atMost 100)
      "if x := <-chan (<-chan int)(y); ok\x7b\x7d else if z\x7b\x7d else\x7b\x7d" none with
  | ok t => exact ⟨t, rfl, receive_emission h⟩
  | error d =>
      have hread : (statement.parse (.atMost 100)
          "if x := <-chan (<-chan int)(y); ok\x7b\x7d else if z\x7b\x7d else\x7b\x7d"
            none).toOption.isSome = true :=
        rfl
      rw [h] at hread
      cases hread

end Fragment

end GoCompact
