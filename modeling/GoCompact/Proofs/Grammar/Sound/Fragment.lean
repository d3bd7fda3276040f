import GoCompact.Proofs.Grammar.Mirror.Fragment
import GoCompact.Proofs.Grammar.Sound.Statement

namespace GoCompact

open GoCompact.Parser GoCompact.Tree Emission Grammar

namespace Fragment

-- What a fragment is built as, and the role in which it is written.
def category : Fragment → Category
  | .file => .file
  | .expression => .expression true
  | .statement => .statement
  | .declaration => .declaration

def role : Fragment → Role
  | .file => .unit
  | .expression => .expression
  | .statement => .statement
  | .declaration => .declaration

variable {fragment : Fragment} {g : Grammar} {s : Scope} {t : Tree} {c d c' : Cursor}

theorem ownRole_of_built (h : Built fragment.category t) : t.ownRole = fragment.role := by
  cases fragment with
  | file => cases h; rfl
  | expression => cases h <;> rfl
  | statement =>
      cases h with
      | simpleStmt h => cases h <;> rfl
      | blockStmt h => cases h; rfl
      | _ => rfl
  | declaration => cases h <;> rfl

-- A fragment that was read up to the end of the text.
structure Read (fragment : Fragment) (t : Tree) (c c' : Cursor) : Prop where
  built : Built fragment.category t
  read : t.ReadAs fragment.role c True c'
  ending : c'.current.kind = .eof

theorem finish_sound {u : Unit} (hd : d.Valid) (h : finish.Gives s d u c') :
    Spans d nothing 0 True c' ∧ c'.current.kind = .eof := by
  simp only [finish, discard_bind] at h
  rcases gives_got_bind.mp h with ⟨hkind, h⟩ | ⟨-, h⟩
  · obtain ⟨hend, -, rfl⟩ := by simpa using h
    exact ⟨(Spans.dropped hd hkind rfl).imp rfl fun _ => trivial, hend⟩
  · obtain ⟨hend, -, rfl⟩ := by simpa using h
    exact ⟨Spans.nothing hd, hend⟩

-- A part with nothing after it.
theorem read_alone (fragment : Fragment) {p : Parser Tree}
    (hp : ∀ {u d}, p.Gives s c u d → Built fragment.category u ∧ ∃ P, u.ReadAs fragment.role c P d)
    (h : (alone p).Gives s c t c') : fragment.Read t c c' := by
  obtain ⟨u, d, hu, h⟩ := gives_bind.mp h
  obtain ⟨_, e, hfinish, h⟩ := gives_bind.mp h
  obtain ⟨rfl, rfl⟩ := gives_pure.mp h
  obtain ⟨hbuilt, P, hread⟩ := hp hu
  obtain ⟨hrest, hend⟩ := finish_sound (Spans.valid hread) hfinish
  have hall := hread.append hrest
  rw [append_nothing] at hall
  exact ⟨hbuilt, hall.imp rfl fun h => ⟨h.1.1, trivial⟩, hend⟩

-- Declarations, with semicolons written between them.
def emittedDeclarations (ts : List Tree) : Emission :=
  separated ";" (ts.map (·.emittedAs .declaration))

structure DeclarationsRead (ts : List Tree) (c c' : Cursor) : Prop where
  built : ∀ t ∈ ts, Built .declaration t
  read : Spans c (emittedDeclarations ts) (Tree.tuple ts).loops ((Tree.tuple ts).plain = true) c'

theorem declarations_sound {more : TokenKind → Bool} {p : Parser Tree} {ts : List Tree}
    (hp : ∀ {c t c'}, c.Valid → p.Gives s c t c' → DeclarationRead t c c') (hc : c.Valid)
    (h : (manyWhile more p).Gives s c ts c') :
    DeclarationsRead ts c c' ∧ (more c'.current.kind = false ∨ c'.upcoming = []) := by
  obtain ⟨hread, hbuilt, -, -⟩ := Spans.items (I := Cursor.Valid) (R := fun _ => False)
    (f := fun t => t.emittedAs .declaration) (n := loops) (P := fun t => t.plain = true)
    (Q := Built .declaration) id
    (fun hc _ h => ⟨(hp hc h).read.plain, (hp hc h).built, (hp hc h).fresh.valid, False.elim⟩)
    hc (items_of_manyWhile h)
  refine ⟨⟨hbuilt, hread.imp (loops_tuple ts) plain_tuple.mpr⟩, ?_⟩
  exact stops_of_manyWhile (I := Cursor.Valid)
    (fun hc _ h => ⟨(hp hc h).fresh.valid, (hp hc h).progress⟩) hc h

theorem DeclarationsRead.append {ts us : List Tree} (h : DeclarationsRead ts c d)
    (h' : DeclarationsRead us d c') : DeclarationsRead (ts ++ us) c c' := by
  refine ⟨List.forall_mem_append.mpr ⟨h.built, h'.built⟩, ?_⟩
  have hall : Spans c (emittedDeclarations (ts ++ us))
      ((Tree.tuple ts).loops + (Tree.tuple us).loops)
      ((Tree.tuple ts).plain = true ∧ (Tree.tuple us).plain = true) c' := by
    have hread := h.read.append h'.read
    by_cases hts : ts = []
    · subst hts
      rwa [emittedDeclarations, emittedDeclarations, List.map_nil, separated, nothing_append] at hread
    by_cases hus : us = []
    · subst hus
      rw [List.append_nil]
      rwa [emittedDeclarations, emittedDeclarations, List.map_nil, separated, append_nothing] at hread
    rw [emittedDeclarations, List.map_append, separated_append ";" (by simpa using hts)
      (by simpa using hus)]
    have hsemicolon := (Spans.semicolon h.read.valid).append h'.read
    exact (h.read.append hsemicolon).imp (by omega) fun h => ⟨h.1, h.2.2⟩
  refine hall.imp ?_ fun h => plain_tuple.mpr (List.forall_mem_append.mpr ?_)
  · rw [loops_tuple, loops_tuple, loops_tuple, List.map_append, List.sum_append]
  · exact ⟨plain_tuple.mp h.1, plain_tuple.mp h.2⟩

theorem read_fileRule (hg : g.Sound) (hs : 0 ≤ s.level) (hc : c.Valid)
    (h : (fileRule g).Gives s c t c') : file.Read t c c' := by
  simp only [fileRule, gives_expect_bind] at h
  obtain ⟨hkind, h⟩ := h
  obtain ⟨package, c1, hpackage, h⟩ := gives_bind.mp h
  obtain ⟨c2, hend, h⟩ := gives_expectEnd_bind.mp h
  obtain ⟨imports, c3, himports, h⟩ := gives_bind.mp h
  obtain ⟨others, c4, hothers, h⟩ := gives_bind.mp h
  obtain ⟨rfl, rfl⟩ := gives_pure.mp h
  have hword := Spans.spaced hc hkind
  obtain ⟨p, x, rfl, hx, -, -, hname⟩ := ident_sound hword.valid hpackage
  have hend' := Spans.ends hname.valid hend
  obtain ⟨himports', -⟩ := declarations_sound
    (fun hc h => (hg.genDecl hs hc (by simp) h).1) hend'.valid himports
  obtain ⟨hothers', hstops⟩ := declarations_sound
    (fun hc h => hg.declaration hs hc h) himports'.read.valid hothers
  have hdecls := himports'.append hothers'
  refine ⟨.file (.name hx) hdecls.built, ?_, ?_⟩
  · rw [role, ReadAs, emitted_file, nameOf_ident]
    have hall := ((hword.append hname).append
      (hend'.append (Spans.semicolon hend'.valid))).append hdecls.read
    rw [nothing_append] at hall
    refine hall.imp ((loops_of rfl).trans (by simp [loopsAll])) fun h => ⟨plain_of rfl ?_, trivial⟩
    simp [allPlain, h.2]
  · rcases hstops with h | h
    · simpa using h
    · exact hothers'.read.valid.kind_eq_eof h

theorem read_rule (hg : g.Sound) (hs : 0 ≤ s.level) (hc : c.Fresh)
    (h : (fragment.rule g).Gives s c t c') : fragment.Read t c c' := by
  have hfree : s.isFree = true := decide_eq_true hs
  cases fragment with
  | file => exact read_fileRule hg hs hc.valid h
  | expression =>
      refine read_alone .expression (fun hu => ?_) h
      have hread := hg.expressionRule (by omega) hc.valid hu
      have hbuilt := hread.built
      rw [hfree] at hbuilt
      exact ⟨hbuilt, _, hread.read⟩
  | statement =>
      refine read_alone .statement (fun hu => ?_) h
      have hread := hg.statementHere (s := s.deeper) hs hc (gives_nested.mp hu).2
      exact ⟨hread.built, _, hread.read⟩
  | declaration =>
      refine read_alone .declaration (fun hu => ?_) h
      have hread := hg.declaration hs hc.valid hu
      exact ⟨hread.built, _, hread.read⟩

theorem read_of_parseTokens {limit : Limit} {ts : List Token}
    (hts : Sourced false (ts.map (·.toLexeme))) (h : fragment.parseTokens limit ts = .ok t) :
    ∃ c', fragment.Read t (Cursor.ofTokens ts) c' := by
  cases hrun : fragment.rule (upTo ts.length) ⟨0, 0, limit⟩ (Cursor.ofTokens ts) with
  | error r =>
      rw [parseTokens_error hrun] at h
      cases h
  | ok q =>
      obtain ⟨u, c'⟩ := q
      rw [parseTokens_ok hrun] at h
      cases h
      exact ⟨c', read_rule (sound_upTo _) (Int.le_refl 0) (fresh_ofTokens hts) hrun⟩

end Fragment

end GoCompact
