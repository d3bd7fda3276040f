import GoCompact.Proofs.Reread.Header
import GoCompact.Proofs.Reread.Operation

namespace GoCompact

namespace Fragment

open GoCompact.Tree GoCompact.Parser Cursor

-- After `return` the end of the text is a semicolon.
theorem pendingAfter_return {ls : List Lexeme} (h : ls.getLast? = some (.ofKeyword .Return)) :
    Strung.pendingAfter false ls = true := by
  obtain ⟨ms, rfl⟩ := List.getLast?_eq_some_iff.mp h
  simp [Strung.pendingAfter, TokenKind.endsStatement]

-- A statement by itself.
theorem rereads_statement {t : Tree} (h : t.StatementReads) : statement.Rereads t := by
  intro n limit hn hlimit
  have hroom : Room (n + 1) ⟨0, 0, limit⟩ t.statementWords.length 0 :=
    ⟨Nat.le_succ_of_le hn, admits_of_limit hlimit⟩
  change ∃ c, (alone (Grammar.upTo (n + 1)).statement).Gives _
    (before (t.statementWords ++ Strung.ending (Strung.pendingAfter false t.statementWords))) _ _
  by_cases hself : t.isSelfTerminated = true
  · have htakes := h.closed hself hroom rfl
    generalize Strung.pendingAfter false t.statementWords = pending
    obtain ⟨c, hfinish⟩ := finish_ending ⟨0, 0, limit⟩ pending
    refine ⟨c, Gives.bind ?_ (hfinish.bind (gives_pure.mpr ⟨rfl, rfl⟩))⟩
    cases pending with
    | false => exact htakes .ending [] trivial
    | true => exact htakes .newline [.ending] trivial
  · have hended : ∀ {tail : List Lexeme}, Ending tail (· = .eof) →
        t.ReturnsBefore tail (· = .eof) → ((Grammar.upTo (n + 1)).statement).Takes ⟨0, 0, limit⟩
          (t.statementWords ++ tail) t.bare (· = .eof) :=
      fun hending hreturn => h.ended (by simpa using hself) hroom rfl hending hreturn
    obtain ⟨c, hfinish⟩ := finish_ending ⟨0, 0, limit⟩ false
    refine ⟨c, Gives.bind ?_ (hfinish.bind (gives_pure.mpr ⟨rfl, rfl⟩))⟩
    cases hpending : Strung.pendingAfter false t.statementWords with
    | false =>
        have htakes := hended (.closing (by rintro k rfl; rfl)) fun hreturn => by
          rw [pendingAfter_return hreturn] at hpending
          cases hpending
        rw [List.append_nil] at htakes
        exact htakes .ending [] rfl
    | true =>
        have hnewline : Ending [.newline] (· = .eof) := .semicolon rfl
        have htakes := hended hnewline fun _ => .cons (.inl rfl) []
        have hgives := htakes .ending [] rfl
        rwa [List.append_assoc] at hgives

end Fragment

namespace Tree

open Text GoCompact.Grammar

-- A statement that is its own end ends in a semicolon.
theorem last_of_isSelfTerminated {t : Tree} (h : Built .statement t)
    (hself : t.isSelfTerminated = true) :
    t.statementWords.getLast? = some (.ofOperator .Semicolon) := by
  induction t using isSelfTerminated.induct with
  | case1 => nomatch h
  | case2 => nomatch h
  | case3 p => rw [statementWords_of_spells spells_emptyStmt, List.getLast?_singleton]
  | case4 p label stmt ih =>
      cases h with
      | simpleStmt h => nomatch h
      | blockStmt h => nomatch h
      | labeled hlabel hstmt =>
          cases hlabel with
          | @name q x hx =>
              have hwords : (Tree.labeled p (.ident q (.text x)) stmt).statementWords =
                  [⟨.ident, x⟩, .ofOperator .Colon] ++ stmt.statementWords := by
                rw [statementWords, emitted_labeled, nameOf_ident, Emission.words_append rfl]
                congr 1
                exact ((Emission.Spells.write hx).append (.operator _)).words
              rw [hwords, List.getLast?_append, ih hstmt hself]
              rfl
  | case5 t _ _ _ _ =>
      unfold isSelfTerminated at hself
      split at hself <;> simp_all

-- What needs no semicolon after it does not end in a number.
theorem unclashing_statements {ts : List Tree} (h : ∀ t ∈ ts, Unclashing t.statementWords)
    (hlast : ∀ t ∈ ts, t.isSelfTerminated = true →
      ∀ l ∈ t.statementWords.getLast?, l.kind ≠ .literal .Integer) :
    Unclashing (statementsWords ts) := by
  induction ts with
  | nil => exact .nil
  | cons t ts ih =>
      obtain ⟨ht, hts⟩ := List.forall_mem_cons.mp h
      obtain ⟨hfirst, hothers⟩ := List.forall_mem_cons.mp hlast
      cases ts with
      | nil => exact ht
      | cons u us =>
          rw [statementsWords, separator]
          split
          next hself =>
            rw [List.append_nil]
            refine ht.append (ih hts hothers) fun l hl m hm hkind => ?_
            exact absurd hkind (hfirst hself l hl)
          next =>
            rw [List.append_assoc]
            exact ht.append_operator (ih hts hothers) (by decide)

theorem unclashing_body {ts : List Tree} (hbuilt : ∀ t ∈ ts, Built .statement t)
    (h : ∀ t ∈ ts, Unclashing t.statementWords) : Unclashing (statementsWords ts) := by
  refine unclashing_statements h fun t ht hself l hl hkind => ?_
  rw [last_of_isSelfTerminated (hbuilt t ht) hself] at hl
  obtain rfl := Option.some.inj hl
  cases hkind

-- Statements of expressions.
inductive Simple : Tree → Prop
  | exprStmt {p x : Tree} (hx : Operation x) : Simple (.exprStmt p x)
  | assign {p : Tree} {lhs rhs : List Tree} {o : Operator} (hlne : lhs ≠ [])
      (hlhs : ∀ t ∈ lhs, Operation t) (ho : o.isAssignment = true) (hrne : rhs ≠ [])
      (hrhs : ∀ t ∈ rhs, Operation t) :
      Simple (.assign p (.tuple lhs) (.token (.op o)) (.tuple rhs))
  | incDec {p x : Tree} {o : Operator} (hx : Operation x) (ho : o = .Inc ∨ o = .Dec) :
      Simple (.incDec p x (.token (.op o)))
  | send {p x y : Tree} (hx : Operation x) (hy : Operation y) : Simple (.send p x y)

-- Statements of operations, with blocks, branches, conditions and loops.
inductive Script : Tree → Prop
  | simple {t : Tree} (h : Simple t) : Script t
  | returnStmt {p : Tree} {results : List Tree} (hresults : ∀ t ∈ results, Operation t) :
      Script (.returnStmt p (.tuple results))
  | goStmt {p x : Tree} (hx : Operation x) (hcall : x.is .CallExpr = true) : Script (.goStmt p x)
  | deferStmt {p x : Tree} (hx : Operation x) (hcall : x.is .CallExpr = true) :
      Script (.deferStmt p x)
  | branch {p q : Tree} {k : Keyword} {label : Option Text} (hk : isBranch k = true)
      (hlabel : ∀ x ∈ label, IsName x) (hfall : k = .Fallthrough → label = none) :
      Script (.branch p (.token (.word k)) (labelTree q label))
  | emptyStmt {p : Tree} : Script (.emptyStmt p (.flag false))
  | labeled {p q t : Tree} {x : Text} (hx : IsName x) (ht : Script t) :
      Script (.labeled p (.ident q (.text x)) t)
  | block {p : Tree} {ts : List Tree} (hts : ∀ t ∈ ts, Script t) : Script (.block p (.tuple ts))
  | ifStmt {p q x : Tree} {init otherwise : Option Tree} {ts : List Tree}
      (hinit : ∀ t ∈ init, Simple t) (hx : Operation x) (hts : ∀ t ∈ ts, Script t)
      (helse : ∀ t ∈ otherwise, Script t)
      (hkind : ∀ t ∈ otherwise, t.is .IfStmt = true ∨ t.is .BlockStmt = true) :
      Script (.ifStmt p (.ofOption init) x (.block q (.tuple ts)) (.ofOption otherwise))
  | forStmt {p q : Tree} {init cond post : Option Tree} {ts : List Tree}
      (hinit : ∀ t ∈ init, Simple t) (hcond : ∀ t ∈ cond, Operation t)
      (hpost : ∀ t ∈ post, Simple t) (hts : ∀ t ∈ ts, Script t) :
      Script (.forStmt p (.ofOption init) (.ofOption cond) (.ofOption post) (.block q (.tuple ts)))
  | rangeAll {p q x : Tree} {ts : List Tree} (hx : Operation x) (hts : ∀ t ∈ ts, Script t) :
      Script (.rangeStmt p .absent .absent .absent x (.block q (.tuple ts)))
  | rangeStmt {p q key x : Tree} {value : Option Tree} {o : Operator} {ts : List Tree}
      (hkey : Operation key) (hvalue : ∀ t ∈ value, Operation t) (ho : o = .Assign ∨ o = .Define)
      (hx : Operation x) (hts : ∀ t ∈ ts, Script t) :
      Script (.rangeStmt p key (.ofOption value) (.token (.op o)) x (.block q (.tuple ts)))

theorem unclashing_operations {ts : List Tree} (h : ∀ t ∈ ts, Operation t) :
    Unclashing (Parser.listed (ts.map words)) := by
  refine .listed fun w hw => ?_
  obtain ⟨t, ht, rfl⟩ := List.mem_map.mp hw
  exact (h t ht).unclashing

namespace Simple

variable {t : Tree} {b : Bool}

theorem built (h : Simple t) : Built (.simple b) t := by
  cases h with
  | exprStmt hx => exact .exprStmt hx.built
  | assign hlne hlhs ho hrne hrhs =>
      exact .assign hlne (fun t ht => (hlhs t ht).built) ho hrne fun t ht => (hrhs t ht).built
  | incDec hx ho => exact .incDec hx.built ho
  | send hx hy => exact .send hx.built hy.built

theorem reads (h : Simple t) : t.SimpleReads b := by
  cases h with
  | exprStmt hx => exact reads_exprStmt hx.reads
  | assign hlne hlhs ho hrne hrhs =>
      exact reads_assign hlne (fun t ht => (hlhs t ht).reads) ho hrne fun t ht => (hrhs t ht).reads
  | incDec hx ho => exact reads_incDec hx.reads ho
  | send hx hy => exact reads_send hx.reads hy.reads (hx.edge_eq _)

theorem endTakesBrace_eq (h : Simple t) : t.endTakesBrace = false := by
  cases h with
  | exprStmt hx => exact hx.takesBrace_eq
  | @assign _ _ rhs _ _ _ _ _ hrhs =>
      rw [endTakesBrace]
      cases hlast : rhs.getLast? with
      | none => rfl
      | some t => exact (hrhs t (List.mem_of_getLast? hlast)).takesBrace_eq
  | incDec => rfl
  | send _ hy => exact hy.takesBrace_eq

theorem unclashing (h : Simple t) : Unclashing t.statementWords := by
  cases h with
  | exprStmt hx => exact hx.unclashing
  | @assign _ _ _ o hlne hlhs ho hrne hrhs =>
      rw [statementWords_of_spells (spells_assign hrne (fun t ht => (hlhs t ht).spells)
        fun t ht => (hrhs t ht).spells)]
      refine (unclashing_operations hlhs).append_operator (unclashing_operations hrhs) ?_
      cases o <;> first | decide | cases ho
  | @incDec _ _ o hx ho =>
      rw [statementWords_of_spells (spells_incDec hx.spells)]
      refine hx.unclashing.append_operator .nil ?_
      rcases ho with rfl | rfl <;> decide
  | send hx hy =>
      rw [statementWords_of_spells (spells_send hx.spells hy.spells)]
      exact hx.unclashing.append_operator hy.unclashing (by decide)

end Simple

namespace Script

variable {t : Tree}

theorem trails_eq (h : Script t) : t.trails = false := by
  induction h with
  | simple h => cases h <;> rfl
  | labeled _ _ ih => exact ih
  | _ => rfl

theorem isImplicit_eq (h : Script t) : t.isImplicit = false := by
  cases h with
  | simple h => cases h <;> rfl
  | _ => rfl

theorem built_block {p : Tree} {ts : List Tree} (hts : ∀ t ∈ ts, Script t)
    (h : ∀ t ∈ ts, Built .statement t) : Built .block (.block p (.tuple ts)) :=
  .block h (fun t ht => (hts t ht).isImplicit_eq)
    fun t ht => (hts t (List.mem_of_mem_dropLast ht)).trails_eq

theorem built (h : Script t) : Built .statement t := by
  induction h with
  | simple h => exact .simpleStmt h.built
  | returnStmt h => exact .returnStmt fun t ht => (h t ht).built
  | goStmt hx hcall => exact .goStmt hx.built hcall
  | deferStmt hx hcall => exact .deferStmt hx.built hcall
  | @branch _ q k label hk hlabel hfall =>
      refine .branch hk (fun t ht => ?_) fun h => by rw [hfall h]; rfl
      obtain ⟨x, hx, rfl⟩ := Option.mem_map.mp ht
      exact .name (hlabel x hx).whole
  | emptyStmt => exact .emptyStmt
  | labeled hx _ ih => exact .labeled (.name hx.whole) ih
  | block hts ih => exact .blockStmt (built_block hts fun t ht => ih t ht)
  | ifStmt hinit hx hts helse hkind ihts ihelse =>
      exact .ifStmt (fun t ht => (hinit t ht).built) hx.built hx.takesBrace_eq
        (built_block hts fun t ht => ihts t ht) (fun t ht => ihelse t ht) hkind
  | forStmt hinit hcond hpost hts ih =>
      exact .forStmt (fun t ht => (hinit t ht).built) (fun t ht => (hcond t ht).built)
        (fun t ht => (hpost t ht).built) (fun t ht => (hpost t ht).endTakesBrace_eq)
        (built_block hts fun t ht => ih t ht)
  | rangeAll hx hts ih =>
      exact .rangeAll hx.built hx.takesBrace_eq (built_block hts fun t ht => ih t ht)
  | rangeStmt hkey hvalue ho hx hts ih =>
      refine .rangeStmt hkey.built (fun t ht => (hvalue t ht).built) ?_ hx.built hx.takesBrace_eq
        (built_block hts fun t ht => ih t ht)
      rcases ho with rfl | rfl <;> rfl

theorem reads (h : Script t) : t.StatementReads := by
  induction h with
  | simple h => exact h.reads.statement
  | returnStmt h => exact reads_returnStmt fun t ht => (h t ht).reads
  | goStmt hx hcall => exact reads_goStmt hx.reads hcall
  | deferStmt hx hcall => exact reads_deferStmt hx.reads hcall
  | branch hk hlabel hfall => exact reads_branch hk (fun x hx => (hlabel x hx).whole) hfall
  | emptyStmt => exact reads_emptyStmt
  | labeled hx _ ih => exact reads_labeled hx.whole ih
  | block _ ih => exact reads_blockStmt fun t ht => ih t ht
  | ifStmt hinit hx _ _ hkind ihts ihelse =>
      exact reads_ifStmt (fun t ht => (hinit t ht).reads) hx.reads hx.takesBrace_eq
        (reads_block fun t ht => ihts t ht) (fun t ht => ihelse t ht) hkind
  | forStmt hinit hcond hpost _ ih =>
      exact reads_forStmt (fun t ht => (hinit t ht).reads) (fun t ht => (hcond t ht).reads)
        (fun t ht => (hpost t ht).reads) (fun t ht => (hpost t ht).endTakesBrace_eq)
        (fun _ _ t ht => (hcond t ht).takesBrace_eq) (reads_block fun t ht => ih t ht)
  | rangeAll hx _ ih =>
      exact reads_rangeAll hx.reads hx.takesBrace_eq (reads_block fun t ht => ih t ht)
  | rangeStmt hkey hvalue ho hx _ ih =>
      refine reads_rangeStmt hkey.reads (fun t ht => (hvalue t ht).reads) ?_ hx.reads
        hx.takesBrace_eq (reads_block fun t ht => ih t ht)
      rcases ho with rfl | rfl <;> rfl

theorem unclashing (h : Script t) : Unclashing t.statementWords := by
  have hsemicolon : ∀ {ls : List Lexeme} {o : Option Tree}, (∀ t ∈ o, Simple t) →
      Unclashing ls → Unclashing (initWords o ++ ls) := by
    intro ls o ho hls
    cases o with
    | none => exact hls
    | some t =>
        simp only [initWords, Option.elim, List.append_assoc, List.singleton_append]
        exact (ho t rfl).unclashing.append_operator hls (by decide)
  have hbraces : ∀ {ts : List Tree}, (∀ t ∈ ts, Script t) →
      (∀ t ∈ ts, Unclashing t.statementWords) → ∀ {q : Tree} {ls : List Lexeme}, Unclashing ls →
      Unclashing (ls ++ (Tree.block q (.tuple ts)).statementWords) := by
    intro ts hts ih q ls hls
    rw [statementWords_block fun t ht => (hts t ht).reads.spells]
    have hinner := unclashing_body (fun t ht => (hts t ht).built) ih
    exact hls.append_operator (hinner.append_operator .nil (by decide)) (by decide)
  have hoption : ∀ {o : Option Tree}, (∀ t ∈ o, Operation t) → Unclashing (boundWords o) := by
    intro o ho
    cases o with
    | none => exact .nil
    | some t => exact (ho t rfl).unclashing
  have hsimple : ∀ {o : Option Tree}, (∀ t ∈ o, Simple t) → Unclashing (simpleWords o) := by
    intro o ho
    cases o with
    | none => exact .nil
    | some t => exact (ho t rfl).unclashing
  induction h with
  | simple h => exact h.unclashing
  | @returnStmt _ results h =>
      rw [statementWords_of_spells (spells_returnStmt fun t ht => (h t ht).spells)]
      exact (unclashing_operations h).keyword _
  | goStmt hx =>
      rw [statementWords_of_spells (spells_goStmt hx.spells)]
      exact hx.unclashing.keyword _
  | deferStmt hx =>
      rw [statementWords_of_spells (spells_deferStmt hx.spells)]
      exact hx.unclashing.keyword _
  | @branch _ _ _ label _ hlabel _ =>
      rw [statementWords_of_spells (spells_branch fun x hx => (hlabel x hx).whole)]
      cases label with
      | none => exact Unclashing.nil.keyword _
      | some x => exact Unclashing.nil.name.keyword _
  | emptyStmt =>
      rw [statementWords_of_spells spells_emptyStmt]
      exact Unclashing.nil.operator _
  | labeled hx ht ih =>
      rw [statementWords_of_spells (spells_labeled hx.whole ht.reads.spells)]
      exact (ih.operator _).name
  | block hts ih => exact hbraces hts (fun t ht => ih t ht) .nil
  | @ifStmt p q x init otherwise ts hinit hx hts helse hkind ihts ihelse =>
      rw [statementWords_of_spells (spells_ifStmt (fun t ht => (hinit t ht).reads) hx.reads
        (reads_block fun t ht => (hts t ht).reads) (fun t ht => (helse t ht).reads) hkind),
        ← List.append_assoc]
      have hbody := hbraces hts (fun t ht => ihts t ht) (q := q) (hsemicolon hinit hx.unclashing)
      refine Unclashing.keyword _ ?_
      cases otherwise with
      | none => simpa [elseWords] using hbody
      | some t => exact hbody.append_keyword (ihelse t rfl)
  | @forStmt p q init cond post ts hinit hcond hpost hts ih =>
      rw [statementWords_of_spells (spells_forStmt (fun t ht => (hinit t ht).reads)
        (fun t ht => (hcond t ht).reads) (fun t ht => (hpost t ht).reads)
        (reads_block fun t ht => (hts t ht).reads))]
      refine Unclashing.keyword _ (hbraces hts (fun t ht => ih t ht) ?_)
      unfold loopWords
      split
      · exact hoption hcond
      · exact (hsimple hinit).append_operator
          ((hoption hcond).append_operator (hsimple hpost) (by decide)) (by decide)
  | @rangeAll p q x ts hx hts ih =>
      rw [statementWords_of_spells (spells_rangeAll hx.spells
        (reads_block fun t ht => (hts t ht).reads))]
      exact ((hbraces hts (fun t ht => ih t ht) hx.unclashing).keyword _).keyword _
  | @rangeStmt p q key x value o ts hkey hvalue ho hx hts ih =>
      rw [statementWords_of_spells (spells_rangeStmt hkey.reads (fun t ht => (hvalue t ht).reads)
        hx.reads (reads_block fun t ht => (hts t ht).reads))]
      have hvars : ∀ t ∈ rangeVars key value, Operation t := by
        simpa [rangeVars] using ⟨hkey, hvalue⟩
      refine ((unclashing_operations hvars).append_operator
        ((hbraces hts (fun t ht => ih t ht) hx.unclashing).keyword _) ?_).keyword _
      rcases ho with rfl | rfl <;> decide

end Script

-- The text of a script is read as the script.
theorem parse_render_script {t : Tree} (h : Script t) : Fragment.statement.ReadsBack t :=
  Fragment.readsBack_of_rereads h.built h.unclashing (Fragment.rereads_statement h.reads)

-- A loop with a label that has no first part, and an empty statement and a `return` in it.
theorem parse_render_script_loop :
    ∃ t, Script t ∧ t.render = .ok "l:for ;c;p++\x7b;return\x7d" ∧
      Fragment.statement.ReadsBack t := by
  let name (s : Text) : Tree := .ident .unknownPlace (.text s)
  have hname : ∀ s ∈ ["l", "c", "p"], IsName s := by
    simp only [List.forall_mem_cons]
    exact ⟨rfl, rfl, rfl, List.forall_mem_nil _⟩
  have hbody : ∀ t ∈ [Tree.emptyStmt .unknownPlace (.flag false),
      .returnStmt .unknownPlace (.tuple [])], Script t := by
    simpa using ⟨.emptyStmt, .returnStmt (by simp)⟩
  have hloop : Script (.forStmt .unknownPlace (.ofOption none) (.ofOption (some (name "c")))
      (.ofOption (some (.incDec .unknownPlace (name "p") (.token (.op .Inc)))))
      (.block .unknownPlace (.tuple [.emptyStmt .unknownPlace (.flag false),
        .returnStmt .unknownPlace (.tuple [])]))) := by
    refine .forStmt (by simp) ?_ ?_ hbody
    · rintro t ⟨⟩
      exact .ident (hname _ (by simp))
    · rintro t ⟨⟩
      exact .incDec (.ident (hname _ (by simp))) (.inl rfl)
  have hlabeled := Script.labeled (p := .unknownPlace) (q := .unknownPlace)
    (hname "l" (by simp)) hloop
  exact ⟨_, hlabeled, by rfl, parse_render_script hlabeled⟩

end Tree

end GoCompact
