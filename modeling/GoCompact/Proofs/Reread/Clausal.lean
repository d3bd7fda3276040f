import GoCompact.Proofs.Reread.Clause
import GoCompact.Proofs.Reread.Script

namespace GoCompact

namespace Tree

open Text GoCompact.Grammar

inductive Name : Tree → Prop
  | ident {p : Tree} {x : Text} (hx : IsName x) : Name (.ident p (.text x))

-- The parts of a switch or select.
inductive ClausePart
  | statement | caseClause | commClause

inductive Clausal : ClausePart → Tree → Prop
  | exprStmt {p x : Tree} (hx : Name x) : Clausal .statement (.exprStmt p x)
  | emptyStmt {p : Tree} : Clausal .statement (.emptyStmt p (.flag false))
  | labeled {p q t : Tree} {x : Text} (hx : IsName x) (ht : Clausal .statement t) :
      Clausal .statement (.labeled p (.ident q (.text x)) t)
  | block {p : Tree} {ts : List Tree} (hts : ∀ t ∈ ts, Clausal .statement t) :
      Clausal .statement (.block p (.tuple ts))
  | switchStmt {p q : Tree} {init tag : Option Tree} {clauses : List Tree}
      (hinit : ∀ t ∈ init, ∃ r x, t = .exprStmt r x ∧ Name x) (htag : ∀ t ∈ tag, Name t)
      (hclauses : ∀ t ∈ clauses, Clausal .caseClause t) :
      Clausal .statement
        (.switchStmt p (.ofOption init) (.ofOption tag) (.block q (.tuple clauses)))
  | selectStmt {p q : Tree} {clauses : List Tree}
      (hclauses : ∀ t ∈ clauses, Clausal .commClause t) :
      Clausal .statement (.selectStmt p (.block q (.tuple clauses)))
  | caseClause {p : Tree} {values body : List Tree} (hvalues : ∀ t ∈ values, Name t)
      (hbody : ∀ t ∈ body, Clausal .statement t) :
      Clausal .caseClause (.caseClause p (.tuple values) (.tuple body))
  | commClause {p : Tree} {comm : Option Tree} {body : List Tree}
      (hcomm : ∀ t ∈ comm, ∃ r x, t = .exprStmt r x ∧ Name x)
      (hbody : ∀ t ∈ body, Clausal .statement t) :
      Clausal .commClause (.commClause p (.ofOption comm) (.tuple body))

-- Whether no clause but the last one ends in a statement that is its own end.
def keepsNode : NodeKind → List Tree → Bool
  | .BlockStmt, [.tuple ts] => ts.dropLast.all fun t => !t.closesItself
  | _, _ => true

mutual

-- Whether this is so in all of a tree.
def keepsClauses : Tree → Bool
  | .node kind _ fields => keepsNode kind fields && keepAll fields
  | .tuple items => keepAll items
  | _ => true

def keepAll : List Tree → Bool
  | [] => true
  | t :: ts => keepsClauses t && keepAll ts

end

theorem keepAll_iff {ts : List Tree} : keepAll ts = true ↔ ∀ t ∈ ts, t.keepsClauses = true := by
  induction ts with
  | nil => simp [keepAll]
  | cons t ts ih => simp [keepAll, ih]

theorem Name.operation {t : Tree} (h : Name t) : Operation t := by
  cases h with
  | ident hx => exact .ident hx

theorem Name.simple {t : Tree} (h : ∃ r x, t = .exprStmt r x ∧ Name x) : Simple t := by
  obtain ⟨r, x, rfl, hx⟩ := h
  exact .exprStmt hx.operation

namespace Clausal

variable {t : Tree} {part : ClausePart}

theorem trails_eq (h : Clausal .statement t) : t.trails = false := by
  generalize hpart : ClausePart.statement = part at h
  induction h with
  | labeled _ _ ih => exact ih rfl
  | _ => rfl

theorem isImplicit_eq (h : Clausal .statement t) : t.isImplicit = false := by
  cases h <;> rfl

theorem built_block {p : Tree} {ts : List Tree} (hts : ∀ t ∈ ts, Clausal .statement t)
    (h : ∀ t ∈ ts, Built .statement t) : Built .block (.block p (.tuple ts)) :=
  .block h (fun t ht => (hts t ht).isImplicit_eq)
    fun t ht => (hts t (List.mem_of_mem_dropLast ht)).trails_eq

end Clausal

-- The part of the grammar that a part of a switch or select is read as.
def ClausePart.category : ClausePart → Category
  | .statement => .statement
  | .caseClause => .caseClause false
  | .commClause => .commClause

-- What is written for a part is read as the part.
def ClausePart.Reads : ClausePart → Tree → Prop
  | .statement, t => t.StatementReads
  | .caseClause, t => t.ClauseReads (·.caseClause false)
  | .commClause, t => t.ClauseReads (·.commClause)

namespace Clausal

variable {t : Tree} {part : ClausePart}

theorem clauseTrails_eq (h : Clausal part t) : t.clauseTrails = false := by
  have hlast : ∀ {body : List Tree}, (∀ t ∈ body, Clausal .statement t) →
      body.getLast?.any trails = false := by
    intro body hbody
    cases hlast : body.getLast? with
    | none => rfl
    | some t => exact (hbody t (List.mem_of_getLast? hlast)).trails_eq
  cases h with
  | caseClause _ hbody => exact hlast hbody
  | commClause _ hbody => exact hlast hbody
  | _ => rfl

theorem built (h : Clausal part t) : Built part.category t := by
  induction h with
  | exprStmt hx => exact .simpleStmt (.exprStmt hx.operation.built)
  | emptyStmt => exact .emptyStmt
  | labeled hx _ ih => exact .labeled (.name hx.whole) ih
  | block hts ih => exact .blockStmt (built_block hts fun t ht => ih t ht)
  | switchStmt hinit htag hclauses ih =>
      refine .switchStmt (fun t ht => (Name.simple (hinit t ht)).built)
        (fun t ht => (htag t ht).operation.built) (fun t ht => (htag t ht).operation.takesBrace_eq)
        (fun t ht => ?_) (fun t ht => ih t ht)
        fun t ht => (hclauses t (List.mem_of_mem_dropLast ht)).clauseTrails_eq
      cases htag t ht
      rfl
  | selectStmt hclauses ih =>
      exact .selectStmt (fun t ht => ih t ht)
        fun t ht => (hclauses t (List.mem_of_mem_dropLast ht)).clauseTrails_eq
  | caseClause hvalues hbody ih =>
      exact .caseClause (fun t ht => (hvalues t ht).operation.built) nofun
        (built_block hbody fun t ht => ih t ht)
  | commClause hcomm hbody ih =>
      refine .commClause (fun t ht => (Name.simple (hcomm t ht)).built) (fun t ht => ?_)
        (built_block hbody fun t ht => ih t ht)
      obtain ⟨r, x, rfl, -⟩ := hcomm t ht
      rfl

-- The parts of a node that keeps its clauses keep theirs.
theorem reads (h : Clausal part t) (hkeeps : t.keepsClauses = true) : part.Reads t := by
  induction h with
  | exprStmt hx => exact (reads_exprStmt hx.operation.reads).statement
  | emptyStmt => exact reads_emptyStmt
  | labeled hx _ ih =>
      simp only [keepsClauses, keepAll, Bool.and_eq_true] at hkeeps
      exact reads_labeled hx.whole (ih hkeeps.2.2.1)
  | block hts ih =>
      simp only [keepsClauses, keepAll, Bool.and_eq_true, keepAll_iff] at hkeeps
      exact reads_blockStmt fun t ht => ih t ht (hkeeps.2.1 t ht)
  | switchStmt hinit htag hclauses ih =>
      simp only [keepsClauses, keepAll, Bool.and_eq_true, keepAll_iff] at hkeeps
      obtain ⟨-, -, -, ⟨hnode, hparts, -⟩, -⟩ := hkeeps
      refine reads_switchStmt (fun t ht => (Name.simple (hinit t ht)).reads)
        (fun t ht => (htag t ht).operation.reads) (fun t ht => (htag t ht).operation.takesBrace_eq)
        (fun t ht => ?_) (fun t ht => ih t ht (hparts t ht)) ?_
      · cases htag t ht
        rfl
      · simpa [keepsNode] using hnode
  | selectStmt hclauses ih =>
      simp only [keepsClauses, keepAll, Bool.and_eq_true, keepAll_iff] at hkeeps
      obtain ⟨-, ⟨hnode, hparts, -⟩, -⟩ := hkeeps
      refine reads_selectStmt (fun t ht => ih t ht (hparts t ht)) ?_
      simpa [keepsNode] using hnode
  | caseClause hvalues hbody ih =>
      simp only [keepsClauses, keepAll, Bool.and_eq_true, keepAll_iff] at hkeeps
      exact reads_caseClause (fun t ht => (hvalues t ht).operation.reads)
        fun t ht => ih t ht (hkeeps.2.2.1 t ht)
  | commClause hcomm hbody ih =>
      simp only [keepsClauses, keepAll, Bool.and_eq_true, keepAll_iff] at hkeeps
      refine reads_commClause (fun t ht => ?_) fun t ht => ih t ht (hkeeps.2.2.1 t ht)
      obtain ⟨r, x, rfl, hx⟩ := hcomm t ht
      exact comm_exprStmt hx.operation.reads

theorem spells (h : Clausal part t) : (t.emittedAs .statement).Spells t.statementWords := by
  have hpieces : ∀ {k : Category}, Built k t → k.Takes .statement →
      k.Separates t (t.emittedAs .statement) := fun hbuilt hrole => hbuilt.separates hrole
  have hbuilt := h.built
  cases part with
  | statement => exact ⟨(hpieces hbuilt rfl).fault, rfl⟩
  | caseClause => exact ⟨(hpieces hbuilt rfl).fault, rfl⟩
  | commClause => exact ⟨(hpieces hbuilt rfl).fault, rfl⟩

-- A clause without statements ends in a colon.
theorem last_of_isSelfTerminated (h : Clausal part t) (hself : t.isSelfTerminated = true) :
    ∀ l ∈ t.statementWords.getLast?, l.kind ≠ .literal .Integer := by
  intro l hl hkind
  have hlast : ∀ {o : Operator}, t.statementWords.getLast? = some (.ofOperator o) → False := by
    intro o hlast
    rw [hlast] at hl
    obtain rfl := Option.some.inj hl
    cases hkind
  have hbuilt := h.built
  cases h with
  | @caseClause _ values body hvalues _ =>
      cases body with
      | nil =>
          rw [statementWords_of_spells (spells_caseClause
            (fun t ht => (hvalues t ht).operation.spells) (by simp))] at hlast
          exact hlast (o := .Colon) (by simp [statementsWords])
      | cons u us => cases hself
  | @commClause _ comm body hcomm _ =>
      cases body with
      | nil =>
          rw [statementWords_of_spells (spells_commClause
            (fun t ht => (Name.simple (hcomm t ht)).reads) (by simp))] at hlast
          exact hlast (o := .Colon) (by simp [statementsWords])
      | cons u us => cases hself
  | _ => exact hlast (Tree.last_of_isSelfTerminated hbuilt hself)

theorem unclashing (h : Clausal part t) : Unclashing t.statementWords := by
  have hlist : ∀ {part : ClausePart} {ts : List Tree}, (∀ t ∈ ts, Clausal part t) →
      (∀ t ∈ ts, Unclashing t.statementWords) → Unclashing (statementsWords ts) :=
    fun hts ih => unclashing_statements ih fun t ht => (hts t ht).last_of_isSelfTerminated
  have hbraces : ∀ {part : ClausePart} {ts : List Tree}, (∀ t ∈ ts, Clausal part t) →
      (∀ t ∈ ts, Unclashing t.statementWords) → ∀ {ls : List Lexeme}, Unclashing ls →
      Unclashing (ls ++ bracesWords ts) := by
    intro part ts hts ih ls hls
    exact hls.append_operator ((hlist hts ih).append_operator .nil (by decide)) (by decide)
  induction h with
  | exprStmt hx => exact hx.operation.unclashing
  | emptyStmt =>
      rw [statementWords_of_spells spells_emptyStmt]
      exact Unclashing.nil.operator _
  | labeled hx ht ih =>
      rw [statementWords_of_spells (spells_labeled hx.whole ht.spells)]
      exact (ih.operator _).name
  | block hts ih =>
      rw [statementWords_block fun t ht => (hts t ht).spells]
      exact hbraces hts (fun t ht => ih t ht) .nil
  | @switchStmt p q init tag clauses hinit htag hclauses ih =>
      rw [statementWords_of_spells (spells_switchStmt
        (fun t ht => (Name.simple (hinit t ht)).reads) (fun t ht => (htag t ht).operation.reads)
        fun t ht => (hclauses t ht).spells)]
      have htag' : Unclashing (boundWords tag) := by
        cases tag with
        | none => exact .nil
        | some x => exact (htag x rfl).operation.unclashing
      refine (hbraces hclauses (fun t ht => ih t ht) ?_).keyword _
      cases init with
      | none => exact htag'
      | some t =>
          simp only [initWords, Option.elim, List.append_assoc, List.singleton_append]
          exact (Name.simple (hinit t rfl)).unclashing.append_operator htag' (by decide)
  | selectStmt hclauses ih =>
      rw [statementWords_of_spells (spells_selectStmt fun t ht => (hclauses t ht).spells)]
      exact (hbraces hclauses (fun t ht => ih t ht) .nil).keyword _
  | @caseClause p values body hvalues hbody ih =>
      rw [statementWords_of_spells (spells_caseClause
        (fun t ht => (hvalues t ht).operation.spells) fun t ht => (hbody t ht).spells)]
      refine Unclashing.append_operator ?_ (hlist hbody fun t ht => ih t ht) (by decide)
      unfold caseWords
      split
      · exact Unclashing.nil.keyword _
      · exact (unclashing_operations fun t ht => (hvalues t ht).operation).keyword _
  | @commClause p comm body hcomm hbody ih =>
      rw [statementWords_of_spells (spells_commClause
        (fun t ht => (Name.simple (hcomm t ht)).reads) fun t ht => (hbody t ht).spells)]
      refine Unclashing.append_operator ?_ (hlist hbody fun t ht => ih t ht) (by decide)
      cases comm with
      | none => exact Unclashing.nil.keyword _
      | some t => exact (Name.simple (hcomm t rfl)).unclashing.keyword _

end Clausal

-- Statements whose clauses are kept apart are read back.
theorem parse_render_clauses {t : Tree} (h : Clausal .statement t)
    (hkeeps : t.keepsClauses = true) : Fragment.statement.ReadsBack t :=
  Fragment.readsBack_of_rereads h.built h.unclashing
    (Fragment.rereads_statement (h.reads hkeeps))

-- A clause of a name.
def nameClause (x : Text) (body : List Tree) : Tree :=
  .caseClause .unknownPlace (.tuple [.ident .unknownPlace (.text x)]) (.tuple body)

-- A switch of two clauses in a block.
def twoClauses (body body' : List Tree) : Tree :=
  .block .unknownPlace (.tuple [.switchStmt .unknownPlace .absent .absent
    (.block .unknownPlace (.tuple [nameClause "a" body, nameClause "b" body']))])

theorem clausal_twoClauses {body body' : List Tree} (h : ∀ t ∈ body, Clausal .statement t)
    (h' : ∀ t ∈ body', Clausal .statement t) : Clausal .statement (twoClauses body body') := by
  have hname : ∀ x ∈ (["a", "b"] : List Text), IsName x := by
    simp only [List.forall_mem_cons]
    exact ⟨rfl, rfl, List.forall_mem_nil _⟩
  have hclause : ∀ {x : Text} {body : List Tree}, x ∈ (["a", "b"] : List Text) →
      (∀ t ∈ body, Clausal .statement t) → Clausal .caseClause (nameClause x body) :=
    fun hx hbody => .caseClause (by simpa using .ident (hname _ hx)) hbody
  have hswitch : Clausal .statement (.switchStmt .unknownPlace (.ofOption none) (.ofOption none)
      (.block .unknownPlace (.tuple [nameClause "a" body, nameClause "b" body']))) := by
    refine .switchStmt (by simp) (by simp) ?_
    simpa using ⟨hclause (by simp) h, hclause (by simp) h'⟩
  refine .block ?_
  simpa using hswitch

-- A clause without statements before one that ends in an empty statement.
theorem parse_render_clauses_last :
    ∃ t, Clausal .statement t ∧ t.keepsClauses = true ∧
      t.render = .ok "\x7bswitch\x7bcase a:case b:;\x7d\x7d" ∧ Fragment.statement.ReadsBack t := by
  have hclausal : Clausal .statement (twoClauses [] [.emptyStmt .unknownPlace (.flag false)]) :=
    clausal_twoClauses (by simp) (by simpa using .emptyStmt)
  exact ⟨_, hclausal, rfl, rfl, parse_render_clauses hclausal rfl⟩

-- The other way round the empty statement is read twice.
theorem parse_render_clauses_doubled :
    ∃ t text, Clausal .statement t ∧ t.render = .ok text ∧
      (∃ u, Fragment.statement.parse (.atMost 100) text none = .ok u) ∧
      ∀ u, Fragment.statement.parse (.atMost 100) text none = .ok u → u.same t = false := by
  have hclausal : Clausal .statement (twoClauses [.emptyStmt .unknownPlace (.flag false)] []) :=
    clausal_twoClauses (by simpa using .emptyStmt) (by simp)
  have hparse : (Fragment.statement.parse (.atMost 100)
      "\x7bswitch\x7bcase a:;;case b:\x7d\x7d" none).toOption.map
        (·.same (twoClauses [.emptyStmt .unknownPlace (.flag false)] [])) = some false :=
    rfl
  refine ⟨_, "\x7bswitch\x7bcase a:;;case b:\x7d\x7d", hclausal, rfl, ?_, ?_⟩
  · cases h : Fragment.statement.parse (.atMost 100) _ none with
    | ok u => exact ⟨u, rfl⟩
    | error d =>
        rw [h] at hparse
        cases hparse
  · intro u hu
    rw [hu] at hparse
    exact Option.some.inj hparse

end Tree

end GoCompact
