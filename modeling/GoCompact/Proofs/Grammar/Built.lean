import GoCompact.Grammar.Fragment
import GoCompact.Proofs.Lexing.Boundary

namespace GoCompact

namespace Tree

-- The name of a type, perhaps from a package.
def isTypeName : Tree → Bool
  | .ident _ _ => true
  | .selector _ (.ident _ _) (.ident _ _) => true
  | _ => false

mutual

-- Whether a tree can be read as a type.
def isType : Tree → Bool
  | .ident _ _ => true
  | .selector _ (.ident _ _) (.ident _ _) => true
  | .index _ x (.tuple args) => isTypeName x && areTypes args
  | .star _ x => isType x
  | .paren _ x => isType x
  | .node k _ _ => k.family == .typeExpression
  | _ => false

def areTypes : List Tree → Bool
  | [] => true
  | t :: ts => isType t && areTypes ts

end

-- How tightly the operator of a tree binds; what has none binds most tightly.
def precedence : Tree → Nat
  | .binary _ _ (.token kind) _ => kind.precedence
  | _ => 6

-- A channel type that begins with an arrow.
def isReceiver : Tree → Bool
  | .chanType _ (.direction .receive) _ => true
  | _ => false

-- The kind of token that a type begins with.
def typeStart : Tree → TokenKind
  | .star _ _ => .op .Mul
  | .paren _ _ => .op .LParen
  | .arrayType _ _ _ => .op .LBrack
  | .mapType _ _ _ => .word .Map
  | .chanType _ (.direction .receive) _ => .op .Arrow
  | .chanType _ _ _ => .word .Chan
  | .funcType _ _ _ _ _ => .word .Func
  | .structType _ _ => .word .Struct
  | .interfaceType _ _ => .word .Interface
  | _ => .ident

-- Whether selections, indices and calls may follow a tree.
def isPrimary (t : Tree) : Bool :=
  !t.is .UnaryExpr && !t.is .BinaryExpr && !t.is .StarExpr && !t.isReceiver

-- Whether a brace after a tree begins a literal, which depends on where the tree stands if it is a
-- name.
def takesBraces (free : Bool) (t : Tree) : Bool :=
  t.is .ArrayType || t.is .StructType || t.is .MapType ||
    (free && (t.is .Ident || t.is .SelectorExpr || t.is .IndexExpr))

-- The terms of a union, and unions.
def isTerm : Tree → Bool
  | .unary _ (.token (.op .Tilde)) x => x.isType
  | t => t.isType

def isUnion : Tree → Bool
  | .binary _ x (.token (.op .Or)) y => isUnion x && y.isTerm
  | t => t.isTerm

-- A name with brackets after it.
def isIndexed : Tree → Bool
  | .index _ (.ident _ _) _ => true
  | _ => false

-- A union that begins with a name with brackets after it.
def leadsIndexed : Tree → Bool
  | .binary _ x (.token (.op .Or)) y => leadsIndexed x && y.isTerm
  | t => t.isIndexed

-- The type of a parameter that has a name, and of one that has none.
def fitsNamed (constraints : Bool) (t : Tree) : Bool :=
  t.is .Ellipsis || t.isType || (constraints && t.isUnion)

def fitsUnnamed (constraints : Bool) (t : Tree) : Bool :=
  t.is .Ellipsis || t.isType || t.isIndexed || (constraints && (t.isUnion || t.leadsIndexed))

-- The type of a struct field that has no name.
def isEmbedded : Tree → Bool
  | .star _ x => x.isType && (x.isTypeName || x.is .IndexExpr)
  | t => t.isTypeName || (t.isType && t.is .IndexExpr) || t.isIndexed

-- A constraint that is read as the right side of a product, or as the argument of a call, of which
-- the parameter is the left side or the callee.
def isTakenApart : Tree → Bool
  | .star _ x => !x.is .BinaryExpr
  | .paren _ _ => true
  | .binary _ x (.token (.op .Or)) y => isTakenApart x && 4 < y.precedence
  | _ => false

-- The first type in a list of type parameters that begins with a name and a bracket, or is a name.
def leadsTypeParameters : Tree → Bool
  | .ident _ _ => true
  | t => t.leadsIndexed

-- Whether an expression begins with a name and a bracket.
def startsIndexed : Tree → Bool
  | .binary _ x _ _ => startsIndexed x
  | .selector _ x _ => startsIndexed x
  | .index _ x _ => x.is .Ident || startsIndexed x
  | .slice _ x _ _ _ => x.is .Ident || startsIndexed x
  | .typeAssert _ x _ => startsIndexed x
  | .call _ x _ _ => startsIndexed x
  | .compositeLit _ typ _ => startsIndexed typ
  | _ => false

-- Whether an expression begins with a name.
def startsNamed : Tree → Bool
  | .binary _ x _ _ => startsNamed x
  | .selector _ x _ => startsNamed x
  | .index _ x _ => startsNamed x
  | .slice _ x _ _ _ => startsNamed x
  | .typeAssert _ x _ => startsNamed x
  | .call _ x _ _ => startsNamed x
  | .compositeLit _ typ _ => startsNamed typ
  | t => t.is .Ident

-- An array type whose length is not taken for a type parameter.
def keepsLength : Tree → Bool
  | .arrayType _ len _ => !(len.typeParameter? false).any (·.2.isSome) && !len.startsIndexed
  | _ => true

-- A statement without text, which only a label before a closing brace has.
def isImplicit : Tree → Bool
  | .emptyStmt _ (.flag b) => b
  | _ => false

-- Whether a statement ends in one without text.
def trails : Tree → Bool
  | .emptyStmt _ (.flag b) => b
  | .labeled _ _ stmt => trails stmt
  | _ => false

-- Whether a clause ends so.
def clauseTrails : Tree → Bool
  | .caseClause _ _ (.tuple body) => body.getLast?.any trails
  | .commClause _ _ (.tuple body) => body.getLast?.any trails
  | _ => false

-- Whether an expression asks for the type of a value.
def asksType : Tree → Bool
  | .typeAssert _ _ .absent => true
  | _ => false

-- What may stand in a clause that waits for a channel: a send, a receive, or an assignment of one
-- expression to one or two.
def isCommunication : Tree → Bool
  | .send _ _ _ => true
  | .exprStmt _ _ => true
  | .assign _ (.tuple lhs) (.token (.op o)) (.tuple rhs) =>
    (o == .Assign || o == .Define) && lhs.length ≤ 2 && rhs.length == 1
  | _ => false

-- Whether a brace after an expression in a header would be read with it.
def takesBrace : Tree → Bool
  | .binary _ _ _ y => takesBrace y
  | .unary _ _ x => takesBrace x
  | .star _ x => takesBrace x
  | t => t.is .FuncType || t.unparen.is .ArrayType || t.unparen.is .StructType ||
    t.unparen.is .MapType

-- Whether a brace after a simple statement would be read with its last expression.
def endTakesBrace : Tree → Bool
  | .exprStmt _ x => x.takesBrace
  | .assign _ _ _ (.tuple rhs) => rhs.getLast?.any takesBrace
  | .send _ _ value => value.takesBrace
  | _ => false

end Tree

-- The parts of the grammar. An expression is free where a brace after a type name begins a literal.
inductive Category
  | name
  | text
  | expression (free : Bool)
  | length
  | element
  | fieldType
  | unnamed (constraints : Bool)
  | named (constraints : Bool)
  | parameters (constraints : Bool)
  | typeParameters
  | structField
  | interfaceElement
  | simple (free : Bool)
  | block
  | statement
  | caseClause (types : Bool)
  | commClause
  | spec (keyword : Keyword)
  | declaration
  | file

-- Operators that may stand before an operand, pointers apart.
def Operator.isPrefix (o : Operator) : Bool := Grammar.isUnary (.op o) || o == .Arrow

-- The trees that the parts of the grammar build: in their fields are nodes of the right kinds, and
-- operators group as they bind.
open GoCompact.Tree in
inductive Built : Category → Tree → Prop
  | name {p : Tree} {s : Text} (h : (⟨.ident, s⟩ : Lexeme).Whole) :
      Built .name (.ident p (.text s))
  | text {p : Tree} {s : Text} (h : (⟨.literal .Text, s⟩ : Lexeme).Whole) :
      Built .text (.basicLit p (.token (.literal .Text)) (.text s))
  | ident {b : Bool} {p : Tree} {s : Text} (h : (⟨.ident, s⟩ : Lexeme).Whole) :
      Built (.expression b) (.ident p (.text s))
  | literal {b : Bool} {p : Tree} {k : Literal} {s : Text}
      (h : (⟨.literal k, s⟩ : Lexeme).Whole) :
      Built (.expression b) (.basicLit p (.token (.literal k)) (.text s))
  | paren {b : Bool} {p x : Tree} (hx : Built (.expression true) x) :
      Built (.expression b) (.paren p x)
  | selector {b : Bool} {p x sel : Tree} (hx : Built (.expression b) x)
      (hprimary : x.isPrimary = true) (hsel : Built .name sel) :
      Built (.expression b) (.selector p x sel)
  | index {b : Bool} {p x first : Tree} {others : List Tree} (hx : Built (.expression b) x)
      (hprimary : x.isPrimary = true) (hfirst : Built (.expression true) first)
      (hothers : ∀ t ∈ others, Built (.expression true) t)
      (htypes : ∀ t ∈ others, t.isType = true) :
      Built (.expression b) (.index p x (.tuple (first :: others)))
  | slice {b : Bool} {p x : Tree} {low high max : Option Tree} (hx : Built (.expression b) x)
      (hprimary : x.isPrimary = true) (hlow : ∀ t ∈ low, Built (.expression true) t)
      (hhigh : ∀ t ∈ high, Built (.expression true) t)
      (hmax : ∀ t ∈ max, Built (.expression true) t)
      (hfull : max.isSome = true → high.isSome = true) :
      Built (.expression b) (.slice p x (.ofOption low) (.ofOption high) (.ofOption max))
  | typeAssert {b : Bool} {p x : Tree} {typ : Option Tree} (hx : Built (.expression b) x)
      (hprimary : x.isPrimary = true) (htyp : ∀ t ∈ typ, Built (.expression true) t)
      (htypes : ∀ t ∈ typ, t.isType = true) :
      Built (.expression b) (.typeAssert p x (.ofOption typ))
  | call {b : Bool} {p x : Tree} {args : List Tree} {spread : Bool}
      (hx : Built (.expression b) x) (hprimary : x.isPrimary = true)
      (hargs : ∀ t ∈ args, Built (.expression true) t) (hspread : spread = true → args ≠ []) :
      Built (.expression b) (.call p x (.tuple args) (.flag spread))
  | compositeLit {b : Bool} {p typ : Tree} {elts : List Tree} (htyp : Built (.expression b) typ)
      (hbraces : typ.takesBraces b = true) (helts : ∀ t ∈ elts, Built .element t) :
      Built (.expression b) (.compositeLit p typ (.tuple elts))
  | funcLit {b : Bool} {p q params body : Tree} {results : Option Tree}
      (hparams : Built (.parameters false) params)
      (hresults : ∀ t ∈ results, Built (.parameters false) t) (hbody : Built .block body) :
      Built (.expression b)
        (.funcLit p (.funcType q params (.ofOption results) .absent (.flag true)) body)
  | unary {b : Bool} {p x : Tree} {o : Operator} (ho : o.isPrefix = true)
      (hx : Built (.expression b) x) (hbinary : x.is .BinaryExpr = false)
      (hchan : o = .Arrow → x.is .ChanType = false) :
      Built (.expression b) (.unary p (.token (.op o)) x)
  | star {b : Bool} {p x : Tree} (hx : Built (.expression b) x)
      (hbinary : x.is .BinaryExpr = false) : Built (.expression b) (.star p x)
  | binary {b : Bool} {p x y : Tree} {o : Operator} (ho : 0 < o.precedence)
      (hx : Built (.expression b) x) (hy : Built (.expression b) y)
      (hleft : o.precedence ≤ x.precedence) (hright : o.precedence < y.precedence) :
      Built (.expression b) (.binary p x (.token (.op o)) y)
  | arrayType {b : Bool} {p elt : Tree} {len : Option Tree} (hlen : ∀ t ∈ len, Built .length t)
      (helt : Built (.expression true) elt) (htype : elt.isType = true) :
      Built (.expression b) (.arrayType p (.ofOption len) elt)
  | mapType {b : Bool} {p key value : Tree} (hkey : Built (.expression true) key)
      (hkeyType : key.isType = true) (hvalue : Built (.expression true) value)
      (hvalueType : value.isType = true) : Built (.expression b) (.mapType p key value)
  | chanType {b : Bool} {p value : Tree} {d : Direction} (hd : d ≠ .neither)
      (hvalue : Built (.expression true) value) (htype : value.isType = true)
      (hboth : d = .both → value.isReceiver = false) :
      Built (.expression b) (.chanType p (.direction d) value)
  | funcType {b : Bool} {p params : Tree} {results : Option Tree}
      (hparams : Built (.parameters false) params)
      (hresults : ∀ t ∈ results, Built (.parameters false) t) :
      Built (.expression b) (.funcType p params (.ofOption results) .absent (.flag true))
  | structType {b : Bool} {p q : Tree} {fields : List Tree}
      (hfields : ∀ t ∈ fields, Built .structField t) :
      Built (.expression b) (.structType p (.fieldList q (.tuple fields)))
  | interfaceType {b : Bool} {p q : Tree} {methods : List Tree}
      (hmethods : ∀ t ∈ methods, Built .interfaceElement t) :
      Built (.expression b) (.interfaceType p (.fieldList q (.tuple methods)))
  | openLength {p : Tree} : Built .length (.ellipsis p .absent)
  | length {t : Tree} (h : Built (.expression true) t) : Built .length t
  | element {t : Tree} (h : Built (.expression true) t) : Built .element t
  | bareLiteral {p : Tree} {elts : List Tree} (helts : ∀ t ∈ elts, Built .element t) :
      Built .element (.compositeLit p .absent (.tuple elts))
  | keyValue {p key value : Tree} (hkey : Built .element key)
      (hkeyPart : key.is .KeyValueExpr = false) (hvalue : Built .element value)
      (hvaluePart : value.is .KeyValueExpr = false) : Built .element (.keyValue p key value)
  | fieldType {t : Tree} (h : Built (.expression true) t) : Built .fieldType t
  | variadic {p t : Tree} (h : Built (.expression true) t) (htype : t.isType = true) :
      Built .fieldType (.ellipsis p t)
  | openIndex {p q name : Tree} {others : List Tree} (hname : Built .name name)
      (hothers : ∀ t ∈ others, Built (.expression true) t)
      (htypes : ∀ t ∈ others, t.isType = true) :
      Built .fieldType (.index p name (.tuple (.ellipsis q .absent :: others)))
  | openUnion {p x y : Tree} (hx : Built .fieldType x) (hleads : x.leadsIndexed = true)
      (hy : Built (.expression true) y) (hterm : y.isTerm = true) :
      Built .fieldType (.binary p x (.token (.op .Or)) y)
  | unnamedField {c : Bool} {p t : Tree} (h : Built .fieldType t) (hfits : t.fitsUnnamed c = true) :
      Built (.unnamed c) (.field p (.tuple []) t .absent)
  | namedField {c : Bool} {p t : Tree} {names : List Tree} (hne : names ≠ [])
      (hnames : ∀ n ∈ names, Built .name n) (h : Built .fieldType t)
      (hfits : t.fitsNamed c = true) : Built (.named c) (.field p (.tuple names) t .absent)
  | unnamedList {c : Bool} {p : Tree} {fields : List Tree}
      (hfields : ∀ t ∈ fields, Built (.unnamed c) t) :
      Built (.parameters c) (.fieldList p (.tuple fields))
  | namedList {c : Bool} {p : Tree} {fields : List Tree}
      (hfields : ∀ t ∈ fields, Built (.named c) t) :
      Built (.parameters c) (.fieldList p (.tuple fields))
  | unnamedTypeParameters {p q t : Tree} {fields : List Tree} (h : Built .fieldType t)
      (hleads : t.leadsTypeParameters = true) (hfields : ∀ t ∈ fields, Built (.unnamed true) t) :
      Built .typeParameters
        (.fieldList p (.tuple (.field q (.tuple []) t .absent :: fields)))
  | namedTypeParameters {p : Tree} {fields : List Tree} (hne : fields ≠ [])
      (hfields : ∀ t ∈ fields, Built (.named true) t) :
      Built .typeParameters (.fieldList p (.tuple fields))
  | takenApart {p q name t : Tree} {fields : List Tree} (hname : Built .name name)
      (h : Built (.expression true) t)
      (hapart : t.isTakenApart = true) (hfields : ∀ t ∈ fields, Built (.named true) t) :
      Built .typeParameters
        (.fieldList p (.tuple (.field q (.tuple [name]) t .absent :: fields)))
  | embeddedField {p t : Tree} {tag : Option Tree} (h : Built .fieldType t)
      (hembedded : t.isEmbedded = true) (htag : ∀ t ∈ tag, Built .text t) :
      Built .structField (.field p (.tuple []) t (.ofOption tag))
  | structField {p t : Tree} {names : List Tree} {tag : Option Tree} (hne : names ≠ [])
      (hnames : ∀ n ∈ names, Built .name n) (h : Built (.expression true) t)
      (htype : t.isType = true) (htag : ∀ t ∈ tag, Built .text t) :
      Built .structField (.field p (.tuple names) t (.ofOption tag))
  | method {p q name params : Tree} {results : Option Tree} (hname : Built .name name)
      (hparams : Built (.parameters false) params)
      (hresults : ∀ t ∈ results, Built (.parameters false) t) :
      Built .interfaceElement (.field p (.tuple [name])
        (.funcType q params (.ofOption results) .absent (.flag false)) .absent)
  | embeddedUnion {p t : Tree} (h : Built (.expression true) t) (hunion : t.isUnion = true) :
      Built .interfaceElement (.field p (.tuple []) t .absent)
  | exprStmt {b : Bool} {p x : Tree} (hx : Built (.expression b) x) :
      Built (.simple b) (.exprStmt p x)
  | assign {b : Bool} {p : Tree} {lhs rhs : List Tree} {o : Operator} (hlne : lhs ≠ [])
      (hlhs : ∀ t ∈ lhs, Built (.expression b) t) (ho : o.isAssignment = true) (hrne : rhs ≠ [])
      (hrhs : ∀ t ∈ rhs, Built (.expression b) t) :
      Built (.simple b) (.assign p (.tuple lhs) (.token (.op o)) (.tuple rhs))
  | send {b : Bool} {p chan value : Tree} (hchan : Built (.expression b) chan)
      (hvalue : Built (.expression b) value) : Built (.simple b) (.send p chan value)
  | incDec {b : Bool} {p x : Tree} {o : Operator} (hx : Built (.expression b) x)
      (ho : o = .Inc ∨ o = .Dec) : Built (.simple b) (.incDec p x (.token (.op o)))
  | block {p : Tree} {stmts : List Tree} (hstmts : ∀ t ∈ stmts, Built .statement t)
      (himplicit : ∀ t ∈ stmts, t.isImplicit = false)
      (htrails : ∀ t ∈ stmts.dropLast, t.trails = false) : Built .block (.block p (.tuple stmts))
  | simpleStmt {t : Tree} (h : Built (.simple true) t) : Built .statement t
  | labeled {p label stmt : Tree} (hlabel : Built .name label) (hstmt : Built .statement stmt) :
      Built .statement (.labeled p label stmt)
  | emptyStmt {p : Tree} {implicit : Bool} : Built .statement (.emptyStmt p (.flag implicit))
  | declStmt {p q specs grouped : Tree} {k : Keyword}
      (hdecl : Built .declaration (.genDecl q (.token (.word k)) specs grouped))
      (hk : k ≠ .Import) :
      Built .statement (.declStmt p (.genDecl q (.token (.word k)) specs grouped))
  | goStmt {p call : Tree} (hcall : Built (.expression true) call)
      (hkind : call.is .CallExpr = true) : Built .statement (.goStmt p call)
  | deferStmt {p call : Tree} (hcall : Built (.expression true) call)
      (hkind : call.is .CallExpr = true) : Built .statement (.deferStmt p call)
  | returnStmt {p : Tree} {results : List Tree}
      (hresults : ∀ t ∈ results, Built (.expression true) t) :
      Built .statement (.returnStmt p (.tuple results))
  | branch {p : Tree} {k : Keyword} {label : Option Tree} (hk : Grammar.isBranch k = true)
      (hlabel : ∀ t ∈ label, Built .name t) (hfall : k = .Fallthrough → label = none) :
      Built .statement (.branch p (.token (.word k)) (.ofOption label))
  | blockStmt {t : Tree} (h : Built .block t) : Built .statement t
  | ifStmt {p cond body : Tree} {init otherwise : Option Tree}
      (hinit : ∀ t ∈ init, Built (.simple false) t) (hcond : Built (.expression false) cond)
      (hbrace : cond.takesBrace = false) (hbody : Built .block body) (helse : ∀ t ∈ otherwise, Built .statement t)
      (hkind : ∀ t ∈ otherwise, t.is .IfStmt = true ∨ t.is .BlockStmt = true) :
      Built .statement (.ifStmt p (.ofOption init) cond body (.ofOption otherwise))
  | switchStmt {p q : Tree} {init tag : Option Tree} {clauses : List Tree}
      (hinit : ∀ t ∈ init, Built (.simple false) t)
      (htag : ∀ t ∈ tag, Built (.expression false) t)
      (hbrace : ∀ t ∈ tag, t.takesBrace = false) (hguard : ∀ t ∈ tag, t.asksType = false)
      (hclauses : ∀ t ∈ clauses, Built (.caseClause false) t)
      (htrails : ∀ t ∈ clauses.dropLast, t.clauseTrails = false) :
      Built .statement
        (.switchStmt p (.ofOption init) (.ofOption tag) (.block q (.tuple clauses)))
  | typeSwitch {p q guard : Tree} {init : Option Tree} {clauses : List Tree}
      (hinit : ∀ t ∈ init, Built (.simple false) t) (hassign : Built (.simple false) guard)
      (hguard : Grammar.isTypeGuard guard = true)
      (hclauses : ∀ t ∈ clauses, Built (.caseClause true) t)
      (htrails : ∀ t ∈ clauses.dropLast, t.clauseTrails = false) :
      Built .statement (.typeSwitch p (.ofOption init) guard (.block q (.tuple clauses)))
  | selectStmt {p q : Tree} {clauses : List Tree} (hclauses : ∀ t ∈ clauses, Built .commClause t)
      (htrails : ∀ t ∈ clauses.dropLast, t.clauseTrails = false) :
      Built .statement (.selectStmt p (.block q (.tuple clauses)))
  | forStmt {p body : Tree} {init cond post : Option Tree}
      (hinit : ∀ t ∈ init, Built (.simple false) t)
      (hcond : ∀ t ∈ cond, Built (.expression false) t)
      (hpost : ∀ t ∈ post, Built (.simple false) t)
      (hbrace : ∀ t ∈ post, t.endTakesBrace = false) (hbody : Built .block body) :
      Built .statement (.forStmt p (.ofOption init) (.ofOption cond) (.ofOption post) body)
  | rangeAll {p x body : Tree} (hx : Built (.expression false) x) (hbrace : x.takesBrace = false)
      (hbody : Built .block body) :
      Built .statement (.rangeStmt p .absent .absent .absent x body)
  | rangeStmt {p key x body : Tree} {value : Option Tree} {o : Operator}
      (hkey : Built (.expression false) key) (hvalue : ∀ t ∈ value, Built (.expression false) t)
      (ho : Grammar.bindsRange (.op o) = true) (hx : Built (.expression false) x)
      (hbrace : x.takesBrace = false) (hbody : Built .block body) :
      Built .statement (.rangeStmt p key (.ofOption value) (.token (.op o)) x body)
  | caseClause {types : Bool} {p : Tree} {values body : List Tree}
      (hvalues : ∀ t ∈ values, Built (.expression true) t)
      (htypes : types = true → ∀ t ∈ values, t.isType = true)
      (hbody : Built .block (.block p (.tuple body))) :
      Built (.caseClause types) (.caseClause p (.tuple values) (.tuple body))
  | commClause {p : Tree} {comm : Option Tree} {body : List Tree}
      (hcomm : ∀ t ∈ comm, Built (.simple true) t)
      (hkind : ∀ t ∈ comm, t.isCommunication = true)
      (hbody : Built .block (.block p (.tuple body))) :
      Built .commClause (.commClause p (.ofOption comm) (.tuple body))
  | importSpec {p path : Tree} {name : Option Tree} (hname : ∀ t ∈ name, Built .name t)
      (hpath : Built .text path) :
      Built (.spec .Import) (.importSpec p (.ofOption name) path)
  | importAll {p q path : Tree} (hpath : Built .text path) :
      Built (.spec .Import) (.importSpec p (.ident q (.text ".")) path)
  | valueSpec {k : Keyword} {p : Tree} {names values : List Tree} {typ : Option Tree}
      (hk : k = .Const ∨ k = .Var) (hne : names ≠ []) (hnames : ∀ n ∈ names, Built .name n)
      (htyp : ∀ t ∈ typ, Built (.expression true) t) (htypes : ∀ t ∈ typ, t.isType = true)
      (hvalues : ∀ t ∈ values, Built (.expression true) t)
      (hvar : k = .Var → typ = none → values ≠ []) :
      Built (.spec k) (.valueSpec p (.tuple names) (.ofOption typ) (.tuple values))
  | typeSpec {p name typ : Tree} {isAlias : Bool} (hname : Built .name name)
      (htyp : Built (.expression true) typ) (htype : typ.isType = true)
      (hlength : isAlias = false → typ.keepsLength = true) :
      Built (.spec .Type) (.typeSpec p name typ .absent (.flag isAlias))
  | genericSpec {p name typ params : Tree} {isAlias : Bool} (hname : Built .name name)
      (htyp : Built (.expression true) typ) (htype : typ.isType = true)
      (hparams : Built .typeParameters params) :
      Built (.spec .Type) (.typeSpec p name typ params (.flag isAlias))
  | genDecl {k : Keyword} {p : Tree} {specs : List Tree} {grouped : Bool}
      (hk : k = .Import ∨ k = .Const ∨ k = .Type ∨ k = .Var)
      (hspecs : ∀ t ∈ specs, Built (.spec k) t) (hsingle : grouped = false → specs.length = 1) :
      Built .declaration (.genDecl p (.token (.word k)) (.tuple specs) (.flag grouped))
  | funcDecl {p q name params : Tree} {recv results typeParams body : Option Tree}
      (hrecv : ∀ t ∈ recv, Built (.parameters false) t) (hname : Built .name name)
      (htypeParams : ∀ t ∈ typeParams, Built (.parameters true) t)
      (hne : ∀ t ∈ typeParams, ∀ p, t ≠ .fieldList p (.tuple []))
      (hparams : Built (.parameters false) params)
      (hresults : ∀ t ∈ results, Built (.parameters false) t)
      (hbody : ∀ t ∈ body, Built .block t) :
      Built .declaration (.funcDecl p (.ofOption recv) name
        (.funcType q params (.ofOption results) (.ofOption typeParams) (.flag true))
        (.ofOption body))
  | file {p package : Tree} {decls : List Tree} (hpackage : Built .name package)
      (hdecls : ∀ t ∈ decls, Built .declaration t) :
      Built .file (.file p package (.tuple decls))

end GoCompact
