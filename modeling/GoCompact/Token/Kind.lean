import GoCompact.Text.Basic

namespace GoCompact

-- The classes of literals.
inductive Literal
  | Integer | Floating | Imaginary | Rune | Text
deriving DecidableEq, Repr, Inhabited

-- Operators and delimiters.
inductive Operator
  | Add | Sub | Mul | Quo | Rem
  | And | Or | Xor | Shl | Shr | AndNot
  | AddAssign | SubAssign | MulAssign | QuoAssign | RemAssign
  | AndAssign | OrAssign | XorAssign | ShlAssign | ShrAssign | AndNotAssign
  | LAnd | LOr | Arrow | Inc | Dec
  | Eql | Lss | Gtr | Assign | Not
  | Neq | Leq | Geq | Define | Ellipsis
  | LParen | LBrack | LBrace | Comma | Period
  | RParen | RBrack | RBrace | Semicolon | Colon | Tilde
deriving DecidableEq, Repr, Inhabited

inductive Keyword
  | Break | Case | Chan | Const | Continue
  | Default | Defer | Else | Fallthrough | For
  | Func | Go | Goto | If | Import
  | Interface | Map | Package | Range | Return
  | Select | Struct | Switch | Type | Var
deriving DecidableEq, Repr, Inhabited

inductive TokenKind
  | eof
  | ident
  | literal (l : Literal)
  | op (o : Operator)
  | word (k : Keyword)
deriving DecidableEq, Repr, Inhabited

namespace Literal

def all : List Literal := [.Integer, .Floating, .Imaginary, .Rune, .Text]

def name : Literal → GoCompact.Text
  | .Integer => "INT" | .Floating => "FLOAT" | .Imaginary => "IMAG" | .Rune => "CHAR"
  | .Text => "STRING"

end Literal

namespace Operator

def all : List Operator :=
  [.Add, .Sub, .Mul, .Quo, .Rem, .And, .Or, .Xor, .Shl, .Shr, .AndNot,
   .AddAssign, .SubAssign, .MulAssign, .QuoAssign, .RemAssign,
   .AndAssign, .OrAssign, .XorAssign, .ShlAssign, .ShrAssign, .AndNotAssign,
   .LAnd, .LOr, .Arrow, .Inc, .Dec, .Eql, .Lss, .Gtr, .Assign, .Not,
   .Neq, .Leq, .Geq, .Define, .Ellipsis, .LParen, .LBrack, .LBrace, .Comma, .Period,
   .RParen, .RBrack, .RBrace, .Semicolon, .Colon, .Tilde]

def spelling : Operator → Text
  | .Add => "+" | .Sub => "-" | .Mul => "*" | .Quo => "/" | .Rem => "%"
  | .And => "&" | .Or => "|" | .Xor => "^" | .Shl => "<<" | .Shr => ">>" | .AndNot => "&^"
  | .AddAssign => "+=" | .SubAssign => "-=" | .MulAssign => "*=" | .QuoAssign => "/="
  | .RemAssign => "%=" | .AndAssign => "&=" | .OrAssign => "|=" | .XorAssign => "^="
  | .ShlAssign => "<<=" | .ShrAssign => ">>=" | .AndNotAssign => "&^="
  | .LAnd => "&&" | .LOr => "||" | .Arrow => "<-" | .Inc => "++" | .Dec => "--"
  | .Eql => "==" | .Lss => "<" | .Gtr => ">" | .Assign => "=" | .Not => "!"
  | .Neq => "!=" | .Leq => "<=" | .Geq => ">=" | .Define => ":=" | .Ellipsis => "..."
  | .LParen => "(" | .LBrack => "[" | .LBrace => "\x7b" | .Comma => "," | .Period => "."
  | .RParen => ")" | .RBrack => "]" | .RBrace => "\x7d" | .Semicolon => ";" | .Colon => ":"
  | .Tilde => "~"

def name : Operator → Text
  | .Add => "ADD" | .Sub => "SUB" | .Mul => "MUL" | .Quo => "QUO" | .Rem => "REM"
  | .And => "AND" | .Or => "OR" | .Xor => "XOR" | .Shl => "SHL" | .Shr => "SHR"
  | .AndNot => "AND_NOT" | .AddAssign => "ADD_ASSIGN" | .SubAssign => "SUB_ASSIGN"
  | .MulAssign => "MUL_ASSIGN" | .QuoAssign => "QUO_ASSIGN" | .RemAssign => "REM_ASSIGN"
  | .AndAssign => "AND_ASSIGN" | .OrAssign => "OR_ASSIGN" | .XorAssign => "XOR_ASSIGN"
  | .ShlAssign => "SHL_ASSIGN" | .ShrAssign => "SHR_ASSIGN" | .AndNotAssign => "AND_NOT_ASSIGN"
  | .LAnd => "LAND" | .LOr => "LOR" | .Arrow => "ARROW" | .Inc => "INC" | .Dec => "DEC"
  | .Eql => "EQL" | .Lss => "LSS" | .Gtr => "GTR" | .Assign => "ASSIGN" | .Not => "NOT"
  | .Neq => "NEQ" | .Leq => "LEQ" | .Geq => "GEQ" | .Define => "DEFINE"
  | .Ellipsis => "ELLIPSIS" | .LParen => "LPAREN" | .LBrack => "LBRACK" | .LBrace => "LBRACE"
  | .Comma => "COMMA" | .Period => "PERIOD" | .RParen => "RPAREN" | .RBrack => "RBRACK"
  | .RBrace => "RBRACE" | .Semicolon => "SEMICOLON" | .Colon => "COLON" | .Tilde => "TILDE"

-- How tightly a binary operator binds; the others do not bind at all.
def precedence : Operator → Nat
  | .LOr => 1
  | .LAnd => 2
  | .Eql | .Neq | .Lss | .Leq | .Gtr | .Geq => 3
  | .Add | .Sub | .Or | .Xor => 4
  | .Mul | .Quo | .Rem | .Shl | .Shr | .And | .AndNot => 5
  | _ => 0

-- Operators between the two sides of an assignment.
def isAssignment : Operator → Bool
  | .Assign | .Define | .AddAssign | .SubAssign | .MulAssign | .QuoAssign | .RemAssign
  | .AndAssign | .OrAssign | .XorAssign | .ShlAssign | .ShrAssign | .AndNotAssign => true
  | _ => false

def ofSpelling? (s : Text) : Option Operator := all.find? (·.spelling == s)

end Operator

namespace Keyword

def all : List Keyword :=
  [.Break, .Case, .Chan, .Const, .Continue, .Default, .Defer, .Else, .Fallthrough, .For,
   .Func, .Go, .Goto, .If, .Import, .Interface, .Map, .Package, .Range, .Return,
   .Select, .Struct, .Switch, .Type, .Var]

def spelling : Keyword → Text
  | .Break => "break" | .Case => "case" | .Chan => "chan" | .Const => "const"
  | .Continue => "continue" | .Default => "default" | .Defer => "defer" | .Else => "else"
  | .Fallthrough => "fallthrough" | .For => "for" | .Func => "func" | .Go => "go"
  | .Goto => "goto" | .If => "if" | .Import => "import" | .Interface => "interface"
  | .Map => "map" | .Package => "package" | .Range => "range" | .Return => "return"
  | .Select => "select" | .Struct => "struct" | .Switch => "switch" | .Type => "type"
  | .Var => "var"

def name : Keyword → Text
  | .Break => "BREAK" | .Case => "CASE" | .Chan => "CHAN" | .Const => "CONST"
  | .Continue => "CONTINUE" | .Default => "DEFAULT" | .Defer => "DEFER" | .Else => "ELSE"
  | .Fallthrough => "FALLTHROUGH" | .For => "FOR" | .Func => "FUNC" | .Go => "GO"
  | .Goto => "GOTO" | .If => "IF" | .Import => "IMPORT" | .Interface => "INTERFACE"
  | .Map => "MAP" | .Package => "PACKAGE" | .Range => "RANGE" | .Return => "RETURN"
  | .Select => "SELECT" | .Struct => "STRUCT" | .Switch => "SWITCH" | .Type => "TYPE"
  | .Var => "VAR"

def ofSpelling? (s : Text) : Option Keyword := all.find? (·.spelling == s)

end Keyword

namespace TokenKind

def all : List TokenKind :=
  [.eof, .ident] ++ Literal.all.map .literal ++ Operator.all.map .op ++ Keyword.all.map .word

def name : TokenKind → Text
  | .eof => "EOF"
  | .ident => "IDENT"
  | .literal l => l.name
  | .op o => o.name
  | .word k => k.name

-- The text of an operator or keyword. The other kinds have no text of their own and go by their
-- name.
def spelling : TokenKind → Text
  | .op o => o.spelling
  | .word k => k.spelling
  | kind => kind.name

def ofName? (name : Text) : Option TokenKind := all.find? (·.name == name)

def precedence : TokenKind → Nat
  | .op o => o.precedence
  | _ => 0

def isAssignment : TokenKind → Bool
  | .op o => o.isAssignment
  | _ => false

def isBasicLiteral : TokenKind → Bool
  | .literal _ => true
  | _ => false

-- Kinds whose tokens differ in their text.
def isLiteral (kind : TokenKind) : Bool := kind == .ident || kind.isBasicLiteral

-- Kinds after which the end of a line ends the statement.
def endsStatement : TokenKind → Bool
  | .ident | .literal _ => true
  | .op o => o == .Inc || o == .Dec || o == .RParen || o == .RBrack || o == .RBrace
  | .word k => k == .Break || k == .Continue || k == .Fallthrough || k == .Return
  | .eof => false

end TokenKind

end GoCompact
