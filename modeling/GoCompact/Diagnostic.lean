import GoCompact.Token.Basic

namespace GoCompact

-- What a text lacks the end of.
inductive Unfinished
  | comment | string | rune | rawString
deriving DecidableEq, Repr

-- What a reader looked for.
inductive Wanted
  | token (kind : TokenKind)
  | identifier
  | operand
  | selector
  | type
  | channelType
  | statement
  | ifOrBlock
  | oneExpression
  | twoExpressions
  | declaration
  | importPath
  | endOfText
deriving DecidableEq, Repr

-- Where a header needs an expression and not a statement.
inductive HeaderPart
  | condition | switchTag | loopCondition
deriving DecidableEq, Repr

-- The statements that take a call.
inductive CallWord
  | go | defer
deriving DecidableEq, Repr

inductive Cause
  | illegalCharacter (c : CodePoint)
  | unfinished (what : Unfinished)
  | expected (what : Wanted) (found : Lexeme)
  | expectedExpression (part : HeaderPart)
  | expectedChan
  | nestingTooDeep
  | limitNotANumber
  | parenthesizedLiteralType
  | incompleteSlice
  | emptyTypeParameters
  | mixedParameters
  | missingParameterType
  | parenthesizedEmbeddedType
  | parenthesizedCall (word : CallWord)
  | notACall (word : CallWord)
  | missingCondition
  | variableInHeader
  | newlineInHeader
  | tooManyRangeVariables
deriving DecidableEq, Repr

namespace Unfinished

def name : Unfinished → Text
  | .comment => "comment"
  | .string => "string literal"
  | .rune => "rune literal"
  | .rawString => "raw string literal"

end Unfinished

namespace Wanted

def name : Wanted → Text
  | .token kind => "'" ++ kind.spelling ++ "'"
  | .identifier => "identifier"
  | .operand => "operand"
  | .selector => "selector or type assertion"
  | .type => "type"
  | .channelType => "channel type"
  | .statement => "statement"
  | .ifOrBlock => "if statement or block"
  | .oneExpression => "1 expression"
  | .twoExpressions => "at most 2 expressions"
  | .declaration => "declaration"
  | .importPath => "import path"
  | .endOfText => "EOF"

end Wanted

namespace HeaderPart

def name : HeaderPart → Text
  | .condition => "boolean expression"
  | .switchTag => "switch expression"
  | .loopCondition => "boolean or range expression"

end HeaderPart

namespace CallWord

def name : CallWord → Text
  | .go => "go"
  | .defer => "defer"

end CallWord

namespace Lexeme

-- A token as a diagnostic names it: names and literals by their text, the others quoted.
def described (l : Lexeme) : Text :=
  if l.isInserted then "newline"
  else if l.kind = .eof then "EOF"
  else if l.kind.isLiteral then l.text
  else "'" ++ l.kind.spelling ++ "'"

end Lexeme

namespace Cause

def message : Cause → Text
  | .illegalCharacter c => "illegal character " ++ Text.quoted (Text.ofList [c])
  | .unfinished what => what.name ++ " not terminated"
  | .expected what found => "expected " ++ what.name ++ ", found " ++ found.described
  | .expectedExpression part => "expected " ++ part.name ++ ", found simple statement"
  | .expectedChan => "expected 'chan'"
  | .nestingTooDeep => "exceeded maximum nesting depth"
  | .limitNotANumber => "maximum nesting depth is not a number"
  | .parenthesizedLiteralType => "cannot parenthesize type in composite literal"
  | .incompleteSlice => "middle and final index required in 3-index slice"
  | .emptyTypeParameters => "empty type parameter list"
  | .mixedParameters => "mixed named and unnamed parameters"
  | .missingParameterType => "missing parameter type"
  | .parenthesizedEmbeddedType => "cannot parenthesize embedded type"
  | .parenthesizedCall word => "expression in " ++ word.name ++ " must not be parenthesized"
  | .notACall word => "expression in " ++ word.name ++ " must be function call"
  | .missingCondition => "missing condition in if statement"
  | .variableInHeader => "var declaration not allowed in if initializer"
  | .newlineInHeader => "unexpected newline, expected \x7b after if clause"
  | .tooManyRangeVariables => "range clause permits at most two iteration variables"

end Cause

structure Diagnostic where
  cause : Cause
  line : Nat
  column : Nat
  file : Option Text
deriving DecidableEq, Repr

namespace Diagnostic

open CodePoint (char)

-- The place in front of a message. Colons at its end are dropped, also those of a file name that
-- stands alone.
def place (file line column : Option Text) : List CodePoint :=
  let filePart := match file with
    | some name => if name = "" then [] else name.toList ++ [char ':']
    | none => []
  let linePart := match line, column with
    | some l, some c => l.toList ++ char ':' :: c.toList ++ [char ':']
    | some l, none => l.toList ++ [char ':']
    | none, _ => []
  filePart ++ linePart

-- A message with the place it is about.
def located (file line column : Option Text) (message : Text) : Text :=
  match place file line column with
  | [] => message
  | front => Text.ofList ((front.reverse.dropWhile (· == char ':')).reverse ++ char ' ' :: message.toList)

def text (d : Diagnostic) : Text :=
  located d.file (some (toString d.line)) (some (toString d.column)) d.cause.message

end Diagnostic

end GoCompact
