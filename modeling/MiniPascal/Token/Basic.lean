import MiniPascal.Double.Shortest
import MiniPascal.Name
import MiniPascal.Source.Position

/-! Tokens: the words, literals and symbols a program text is made of, and the errors met on the way
to them. -/

namespace MiniPascal

/-- A reserved word. -/
inductive Keyword where
  | kwAnd | kwArray | kwBegin | kwBoolean | kwBreak | kwCase | kwConst | kwContinue | kwDiv | kwDo
  | kwDouble | kwDownto | kwElse | kwEnd | kwFalse | kwFor | kwForward | kwFunction | kwIf
  | kwInteger | kwMod | kwNot | kwOf | kwOr | kwProcedure | kwProgram | kwRecord | kwRepeat | kwThen
  | kwTo | kwTrue | kwType | kwUntil | kwVar | kwWhile
  deriving DecidableEq, Repr

namespace Keyword

/-- The word in lower case. -/
def spelling : Keyword → String
  | kwAnd => "and" | kwArray => "array" | kwBegin => "begin" | kwBoolean => "boolean"
  | kwBreak => "break" | kwCase => "case" | kwConst => "const" | kwContinue => "continue"
  | kwDiv => "div" | kwDo => "do" | kwDouble => "double" | kwDownto => "downto"
  | kwElse => "else" | kwEnd => "end" | kwFalse => "false" | kwFor => "for"
  | kwForward => "forward" | kwFunction => "function" | kwIf => "if" | kwInteger => "integer"
  | kwMod => "mod" | kwNot => "not" | kwOf => "of" | kwOr => "or"
  | kwProcedure => "procedure" | kwProgram => "program" | kwRecord => "record"
  | kwRepeat => "repeat" | kwThen => "then" | kwTo => "to" | kwTrue => "true"
  | kwType => "type" | kwUntil => "until" | kwVar => "var" | kwWhile => "while"

/-- Every reserved word. -/
def all : List Keyword :=
  [kwAnd, kwArray, kwBegin, kwBoolean, kwBreak, kwCase, kwConst, kwContinue, kwDiv, kwDo, kwDouble,
   kwDownto, kwElse, kwEnd, kwFalse, kwFor, kwForward, kwFunction, kwIf, kwInteger, kwMod, kwNot,
   kwOf, kwOr, kwProcedure, kwProgram, kwRecord, kwRepeat, kwThen, kwTo, kwTrue, kwType, kwUntil,
   kwVar, kwWhile]

theorem mem_all (k : Keyword) : k ∈ all := by cases k <;> decide

/-- The reserved word that is the given name, in any case of its letters. -/
def ofName? (n : Name) : Option Keyword := all.find? fun k => k.spelling == n.canonical

end Keyword

/-- An operator or a mark of punctuation. -/
inductive Symbol where
  | plus | minus | times | slash | equal | comma | colon | semicolon | less | greater | dot
  | openParen | closeParen | openSquare | closeSquare | caret | atSign | plusAssign | minusAssign
  | timesAssign | slashAssign | notEqual | lessEqual | greaterEqual | assign | doubleDot
  deriving DecidableEq, Repr

namespace Symbol

/-- The characters of a symbol. -/
def chars : Symbol → List Char
  | plus => ['+'] | minus => ['-'] | times => ['*'] | slash => ['/'] | equal => ['=']
  | comma => [','] | colon => [':'] | semicolon => [';'] | less => ['<'] | greater => ['>']
  | dot => ['.'] | openParen => ['('] | closeParen => [')'] | openSquare => ['[']
  | closeSquare => [']'] | caret => ['^'] | atSign => ['@'] | plusAssign => ['+', '=']
  | minusAssign => ['-', '='] | timesAssign => ['*', '='] | slashAssign => ['/', '=']
  | notEqual => ['<', '>'] | lessEqual => ['<', '='] | greaterEqual => ['>', '=']
  | assign => [':', '='] | doubleDot => ['.', '.']

/-- Every symbol. -/
def all : List Symbol :=
  [plus, minus, times, slash, equal, comma, colon, semicolon, less, greater, dot, openParen,
   closeParen, openSquare, closeSquare, caret, atSign, plusAssign, minusAssign, timesAssign,
   slashAssign, notEqual, lessEqual, greaterEqual, assign, doubleDot]

/-- The symbol with exactly these characters. -/
def ofChars? (cs : List Char) : Option Symbol := all.find? fun s => s.chars == cs

end Symbol

namespace Token

/-- What sort of thing a token is. -/
inductive Kind where
  | identifier
  | keyword (k : Keyword)
  | integer
  | double
  | string
  | comment
  | symbol (s : Symbol)
  | endOfFile
  deriving DecidableEq, Repr

/-- The kind as messages name it. -/
def Kind.describe : Kind → String
  | .identifier => "identifier"
  | .keyword k => "`" ++ k.spelling ++ "`"
  | .integer => "integer literal"
  | .double => "double literal"
  | .string => "string literal"
  | .comment => "comment"
  | .symbol s => "`" ++ String.ofList s.chars ++ "`"
  | .endOfFile => "end of file"

/-- What a token stands for besides its text. -/
inductive Literal where
  /-- Nothing but the text. -/
  | plain
  /-- An integer in any base. -/
  | integer (n : Nat)
  /-- A double without an exponent. -/
  | fraction (x : Double)
  /-- A double with an exponent. -/
  | scientific (x : Double)
  /-- The content of a string. -/
  | string (s : String)
  deriving DecidableEq, Repr

end Token

/-- A token, where it starts, and the text it was cut from. -/
structure Token where
  position : Position
  kind : Token.Kind
  text : String
  literal : Token.Literal
  deriving DecidableEq, Repr

namespace Token

/-- The token behind the last one of a text. -/
def endOfFile (p : Position) : Token := ⟨p, .endOfFile, "EndOfFile", .plain⟩

/-- The normal form of the text: decimal for an integer, the fewest digits for a double with an
exponent, the content of a string, and else the text itself. -/
def value (t : Token) : String :=
  match t.literal with
  | .plain | .fraction _ => t.text
  | .integer n => toString n
  | .scientific x => x.describe
  | .string s => s

/-- The token as messages name it. -/
def describe (t : Token) : String :=
  if t.kind = .endOfFile then "end of file" else "`" ++ t.text ++ "`"

end Token

/-- Why no token could be cut from a text. -/
inductive LexError where
  /-- No lexeme starts with this character. -/
  | unknownSymbol (c : Char)
  /-- A number breaks off, as `$` or `1e` do. -/
  | malformedNumber (text : String)
  /-- An integer of more than 64 bits, given by its digits. -/
  | integerOverflow (digits : String)
  /-- A string runs to the end of the text. -/
  | unterminatedString
  /-- A block comment runs to the end of the text. -/
  | unterminatedComment
  deriving DecidableEq, Repr

/-- The text of the error. -/
def LexError.message : LexError → String
  | .unknownSymbol c => String.join ["unknown symbol ", c.toString]
  | .malformedNumber text => String.join ["malformed number ", text]
  | .integerOverflow digits => String.join ["integer literal ", digits, " is too large"]
  | .unterminatedString => "unterminated string literal"
  | .unterminatedComment => "unterminated comment"

end MiniPascal
