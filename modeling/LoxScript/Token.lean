/-!
Tokens of the language: punctuation and operators (`Symbol`), reserved words (`Keyword`), names,
string literals and numerals, each with the line its text ends on.

A token's spelling is a function of its kind, so a token cannot disagree with its own text.  The end
of the input is not a token: a list of tokens simply ends, and whoever needs the last line is told it.
-/

namespace LoxScript

/-- Punctuation and operators. -/
inductive Symbol where
  | leftParen | rightParen | leftBrace | rightBrace | comma | dot | semicolon
  | minus | minusEqual | plus | plusEqual | slash | slashEqual | star | starEqual
  | bang | bangEqual | equal | equalEqual | greater | greaterEqual | less | lessEqual
deriving Repr, DecidableEq, Inhabited

namespace Symbol

def text : Symbol → String
  | leftParen => "("
  | rightParen => ")"
  | leftBrace => "\x7b"
  | rightBrace => "\x7d"
  | comma => ","
  | dot => "."
  | semicolon => ";"
  | minus => "-"
  | minusEqual => "-="
  | plus => "+"
  | plusEqual => "+="
  | slash => "/"
  | slashEqual => "/="
  | star => "*"
  | starEqual => "*="
  | bang => "!"
  | bangEqual => "!="
  | equal => "="
  | equalEqual => "=="
  | greater => ">"
  | greaterEqual => ">="
  | less => "<"
  | lessEqual => "<="

/-- The symbols that no following character can extend. -/
def alone? : Char → Option Symbol
  | '(' => some leftParen
  | ')' => some rightParen
  | '{' => some leftBrace
  | '}' => some rightBrace
  | ',' => some comma
  | '.' => some dot
  | ';' => some semicolon
  | _ => none

/-- The symbols that a following `=` turns into another one, paired with that other one.  The slash
is missing because it may also open a comment. -/
def extensible? : Char → Option (Symbol × Symbol)
  | '-' => some (minus, minusEqual)
  | '+' => some (plus, plusEqual)
  | '*' => some (star, starEqual)
  | '!' => some (bang, bangEqual)
  | '=' => some (equal, equalEqual)
  | '<' => some (less, lessEqual)
  | '>' => some (greater, greaterEqual)
  | _ => none

end Symbol

/-- Reserved words. -/
inductive Keyword where
  | and_ | class_ | else_ | false_ | for_ | fun_ | if_ | nil_
  | or_ | print_ | return_ | super_ | this_ | true_ | var_ | while_
deriving Repr, DecidableEq, Inhabited

namespace Keyword

def text : Keyword → String
  | and_ => "and"
  | class_ => "class"
  | else_ => "else"
  | false_ => "false"
  | for_ => "for"
  | fun_ => "fun"
  | if_ => "if"
  | nil_ => "nil"
  | or_ => "or"
  | print_ => "print"
  | return_ => "return"
  | super_ => "super"
  | this_ => "this"
  | true_ => "true"
  | var_ => "var"
  | while_ => "while"

def all : List Keyword :=
  [and_, class_, else_, false_, for_, fun_, if_, nil_,
   or_, print_, return_, super_, this_, true_, var_, while_]

/-- The reserved word with this spelling, if there is one. -/
def ofText? (word : String) : Option Keyword :=
  all.find? fun k => k.text == word

/-- The words that begin a declaration or a statement. -/
def startsStatement : Keyword → Bool
  | class_ | fun_ | var_ | for_ | if_ | while_ | print_ | return_ => true
  | _ => false

end Keyword

/-- What a token is.  A numeral keeps its spelling beside the number it denotes; the other kinds are
spelled in one way only. -/
inductive TokenKind where
  | symbol (s : Symbol)
  | keyword (k : Keyword)
  | identifier (name : String)
  | string (text : String)
  | number (text : String) (value : Float)
deriving DecidableEq, Inhabited

namespace TokenKind

/-- The token as it is written in the source. -/
def lexeme : TokenKind → String
  | symbol s => s.text
  | keyword k => k.text
  | identifier name => name
  | string text => "\"" ++ text ++ "\""
  | number text _ => text

def startsStatement : TokenKind → Bool
  | keyword k => k.startsStatement
  | _ => false

end TokenKind

/-- A token and the line on which it ends, counted from one. -/
structure Token where
  kind : TokenKind
  line : Nat
deriving DecidableEq, Inhabited

namespace Token

def lexeme (t : Token) : String := t.kind.lexeme

end Token
end LoxScript
