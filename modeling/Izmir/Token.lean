import Izmir.Text.Blank
import Izmir.Text.Name

/-!
# Tokens

A program text is cut, by longest match, into words, numbers and symbols; white space and
comments between them are dropped. A minus sign remembers whether a digit follows it
directly, because `-7` can be one literal where `- 7` cannot.
-/

namespace Izmir

inductive Keyword where
  | begin_ | end_ | var_ | skip_ | print_ | return_ | procedure_
  | if_ | then_ | else_ | while_ | do_ | repeat_ | until_
  | not_ | true_ | false_ | input_
  deriving DecidableEq, Repr

namespace Keyword

def all : List Keyword :=
  [begin_, end_, var_, skip_, print_, return_, procedure_, if_, then_, else_, while_, do_,
    repeat_, until_, not_, true_, false_, input_]

def text : Keyword → String
  | begin_ => "begin"
  | end_ => "end"
  | var_ => "var"
  | skip_ => "skip"
  | print_ => "print"
  | return_ => "return"
  | procedure_ => "procedure"
  | if_ => "if"
  | then_ => "then"
  | else_ => "else"
  | while_ => "while"
  | do_ => "do"
  | repeat_ => "repeat"
  | until_ => "until"
  | not_ => "not"
  | true_ => "true"
  | false_ => "false"
  | input_ => "input"

def ofText? (s : String) : Option Keyword :=
  all.find? fun k => k.text == s

end Keyword

inductive Symbol where
  | assign | lessOrEqual | different | greaterOrEqual | less | greater | equal
  | plus | times | over | percent | openParen | closeParen | comma | semicolon
  deriving DecidableEq, Repr

inductive Token where
  | keyword (word : Keyword)
  | name (word : String)
  | number (value : Nat)
  | minus (tight : Bool)
  | symbol (sign : Symbol)
  deriving DecidableEq, Repr

namespace Token

/-- A reserved word, or else a name. -/
def ofWord (word : List Char) : Token :=
  let s := String.ofList word
  match Keyword.ofText? s with
  | some k => .keyword k
  | none => .name s

/-- The symbol at the head of a text, the longest one if there are two. -/
def symbol? : List Char → Option (Symbol × List Char)
  | ':' :: '=' :: cs => some (.assign, cs)
  | '<' :: '=' :: cs => some (.lessOrEqual, cs)
  | '<' :: '>' :: cs => some (.different, cs)
  | '>' :: '=' :: cs => some (.greaterOrEqual, cs)
  | '<' :: cs => some (.less, cs)
  | '>' :: cs => some (.greater, cs)
  | '=' :: cs => some (.equal, cs)
  | '+' :: cs => some (.plus, cs)
  | '*' :: cs => some (.times, cs)
  | '/' :: cs => some (.over, cs)
  | '%' :: cs => some (.percent, cs)
  | '(' :: cs => some (.openParen, cs)
  | ')' :: cs => some (.closeParen, cs)
  | ',' :: cs => some (.comma, cs)
  | ';' :: cs => some (.semicolon, cs)
  | _ => none

def startsWithDigit : List Char → Bool
  | c :: _ => c.isDigit
  | [] => false

/-- The token or the gap at the head of a nonempty text, and what follows it. A gap is one
character of white space or a comment, which reaches up to the end of its line. Numbers
have no leading zeros, so a zero is a number of its own. -/
def next? : List Char → Option (Option Token × List Char)
  | [] => none
  | '/' :: '/' :: cs => some (none, cs.dropWhile fun c => !Text.endsLine c)
  | '-' :: cs => some (some (.minus (startsWithDigit cs)), cs)
  | '0' :: cs => some (some (.number 0), cs)
  | c :: cs =>
    if Text.isBlank c then some (none, cs)
    else if Text.startsName c then
      some (some (ofWord (c :: cs.takeWhile Text.continuesName)),
        cs.dropWhile Text.continuesName)
    else if c.isDigit then
      some (some (.number (Nat.ofDigitChars 10 (c :: cs.takeWhile Char.isDigit) 0)),
        cs.dropWhile Char.isDigit)
    else
      (symbol? (c :: cs)).map fun (s, rest) => (some (.symbol s), rest)

/-- The tokens of a text, taken in at most `fuel` bites. -/
def scanWith : Nat → List Char → Option (List Token)
  | _, [] => some []
  | 0, _ :: _ => none
  | fuel + 1, c :: cs => do
    let (token, rest) ← next? (c :: cs)
    let tokens ← scanWith fuel rest
    match token with
    | some t => some (t :: tokens)
    | none => some tokens

/-- The tokens of a text; none if some character belongs to no token. Every bite takes at
least one character. -/
def scan (cs : List Char) : Option (List Token) :=
  scanWith cs.length cs

end Token

end Izmir
