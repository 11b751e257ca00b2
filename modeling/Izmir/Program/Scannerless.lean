import Izmir.Program
import Izmir.Token

/-!
# Reading programs by ordered choice

A parser of this kind needs no tokens. It takes what it is for from the head of a text and returns
the rest, or it fails; alternatives are tried in their order, and the first one that succeeds is
taken. White space and comments are skipped after each word, number and symbol. `Program.parse?`
reads the same programs from tokens, with look-ahead in place of alternatives.
-/

namespace Izmir

namespace Scannerless

abbrev Reads (α : Type) := StateT (List Char) Option α

/-! ## Parsers from parsers -/

def many {α : Type} (p : Reads α) : Nat → Reads (List α)
  | 0 => pure []
  | n + 1 =>
    (do
      let a ← p
      let as ← many p n
      return a :: as) <|> pure []

/-- As often as possible. A parser that is repeated takes at least one character each time. -/
def repeated {α : Type} (p : Reads α) : Reads (List α) := fun cs =>
  many p cs.length cs

/-- One or more, with something between them. -/
def separatedBy1 {α : Type} (p : Reads α) (separator : Reads Unit) : Reads (List α) := do
  let a ← p
  let as ← repeated do
    separator
    p
  return a :: as

def separatedBy {α : Type} (p : Reads α) (separator : Reads Unit) : Reads (List α) :=
  separatedBy1 p separator <|> pure []

/-! ## Characters -/

def satisfying (p : Char → Bool) : Reads Char
  | [] => none
  | c :: cs => if p c then some (c, cs) else none

def takeWhile (p : Char → Bool) : Reads (List Char) := fun cs =>
  some (cs.takeWhile p, cs.dropWhile p)

def just (text : String) : Reads Unit := fun cs =>
  (text.toList.isPrefixOf? cs).map fun rest => ((), rest)

def endOfText : Reads Unit
  | [] => some ((), [])
  | _ :: _ => none

def newline : Reads Unit :=
  just "\r\n" <|> do
    let _ ← satisfying Text.endsLine

def blanks : Reads Unit := do
  let _ ← takeWhile Text.isBlank

def comment : Reads Unit := do
  just "//"
  let _ ← takeWhile fun c => !Text.endsLine c
  newline <|> endOfText

def paddedComment : Reads Unit := do
  blanks
  comment
  blanks

def whitespace : Reads Unit := do
  blanks
  let _ ← repeated paddedComment

/-! ## Words, numbers and symbols -/

def word : Reads String := do
  let c ← satisfying Text.startsName
  let cs ← takeWhile Text.continuesName
  return String.ofList (c :: cs)

def keyword (k : Keyword) : Reads Unit := do
  let w ← word
  if w = k.text then whitespace else failure

def symbol (text : String) : Reads Unit := do
  just text
  whitespace

/-- A name that is not reserved. -/
def identifier : Reads String := do
  let w ← word
  if (Keyword.ofText? w).isSome then failure
  whitespace
  return w

/-- Numbers have no leading zeros. -/
def digits : Reads (List Char) :=
  (do
    let c ← satisfying fun c => c.isDigit && c != '0'
    let cs ← takeWhile Char.isDigit
    return c :: cs) <|>
  (do
    just "0"
    return ['0'])

def integer : Reads Value := do
  let ds ← digits
  let v ← Value.ofText? ds
  whitespace
  return v

/-- A minus sign directly followed by a number. -/
def negativeInteger : Reads Value := do
  just "-"
  let ds ← digits
  let v ← Value.ofText? ('-' :: ds)
  whitespace
  return v

/-! ## Expressions -/

def actuals (expression : Reads (Expr String)) : Reads (List (Expr String)) := do
  symbol "("
  let es ← separatedBy expression (symbol ",")
  symbol ")"
  return es

def conditional (expression : Reads (Expr String)) : Reads (Expr String) := do
  keyword .if_
  let c ← expression
  keyword .then_
  let a ← expression
  keyword .else_
  let b ← expression
  keyword .end_
  return .ifElse c a b

def call (expression : Reads (Expr String)) : Reads (String × List (Expr String)) := do
  let f ← identifier
  let es ← actuals expression
  return (f, es)

def parenthesized (expression : Reads (Expr String)) : Reads (Expr String) := do
  symbol "("
  let e ← expression
  symbol ")"
  return e

/-- A name is a variable only if it is not called. -/
def atom (expression : Reads (Expr String)) : Reads (Expr String) :=
  (return .literal (← integer)) <|>
  (do
    keyword .true_
    return .literal 1) <|>
  (do
    keyword .false_
    return .literal 0) <|>
  (do
    keyword .input_
    return .apply .input []) <|>
  conditional expression <|>
  (do
    let (f, es) ← call expression
    return .call f es) <|>
  (return .var (← identifier)) <|>
  parenthesized expression

/-- A symbol that stands for a primitive. -/
def operator (text : String) (p : Primitive) : Reads Primitive := do
  symbol text
  return p

def unaryOperator : Reads Primitive :=
  operator "-" .unaryMinus <|> do
    keyword .not_
    return .logicalNot

def unary (atom : Reads (Expr String)) : Reads (Expr String) :=
  (return .literal (← negativeInteger)) <|> do
    let ps ← repeated unaryOperator
    let e ← atom
    return ps.foldr (fun p e => .apply p [e]) e

def productOperator : Reads Primitive :=
  operator "*" .times <|> operator "/" .divided <|> operator "%" .remainder

def sumOperator : Reads Primitive :=
  operator "+" .plus <|> operator "-" .minus

/-- The longer symbols come first. -/
def comparisonOperator : Reads Primitive :=
  operator "<=" .lessOrEqual <|> operator "<>" .different <|> operator ">=" .greaterOrEqual <|>
    operator "<" .less <|> operator ">" .greater <|> operator "=" .equal

/-- An operator and what stands to the right of it. -/
def operation (operator : Reads Primitive) (item : Reads (Expr String)) :
    Reads (Primitive × Expr String) := do
  let p ← operator
  let e ← item
  return (p, e)

/-- Items with operators between them, from the left. -/
def chain (item : Reads (Expr String)) (operator : Reads Primitive) : Reads (Expr String) := do
  let first ← item
  let rest ← repeated (operation operator item)
  return rest.foldl (fun left (p, right) => .apply p [left, right]) first

def sum (atom : Reads (Expr String)) : Reads (Expr String) :=
  chain (chain (unary atom) productOperator) sumOperator

def comparison (sum : Reads (Expr String)) : Reads (Expr String) := do
  let left ← sum
  match ← optional (operation comparisonOperator sum) with
  | some (p, right) => return .apply p [left, right]
  | none => return left

/-- Expressions within each other up to some depth. -/
def expression : (depth : Nat) → Reads (Expr String)
  | 0 => failure
  | depth + 1 => comparison (sum (atom (expression depth)))

/-! ## Statements -/

def declarations : Reads (List String) := do
  keyword .var_
  let xs ← separatedBy1 identifier (symbol ",")
  symbol ";"
  return xs

def block (statements : Reads (Stmt String)) : Reads (Stmt String) := do
  keyword .begin_
  let xs ← optional declarations
  let s ← statements
  keyword .end_
  return .withVariables (xs.getD []) s

def elseBranch (statements : Reads (Stmt String)) : Reads (Stmt String) := do
  keyword .else_
  statements

def ifStatement (expression : Reads (Expr String)) (statements : Reads (Stmt String)) :
    Reads (Stmt String) := do
  keyword .if_
  let c ← expression
  keyword .then_
  let a ← statements
  let b? ← optional (elseBranch statements)
  keyword .end_
  match b? with
  | some b => return .ifElse c a b
  | none => return .ifThen c a

def whileStatement (expression : Reads (Expr String)) (statements : Reads (Stmt String)) :
    Reads (Stmt String) := do
  keyword .while_
  let c ← expression
  keyword .do_
  let a ← statements
  keyword .end_
  return .whileDo c a

def repeatStatement (expression : Reads (Expr String)) (statements : Reads (Stmt String)) :
    Reads (Stmt String) := do
  keyword .repeat_
  let a ← statements
  keyword .until_
  let c ← expression
  return .repeatUntil a c

def assignment (expression : Reads (Expr String)) : Reads (Stmt String) := do
  let x ← identifier
  symbol ":="
  let e ← expression
  return .assign x e

def statement (expression : Reads (Expr String)) (statements : Reads (Stmt String)) :
    Reads (Stmt String) :=
  (do
    keyword .skip_
    return .skip) <|>
  block statements <|>
  ifStatement expression statements <|>
  whileStatement expression statements <|>
  repeatStatement expression statements <|>
  (do
    keyword .print_
    return .print (← expression)) <|>
  (do
    keyword .return_
    return .ret (← expression)) <|>
  assignment expression <|>
  (do
    let (f, es) ← call expression
    return .call f es)

/-- Statements with semicolons between them; the last one may have a semicolon too. -/
def sequence (statement : Reads (Stmt String)) : Reads (Stmt String) := do
  let ss ← separatedBy statement (symbol ";")
  if ss ≠ [] then
    let _ ← optional (symbol ";")
  return .ofList ss

/-- Statements within each other up to some depth. -/
def statements : (depth : Nat) → Reads (Stmt String)
  | 0 => failure
  | depth + 1 => sequence (statement (expression depth) (statements depth))

/-! ## Programs -/

def procedure (statements : Reads (Stmt String)) : Reads Procedure := do
  keyword .procedure_
  let f ← identifier
  symbol "("
  let xs ← separatedBy identifier (symbol ",")
  symbol ")"
  let body ← block statements
  return ⟨f, xs, body⟩

def program (depth : Nat) : Reads (List Procedure × Stmt String) := do
  whitespace
  let ps ← repeated (procedure (statements depth))
  let main ← statements depth
  endOfText
  return (ps, main)

end Scannerless

/-- The program written by a text, read without tokens. No part of a text lies deeper than the
text is long. -/
def Program.parseScannerless? (source : String) (text : String) : Option Program := do
  let ((ps, main), _) ← Scannerless.program (text.length + 1) text.toList
  return ⟨source, ps, main⟩

end Izmir
