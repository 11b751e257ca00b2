import Izmir.Program
import Izmir.Token

/-!
# Reading programs

One token of look-ahead decides every step, two where a name is followed by a parenthesis.
Each function takes as much of the tokens as belongs to its construct and returns the
rest. The first argument bounds the depth of the recursion; `Program.parse?` chooses it so
that it never runs out. `Program.parseScannerless?` reads the same programs by ordered choice.
-/

namespace Izmir

namespace Parser

def expect (token : Token) : List Token → Option (List Token)
  | t :: ts => if t = token then some ts else none
  | [] => none

def comparison? : Symbol → Option Primitive
  | .lessOrEqual => some .lessOrEqual
  | .different => some .different
  | .greaterOrEqual => some .greaterOrEqual
  | .less => some .less
  | .greater => some .greater
  | .equal => some .equal
  | _ => none

def sumOperator? : Token → Option Primitive
  | .symbol .plus => some .plus
  | .minus _ => some .minus
  | _ => none

def productOperator? : Token → Option Primitive
  | .symbol .times => some .times
  | .symbol .over => some .divided
  | .symbol .percent => some .remainder
  | _ => none

def unaryOperator? : Token → Option Primitive
  | .minus _ => some .unaryMinus
  | .keyword .not_ => some .logicalNot
  | _ => none

mutual

/-- A sum, or two sums under a comparison. -/
def expr : Nat → List Token → Option (Expr String × List Token)
  | 0, _ => none
  | fuel + 1, ts => do
    let (left, ts) ← sum fuel ts
    match ts with
    | .symbol s :: rest =>
      match comparison? s with
      | some p => do
        let (right, rest) ← sum fuel rest
        some (.apply p [left, right], rest)
      | none => some (left, ts)
    | _ => some (left, ts)

def sum : Nat → List Token → Option (Expr String × List Token)
  | 0, _ => none
  | fuel + 1, ts => do
    let (left, ts) ← product fuel ts
    sumRest fuel left ts

def sumRest : Nat → Expr String → List Token → Option (Expr String × List Token)
  | 0, _, _ => none
  | _ + 1, left, [] => some (left, [])
  | fuel + 1, left, t :: ts =>
    match sumOperator? t with
    | some p => do
      let (right, ts) ← product fuel ts
      sumRest fuel (.apply p [left, right]) ts
    | none => some (left, t :: ts)

def product : Nat → List Token → Option (Expr String × List Token)
  | 0, _ => none
  | fuel + 1, ts => do
    let (left, ts) ← unary fuel ts
    productRest fuel left ts

def productRest : Nat → Expr String → List Token → Option (Expr String × List Token)
  | 0, _, _ => none
  | _ + 1, left, [] => some (left, [])
  | fuel + 1, left, t :: ts =>
    match productOperator? t with
    | some p => do
      let (right, ts) ← unary fuel ts
      productRest fuel (.apply p [left, right]) ts
    | none => some (left, t :: ts)

/-- A negative literal, or an atom under any number of unary operators. -/
def unary : Nat → List Token → Option (Expr String × List Token)
  | 0, _ => none
  | fuel + 1, ts =>
    match ts with
    | .minus true :: .number n :: rest => do
      let v ← Value.ofInt? (-n)
      some (.literal v, rest)
    | _ => operand fuel ts

def operand : Nat → List Token → Option (Expr String × List Token)
  | 0, _ => none
  | _ + 1, [] => none
  | fuel + 1, t :: ts =>
    match unaryOperator? t with
    | some p => do
      let (e, ts) ← operand fuel ts
      some (.apply p [e], ts)
    | none => atom fuel (t :: ts)

def atom : Nat → List Token → Option (Expr String × List Token)
  | 0, _ => none
  | fuel + 1, ts =>
    match ts with
    | .number n :: ts => do
      let v ← Value.ofInt? n
      some (.literal v, ts)
    | .keyword .true_ :: ts => some (.literal 1, ts)
    | .keyword .false_ :: ts => some (.literal 0, ts)
    | .keyword .input_ :: ts => some (.apply .input [], ts)
    | .keyword .if_ :: ts => do
      let (c, ts) ← expr fuel ts
      let ts ← expect (.keyword .then_) ts
      let (a, ts) ← expr fuel ts
      let ts ← expect (.keyword .else_) ts
      let (b, ts) ← expr fuel ts
      let ts ← expect (.keyword .end_) ts
      some (.ifElse c a b, ts)
    | .name f :: .symbol .openParen :: ts => do
      let (es, ts) ← actuals fuel ts
      some (.call f es, ts)
    | .name x :: ts => some (.var x, ts)
    | .symbol .openParen :: ts => do
      let (e, ts) ← expr fuel ts
      let ts ← expect (.symbol .closeParen) ts
      some (e, ts)
    | _ => none

/-- The actuals of a call after the opening parenthesis, and the closing one. -/
def actuals : Nat → List Token → Option (List (Expr String) × List Token)
  | 0, _ => none
  | fuel + 1, ts =>
    match ts with
    | .symbol .closeParen :: ts => some ([], ts)
    | _ => moreActuals fuel ts

def moreActuals : Nat → List Token → Option (List (Expr String) × List Token)
  | 0, _ => none
  | fuel + 1, ts => do
    let (e, ts) ← expr fuel ts
    match ts with
    | .symbol .comma :: ts => do
      let (es, ts) ← moreActuals fuel ts
      some (e :: es, ts)
    | .symbol .closeParen :: ts => some ([e], ts)
    | _ => none

end

/-- One or more names with commas between them. -/
def names : List Token → Option (List String × List Token)
  | .name x :: .symbol .comma :: ts => do
    let (xs, ts) ← names ts
    some (x :: xs, ts)
  | .name x :: ts => some ([x], ts)
  | _ => none

/-- The variables declared at the head of a block. -/
def declarations : List Token → Option (List String × List Token)
  | .keyword .var_ :: ts => do
    let (xs, ts) ← names ts
    let ts ← expect (.symbol .semicolon) ts
    some (xs, ts)
  | ts => some ([], ts)

def startsStatement : List Token → Bool
  | .name _ :: _ => true
  | .keyword k :: _ => k ∈ [.skip_, .begin_, .if_, .while_, .repeat_, .print_, .return_]
  | _ => false

mutual

def statement : Nat → List Token → Option (Stmt String × List Token)
  | 0, _ => none
  | fuel + 1, ts =>
    match ts with
    | .keyword .skip_ :: ts => some (.skip, ts)
    | .keyword .begin_ :: ts => block fuel ts
    | .keyword .if_ :: ts => do
      let (c, ts) ← expr fuel ts
      let ts ← expect (.keyword .then_) ts
      let (a, ts) ← statements fuel ts
      match ts with
      | .keyword .else_ :: ts => do
        let (b, ts) ← statements fuel ts
        let ts ← expect (.keyword .end_) ts
        some (.ifElse c (.ofList a) (.ofList b), ts)
      | _ => do
        let ts ← expect (.keyword .end_) ts
        some (.ifThen c (.ofList a), ts)
    | .keyword .while_ :: ts => do
      let (c, ts) ← expr fuel ts
      let ts ← expect (.keyword .do_) ts
      let (a, ts) ← statements fuel ts
      let ts ← expect (.keyword .end_) ts
      some (.whileDo c (.ofList a), ts)
    | .keyword .repeat_ :: ts => do
      let (a, ts) ← statements fuel ts
      let ts ← expect (.keyword .until_) ts
      let (c, ts) ← expr fuel ts
      some (.repeatUntil (.ofList a) c, ts)
    | .keyword .print_ :: ts => do
      let (e, ts) ← expr fuel ts
      some (.print e, ts)
    | .keyword .return_ :: ts => do
      let (e, ts) ← expr fuel ts
      some (.ret e, ts)
    | .name x :: .symbol .assign :: ts => do
      let (e, ts) ← expr fuel ts
      some (.assign x e, ts)
    | .name f :: .symbol .openParen :: ts => do
      let (es, ts) ← actuals fuel ts
      some (.call f es, ts)
    | _ => none

/-- What follows the `begin` of a block, up to its `end`. -/
def block : Nat → List Token → Option (Stmt String × List Token)
  | 0, _ => none
  | fuel + 1, ts => do
    let (xs, ts) ← declarations ts
    let (a, ts) ← statements fuel ts
    let ts ← expect (.keyword .end_) ts
    some (.withVariables xs (.ofList a), ts)

/-- Statements with semicolons between them; the last one may have a semicolon too. -/
def statements : Nat → List Token → Option (List (Stmt String) × List Token)
  | 0, _ => none
  | fuel + 1, ts =>
    if startsStatement ts then do
      let (s, ts) ← statement fuel ts
      match ts with
      | .symbol .semicolon :: ts => do
        let (rest, ts) ← statements fuel ts
        some (s :: rest, ts)
      | _ => some ([s], ts)
    else some ([], ts)

end

/-- The formals of a procedure, in parentheses. -/
def formals : List Token → Option (List String × List Token)
  | .symbol .openParen :: .symbol .closeParen :: ts => some ([], ts)
  | .symbol .openParen :: ts => do
    let (xs, ts) ← names ts
    let ts ← expect (.symbol .closeParen) ts
    some (xs, ts)
  | _ => none

def procedures : Nat → List Token → Option (List Procedure × List Token)
  | 0, _ => none
  | fuel + 1, ts =>
    match ts with
    | .keyword .procedure_ :: .name f :: ts => do
      let (xs, ts) ← formals ts
      let ts ← expect (.keyword .begin_) ts
      let (body, ts) ← block fuel ts
      let (rest, ts) ← procedures fuel ts
      some (⟨f, xs, body⟩ :: rest, ts)
    | .keyword .procedure_ :: _ => none
    | _ => some ([], ts)

/-- A whole program: procedures, then the statements of main, and nothing after them. -/
def program (fuel : Nat) (source : String) (ts : List Token) : Option Program := do
  let (ps, ts) ← procedures fuel ts
  match ← statements fuel ts with
  | (main, []) => some ⟨source, ps, .ofList main⟩
  | (_, _ :: _) => none

end Parser

/-- The program written by a text; none if the text has a syntax error. At most eight calls
lie between two tokens. -/
def Program.parse? (source : String) (text : String) : Option Program := do
  let ts ← Token.scan text.toList
  Parser.program (8 * ts.length + 8) source ts

end Izmir
