import Mathlib.Data.List.TakeWhile
import Dynodoc.Document.State
import Dynodoc.Lib.Loop
import Dynodoc.Lib.Text

/-! The parser of relevance, constraint and calculation expressions, over the characters of
the text. Every byte that the parser compares is an ASCII character, so it reads the same
from characters; positions are counted in bytes. -/
namespace Dynodoc
open Std (ExtTreeSet)
open Loop

/-- `trim` over characters. -/
def trim (text : List Char) : List Char :=
  ((text.dropWhile Text.isWhitespace).reverse.dropWhile Text.isWhitespace).reverse

namespace Expr

/-- A number is the decimal that its text writes, `digits / 10 ^ scale`; its rounding to a
float is read by nothing. -/
inductive Literal where
  | number (digits scale : Nat)
  | str (text : String)
  | bool (value : Bool)
  deriving DecidableEq

inductive BinOp where
  | eq | ne | lt | le | gt | ge | add | sub | mul | div | mod | and | or
  deriving DecidableEq

def BinOp.isArithmetic : BinOp → Bool
  | add | sub | mul | div | mod => true
  | _ => false

def BinOp.isOrdering : BinOp → Bool
  | lt | le | gt | ge => true
  | _ => false

inductive UnaryOp where
  | not
  | neg
  deriving DecidableEq

end Expr

open Dynodoc.Expr in
inductive Expr where
  | varRef (name : String)
  | literal (value : Literal)
  | binOp (op : BinOp) (lhs rhs : Expr)
  | unaryOp (op : UnaryOp) (operand : Expr)
  | call (name : String) (args : List Expr)
  | dot

namespace Expr

inductive ParseError where
  | limitExceeded (resource : String) (limit : Nat)
  | unexpectedEof
  | unexpectedChar (ch : Char) (pos : Nat)
  | expected (what : String) (pos : Nat)
  | unterminatedString (pos : Nat)
  | unterminatedVarRef (pos : Nat)
  | trailingInput (pos : Nat)
  deriving DecidableEq

def maxExpressionBytes : Nat := 64 * 1024
def maxExpressionDepth : Nat := 32
def maxExpressionTerms : Nat := 256

/-- What is left of the text, the position in bytes and the operands so far. The nesting
depth is the number of levels that are still allowed, which the parser hands down. -/
structure Parser where
  rest : List Char
  pos : Nat
  terms : Nat

abbrev Parse (α : Type) := Parser → Except ParseError (α × Parser)

namespace Parser

def drop (p : Parser) (n : Nat) : Parser :=
  { p with rest := p.rest.drop n, pos := p.pos + ((p.rest.take n).map Char.utf8Size).sum }

/-- The characters up to the first one that does not satisfy the condition. -/
def upTo (p : Parser) (within : Char → Bool) : List Char := p.rest.takeWhile within

def skipWhile (p : Parser) (within : Char → Bool) : Parser := p.drop (p.upTo within).length

def isAsciiWhitespace (c : Char) : Bool :=
  c = ' ' || c = '\t' || c = '\n' || c = '\x0c' || c = '\r'

def isIdentStart (c : Char) : Bool := c.isAlpha || c = '_'

def isIdentContinue (c : Char) : Bool := c.isAlphanum || c = '_' || c = '-'

def skipWs (p : Parser) : Parser := p.skipWhile isAsciiWhitespace

def eatSymbol (sym : String) (p : Parser) : Option Parser :=
  if sym.toList.isPrefixOf p.rest then some (p.drop sym.length) else none

def eatKeyword (word : String) (p : Parser) : Option Parser :=
  (eatSymbol word p).filter fun after => !after.rest.head?.any isIdentContinue

/-- The byte at the position, read as a character. -/
def byteAsChar (c : Char) : Char :=
  ((String.utf8EncodeChar c).head?.map fun byte => Char.ofNat byte.toNat).getD c

/-- Consumes an operator and names it; the symbols are tried in order. -/
def eatFirst (operators : List ((Parser → Option Parser) × BinOp)) (p : Parser) :
    Option (BinOp × Parser) :=
  operators.findSome? fun (eat, op) => (eat p).map fun after => (op, after)

/-- The loop of the left-associative operators. Every round eats a character, so with as
many rounds as there are characters left the loop ends where no operator follows. -/
def operandsFrom (operators : List ((Parser → Option Parser) × BinOp)) (operand : Parse Expr) :
    Nat → Expr → Parse Expr
  | 0, lhs, p => .ok (lhs, p.skipWs)
  | rounds + 1, lhs, p =>
    match eatFirst operators p.skipWs with
    | some (op, after) => do
      let (rhs, next) ← operand after.skipWs
      operandsFrom operators operand rounds (.binOp op lhs rhs) next
    | none => .ok (lhs, p.skipWs)

def leftAssociative (operators : List ((Parser → Option Parser) × BinOp)) (operand : Parse Expr) :
    Parse Expr := fun p => do
  let (lhs, next) ← operand p
  operandsFrom operators operand next.rest.length lhs next

section Levels

variable (unary : Parse Expr)

def parseMultiplicative : Parse Expr :=
  leftAssociative [(eatSymbol "*", .mul), (eatKeyword "div", .div), (eatKeyword "mod", .mod),
    (eatSymbol "/", .div)] unary

def parseAdditive : Parse Expr :=
  leftAssociative [(eatSymbol "+", .add), (eatSymbol "-", .sub)] (parseMultiplicative unary)

def parseComparison : Parse Expr :=
  leftAssociative [(eatSymbol "!=", .ne), (eatSymbol "<=", .le), (eatSymbol ">=", .ge),
    (eatSymbol "=", .eq), (eatSymbol "<", .lt), (eatSymbol ">", .gt)] (parseAdditive unary)

def parseAnd : Parse Expr := leftAssociative [(eatKeyword "and", .and)] (parseComparison unary)

def parseOr : Parse Expr := leftAssociative [(eatKeyword "or", .or)] (parseAnd unary)

def closeArgs (args : List Expr) : Parse (List Expr) := fun p =>
  match eatSymbol ")" p with
  | some after => .ok (args, after)
  | none => .error (.expected ", or )" p.pos)

/-- The arguments after an opening parenthesis. Every round eats a comma. -/
def argsFrom (argument : Parse Expr) : Nat → List Expr → Parse (List Expr)
  | 0, args, p => do
    let (arg, next) ← argument p.skipWs
    closeArgs (args ++ [arg]) next.skipWs
  | rounds + 1, args, p => do
    let (arg, next) ← argument p.skipWs
    match eatSymbol "," next.skipWs with
    | some after => argsFrom argument rounds (args ++ [arg]) after
    | none => closeArgs (args ++ [arg]) next.skipWs

def parseArgs (argument : Parse Expr) : Parse (List Expr) := fun p =>
  match eatSymbol ")" p.skipWs with
  | some after => .ok ([], after)
  | none => argsFrom argument p.skipWs.rest.length [] p.skipWs

def parseIdentOrCall (argument : Parse Expr) : Parse Expr := fun p =>
  let name := String.ofList (p.upTo isIdentContinue)
  let after := p.skipWhile isIdentContinue
  if name = "true" then .ok (.literal (.bool true), after)
  else if name = "false" then .ok (.literal (.bool false), after)
  else
    match eatSymbol "(" after.skipWs with
    | some inner => do
      let (args, next) ← parseArgs argument inner
      .ok (.call name args, next)
    | none => .error (.unexpectedChar (p.rest.head?.getD ' ') p.pos)

def decimal (text : List Char) : Option Literal :=
  let whole := text.takeWhile Char.isDigit
  let fraction := (text.dropWhile Char.isDigit).drop 1
  if fraction.all Char.isDigit then
    some (.number ((whole ++ fraction).foldl (fun n c => 10 * n + (c.toNat - '0'.toNat)) 0)
      fraction.length)
  else none

def parseNumber : Parse Expr := fun p =>
  match decimal (p.upTo fun c => c.isDigit || c = '.') with
  | some value => .ok (.literal value, p.skipWhile fun c => c.isDigit || c = '.')
  | none => .error (.expected "number" p.pos)

def parseString (quote : Char) : Parse Expr := fun p =>
  let content := (p.drop 1).upTo (· ≠ quote)
  let after := (p.drop 1).skipWhile (· ≠ quote)
  if after.rest = [] then .error (.unterminatedString p.pos)
  else .ok (.literal (.str (String.ofList content)), after.drop 1)

def parseVarRef : Parse Expr := fun p =>
  let name := (p.drop 2).upTo (· ≠ '}')
  let after := (p.drop 2).skipWhile (· ≠ '}')
  if after.rest = [] then .error (.unterminatedVarRef p.pos)
  else .ok (.varRef (String.ofList (trim name)), after.drop 1)

def parseGroup (inner : Parse Expr) : Parse Expr := fun p => do
  let (expr, next) ← inner (p.drop 1).skipWs
  match eatSymbol ")" next.skipWs with
  | some after => .ok (expr, after)
  | none => .error (.expected ")" next.skipWs.pos)

def parsePrimary : Parse Expr := fun start =>
  let p := start.skipWs
  match p.rest with
  | [] => .error .unexpectedEof
  | c :: rest =>
    if c = '(' then parseGroup (parseOr unary) p
    else if c = '$' ∧ rest.head? = some '{' then parseVarRef p
    else if c = '\'' ∨ c = '"' then parseString c p
    else if c.isDigit ∨ c = '.' ∧ rest.head?.any Char.isDigit then parseNumber p
    else if c = '.' then .ok (.dot, p.drop 1)
    else if isIdentStart c then parseIdentOrCall (parseOr unary) p
    else .error (.unexpectedChar (byteAsChar c) p.pos)

def parseUnaryInner : Parse Expr := fun start =>
  let p := start.skipWs
  match eatKeyword "not" p with
  | some after => do
    let (operand, next) ← unary after.skipWs
    .ok (.unaryOp .not operand, next)
  | none =>
    match eatSymbol "-" p with
    | some after => do
      let (operand, next) ← unary after.skipWs
      .ok (.unaryOp .neg operand, next)
    | none => parsePrimary unary p

end Levels

/-- An operand, with the levels of nesting that are still allowed. -/
def parseUnary : Nat → Parse Expr
  | 0, _ => .error (.limitExceeded "nesting" maxExpressionDepth)
  | levels + 1, p =>
    if p.terms ≥ maxExpressionTerms then .error (.limitExceeded "term" maxExpressionTerms)
    else parseUnaryInner (parseUnary levels) { p with terms := p.terms + 1 }

end Parser

def parse (input : String) : Except ParseError Expr :=
  if input.utf8ByteSize > maxExpressionBytes then
    .error (.limitExceeded "byte" maxExpressionBytes)
  else do
    let (expr, next) ← Parser.parseOr (Parser.parseUnary maxExpressionDepth)
      (Parser.mk input.toList 0 0).skipWs
    if next.skipWs.rest = [] then .ok expr else .error (.trailingInput next.skipWs.pos)

def vars : Expr → List String
  | varRef name => [name]
  | literal _ | dot => []
  | binOp _ a b => vars a ++ vars b
  | unaryOp _ a => vars a
  | call _ args => varsAll args
where varsAll : List Expr → List String
  | [] => []
  | arg :: args => vars arg ++ varsAll args

def collectVars : Expr → ExtTreeSet String → ExtTreeSet String
  | varRef name, out => out.insert name
  | literal _, out | dot, out => out
  | binOp _ a b, out => collectVars b (collectVars a out)
  | unaryOp _ a, out => collectVars a out
  | call _ args, out => collectAll args out
where collectAll : List Expr → ExtTreeSet String → ExtTreeSet String
  | [], out => out
  | arg :: args, out => collectAll args (collectVars arg out)

def referencedVars (e : Expr) : ExtTreeSet String := collectVars e ∅

def asVarRef : Expr → Option String
  | varRef name => some name
  | _ => none

def asText : Expr → Option String
  | literal (.str text) => some text
  | _ => none

def collectSelected : Expr → List (String × String) → List (String × String)
  | varRef _, out | literal _, out | dot, out => out
  | binOp _ a b, out => collectSelected b (collectSelected a out)
  | unaryOp _ a, out => collectSelected a out
  | call name args, out =>
    collectAll args <|
      if name = "selected" ∧ args.length = 2 then
        match args.findSome? asVarRef, args.findSome? asText with
        | some var, some lit => out ++ [(var, lit)]
        | _, _ => out
      else out
where collectAll : List Expr → List (String × String) → List (String × String)
  | [], out => out
  | arg :: args, out => collectAll args (collectSelected arg out)

def selectedChoiceRefs (e : Expr) : List (String × String) := collectSelected e []

end Expr
end Dynodoc
