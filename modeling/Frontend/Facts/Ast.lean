import Mathlib

namespace Frontend.Facts

structure TextRange where
  start : Nat
  stop : Nat
  deriving DecidableEq

inductive BinOp
  | add
  | sub
  | mul
  | div
  | rem
  | and
  | or
  | bitXor
  | bitAnd
  | bitOr
  | shl
  | shr
  | eq
  | lt
  | le
  | ne
  | ge
  | gt
  deriving DecidableEq

def BinOp.isLazy : BinOp → Bool
  | .and | .or => true
  | _ => false

inductive Leaf
  | lit
  | path
  | underscore
  | includedBytes
  | offsetOf
  | inlineAsm
  | formatArgs
  | err
  | dummy
  deriving DecidableEq

inductive UnaryKind
  | paren
  | op
  | addrOf
  | cast
  | type
  | field
  | await
  | use
  | move
  | become
  | try
  | directConstArg
  | unsafeBinderCast
  deriving DecidableEq

inductive BinaryKind
  | op (op : BinOp)
  | assign
  | assignOp
  | index
  deriving DecidableEq

inductive GroupKind
  | array
  | tup
  deriving DecidableEq

inductive CallKind
  | call
  | method
  deriving DecidableEq

inductive ExitKind
  | ret
  | yeet
  | yield
  | break (label : Option String)
  deriving DecidableEq

-- The kinds of expressions that only evaluate their operands share a constructor. Of a type, a path
-- with generic arguments and an attribute the analyses see the expressions in it, and nothing else:
-- array lengths, const arguments, attribute values. `consts` lists those of a node (`attrs` where
-- only attributes can have them); an expression or pattern that has some is `annotated`. The
-- inside of items, closures and coroutine blocks is never looked at.
mutual
inductive Expr where
  | leaf (span : TextRange) (kind : Leaf)
  | macCall (span mac : TextRange)
  | unary (span : TextRange) (kind : UnaryKind) (value : Expr)
  | binary (span : TextRange) (kind : BinaryKind) (left right : Expr)
  | repeat (span : TextRange) (value count : Expr)
  | group (span : TextRange) (kind : GroupKind) (values : List Expr)
  | call (span : TextRange) (kind : CallKind) (head : Expr) (args : List Expr)
  | structLit (span : TextRange) (fields : List Expr) (base : Option Expr)
  | range (span : TextRange) (first last : Option Expr)
  | exit (span : TextRange) (kind : ExitKind) (value : Option Expr)
  | continue (span : TextRange) (label : Option String)
  | letCond (span : TextRange) (pat : Pat) (value : Expr)
  | ite (span : TextRange) (cond : Expr) (thenBlock : Block) (otherwise : Option Expr)
  | while (span : TextRange) (label : Option String) (attrs : List Expr) (cond : Expr) (body : Block)
  | loop (span : TextRange) (label : Option String) (attrs : List Expr) (body : Block)
  | forLoop (span : TextRange) (label : Option String) (attrs : List Expr) (pat : Pat) (iter : Expr) (body : Block)
  | matchOn (span : TextRange) (scrutinee : Expr) (arms : List Arm)
  | block (span : TextRange) (label : Option String) (attrs : List Expr) (block : Block)
  | tryBlock (span : TextRange) (block : Block)
  | closure (span : TextRange)
  | gen (span : TextRange)
  | constBlock (span : TextRange) (value : Expr)
  | annotated (consts : List Expr) (expr : Expr)

inductive Block where
  | mk (span : TextRange) (stmts : List Stmt)

inductive Stmt where
  | decl (consts : List Expr) (pat : Pat)
  | init (consts : List Expr) (pat : Pat) (init : Expr)
  | initElse (consts : List Expr) (pat : Pat) (init : Expr) (els : Block)
  | item
  | expr (expr : Expr)
  | semi (expr : Expr)
  | macCall (consts : List Expr) (mac : TextRange)
  | empty

inductive Arm where
  | mk (attrs : List Expr) (pat : Pat) (guard body : Option Expr)

inductive Pat where
  | leaf
  | ident (sub : Option Pat)
  | group (pats : List Pat)
  | deref (pat : Pat)
  | ref (pat : Pat)
  | paren (pat : Pat)
  | guard (pat : Pat) (cond : Expr)
  | expr (expr : Expr)
  | range (first last : Option Expr)
  | annotated (consts : List Expr) (pat : Pat)
end

def Expr.span : Expr → TextRange
  | .leaf span _ | .macCall span _ | .unary span _ _ | .binary span _ _ _ | .repeat span _ _ | .group span _ _
  | .call span _ _ _ | .structLit span _ _ | .range span _ _ | .exit span _ _ | .continue span _
  | .letCond span _ _ | .ite span _ _ _ | .while span _ _ _ _ | .loop span _ _ _
  | .forLoop span _ _ _ _ _ | .matchOn span _ _ | .block span _ _ _ | .tryBlock span _
  | .closure span | .gen span | .constBlock span _ => span
  | .annotated _ expr => expr.span

def Block.span : Block → TextRange
  | .mk span _ => span

end Frontend.Facts
