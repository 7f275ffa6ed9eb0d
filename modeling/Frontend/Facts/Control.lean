import Frontend.Library.Control
import Frontend.Facts.Effects

namespace Frontend.Facts

open Control

def UnaryKind.control : UnaryKind → Ctl String
  | .try => .choice .skip (.jump .raise)
  | .become => .jump .ret
  | _ => .skip

def ExitKind.control : ExitKind → Ctl String
  | .ret => .jump .ret
  | .yeet => .jump .raise
  | .yield => .skip
  | .break label => .jump (.brk label)

-- A macro call can do anything; conditions, calls and patterns can come to anything.
mutual
def Expr.control : Expr → Ctl String
  | .leaf _ _ => .skip
  | .macCall _ _ => .any
  | .unary _ kind value => .seq value.control kind.control
  | .binary _ (.op op) left right =>
    if op.isLazy then .seq left.control (.choice .skip right.control)
    else .seq left.control right.control
  | .binary _ .assign left right => .seq right.control left.control
  | .binary _ .assignOp left right => .choice (.seq left.control right.control) (.seq right.control left.control)
  | .binary _ .index left right => .seq left.control right.control
  | .repeat _ value _ => value.control
  | .group _ _ values => controlExprs values
  | .call _ _ head args => .seq head.control (controlExprs args)
  | .structLit _ fields base => .seq (controlExprs fields) (controlOption base)
  | .range _ first last => .seq (controlOption first) (controlOption last)
  | .exit _ kind value => .seq (controlOption value) kind.control
  | .continue _ label => .jump (.cont label)
  | .letCond _ _ value => value.control
  | .ite _ cond thenBlock otherwise => .seq cond.control (.choice thenBlock.control (controlOption otherwise))
  | .while _ label _ cond body => .loop label (.seq cond.control (.choice body.control (.jump (.brk none))))
  | .loop _ label _ body => .loop label body.control
  -- the iterator is evaluated outside the loop
  | .forLoop _ label _ _ iter body => .seq iter.control (.loop label (.choice body.control (.jump (.brk none))))
  | .matchOn _ scrutinee arms => .seq scrutinee.control (controlArms arms)
  | .block _ (some label) _ block => .block label block.control
  | .block _ none _ block => block.control
  | .tryBlock _ block => .handle block.control
  | .closure _ => .skip
  | .gen _ => .skip
  | .constBlock _ _ => .skip
  | .annotated _ expr => expr.control

def controlOption : Option Expr → Ctl String
  | none => .skip
  | some value => value.control

-- An arm without a body has a pattern that nothing matches.
def controlBody : Option Expr → Ctl String
  | none => .stuck
  | some value => value.control

def controlExprs : List Expr → Ctl String
  | [] => .skip
  | value :: values => .seq value.control (controlExprs values)

def Block.control : Block → Ctl String
  | .mk _ stmts => controlStmts stmts

def controlStmts : List Stmt → Ctl String
  | [] => .skip
  | .decl _ _ :: stmts => controlStmts stmts
  | .init _ _ init :: stmts => .seq init.control (controlStmts stmts)
  | .initElse _ _ init els :: stmts => .seq init.control (.choice (controlStmts stmts) (.seq els.control .stuck))
  | .item :: stmts => controlStmts stmts
  | .expr expr :: stmts => .seq expr.control (controlStmts stmts)
  | .semi expr :: stmts => .seq expr.control (controlStmts stmts)
  | .macCall _ _ :: stmts => .seq .any (controlStmts stmts)
  | .empty :: stmts => controlStmts stmts

def controlArms : List Arm → Ctl String
  | [] => .stuck
  | .mk _ _ guard body :: arms => .choice (.seq (controlOption guard) (.choice (controlBody body) (controlArms arms)))
      (controlArms arms)
end

-- What follows an expression counts only if the walk passes it.
def passedTo (expr : Expr) (rest : Bool) : Bool := !expr.control.walk.passes || rest

-- No macro call, no break that ends a labelled block, no `?` that ends a `try` block and no break out
-- of the iterator of a `for` loop: the exits that the divergence analysis overlooks.
mutual
def Expr.seesExits : Expr → Bool
  | .leaf _ _ => true
  | .macCall _ _ => false
  | .unary _ _ value => value.seesExits
  | .binary _ _ left right => left.seesExits && right.seesExits
  | .repeat _ value _ => value.seesExits
  | .group _ _ values => seesExitsExprs values
  | .call _ _ head args => head.seesExits && seesExitsExprs args
  | .structLit _ fields base => seesExitsExprs fields && seesExitsOption base
  | .range _ first last => seesExitsOption first && seesExitsOption last
  | .exit _ _ value => seesExitsOption value
  | .continue _ _ => true
  | .letCond _ _ value => value.seesExits
  | .ite _ cond thenBlock otherwise => cond.seesExits && thenBlock.seesExits && seesExitsOption otherwise
  | .while _ _ _ cond body => cond.seesExits && body.seesExits
  | .loop _ _ _ body => body.seesExits
  | .forLoop _ label _ _ iter body =>
    iter.seesExits && body.seesExits && !iter.control.walk.exits (.brk none) && !iter.control.walk.exits (.brk label)
  | .matchOn _ scrutinee arms => scrutinee.seesExits && seesExitsArms arms
  | .block _ (some label) _ block => block.seesExits && !block.control.walk.exits (.brk (some label))
  | .block _ none _ block => block.seesExits
  | .tryBlock _ block => block.seesExits && !block.control.walk.exits .raise
  | .closure _ => true
  | .gen _ => true
  | .constBlock _ _ => true
  | .annotated _ expr => expr.seesExits

def seesExitsOption : Option Expr → Bool
  | none => true
  | some value => value.seesExits

def seesExitsExprs : List Expr → Bool
  | [] => true
  | value :: values => value.seesExits && seesExitsExprs values

def Block.seesExits : Block → Bool
  | .mk _ stmts => seesExitsStmts stmts

def seesExitsStmts : List Stmt → Bool
  | [] => true
  | .decl _ _ :: stmts => seesExitsStmts stmts
  | .init _ _ init :: stmts => init.seesExits && passedTo init (seesExitsStmts stmts)
  | .initElse _ _ init els :: stmts => init.seesExits && passedTo init (els.seesExits && seesExitsStmts stmts)
  | .item :: stmts => seesExitsStmts stmts
  | .expr expr :: stmts => expr.seesExits && passedTo expr (seesExitsStmts stmts)
  | .semi expr :: stmts => expr.seesExits && passedTo expr (seesExitsStmts stmts)
  | .macCall _ _ :: _ => false
  | .empty :: stmts => seesExitsStmts stmts

def seesExitsArms : List Arm → Bool
  | [] => true
  | .mk _ _ guard body :: arms => seesExitsOption guard && seesExitsOption body && seesExitsArms arms
end

end Frontend.Facts
