import Frontend.Facts.Ast

namespace Frontend.Facts

inductive StaticFact (α : Type)
  | known (value : α)
  | unknown (why : String)
  deriving DecidableEq

namespace StaticFact

def isUnknown {α : Type} : StaticFact α → Bool
  | .known _ => false
  | .unknown _ => true

end StaticFact

structure EffectEvidence where
  macros : List (TextRange × String) := []
  expressionTypes : List (TextRange × Bool) := []
  bodyTypes : List (TextRange × Bool) := []

def EffectEvidence.empty : EffectEvidence := {}

def lastSegmentRev : List Char → List Char
  | ':' :: ':' :: _ => []
  | c :: cs => c :: lastSegmentRev cs
  | [] => []

def lastSegment (defPath : String) : String := String.ofList (lastSegmentRev defPath.toList.reverse).reverse

def panicMacro (defPath : String) : Option String :=
  if !defPath.startsWith "core::" && !defPath.startsWith "builtin::" then none
  else if lastSegment defPath ∈ ["panic", "todo", "unimplemented", "unreachable", "assert",
      "assert_eq", "assert_ne", "debug_assert", "debug_assert_eq", "debug_assert_ne"] then
    some (lastSegment defPath)
  else none

def macroDiverges (defPath : String) : Option Bool := do
  let name ← panicMacro defPath
  if name ∈ ["panic", "todo", "unimplemented", "unreachable"] then some true else none

def macroDivergence (evidence : EffectEvidence) (span : TextRange) : StaticFact Bool :=
  match evidence.macros.find? fun fact => fact.1 = span with
  | some fact =>
    match macroDiverges fact.2 with
    | some value => .known value
    | none => .unknown "the resolved macro is not a known diverging macro"
  | none => .unknown "macro resolution is unavailable"

-- The entries of the label stack, innermost first, and whether each is a loop.
abbrev Labels := List (Option String × Bool)

-- The innermost entry the break can mean is the loop the search started from.
def targetsStart (means : Option String × Bool → Bool) : Labels → Bool
  | [] => false
  | entry :: outer => if means entry then outer.isEmpty && entry.2 else targetsStart means outer

def breakTargetsStart (labels : Labels) : Option String → Bool
  | some name => targetsStart (fun entry => entry.1 = some name) labels
  | none => targetsStart (fun entry => entry.2) labels

-- What a visitor keeps on its way down: `rustc_ast::visit` walks every child, and the visitor has
-- its say at a loop, at the pattern and iterator of a `for` loop, at a labelled block and at the
-- constants and attribute values of a node.
structure Visitor (S : Type) where
  loop : Option String → S → S
  forHead : Option String → S → S
  block : String → S → S
  const : S → S

section

variable {S : Type} (v : Visitor S)

def Visitor.labelled (s : S) : Option String → S
  | none => s
  | some label => v.block label s

-- The breaks that the walk meets, each with what the visitor keeps there.
mutual
def Expr.walk (s : S) : Expr → List (S × Option String)
  | .leaf _ _ => []
  | .macCall _ _ => []
  | .unary _ _ value => value.walk s
  | .binary _ _ left right => left.walk s ++ right.walk s
  | .repeat _ value count => value.walk s ++ count.walk (v.const s)
  | .group _ _ values => walkExprs s values
  | .call _ _ head args => head.walk s ++ walkExprs s args
  | .structLit _ fields base => walkExprs s fields ++ walkOption s base
  | .range _ first last => walkOption s first ++ walkOption s last
  | .exit _ (.break label) value => (s,label) :: walkOption s value
  | .exit _ _ value => walkOption s value
  | .continue _ _ => []
  | .letCond _ pat value => pat.walk s ++ value.walk s
  | .ite _ cond thenBlock otherwise => cond.walk s ++ thenBlock.walk s ++ walkOption s otherwise
  | .while _ label attrs cond body =>
    walkExprs (v.const (v.loop label s)) attrs ++ cond.walk (v.loop label s) ++ body.walk (v.loop label s)
  | .loop _ label attrs body => walkExprs (v.const (v.loop label s)) attrs ++ body.walk (v.loop label s)
  | .forLoop _ label attrs pat iter body =>
    walkExprs (v.const (v.loop label s)) attrs ++ pat.walk (v.forHead label s) ++ iter.walk (v.forHead label s) ++
      body.walk (v.loop label s)
  | .matchOn _ scrutinee arms => scrutinee.walk s ++ walkArms s arms
  | .block _ label attrs block => walkExprs (v.const (v.labelled s label)) attrs ++ block.walk (v.labelled s label)
  | .tryBlock _ block => block.walk s
  | .closure _ => []
  | .gen _ => []
  | .constBlock _ value => value.walk (v.const s)
  | .annotated consts expr => walkExprs (v.const s) consts ++ expr.walk s

def walkOption (s : S) : Option Expr → List (S × Option String)
  | none => []
  | some value => value.walk s

def walkExprs (s : S) : List Expr → List (S × Option String)
  | [] => []
  | value :: values => value.walk s ++ walkExprs s values

def Block.walk (s : S) : Block → List (S × Option String)
  | .mk _ stmts => walkStmts s stmts

def walkStmts (s : S) : List Stmt → List (S × Option String)
  | [] => []
  | stmt :: stmts => stmt.walk s ++ walkStmts s stmts

def Stmt.walk (s : S) : Stmt → List (S × Option String)
  | .decl consts pat => walkExprs (v.const s) consts ++ pat.walk s
  | .init consts pat init => walkExprs (v.const s) consts ++ pat.walk s ++ init.walk s
  | .initElse consts pat init els => walkExprs (v.const s) consts ++ pat.walk s ++ init.walk s ++ els.walk s
  | .item => []
  | .expr expr => expr.walk s
  | .semi expr => expr.walk s
  | .macCall consts _ => walkExprs (v.const s) consts
  | .empty => []

def walkArms (s : S) : List Arm → List (S × Option String)
  | [] => []
  | arm :: arms => arm.walk s ++ walkArms s arms

def Arm.walk (s : S) : Arm → List (S × Option String)
  | .mk attrs pat guard body => walkExprs (v.const s) attrs ++ pat.walk s ++ walkOption s guard ++ walkOption s body

def Pat.walk (s : S) : Pat → List (S × Option String)
  | .leaf => []
  | .ident sub => match sub with
    | none => []
    | some pat => pat.walk s
  | .group pats => walkPats s pats
  | .deref pat => pat.walk s
  | .ref pat => pat.walk s
  | .paren pat => pat.walk s
  | .guard pat cond => pat.walk s ++ cond.walk s
  | .expr expr => expr.walk s
  | .range first last => walkOption s first ++ walkOption s last
  | .annotated consts pat => walkExprs (v.const s) consts ++ pat.walk s

def walkPats (s : S) : List Pat → List (S × Option String)
  | [] => []
  | pat :: pats => pat.walk s ++ walkPats s pats
end

end

-- A `for` loop is on the stack while its pattern and iterator are visited, and constants leave it as it is.
def breakFinder : Visitor Labels where
  loop label labels := (label,true) :: labels
  forHead label labels := (label,true) :: labels
  block label labels := (some label,false) :: labels
  const labels := labels

def loopHasBreak (block : Block) (label : Option String) : Bool :=
  (block.walk breakFinder [(label,true)]).any fun b => breakTargetsStart b.1 b.2

def sequenceDiverges (facts : List (StaticFact Bool)) (result : StaticFact Bool) : StaticFact Bool :=
  if .known true ∈ facts then .known true
  else
    match result with
    | .known true => .known true
    | .known false =>
      if facts.any StaticFact.isUnknown then .unknown "an operand's divergence is unresolved"
      else .known false
    | .unknown why =>
      if facts.any StaticFact.isUnknown then .unknown "an operand or operation is unresolved"
      else .unknown why

def lazyDiverges (left right : StaticFact Bool) : StaticFact Bool :=
  if left = .known true then .known true
  else if right = .known true then
    .unknown "short-circuit evaluation may skip the diverging operand"
  else if left = .known false ∧ right = .known false then .known false
  else .unknown "short-circuit expression divergence is unresolved"

def iteDiverges (condition thenResult elseResult : StaticFact Bool) : StaticFact Bool :=
  match condition with
  | .known true => .known true
  | .known false =>
    if thenResult = .known true ∧ elseResult = .known true then .known true
    else if thenResult = .known false ∧ elseResult = .known false then .known false
    else .unknown "conditional branch divergence is unresolved"
  | .unknown _ =>
    if thenResult = .known true ∧ elseResult = .known true then .known true
    else .unknown "conditional expression divergence is unresolved"

def UnaryKind.result : UnaryKind → StaticFact Bool
  | .cast | .type | .unsafeBinderCast => .known false
  | .try => .unknown "question mark conversion behavior is unresolved"
  | _ => .unknown "expression behavior is unresolved"

def CallKind.result : CallKind → StaticFact Bool
  | .call => .unknown "the call target's return type is unresolved"
  | .method => .unknown "the method call's return type is unresolved"

def Stmt.isTailExpr : Stmt → Bool
  | .expr _ => true
  | _ => false

def leafDiverges : Leaf → StaticFact Bool
  | .inlineAsm | .formatArgs => .unknown "inline assembly or formatting behavior is unresolved"
  | _ => .known false

mutual
def expressionDiverges (evidence : EffectEvidence) (expr : Expr) : StaticFact Bool :=
  match evidence.expressionTypes.find? fun fact => fact.1 = expr.span with
  | some fact => .known fact.2
  | none =>
    match expr with
    | .leaf _ kind => leafDiverges kind
    | .macCall _ mac => macroDivergence evidence mac
    | .unary _ .paren value => expressionDiverges evidence value
    | .unary _ kind value => sequenceDiverges [expressionDiverges evidence value] kind.result
    | .binary _ (.op op) left right =>
      if op.isLazy then
        lazyDiverges (expressionDiverges evidence left) (expressionDiverges evidence right)
      else
        sequenceDiverges [expressionDiverges evidence left,expressionDiverges evidence right] (.known false)
    | .binary _ .index left right =>
      sequenceDiverges [expressionDiverges evidence left,expressionDiverges evidence right]
        (.unknown "indexing behavior is unresolved")
    | .binary _ _ left right => sequenceDiverges [expressionDiverges evidence left,expressionDiverges evidence right]
        (.known false)
    | .repeat _ value _ => sequenceDiverges [expressionDiverges evidence value] (.known false)
    | .group _ _ values => sequenceDiverges (expressionsDiverge evidence values) (.known false)
    | .call _ kind head args => sequenceDiverges
        (expressionDiverges evidence head :: expressionsDiverge evidence args) kind.result
    | .structLit _ _ _ => .unknown "expression behavior is unresolved"
    | .range _ first last => sequenceDiverges (optionDiverges evidence first ++ optionDiverges evidence last)
        (.known false)
    | .exit _ .yield _ => .unknown "expression behavior is unresolved"
    | .exit _ _ value => sequenceDiverges (optionDiverges evidence value) (.known false)
    | .continue _ _ => .known false
    | .letCond _ _ value => sequenceDiverges [expressionDiverges evidence value] (.known false)
    | .ite _ cond thenBlock otherwise =>
      iteDiverges (expressionDiverges evidence cond) (blockDiverges evidence thenBlock)
        (otherwiseDiverges evidence otherwise)
    | .while _ _ _ _ _ => .unknown "loop exit conditions are unresolved"
    | .loop _ label _ body =>
      if loopHasBreak body label then .unknown "loop exit reachability is unresolved"
      else .known true
    | .forLoop _ _ _ _ _ _ => .unknown "loop exit conditions are unresolved"
    | .matchOn _ _ _ => .unknown "match exhaustiveness is unresolved"
    | .block _ _ _ block => blockDiverges evidence block
    | .tryBlock _ block => blockDiverges evidence block
    | .closure _ => .known false
    | .gen _ => .known false
    | .constBlock _ _ => .unknown "expression behavior is unresolved"
    | .annotated _ expr => expressionDiverges evidence expr

def otherwiseDiverges (evidence : EffectEvidence) : Option Expr → StaticFact Bool
  | none => .known false
  | some otherwise => expressionDiverges evidence otherwise

def optionDiverges (evidence : EffectEvidence) : Option Expr → List (StaticFact Bool)
  | none => []
  | some value => [expressionDiverges evidence value]

def expressionsDiverge (evidence : EffectEvidence) : List Expr → List (StaticFact Bool)
  | [] => []
  | value :: values => expressionDiverges evidence value :: expressionsDiverge evidence values

def blockDiverges (evidence : EffectEvidence) : Block → StaticFact Bool
  | .mk _ stmts => stmtsDiverge evidence false stmts

def stmtsDiverge (evidence : EffectEvidence) (unresolvedPrefix : Bool) : List Stmt → StaticFact Bool
  | [] =>
    if unresolvedPrefix then .unknown "an earlier expression's divergence is unresolved"
    else .known false
  | stmt :: stmts =>
    let isTail := stmts.isEmpty && stmt.isTailExpr
    match stmtDiverges evidence stmt with
    | none => stmtsDiverge evidence unresolvedPrefix stmts
    | some (.known true) => .known true
    | some (.unknown why) =>
      if isTail then .unknown why else stmtsDiverge evidence true stmts
    | some (.known false) =>
      if isTail then
        if unresolvedPrefix then .unknown "an earlier expression's divergence is unresolved"
        else .known false
      else stmtsDiverge evidence unresolvedPrefix stmts

def stmtDiverges (evidence : EffectEvidence) : Stmt → Option (StaticFact Bool)
  | .decl _ _ => none
  | .init _ _ init => some (expressionDiverges evidence init)
  | .initElse _ _ init _ => some (expressionDiverges evidence init)
  | .item => none
  | .expr expr => some (expressionDiverges evidence expr)
  | .semi expr => some (expressionDiverges evidence expr)
  | .macCall _ mac => some (macroDivergence evidence mac)
  | .empty => none
end

end Frontend.Facts
