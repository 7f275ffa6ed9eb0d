import Mathlib.Tactic
import Frontend.Library.Run

namespace Frontend.Hygiene

abbrev Symbol := String
def kwDollarCrate : Symbol := "$crate"
def symDummy : Symbol := "<!dummy!>"

abbrev CrateNum := Nat
def localCrate : CrateNum := 0

structure ExpnId where
  krate : CrateNum
  localId : Nat
deriving DecidableEq, Repr

def ExpnId.root : ExpnId := ⟨localCrate,0⟩

def ExpnId.asLocal (e : ExpnId) : Option Nat :=
  if e.krate = localCrate then some e.localId else none

inductive Transparency where
  | Transparent
  | SemiOpaque
  | Opaque
deriving DecidableEq, Repr

abbrev SyntaxContext := Nat
abbrev SyntaxContextKey := SyntaxContext × ExpnId × Transparency
abbrev Mark := ExpnId × Transparency

structure SyntaxContextData where
  outerExpn : ExpnId
  outerTransparency : Transparency
  parent : SyntaxContext
  opaqueCtxt : SyntaxContext
  opaqueAndSemiOpaque : SyntaxContext
  dollarCrateName : Symbol
deriving DecidableEq, Repr

namespace SyntaxContextData

def root : SyntaxContextData :=
  { outerExpn := .root, outerTransparency := .Opaque, parent := 0, opaqueCtxt := 0,
    opaqueAndSemiOpaque := 0, dollarCrateName := kwDollarCrate }

def placeholder : SyntaxContextData := { root with dollarCrateName := symDummy }

def key (x : SyntaxContextData) : SyntaxContextKey := (x.parent,x.outerExpn,x.outerTransparency)

end SyntaxContextData

structure ExpnData where
  parent : ExpnId
  callSite : SyntaxContext
deriving DecidableEq, Repr

structure HygieneData where
  localExpnData : List (Option ExpnData)
  foreignExpnData : ExpnId → Option ExpnData
  syntaxContextData : List SyntaxContextData
  syntaxContextMap : SyntaxContextKey → Option SyntaxContext

inductive Panic where
  | indexOutOfBounds
  | noExpnData
  | expnDataReset
  | rootMark
  | dummyParent
  | ctxtOverflow
  | diverged
deriving DecidableEq, Repr

abbrev Result := Except Panic

def orPanic {α : Type} (e : Panic) : Option α → Result α
  | none => .error e
  | some a => .ok a

namespace HygieneData

variable (d : HygieneData)

def new : HygieneData :=
  { localExpnData := [some ⟨.root,0⟩]
    foreignExpnData := fun _ => none
    syntaxContextData := [.root]
    syntaxContextMap := fun k => if k = SyntaxContextData.root.key then some 0 else none }

def expnData? (e : ExpnId) : Option ExpnData :=
  match e.asLocal with
  | some i => (d.localExpnData[i]?).join
  | none => d.foreignExpnData e

def expnData (e : ExpnId) : Result ExpnData := orPanic .noExpnData (d.expnData? e)

def freshEmpty : ExpnId × HygieneData := (⟨localCrate,d.localExpnData.length⟩,
    { d with localExpnData := d.localExpnData ++ [none] })

def fresh (data : ExpnData) : ExpnId × HygieneData :=
  (⟨localCrate,d.localExpnData.length⟩,{ d with localExpnData := d.localExpnData ++ [some data] })

def setExpnData (i : Nat) (data : ExpnData) : Result HygieneData :=
  match d.localExpnData[i]? with
  | none => .error .indexOutOfBounds
  | some (some _) => .error .expnDataReset
  | some none => .ok { d with localExpnData := d.localExpnData.set i (some data) }

def registerExpnId (e : ExpnId) (data : ExpnData) : HygieneData :=
  { d with foreignExpnData := Function.update d.foreignExpnData e (some data) }

def isDescendantOfLoop : Nat → ExpnId → ExpnId → Result Bool
  | 0, _, _ => .error .diverged
  | fuel + 1, expnId, ancestor =>
    if expnId = ancestor then .ok true
    else if expnId = ExpnId.root then .ok false
    else do
      let data ← d.expnData expnId
      isDescendantOfLoop fuel data.parent ancestor

def isDescendantOf (fuel : Nat) (expnId ancestor : ExpnId) : Result Bool :=
  if ancestor = ExpnId.root then .ok true
  else if expnId.krate ≠ ancestor.krate then .ok false
  else d.isDescendantOfLoop fuel expnId ancestor

section

variable (ctxt : SyntaxContext)

def ctxtData : Result SyntaxContextData := orPanic .indexOutOfBounds d.syntaxContextData[ctxt]?

def normalizeToMacros20 : Result SyntaxContext := return (← d.ctxtData ctxt).opaqueCtxt

def normalizeToMacroRules : Result SyntaxContext := return (← d.ctxtData ctxt).opaqueAndSemiOpaque

def outerExpn (ctxt : SyntaxContext) : Result ExpnId := return (← d.ctxtData ctxt).outerExpn

def outerMark : Result Mark := do
  let data ← d.ctxtData ctxt
  return (data.outerExpn,data.outerTransparency)

def parentCtxt : Result SyntaxContext := return (← d.ctxtData ctxt).parent

def removeMark : Result (Mark × SyntaxContext) := do
  let mark ← d.outerMark ctxt
  let parent ← d.parentCtxt ctxt
  return (mark,parent)

end

def marksLoop : Nat → SyntaxContext → List Mark → Result (List Mark)
  | 0, _, _ => .error .diverged
  | fuel + 1, ctxt, marks =>
    if ctxt = 0 then .ok marks.reverse
    else do
      let mark ← d.outerMark ctxt
      let parent ← d.parentCtxt ctxt
      marksLoop fuel parent (marks ++ [mark])

def marks (ctxt : SyntaxContext) : Result (List Mark) := d.marksLoop (d.syntaxContextData.length + 1) ctxt []

def adjustLoop : Nat → SyntaxContext → ExpnId → Option ExpnId → Result (Option ExpnId × SyntaxContext)
  | 0, _, _, _ => .error .diverged
  | fuel + 1, ctxt, expnId, scope => do
    let outer ← d.outerExpn ctxt
    if ← d.isDescendantOf (fuel + 1) expnId outer then return (scope,ctxt)
    else do
      let (mark,parent) ← d.removeMark ctxt
      adjustLoop fuel parent expnId (some mark.1)

def adjust (fuel : Nat) (ctxt : SyntaxContext) (expnId : ExpnId) : Result (Option ExpnId × SyntaxContext) :=
  d.adjustLoop fuel ctxt expnId none

def fromUsize (n : Nat) : Result SyntaxContext :=
  if n < 2 ^ 32 then .ok n else .error .ctxtOverflow

def reserve (key : SyntaxContextKey) : HygieneData :=
  { d with
    syntaxContextData := d.syntaxContextData ++ [.placeholder]
    syntaxContextMap := Function.update d.syntaxContextMap key (some d.syntaxContextData.length) }

def fill (ctxt : SyntaxContext) (x : SyntaxContextData) : HygieneData :=
  { d with syntaxContextData := d.syntaxContextData.set ctxt x }

def allocCtxtFuel : Nat → HygieneData → SyntaxContext → ExpnId → Transparency → Result (SyntaxContext × HygieneData)
  | 0, _, _, _, _ => .error .diverged
  | fuel + 1, d, parent, expnId, transparency =>
    match d.syntaxContextMap (parent,expnId,transparency) with
    | some ctxt => .ok (ctxt,d)
    | none => do
      let ctxt ← fromUsize d.syntaxContextData.length
      let d := d.reserve (parent,expnId,transparency)
      let parentData ← d.ctxtData parent
      if parentData.dollarCrateName = symDummy then .error .dummyParent
      else do
        let parentOpaque := parentData.opaqueCtxt
        let parentOpaqueAndSemiOpaque := parentData.opaqueAndSemiOpaque
        let (o,os,d) ← match transparency with
          | .Transparent => pure (parentOpaque,parentOpaqueAndSemiOpaque,d)
          | .SemiOpaque => do
            let (os,d) ← allocCtxtFuel fuel d parentOpaqueAndSemiOpaque expnId transparency
            pure (parentOpaque,os,d)
          | .Opaque => do
            let (o,d) ← allocCtxtFuel fuel d parentOpaque expnId transparency
            let (os,d) ← allocCtxtFuel fuel d parentOpaqueAndSemiOpaque expnId transparency
            pure (o,os,d)
        return (ctxt,d.fill ctxt
          { outerExpn := expnId, outerTransparency := transparency, parent := parent,
            opaqueCtxt := o, opaqueAndSemiOpaque := os, dollarCrateName := kwDollarCrate })

def allocCtxt (parent : SyntaxContext) (expnId : ExpnId) (transparency : Transparency) :
    Result (SyntaxContext × HygieneData) :=
  allocCtxtFuel (d.syntaxContextData.length + 2) d parent expnId transparency

def allocMarks : HygieneData → SyntaxContext → List Mark → Result (SyntaxContext × HygieneData)
  | d, ctxt, [] => .ok (ctxt,d)
  | d, ctxt, m :: ms => do
    let (ctxt,d) ← d.allocCtxt ctxt m.1 m.2
    allocMarks d ctxt ms

def normalizeCallSite (transparency : Transparency) (callSite : SyntaxContext) : Result SyntaxContext :=
  if transparency = .SemiOpaque then d.normalizeToMacros20 callSite
  else d.normalizeToMacroRules callSite

def applyMark (ctxt : SyntaxContext) (expnId : ExpnId) (transparency : Transparency) :
    Result (SyntaxContext × HygieneData) :=
  if expnId = ExpnId.root then .error .rootMark
  else if transparency = .Opaque then d.allocCtxt ctxt expnId transparency
  else do
    let data ← d.expnData expnId
    let callSiteCtxt ← d.normalizeCallSite transparency data.callSite
    if callSiteCtxt = 0 then d.allocCtxt ctxt expnId transparency
    else do
      let ms ← d.marks ctxt
      let (callSiteCtxt,d) ← d.allocMarks callSiteCtxt ms
      d.allocCtxt callSiteCtxt expnId transparency

def globLoop : Nat → SyntaxContext → ExpnId → SyntaxContext → Option ExpnId →
    Result (Option (Option ExpnId × SyntaxContext))
  | 0, _, _, _, _ => .error .diverged
  | fuel + 1, globCtxt, expnId, ctxt, scope => do
    let outer ← d.outerExpn globCtxt
    if ← d.isDescendantOf (fuel + 1) expnId outer then return some (scope,ctxt)
    else do
      let (globMark,globParent) ← d.removeMark globCtxt
      let (mark,parent) ← d.removeMark ctxt
      if mark.1 ≠ globMark.1 then return none
      else globLoop fuel globParent expnId parent (some globMark.1)

def globAdjust (fuel : Nat) (ctxt : SyntaxContext) (expnId : ExpnId) (globSpan : SyntaxContext) :
    Result (Option (Option ExpnId × SyntaxContext)) := do
  let globCtxt ← d.normalizeToMacros20 globSpan
  match ← d.globLoop fuel globCtxt expnId ctxt none with
  | none => return none
  | some (scope,ctxt) =>
    let (removed,ctxt) ← d.adjust fuel ctxt expnId
    if removed.isSome then return none else return some (scope,ctxt)

def globMarks : Nat → SyntaxContext → ExpnId → List Mark → Result (List Mark)
  | 0, _, _, _ => .error .diverged
  | fuel + 1, globCtxt, expnId, marks => do
    let outer ← d.outerExpn globCtxt
    if ← d.isDescendantOf (fuel + 1) expnId outer then return marks
    else do
      let (mark,parent) ← d.removeMark globCtxt
      globMarks fuel parent expnId (marks ++ [mark])

def applyMarks : HygieneData → SyntaxContext → List Mark → Result (SyntaxContext × HygieneData)
  | d, ctxt, [] => .ok (ctxt,d)
  | d, ctxt, m :: ms => do
    let (ctxt,d) ← d.applyMark ctxt m.1 m.2
    applyMarks d ctxt ms

def reverseGlobAdjust (fuel : Nat) (ctxt : SyntaxContext) (expnId : ExpnId)
    (globSpan : SyntaxContext) : Result (Option (Option ExpnId × SyntaxContext) × HygieneData) := do
  let (removed,ctxt) ← d.adjust fuel ctxt expnId
  if removed.isSome then return (none,d)
  else do
    let globCtxt ← d.normalizeToMacros20 globSpan
    let marks ← d.globMarks fuel globCtxt expnId []
    let scope := marks.getLast?.map Prod.fst
    let (ctxt,d) ← d.applyMarks ctxt marks.reverse
    return (some (scope,ctxt),d)

end HygieneData

end Frontend.Hygiene
