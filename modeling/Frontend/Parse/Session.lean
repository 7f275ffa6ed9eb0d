import Frontend.Library.Stateful
import Frontend.Parse.Effects
import Frontend.Parse.ParserState
import Frontend.Span.SpanSession

namespace Frontend.Parse

open Ast Library
open SpanEncoding (SpanInterner SpanData)

structure ParseSess (L : Type) where
  attrId : UInt32
  effects : ParseEffects L
  diagnostic : Bool
  hasErrors : Bool
  stashed : Nat

namespace ParseSess

variable {L : Type}

def session (attrStart : UInt32) : ParseSess L := ⟨attrStart,.empty,false,false,0⟩

def emitStashedDiagnostics (psess : ParseSess L) : ParseSess L :=
  { psess with diagnostic := psess.diagnostic || psess.stashed ≠ 0, stashed := 0 }

def isClean (psess : ParseSess L) : Bool := !psess.diagnostic && !psess.hasErrors

end ParseSess

inductive TableId where
  | original
  | fork
deriving DecidableEq, Repr

inductive SessionId where
  | caller
  | item
  | body (index : Nat)
deriving DecidableEq, Repr

structure BodyJob (L : Type) where
  ident : Span
  lo : Span
  maybeIdent : Token
  state : State
  attrStart : UInt32
  attrEnd : UInt32
  endBumps : UInt32
  before : ParseEffects L

inductive Event (L : Type) where
  | effect (effect : Effect L)
  | attrId
  | deferred

structure Parser where
  state : State
  bodyJobs : Bool

structure World (L : Type) where
  parser : Parser
  session : SessionId → ParseSess L
  spans : TableId → SpanInterner
  jobs : List (BodyJob L)
  -- which session recorded what, in the order in which it happened
  log : List (SessionId × Event L)

inductive Stop where
  | retryParseSerial
  | fatal
  | panic
  | unfinished
deriving DecidableEq, Repr

abbrev ParseM (L : Type) := EStateM Stop (World L)

section

variable {L : Type}

namespace World

def setSession (w : World L) (id : SessionId) (psess : ParseSess L) : World L :=
  { w with session := Function.update w.session id psess }

def setSpans (w : World L) (id : TableId) (spans : SpanInterner) : World L :=
  { w with spans := Function.update w.spans id spans }

def addLog (w : World L) (id : SessionId) (event : Event L) : World L :=
  { w with log := w.log ++ [(id,event)] }

end World

def ofOption {α : Type} (stop : Stop) : Option α → ParseM L α
  | some a => pure a
  | none => throw stop

section

variable (id : SessionId)

def getSession : ParseM L (ParseSess L) := do return (← get).session id

def setSession (id : SessionId) (psess : ParseSess L) : ParseM L Unit := modify fun w => w.setSession id psess

def mkAttrId : ParseM L Unit := do
  let psess ← getSession id
  setSession id { psess with attrId := psess.attrId + 1 }
  if psess.attrId = 0xFFFFFFFF then throw .panic
  modify fun w => w.addLog id .attrId

def position : ParseM L UInt32 := do return (← getSession id).attrId

def reserve (count : Nat) : ParseM L (Option UInt32) := do
  let psess ← getSession id
  let stop := psess.attrId.toNat + count
  if stop < 2 ^ 32 - 1 then
    setSession id { psess with attrId := UInt32.ofNat stop }
    return some psess.attrId
  else return none

def commitAttrIds (start stop : UInt32) : ParseM L Bool := do
  let psess ← getSession id
  if psess.attrId = start then
    setSession id { psess with attrId := stop }
    return true
  else return false

def recordEffect (effect : Effect L) : ParseM L Unit := do
  let psess ← getSession id
  let effects ← ofOption .panic (psess.effects.record effect)
  setSession id { psess with effects := effects }
  modify fun w => w.addLog id (.effect effect)

def takeParseEffects : ParseM L (ParseEffects L) := do
  let psess ← getSession id
  setSession id { psess with effects := .empty }
  return psess.effects

def appendParseEffects (effects : ParseEffects L) : ParseM L Unit := do
  let psess ← getSession id
  setSession id { psess with effects := psess.effects.append effects }

def clean : ParseM L Bool := do
  let psess ← getSession id
  setSession id psess.emitStashedDiagnostics
  return psess.emitStashedDiagnostics.isClean

end

end

structure Access where
  symbols : Bool
  spans : Bool

structure Context where
  psess : SessionId
  globals : TableId
  access : Access

def itemPass : Context := ⟨.item,.fork,⟨false,true⟩⟩

def bodyPass (index : Nat) : Context := ⟨.body index,.fork,⟨false,false⟩⟩

inductive Action (L : Type) where
  | bump
  | move (state : State)
  | newSpan (lo hi ctxt : UInt32) (parent : Option UInt32)
  | internSymbol (known : Bool)
  | mkAttrId
  | record (effect : Effect L)
  | emit (error : Bool)
  | stash
  | steal
  | raise (stop : Stop)

variable {L : Type}

def Action.run (context : Context) (state : State) : Action L → ParseM L State
  | .bump => ofOption .panic state.bump
  | .move state => return state
  | .newSpan lo hi ctxt parent => do
    let spans := (← get).spans context.globals
    let grown := (SpanEncoding.Span.new lo hi ctxt parent spans).2
    if grown ≠ spans ∧ context.access.spans = false then throw .retryParseSerial
    modify fun w => w.setSpans context.globals grown
    return state
  | .internSymbol known => do
    if known = false ∧ context.access.symbols = false then throw .retryParseSerial
    return state
  | .mkAttrId => do
    Parse.mkAttrId context.psess
    return state
  | .record effect => do
    recordEffect context.psess effect
    return state
  | .emit error => do
    let psess ← getSession context.psess
    setSession context.psess { psess with diagnostic := true, hasErrors := psess.hasErrors || error }
    return state
  | .stash => do
    let psess ← getSession context.psess
    setSession context.psess { psess with stashed := psess.stashed + 1 }
    return state
  | .steal => do
    let psess ← getSession context.psess
    setSession context.psess { psess with stashed := psess.stashed - 1 }
    return state
  | .raise stop => throw stop

def runActions (context : Context) (actions : List (Action L)) (state : State) : ParseM L State :=
  actions.foldlM (fun state action => action.run context state) state

def speculateParse {α : Type} (f : ParseM L α) : ParseM L (Option α) := fun w =>
  match f w with
  | .ok a w => .ok (some a) w
  | .error .retryParseSerial w => .ok none w
  | .error .fatal w => .ok none w
  | .error stop w => .error stop w

end Frontend.Parse
