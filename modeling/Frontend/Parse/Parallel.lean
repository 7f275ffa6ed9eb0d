import Frontend.Parse.Count
import Frontend.Parse.Session
import Frontend.Parse.Splice

namespace Frontend.Parse

open Ast Library TokenStream
open SpanEncoding (SpanInterner SpanData)

variable {L : Type} (facts : SpanFacts)

structure Deferral (L : Type) where
  ident : Ident
  innerAttributes : List (Action L)
  innerOk : Bool

def deferrable : TokenTree → Option TokenStream
  | .Delimited spans _ .Brace stream => do
    let bytes ← checkedSub spans.closing.hi spans.opening.lo
    if bytes > 0x7ffe || !facts.ctxtIsRoot spans.opening || facts.hasParent spans.opening then none
    else some stream
  | _ => none

def bodyCursor (tree : TokenTree) (subparserName : Option String) (prefixBumps : UInt32) : Option TokenCursor := do
  let subtree ← State.newWithCursor (.new [tree]) subparserName
  let subtree ← subtree.bumps prefixBumps.toNat
  some subtree.tokenCursor

def toCloseBrace (state : State) : Option State :=
  if state.token.kind ≠ .CloseBrace then do
    let cursor ← state.tokenCursor.bumpToEnd
    State.bump { state with tokenCursor := cursor }
  else some state

def requireCloseBrace (state : State) : Option Unit :=
  if state.token.kind ≠ .CloseBrace then none else some ()

def deferAdmitted (d : Deferral L) (tree : TokenTree) (stream : TokenStream) (state : State) : ParseM L State := do
  let counts ← ofOption .retryParseSerial (count stream true)
  let entryBumps := state.numBumpCalls
  let endBumps ← ofOption .retryParseSerial ((checkedAdd entryBumps.toNat counts.1).bind (checkedAdd · 2))
  let lo := state.token.span
  let maybeIdent := state.prevToken
  let beforeAttrs ← position .item
  let state ← ofOption .panic state.bump
  let state ← runActions itemPass d.innerAttributes state
  if d.innerOk = false then return state
  let prefixAttrs := (← position .item) - beforeAttrs
  let remainingAttrs ← ofOption .retryParseSerial (checkedSub counts.2 prefixAttrs.toNat)
  let attrStart ← ofOption .retryParseSerial (← reserve .item remainingAttrs)
  let cursor ← ofOption .panic (bodyCursor tree state.subparserName (state.numBumpCalls - entryBumps))
  let before ← takeParseEffects .item
  let job : BodyJob L :=
    { ident := d.ident.span
      lo := lo
      maybeIdent := maybeIdent
      state := { state.body with tokenCursor := cursor, inFnBody := true }
      attrStart := attrStart
      attrEnd := attrStart + UInt32.ofNat remainingAttrs
      endBumps := UInt32.ofNat endBumps
      before := before }
  let state ← ofOption .panic (toCloseBrace state)
  ofOption .retryParseSerial (requireCloseBrace state)
  let state ← ofOption .panic state.bump
  modify fun w => { w with jobs := w.jobs ++ [job] }.addLog .item .deferred
  return { state with numBumpCalls := UInt32.ofNat endBumps }

def deferFunctionBody (d : Deferral L) (state : State) : ParseM L State := do
  if state.token.kind ≠ .OpenBrace || state.captureCfg then return state
  let tree ← ofOption .panic state.tokenCursor.cloneEnclosingDelim
  match deferrable facts tree with
  | none => return state
  | some stream => deferAdmitted d tree stream state

inductive ItemStep (L : Type) where
  | act (action : Action L)
  | deferBody (d : Deferral L)

def ItemStep.run (state : State) : ItemStep L → ParseM L State
  | .act action => action.run itemPass state
  | .deferBody d => deferFunctionBody facts d state

structure Body (L : Type) where
  block : Block
  effects : ParseEffects L

inductive Phase (L : Type) where
  | waiting
  | running (state : State)
  | returned (body : Option (Body L))
  | panicked

inductive BodyStep (L : Type) where
  | enter
  | act (action : Action L)
  | leave (result : Option Block)

def finishBody (job : BodyJob L) (index : Nat) (parser : State) (result : Option Block) :
    ParseM L (Option (Body L)) := do
  match result with
  | none => return none
  | some block =>
    if parser.token.kind ≠ .Eof || parser.numBumpCalls ≠ job.endBumps ||
        !job.state.continuationMatches parser || (← position (.body index)) ≠ job.attrEnd then
      return none
    if (← clean (.body index)) = false then return none
    return some ⟨block,← takeParseEffects (.body index)⟩

def attempt (f : ParseM L State) : ParseM L (Phase L) := fun w =>
  match speculateParse f w with
  | .ok (some state) w => .ok (.running state) w
  | .ok none w => .ok (.returned none) w
  | .error _ w => .ok .panicked w

def BodyStep.run (job : BodyJob L) (index : Nat) : Phase L → BodyStep L → ParseM L (Phase L)
  | .waiting, .enter => do
    setSession (.body index) (.session job.attrStart)
    return .running job.state.body
  | .running state, .act action => attempt (action.run (bodyPass index) state)
  | .running state, .leave result => return .returned (← finishBody job index state result)
  | phase, _ => return phase

abbrev Phases (L : Type) := Nat → Phase L

def bodyStep (jobs : List (BodyJob L)) (phases : Phases L) (step : Nat × BodyStep L) : ParseM L (Phases L) := do
  match jobs[step.1]? with
  | none => return phases
  | some job => return Function.update phases step.1 (← step.2.run job step.1 (phases step.1))

def Phase.output : Phase L → ParseM L (Option (Body L))
  | .returned body => return body
  | .panicked => throw .panic
  | _ => throw .unfinished

def runBodies (jobs : List (BodyJob L)) (schedule : List (Nat × BodyStep L)) : ParseM L (List (Option (Body L))) := do
  let phases ← schedule.foldlM (bodyStep jobs) fun _ => .waiting
  (List.range jobs.length).mapM fun index => (phases index).output

structure Gathered (L : Type) where
  blocks : List (Span × Block)
  effects : List (ParseEffects L)

def Gathered.add (g : Gathered L) (entry : BodyJob L × Option (Body L)) : Option (Gathered L) := do
  let body ← entry.2
  if entry.1.ident ∈ g.blocks.map Prod.fst then none
  else some ⟨g.blocks ++ [(entry.1.ident,body.block)],g.effects ++ [entry.1.before,body.effects]⟩

structure Candidate (L : Type) where
  krate : Crate
  state : State
  effects : List (ParseEffects L)
  attrEnd : UInt32

structure Run (L : Type) where
  parallelHere : Bool
  canShare : Bool
  items : List (ItemStep L)
  parsed : Option Crate
  jobsShared : Bool
  forkShared : Bool
  schedule : List (Nat × BodyStep L)
  inputShared : Bool
  foreignSpans : List SpanData
  foreignAttrs : UInt32
  lateAttrs : UInt32

section

variable (run : Run L)

def buildCandidate (state : State) (krate : Crate) (jobs : List (BodyJob L)) : ParseM L (Option (Candidate L)) := do
  let output ← runBodies jobs run.schedule
  if run.inputShared then return none
  match (jobs.zip output).foldlM Gathered.add ⟨[],[]⟩ with
  | none => return none
  | some gathered =>
    let (splice,krate) := Splice.visitCrate ⟨gathered.blocks,false⟩ krate
    if splice.inconsistent || !splice.blocks.isEmpty then return none
    let tail ← takeParseEffects .item
    return some ⟨krate,state,gathered.effects ++ [tail],← position .item⟩

def candidate (attrStart : UInt32) (initial : State) : ParseM L (Option (Candidate L)) := do
  setSession .item (.session attrStart)
  modify fun w => { w with jobs := [] }
  let state ← run.items.foldlM (fun state step => step.run facts state) initial
  match run.parsed with
  | none => return none
  | some krate =>
    if (← clean .item) = false then return none
    if run.jobsShared then return none
    let jobs := (← get).jobs
    if jobs.length < 2 then return none
    if run.forkShared = false then return none
    buildCandidate run state krate jobs

def preconditions (parser : Parser) (psess : ParseSess L) : Bool :=
  run.parallelHere && !parser.bodyJobs && !parser.state.captureCfg &&
    parser.state.subparserName.isNone && parser.state.numBumpCalls = 0 &&
    parser.state.tokenCursor.sourceStream.any facts.sourceTokens && !psess.hasErrors

def forkForParse : ParseM L Nat := do
  let spans := (← get).spans .original
  modify fun w => w.setSpans .fork spans
  return spans.length

def commitParseSpans (baseline : Nat) : ParseM L Bool := do
  let w ← get
  if (w.spans .original).length ≠ baseline then return false
  modify fun w => (w.setSpans .original (w.spans .fork)).setSpans .fork []
  return true

def interfere (spans : List SpanData) (attrs : UInt32) : ParseM L Unit :=
  modify fun w =>
    (w.setSpans .original (w.spans .original ++ spans)).setSession .caller
      { w.session .caller with attrId := (w.session .caller).attrId + attrs }

def commit (attrStart : UInt32) (baseline : Nat) (candidate : Candidate L) : ParseM L (Option Crate) := do
  if (← position .caller) ≠ attrStart then return none
  if (← commitParseSpans baseline) = false then return none
  interfere [] run.lateAttrs
  if (← commitAttrIds .caller attrStart candidate.attrEnd) = false then throw .panic
  candidate.effects.forM (appendParseEffects .caller)
  modify fun w => { w with parser := { w.parser with state := candidate.state } }
  return some candidate.krate

def parseParallelBodies : ParseM L (Option Crate) := do
  let w ← get
  if preconditions facts run w.parser (w.session .caller) = false then return none
  let attrStart ← position .caller
  if run.canShare = false then return none
  let baseline ← forkForParse
  interfere run.foreignSpans run.foreignAttrs
  let initial := w.parser.state
  match (← speculateParse (candidate facts run attrStart initial)).join with
  | none => return none
  | some candidate => commit run attrStart baseline candidate

end

end Frontend.Parse
