import Frontend.TokenStream.Flat

namespace Frontend.Parse

open Ast TokenStream

inductive TokenCursor where
  | trees (cursor : TreeTokenCursor)
  | flat (cursor : FlatTokenCursor)

namespace TokenCursor

def new (stream : TokenStream) : TokenCursor := .trees (.new stream)

def sourceStream : TokenCursor → Option TokenStream
  | .trees cursor => if cursor.stack.isEmpty then some cursor.curr.stream else none
  | .flat _ => none

def cloneEnclosingDelim : TokenCursor → Option TokenTree
  | .trees cursor => cursor.cloneEnclosingDelim
  | .flat cursor => cursor.cloneEnclosingDelim

def bumpToEnd : TokenCursor → Option TokenCursor
  | .trees cursor => some (.trees cursor.bumpToEnd)
  | .flat cursor => cursor.bumpToEnd.map .flat

def nextAndBump : TokenCursor → Option ((Token × Spacing) × TokenCursor)
  | .trees cursor => cursor.nextAndBump.map fun r => (r.1,.trees r.2)
  | .flat cursor => some (cursor.nextAndBump.1,.flat cursor.nextAndBump.2)

end TokenCursor

abbrev TokenTypeSet := BitVec 128

namespace TokenTypeSet

def deferredExpectations : TokenTypeSet := 1#128 <<< 127

def isDeferred (set : TokenTypeSet) : Bool := set &&& deferredExpectations ≠ 0#128

def clear (set : TokenTypeSet) : TokenTypeSet := if isDeferred set then set else 0#128

end TokenTypeSet

inductive Capturing where
  | No
  | Yes
  | Disabled
deriving DecidableEq, Repr

structure CaptureState where
  capturing : Capturing
  parserReplacements : List (Nat × Nat)
  innerAttrParserRanges : List (UInt32 × Nat × Nat)
  seenAttrs : List (UInt32 × UInt32)

def capture (capturing : Capturing) : CaptureState := ⟨capturing,[],[],[]⟩

inductive Recovery where
  | Allowed
  | Forbidden
deriving DecidableEq, Repr

structure ClosureSpans where
  wholeClosure : Span
  closingPipe : Span
  body : Span

structure State where
  captureState : CaptureState
  token : Token
  tokenSpacing : Spacing
  prevToken : Token
  captureCfg : Bool
  restrictions : UInt8
  expectedTokenTypes : TokenTypeSet
  tokenCursor : TokenCursor
  numBumpCalls : UInt32
  breakLastToken : UInt32
  unmatchedAngleBracketCount : UInt16
  angleBracketNesting : UInt16
  parsingGenerics : Bool
  lastUnexpectedTokenSpan : Option Span
  subparserName : Option String
  currentClosure : Option ClosureSpans
  recovery : Recovery
  inFnBody : Bool
  fnBodyMissingSemiGuar : Option Unit

namespace State

def body (state : State) : State :=
  { state with captureState := capture state.captureState.capturing }

def continuationMatches (state parser : State) : Bool :=
  parser.restrictions = state.restrictions && (parser.expectedTokenTypes = 0#128 ||
      (TokenTypeSet.isDeferred state.expectedTokenTypes && TokenTypeSet.isDeferred parser.expectedTokenTypes)) &&
    parser.breakLastToken = 0 &&
    parser.unmatchedAngleBracketCount = state.unmatchedAngleBracketCount &&
    parser.angleBracketNesting = state.angleBracketNesting &&
    parser.parsingGenerics = state.parsingGenerics &&
    parser.lastUnexpectedTokenSpan = state.lastUnexpectedTokenSpan &&
    parser.inFnBody &&
    parser.fnBodyMissingSemiGuar.isNone

def new (cursor : TokenCursor) (subparserName : Option String) : State where
  captureState := capture .No
  token := Token.dummy
  tokenSpacing := .Alone
  prevToken := Token.dummy
  captureCfg := false
  restrictions := 0
  expectedTokenTypes := 0#128
  tokenCursor := cursor
  numBumpCalls := 0
  breakLastToken := 0
  unmatchedAngleBracketCount := 0
  angleBracketNesting := 0
  parsingGenerics := false
  lastUnexpectedTokenSpan := none
  subparserName := subparserName
  currentClosure := none
  recovery := .Allowed
  inFnBody := false
  fnBodyMissingSemiGuar := none

def bump (state : State) : Option State := do
  let (next,cursor) ← state.tokenCursor.nextAndBump
  let token : Token :=
    if next.1.span = .dummySp then ⟨next.1.kind,state.token.span⟩ else next.1
  some { state with
    tokenCursor := cursor
    numBumpCalls := state.numBumpCalls + 1
    breakLastToken := 0
    prevToken := state.token
    token := token
    tokenSpacing := next.2
    expectedTokenTypes := TokenTypeSet.clear state.expectedTokenTypes }

def bumps : Nat → State → Option State
  | 0, state => some state
  | n + 1, state => do bumps n (← state.bump)

def newWithCursor (cursor : TokenCursor) (subparserName : Option String) : Option State := do
  let parser ← (new cursor subparserName).bump
  some { parser with numBumpCalls := 0 }

end State

end Frontend.Parse
