import Frontend.TokenStream.Tree

namespace Frontend.TokenStream

open Ast

def outerIndex : Nat := 2 ^ 32 - 1

structure SourceToken where
  token : Token
  spacing : Spacing
  matching : Nat
  enclosingAfter : Nat
deriving DecidableEq, Repr

structure FlatTokenBuffer where
  tokens : List SourceToken
  enclosing : Nat
deriving DecidableEq, Repr

namespace FlatTokenBuffer

def new : FlatTokenBuffer := ⟨[],outerIndex⟩

section

variable (b : FlatTokenBuffer)

def push (token : Token) (spacing : Spacing) : FlatTokenBuffer :=
  { b with tokens := b.tokens ++ [⟨token,spacing,outerIndex,b.enclosing⟩] }

def opening (token : Token) : Option FlatTokenBuffer :=
  if b.tokens.length < outerIndex then
    some ({ b with enclosing := b.tokens.length }.push token .Alone)
  else none

def parentOf (index : Nat) : Option Nat :=
  if index = 0 then some outerIndex else b.tokens[index - 1]?.map (·.enclosingAfter)

def closing (b : FlatTokenBuffer) (span : DelimSpan) (spacing : DelimSpacing) : Option FlatTokenBuffer :=
  if b.tokens.length < outerIndex then do
    let index := b.enclosing
    let parent ← b.parentOf index
    let entry ← b.tokens[index]?
    let delim ← entry.token.kind.openDelim
    let tokens := b.tokens.set index { entry with spacing := spacing.opening, matching := b.tokens.length }
    return ⟨tokens ++ [⟨⟨delim.asCloseTokenKind,span.closing⟩,spacing.closing,index,parent⟩],parent⟩
  else none

def call : SinkCall → Option FlatTokenBuffer
  | .push token spacing => some (b.push token spacing)
  | .opening token => b.opening token
  | .closing span spacing _ => b.closing span spacing

end

def run : FlatTokenBuffer → List SinkCall → Option FlatTokenBuffer
  | b, [] => some b
  | b, c :: calls => do run (← b.call c) calls

section

variable (tokens : List SourceToken)

def nextTreeIndex (index : Nat) : Option Nat :=
  tokens[index]?.map fun entry =>
    if entry.matching ≠ outerIndex then entry.matching + 1 else index + 1

def countTrees (tokens : List SourceToken) : Nat → Nat → Nat → Option Nat
  | 0, _, _ => none
  | fuel + 1, index, stop =>
    if index < stop then do
      let next ← nextTreeIndex tokens index
      return (← countTrees tokens fuel next stop) + 1
    else some 0

def collectTrees (tokens : List SourceToken) (tree : Nat → Option TokenTree) : Nat → Nat → Option (List TokenTree)
  | 0, _ => some []
  | remaining + 1, index => do
    let head ← tree index
    let next ← nextTreeIndex tokens index
    return head :: (← collectTrees tokens tree remaining next)

def streamWith (tree : Nat → Option TokenTree) (start stop : Nat) : Option TokenStream := do
  let remaining ← countTrees tokens (tokens.length + 1) start stop
  collectTrees tokens tree remaining start

def treeFuel (tokens : List SourceToken) : Nat → Nat → Option TokenTree
  | 0, _ => none
  | fuel + 1, index => do
    let entry ← tokens[index]?
    match entry.token.kind.openDelim with
    | some delim =>
      let last ← tokens[entry.matching]?
      let stream ← streamWith tokens (treeFuel tokens fuel) (index + 1) entry.matching
      return .Delimited ⟨entry.token.span,last.token.span⟩ ⟨entry.spacing,last.spacing⟩ delim stream
    | none => return .Token entry.token entry.spacing

def tree (index : Nat) : Option TokenTree := treeFuel tokens (tokens.length + 1) index

def stream (start stop : Nat) : Option TokenStream := streamWith tokens (tree tokens) start stop

end

end FlatTokenBuffer

structure FlatTokenCursor where
  buffer : List SourceToken
  nextIdx : Nat

namespace FlatTokenCursor

open FlatTokenBuffer

def new (b : FlatTokenBuffer) : FlatTokenCursor := ⟨b.tokens,0⟩

def notOuter (index : Nat) : Option Nat := if index ≠ outerIndex then some index else none

def enclosing (c : FlatTokenCursor) : Option Nat :=
  if c.nextIdx = 0 then none
  else (c.buffer[c.nextIdx - 1]?.map (·.enclosingAfter)).bind notOuter

section

variable (c : FlatTokenCursor)

def stop : Option Nat :=
  match c.enclosing with
  | none => some c.buffer.length
  | some i => c.buffer[i]?.map (·.matching)

def advance (tokens : List SourceToken) (stop : Nat) : Nat → Nat → Option (Option Nat)
  | 0, index => some (some index)
  | n + 1, index =>
    if index ≥ stop then some none
    else do advance tokens stop n (← nextTreeIndex tokens index)

def lookAhead (n : Nat) : Option (Option TokenTree) := do
  let stop ← c.stop
  match ← advance c.buffer stop (n - 1) c.nextIdx with
  | none => return none
  | some index => if index < stop then return some (← tree c.buffer index) else return none

def lookAheadToken (dist : Nat) : Token :=
  if dist = 0 then Token.dummy
  else (c.buffer[c.nextIdx + (dist - 1)]?.map (·.token)).getD Token.eof

def lookAheadPastCloseDelim : Option (Option TokenTree) := do
  let index ← c.enclosing
  let entry ← c.buffer[index]?
  match c.buffer[entry.matching + 1]? with
  | none => return none
  | some next =>
    if next.token.kind.closeDelim.isSome then return none
    else return some (← tree c.buffer (entry.matching + 1))

def cloneEnclosingDelim : Option TokenTree := do
  tree c.buffer (← c.enclosing)

def bumpToEnd : Option FlatTokenCursor := do
  return { c with nextIdx := ← c.stop }

def depthLoop (tokens : List SourceToken) : Nat → Option Nat → Option Nat
  | _, none => some 0
  | 0, some _ => none
  | fuel + 1, some index => do
    let entry ← tokens[index]?
    let close ← tokens[entry.matching]?
    return (← depthLoop tokens fuel (notOuter close.enclosingAfter)) + 1

def depth : Option Nat := depthLoop c.buffer c.buffer.length c.enclosing

def parentDelimAndSpan : Option (Option (Delimiter × DelimSpan)) :=
  match c.enclosing with
  | none => some none
  | some index => do
    let first ← c.buffer[index]?
    let last ← c.buffer[first.matching]?
    let delim ← first.token.kind.openDelim
    return some (delim,⟨first.token.span,last.token.span⟩)

def nextAndBump : (Token × Spacing) × FlatTokenCursor :=
  match c.buffer[c.nextIdx]? with
  | some entry => ((entry.token,entry.spacing),{ c with nextIdx := c.nextIdx + 1 })
  | none => ((Token.eof,.Alone),c)

end

end FlatTokenCursor

end Frontend.TokenStream
