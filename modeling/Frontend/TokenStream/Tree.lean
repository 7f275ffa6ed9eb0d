import Frontend.Ast.Token

namespace Frontend.TokenStream

open Ast

inductive SinkCall where
  | push (token : Token) (spacing : Spacing)
  | opening (token : Token)
  | closing (span : DelimSpan) (spacing : DelimSpacing) (delim : Delimiter)

inductive WellNested : List SinkCall → Prop
  | nil : WellNested []
  | push {t : Token} {s : Spacing} {calls : List SinkCall} : t.kind.isDelim = false → WellNested calls →
      WellNested (.push t s :: calls)
  | group {t : Token} {d : Delimiter} {close : Span} {spacing : DelimSpacing} {body calls : List SinkCall} :
      t.kind.openDelim = some d → d.skip = false → WellNested body → WellNested calls →
      WellNested (.opening t :: (body ++ .closing ⟨t.span,close⟩ spacing d :: calls))

structure TreeSink where
  trees : List TokenTree
  starts : List Nat

namespace TreeSink

def finish (sink : TreeSink) (start : Nat) : TokenStream := sink.trees.drop start

def call (sink : TreeSink) : SinkCall → Option TreeSink
  | .push token spacing => some { sink with trees := sink.trees ++ [.Token token spacing] }
  | .opening _ => some { sink with starts := sink.trees.length :: sink.starts }
  | .closing span spacing delim =>
    match sink.starts with
    | [] => none
    | start :: starts => some ⟨sink.trees.take start ++ [.Delimited span spacing delim (sink.finish start)],starts⟩

def run : TreeSink → List SinkCall → Option TreeSink
  | sink, [] => some sink
  | sink, c :: calls => do run (← sink.call c) calls

theorem run_append (sink : TreeSink) (a b : List SinkCall) :
    sink.run (a ++ b) = (sink.run a).bind fun sink => sink.run b := by
  induction a generalizing sink with
  | nil => rfl
  | cons c a ih =>
    simp only [List.cons_append,run]
    cases h : sink.call c with
    | none => rfl
    | some sink' => simpa using ih sink'

end TreeSink

structure TokenTreeCursor where
  stream : TokenStream
  nextIdx : Nat

namespace TokenTreeCursor

def new (stream : TokenStream) : TokenTreeCursor := ⟨stream,0⟩
def curr (c : TokenTreeCursor) : Option TokenTree := c.stream[c.nextIdx - 1]?
def next (c : TokenTreeCursor) : Option TokenTree := c.stream[c.nextIdx]?
def lookAhead (c : TokenTreeCursor) (n : Nat) : Option TokenTree := c.stream[c.nextIdx + (n - 1)]?
def bump (c : TokenTreeCursor) : TokenTreeCursor := { c with nextIdx := c.nextIdx + 1 }
def bumpToEnd (c : TokenTreeCursor) : TokenTreeCursor := { c with nextIdx := c.stream.length }

end TokenTreeCursor

structure TokenCursorFrame where
  cursor : TokenTreeCursor
  depth : Nat

structure TreeTokenCursor where
  curr : TokenTreeCursor
  stack : List TokenCursorFrame

mutual

def treeSize : TokenTree → Nat
  | .Token .. => 1
  | .Delimited _ _ _ tts => streamSize tts + 2

def streamSize : List TokenTree → Nat
  | [] => 0
  | tree :: trees => treeSize tree + streamSize trees

end

namespace TreeTokenCursor

def new (stream : TokenStream) : TreeTokenCursor := ⟨.new stream,[]⟩

section

variable (c : TreeTokenCursor)

def parent : Option TokenTreeCursor := c.stack.head?.map (·.cursor)

def depth (c : TreeTokenCursor) : Nat := (c.stack.head?.map (·.depth)).getD 0

def pushFrame (cursor : TokenTreeCursor) : List TokenCursorFrame := ⟨cursor,c.depth + 1⟩ :: c.stack

def stepsLeft : Nat :=
  streamSize (c.curr.stream.drop c.curr.nextIdx) +
    (c.stack.map fun f => streamSize (f.cursor.stream.drop f.cursor.nextIdx) + 1).sum

end

def nextLoop : Nat → TreeTokenCursor → Option ((Token × Spacing) × TreeTokenCursor)
  | 0, _ => none
  | fuel + 1, c =>
    match c.curr.next with
    | some (.Token token spacing) => some ((token,spacing),{ c with curr := c.curr.bump })
    | some (.Delimited sp spacing delim tts) =>
      let c' : TreeTokenCursor := ⟨.new tts,c.pushFrame c.curr.bump⟩
      if delim.skip then nextLoop fuel c'
      else some ((⟨delim.asOpenTokenKind,sp.opening⟩,spacing.opening),c')
    | none =>
      match c.stack with
      | [] => some ((Token.eof,.Alone),c)
      | frame :: stack =>
        let c' : TreeTokenCursor := ⟨frame.cursor,stack⟩
        match c'.curr.curr with
        | some (.Delimited span spacing delim _) =>
          if delim.skip then nextLoop fuel c'
          else some ((⟨delim.asCloseTokenKind,span.closing⟩,spacing.closing),c')
        | _ => none

section

variable (c : TreeTokenCursor)

def nextAndBump : Option ((Token × Spacing) × TreeTokenCursor) := nextLoop (c.stepsLeft + 1) c

def lookAhead (c : TreeTokenCursor) (n : Nat) : Option TokenTree := c.curr.lookAhead n

def lookAheadMaxEntered : Nat := 8

structure Walk where
  entered : List TokenTreeCursor
  outer : List TokenCursorFrame
  cursor : TokenTreeCursor

inductive WalkStep where
  | token (token : Token) (walk : Walk)
  | again (walk : Walk)
  | tooDeep
  | panics

def Walk.step (w : Walk) : WalkStep :=
  match w.cursor.next with
  | some (.Token token _) => .token token { w with cursor := w.cursor.bump }
  | some (.Delimited sp _ delim tts) =>
    if w.entered.length = lookAheadMaxEntered then .tooDeep
    else
      let w : Walk := { w with entered := w.cursor.bump :: w.entered, cursor := .new tts }
      if delim.skip then .again w else .token ⟨delim.asOpenTokenKind,sp.opening⟩ w
  | none =>
    let up (w : Walk) : WalkStep :=
      match w.cursor.curr with
      | some (.Delimited span _ delim _) =>
        if delim.skip then .again w else .token ⟨delim.asCloseTokenKind,span.closing⟩ w
      | _ => .panics
    match w.entered, w.outer with
    | cursor :: entered, _ => up { w with entered := entered, cursor := cursor }
    | [], frame :: outer => up { w with outer := outer, cursor := frame.cursor }
    | [], [] => .token Token.eof w

def skippedToken : TokenKind → Bool
  | .OpenInvisible origin | .CloseInvisible origin => origin.skip
  | _ => false

theorem skippedToken_of_not_isDelim (h : k.isDelim = false) : skippedToken k = false := by
  cases k <;> simp_all [skippedToken,TokenKind.isDelim,TokenKind.openDelim,TokenKind.closeDelim]

theorem skippedToken_asOpenTokenKind {d : Delimiter} (h : d.skip = false) : skippedToken d.asOpenTokenKind = false := by
  cases d <;> simp_all [skippedToken,Delimiter.asOpenTokenKind,Delimiter.skip]

theorem skippedToken_asCloseTokenKind {d : Delimiter} (h : d.skip = false) :
    skippedToken d.asCloseTokenKind = false := by
  cases d <;> simp_all [skippedToken,Delimiter.asCloseTokenKind,Delimiter.skip]

def walkLoop : Nat → Nat → Token → Walk → Option (Option Token)
  | 0, _, _, _ => none
  | _ + 1, 0, token, _ => some (some token)
  | fuel + 1, dist + 1, token, w =>
    match w.step with
    | .token token w =>
      if skippedToken token.kind then walkLoop fuel (dist + 1) token w
      else walkLoop fuel dist token w
    | .again w => walkLoop fuel (dist + 1) token w
    | .tooDeep => some none
    | .panics => none

def lookAheadToken (dist : Nat) : Option (Option Token) :=
  walkLoop (c.stepsLeft + dist + 1) dist Token.dummy ⟨[],c.stack,c.curr⟩

def lookAheadPastCloseDelim : Option (Option TokenTree) := c.parent.map TokenTreeCursor.next

def cloneEnclosingDelim : Option TokenTree := c.parent.bind TokenTreeCursor.curr

def bumpToEnd (c : TreeTokenCursor) : TreeTokenCursor := { c with curr := c.curr.bumpToEnd }

def parentDelimAndSpan : Option (Delimiter × DelimSpan) :=
  match c.parent.bind TokenTreeCursor.curr with
  | some (.Delimited span _ delim _) => some (delim,span)
  | _ => none

end

end TreeTokenCursor

end Frontend.TokenStream
