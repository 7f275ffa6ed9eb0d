import Mathlib.Data.List.Basic

namespace Frontend.SpanEncoding

structure SpanData where
  lo : UInt32
  hi : UInt32
  ctxt : UInt32
  parent : Option UInt32
deriving DecidableEq, Repr

structure Span where
  loOrIndex : UInt32
  lenWithTagOrMarker : UInt16
  ctxtOrParentOrMarker : UInt16
deriving DecidableEq, Repr

def maxLen : UInt32 := 0x7FFE
def maxCtxt : UInt32 := 0x7FFE
def parentTag : UInt16 := 0x8000
def baseLenInternedMarker : UInt16 := 0xFFFF
def ctxtInternedMarker : UInt16 := 0xFFFF

abbrev SpanInterner := List SpanData

namespace SpanInterner

def intern (spans : SpanInterner) (data : SpanData) : UInt32 × SpanInterner :=
  if data ∈ spans then (UInt32.ofNat (spans.idxOf data),spans)
  else (UInt32.ofNat spans.length,spans ++ [data])

def get (spans : SpanInterner) (index : UInt32) : Option SpanData := spans[index.toNat]?

end SpanInterner

inductive SpanKind where
  | InlineCtxt (lo : UInt32) (len ctxt : UInt16)
  | InlineParent (lo : UInt32) (lenWithTag parent : UInt16)
  | PartiallyInterned (index : UInt32) (ctxt : UInt16)
  | Interned (index : UInt32)
deriving DecidableEq, Repr

def inlineCtxtSpan (lo : UInt32) (len ctxt : UInt16) : Span := ⟨lo,len,ctxt⟩
def inlineParentSpan (lo : UInt32) (len parent : UInt16) : Span := ⟨lo,parentTag ||| len,parent⟩
def partiallyInternedSpan (index : UInt32) (ctxt : UInt16) : Span := ⟨index,baseLenInternedMarker,ctxt⟩
def internedSpan (index : UInt32) : Span := ⟨index,baseLenInternedMarker,ctxtInternedMarker⟩

namespace SpanData

def isDummy (data : SpanData) : Bool := data.lo = 0 && data.hi = 0

end SpanData

namespace Span

section

variable (span : Span)

def kind : SpanKind :=
  if span.lenWithTagOrMarker ≠ baseLenInternedMarker then
    if span.lenWithTagOrMarker &&& parentTag = 0 then
      .InlineCtxt span.loOrIndex span.lenWithTagOrMarker span.ctxtOrParentOrMarker
    else .InlineParent span.loOrIndex span.lenWithTagOrMarker span.ctxtOrParentOrMarker
  else if span.ctxtOrParentOrMarker ≠ ctxtInternedMarker then
    .PartiallyInterned span.loOrIndex span.ctxtOrParentOrMarker
  else .Interned span.loOrIndex

def newSorted (lo hi ctxt : UInt32) (parent : Option UInt32) (spans : SpanInterner) : Span × SpanInterner :=
  let len := hi - lo
  let interned : Span × SpanInterner :=
    if ctxt ≤ maxCtxt then
      let (index,spans) := spans.intern ⟨lo,hi,0xFFFFFFFF,parent⟩
      (partiallyInternedSpan index ctxt.toUInt16,spans)
    else
      let (index,spans) := spans.intern ⟨lo,hi,ctxt,parent⟩
      (internedSpan index,spans)
  if len ≤ maxLen ∧ ctxt ≤ maxCtxt then
    match parent with
    | none => (inlineCtxtSpan lo len.toUInt16 ctxt.toUInt16,spans)
    | some parent =>
      if ctxt = 0 ∧ parent ≤ maxCtxt then
        (inlineParentSpan lo len.toUInt16 parent.toUInt16,spans)
      else interned
  else interned

def new (lo hi ctxt : UInt32) (parent : Option UInt32) (spans : SpanInterner) : Span × SpanInterner :=
  if lo > hi then newSorted hi lo ctxt parent spans else newSorted lo hi ctxt parent spans

def inlineCtxtData (lo : UInt32) (len ctxt : UInt16) : SpanData := ⟨lo,lo + len.toUInt32,ctxt.toUInt32,none⟩

def inlineParentData (lo : UInt32) (lenWithTag parent : UInt16) : SpanData :=
  ⟨lo,lo + (lenWithTag &&& ~~~parentTag).toUInt32,0,some parent.toUInt32⟩

section

variable (stop other : Span) (map : UInt32 → UInt32) (spans : SpanInterner)

def dataUntracked : Option SpanData :=
  match span.kind with
  | .InlineCtxt lo len ctxt => some (inlineCtxtData lo len ctxt)
  | .InlineParent lo lenWithTag parent => some (inlineParentData lo lenWithTag parent)
  | .PartiallyInterned index ctxt => (spans.get index).map fun data => { data with ctxt := ctxt.toUInt32 }
  | .Interned index => spans.get index

def fromExpansion : Bool :=
  let ctxt : UInt32 := match span.kind with
    | .InlineCtxt _ _ ctxt => ctxt.toUInt32
    | .InlineParent .. => 0
    | .PartiallyInterned _ ctxt => ctxt.toUInt32
    | .Interned _ => ctxtInternedMarker.toUInt32
  ctxt ≠ 0

def isDummy : Option Bool :=
  if span.lenWithTagOrMarker ≠ baseLenInternedMarker then
    some (span.loOrIndex = 0 && (span.lenWithTagOrMarker &&& ~~~parentTag).toUInt32 = 0)
  else (spans.get span.loOrIndex).map fun data => data.lo = 0 && data.hi = 0

def dataWithCtxt (data : SpanData) (ctxt : UInt32) (spans : SpanInterner) : Span × SpanInterner :=
  new data.lo data.hi ctxt data.parent spans

def dataWithParent (data : SpanData) (parent : Option UInt32) (spans : SpanInterner) : Span × SpanInterner :=
  new data.lo data.hi data.ctxt parent spans

def mapCtxt : Option (Span × SpanInterner) :=
  match span.kind with
  | .InlineCtxt lo len ctxt =>
    let newCtxt := map ctxt.toUInt32
    if newCtxt ≤ maxCtxt then some (inlineCtxtSpan lo len newCtxt.toUInt16,spans)
    else some (dataWithCtxt (inlineCtxtData lo len ctxt) newCtxt spans)
  | .InlineParent lo lenWithTag parent =>
    let data := inlineParentData lo lenWithTag parent
    some (dataWithCtxt data (map data.ctxt) spans)
  | .PartiallyInterned index ctxt =>
    (spans.get index).map fun data =>
      let data := { data with ctxt := ctxt.toUInt32 }
      dataWithCtxt data (map data.ctxt) spans
  | .Interned index => (spans.get index).map fun data => dataWithCtxt data (map data.ctxt) spans

def inlineCtxt : Except UInt32 UInt32 :=
  match span.kind with
  | .InlineCtxt _ _ ctxt => .ok ctxt.toUInt32
  | .InlineParent .. => .ok 0
  | .PartiallyInterned _ ctxt => .ok ctxt.toUInt32
  | .Interned index => .error index

def ctxt (span : Span) (spans : SpanInterner) : Option UInt32 :=
  match span.inlineCtxt with
  | .ok ctxt => some ctxt
  | .error index => (spans.get index).map SpanData.ctxt

def eqCtxt : Option Bool :=
  match span.inlineCtxt, other.inlineCtxt with
  | .ok ctxt1, .ok ctxt2 => some (ctxt1 = ctxt2)
  | .ok _, .error _ => some false
  | .error _, .ok _ => some false
  | .error index1, .error index2 => do
    let data1 ← spans.get index1
    let data2 ← spans.get index2
    return data1.ctxt = data2.ctxt

def toSameInlineCtxt : Option (Span × SpanInterner) :=
  if (span.lenWithTagOrMarker ||| stop.lenWithTagOrMarker) &&& parentTag ≠ 0 ∨
      span.ctxtOrParentOrMarker ≠ stop.ctxtOrParentOrMarker then none
  else
    let lo := min span.loOrIndex stop.loOrIndex
    let hi := max (span.loOrIndex + span.lenWithTagOrMarker.toUInt32) (stop.loOrIndex + stop.lenWithTagOrMarker.toUInt32)
    let len := hi - lo
    if len ≤ maxLen then some (inlineCtxtSpan lo len.toUInt16 span.ctxtOrParentOrMarker,spans)
    else some (new lo hi span.ctxtOrParentOrMarker.toUInt32 none spans)

end

def withParent (parent : Option UInt32) (spans : SpanInterner) : Option (Span × SpanInterner) :=
  match span.kind with
  | .InlineCtxt lo len ctxt =>
    match parent with
    | none => some (span,spans)
    | some parent32 =>
      if ctxt = 0 ∧ parent32 ≤ maxCtxt then
        some (inlineParentSpan lo len parent32.toUInt16,spans)
      else some (dataWithParent (inlineCtxtData lo len ctxt) parent spans)
  | .InlineParent lo lenWithTag old => some (dataWithParent (inlineParentData lo lenWithTag old) parent spans)
  | .PartiallyInterned index ctxt => (spans.get index).map fun data => dataWithParent
      { data with ctxt := ctxt.toUInt32 } parent spans
  | .Interned index => (spans.get index).map fun data => dataWithParent data parent spans

end

def parent (span : Span) (spans : SpanInterner) : Option (Option UInt32) :=
  match span.kind with
  | .InlineCtxt .. => some none
  | .InlineParent _ _ parent => some (some parent.toUInt32)
  | .PartiallyInterned index _ => (spans.get index).map SpanData.parent
  | .Interned index => (spans.get index).map SpanData.parent

section

variable (metavars : Span → Option Span) (callsiteCtxt : SpanData → UInt32)

def tryMetavars (a b : SpanData) (aOrig bOrig : Span) (spans : SpanInterner) : Option (SpanData × SpanData) :=
  match metavars aOrig, metavars bOrig with
  | none, none => some (a,b)
  | some metaA, none => do
    let metaA ← metaA.dataUntracked spans
    return if metaA.ctxt = b.ctxt then (metaA,b) else (a,b)
  | none, some metaB => do
    let metaB ← metaB.dataUntracked spans
    return if a.ctxt = metaB.ctxt then (a,metaB) else (a,b)
  | some metaA, some metaB => do
    let metaB ← metaB.dataUntracked spans
    if a.ctxt = metaB.ctxt then return (a,metaB)
    else
      let metaA ← metaA.dataUntracked spans
      return if metaA.ctxt = b.ctxt then (metaA,b)
        else if metaA.ctxt = metaB.ctxt then (metaA,metaB) else (a,b)

def commonParent (a b : SpanData) : Option UInt32 := if a.parent = b.parent then a.parent else none

def prepareToCombine (aOrig bOrig : Span) (spans : SpanInterner) :
    Option (Except Span (SpanData × SpanData × Option UInt32)) := do
  let a ← aOrig.dataUntracked spans
  let b ← bOrig.dataUntracked spans
  if a.ctxt = b.ctxt then return .ok (a,b,commonParent a b)
  else
    let (a,b) ← tryMetavars metavars a b aOrig bOrig spans
    if a.ctxt = b.ctxt then return .ok (a,b,commonParent a b)
    else return .error (if a.ctxt = 0 ∨ a.ctxt = callsiteCtxt b then bOrig else aOrig)

def toGeneral (span stop : Span) (spans : SpanInterner) : Option (Span × SpanInterner) := do
  match ← prepareToCombine metavars callsiteCtxt span stop spans with
  | .ok (a,b,parent) => return new (min a.lo b.lo) (max a.hi b.hi) a.ctxt parent spans
  | .error fallback => return (fallback,spans)

def toEnd (span stop : Span) (spans : SpanInterner) : Option (Span × SpanInterner) :=
  match toSameInlineCtxt span stop spans with
  | some r => some r
  | none => toGeneral metavars callsiteCtxt span stop spans

end

end Span

end Frontend.SpanEncoding
