import Frontend.Transmute.Dfa

namespace Frontend.Transmute

open Library

variable {R T : Type}

structure Assume where
  alignment : Bool
  lifetimes : Bool
  safety : Bool
  validity : Bool

inductive Condition (R T : Type)
  | transmutable (src dst : T)
  | outlives (long short : R)
  | immutable (ty : T)
  | ifAll (conds : List (Condition R T))
  | ifAny (conds : List (Condition R T))

inductive Reason (T : Type)
  | dstIsBitIncompatible
  | dstUninhabited
  | dstMayHaveSafetyInvariants
  | dstIsTooBig
  | dstRefIsTooBig (src : T) (srcSize : Nat) (dst : T) (dstSize : Nat)
  | dstHasStricterAlignment (srcMinAlign dstMinAlign : Nat)
  | dstIsMoreUnique

inductive Answer (R T : Type)
  | yes
  | no (reason : Reason T)
  | «if» (cond : Condition R T)

namespace Answer

def and : Answer R T → Answer R T → Answer R T
  | .no .dstIsBitIncompatible, .no reason => .no reason
  | .no reason, _ => .no reason
  | _, .no reason => .no reason
  | .yes, other => other
  | other, .yes => other
  | .if (.ifAll lhs), .if (.ifAll rhs) => .if (.ifAll (lhs ++ rhs))
  | .if cond, .if (.ifAll conds) => .if (.ifAll (conds ++ [cond]))
  | .if (.ifAll conds), .if cond => .if (.ifAll (conds ++ [cond]))
  | .if lhs, .if rhs => .if (.ifAll [lhs,rhs])

def orLive : Answer R T → Answer R T → Answer R T
  | .yes, other => other
  | other, .yes => other
  | .if (.ifAny lhs), .if (.ifAny rhs) => .if (.ifAny (lhs ++ rhs))
  | .if cond, .if (.ifAny conds) => .if (.ifAny (conds ++ [cond]))
  | .if (.ifAny conds), .if cond => .if (.ifAny (conds ++ [cond]))
  | .if lhs, .if rhs => .if (.ifAny [lhs,rhs])
  | .no reason, _ => .no reason
  | _, .no reason => .no reason

def or : Answer R T → Answer R T → Answer R T
  | .no .dstIsBitIncompatible, .no reason => .no reason
  | .no reason, .no _ => .no reason
  | .no _, other => orLive other .yes
  | other, .no _ => orLive other .yes
  | lhs, rhs => orLive lhs rhs

end Answer

abbrev Cache (R T : Type) := List ((State × State) × Answer R T)

abbrev Memo (R T A : Type) := Cache R T → Except Failure (A × Cache R T)

inductive Quantifier
  | thereExists
  | forAll
  deriving DecidableEq

namespace Quantifier

def init : Quantifier → Answer R T
  | .thereExists => .no .dstIsBitIncompatible
  | .forAll => .yes

def combine : Quantifier → Answer R T → Answer R T → Answer R T
  | .thereExists, accum, next => accum.or next
  | .forAll, accum, next => accum.and next

def breaks : Quantifier → Answer R T → Bool
  | .thereExists, .yes => true
  | .forAll, .no _ => true
  | _, _ => false

def fold (q : Quantifier) : Answer R T → List (Memo R T (Answer R T)) → Memo R T (Answer R T)
  | accum, [], cache => .ok (accum,cache)
  | accum, item :: items, cache =>
    match item cache with
    | .error e => .error e
    | .ok (next,cache) =>
      if q.breaks (q.combine accum next) then .ok (q.combine accum next,cache)
      else fold q (q.combine accum next) items cache

def apply (q : Quantifier) (items : List (Memo R T (Answer R T))) : Memo R T (Answer R T) := q.fold q.init items

end Quantifier

structure MaybeTransmutableQuery (R T : Type) where
  src : Dfa R T
  dst : Dfa R T
  assume : Assume

namespace MaybeTransmutableQuery

variable (q : MaybeTransmutableQuery R T)

def srcQuantifier : Quantifier := if q.assume.validity then .thereExists else .forAll

section

variable (memo : State → State → Memo R T (Answer R T))

def byteItem : Byte × Option State × Option State → Option (Memo R T (Answer R T))
  | (_,none,_) => none
  | (_,some _,none) => some fun cache => .ok (.no .dstIsBitIncompatible,cache)
  | (_,some srcState,some dstState) => some (memo srcState dstState)

def isTransmutable (src dst : Reference R T) : List (Condition R T) :=
  .transmutable src.referent dst.referent ::
    if q.assume.lifetimes then [] else [.outlives src.region dst.region]

def conditions (src dst : Reference R T) : List (Condition R T) :=
  q.isTransmutable src dst ++ if dst.isMut then q.isTransmutable dst src else [.immutable dst.referent]

def refItem (src dst : Reference R T × State) : Memo R T (Answer R T) := fun cache =>
  if !src.1.isMut && dst.1.isMut then .ok (.no .dstIsMoreUnique,cache)
  else if !q.assume.alignment && src.1.referentAlign < dst.1.referentAlign then
    .ok (.no (.dstHasStricterAlignment src.1.referentAlign dst.1.referentAlign),cache)
  else if src.1.referentSize < dst.1.referentSize then
    .ok (.no (.dstRefIsTooBig src.1.referent src.1.referentSize dst.1.referent dst.1.referentSize),cache)
  else
    match memo src.2 dst.2 cache with
    | .error e => .error e
    | .ok (answer,cache) => .ok ((Answer.if (.ifAll (q.conditions src.1 dst.1))).and answer,cache)

section

variable (srcState dstState : State)

def bytesAnswer : Memo R T (Answer R T) :=
  q.srcQuantifier.apply ((union (q.src.byteEdges srcState) (q.dst.byteEdges dstState)).filterMap (byteItem memo))

def refsAnswer : Memo R T (Answer R T) :=
  q.srcQuantifier.apply ((q.src.refEdges srcState).map fun src =>
    Quantifier.thereExists.apply ((q.dst.refEdges dstState).map fun dst => q.refItem memo src dst))

def isFinal (answer : Answer R T) : Bool :=
  match answer with
  | .no _ => !q.assume.validity
  | .yes => q.assume.validity
  | .if _ => false

def answerImpl : Memo R T (Answer R T) := fun cache =>
  if dstState = q.dst.accept then .ok (.yes,cache)
  else if srcState = q.src.accept then
    match q.dst.getUninitEdgeDst dstState with
    | some dstState => memo srcState dstState cache
    | none => .ok (.no .dstIsTooBig,cache)
  else
    match q.bytesAnswer memo srcState dstState cache with
    | .error e => .error e
    | .ok (bytes,cache) =>
      if q.isFinal bytes then .ok (bytes,cache)
      else
        match q.refsAnswer memo srcState dstState cache with
        | .error e => .error e
        | .ok (refs,cache) => .ok (if q.assume.validity then bytes.or refs else bytes.and refs,cache)

end

end

def answerMemo : Nat → State → State → Memo R T (Answer R T)
  | 0, _, _, _ => .error .outOfFuel
  | fuel + 1, srcState, dstState, cache =>
    match cache.lookup (srcState,dstState) with
    | some answer => .ok (answer,cache)
    | none =>
      match q.answerImpl (answerMemo fuel) srcState dstState cache with
      | .error e => .error e
      | .ok (answer,cache) =>
        if (cache.lookup (srcState,dstState)).isSome then .error .assertion
        else .ok (answer,IndexMap.insert cache (srcState,dstState) answer)

def answerDfa (fuel : Nat) : Except Failure (Answer R T) := (q.answerMemo fuel q.src.start q.dst.start []).map Prod.fst

end MaybeTransmutableQuery

def answer {D : Type} [DecidableEq R] [DecidableEq T] (hasSafetyInvariants : D → Bool) (assume : Assume)
    (src dst : Tree D R T)
    (counter fuel : Nat) : Except Failure (Answer R T) :=
  let src := src.prune fun _ => false
  if src.isInhabited && !dst.isInhabited then .ok (.no .dstUninhabited)
  else
    let dst := if assume.safety then dst.prune fun _ => false else dst.prune hasSafetyInvariants
    match Dfa.fromTree src counter with
    | (.error .uninhabited,_) => .ok .yes
    | (.error e,_) => .error e
    | (.ok src,counter) =>
      match Dfa.fromTree dst counter with
      | (.error .uninhabited,_) => .ok (.no .dstMayHaveSafetyInvariants)
      | (.error e,_) => .error e
      | (.ok dst,_) => (MaybeTransmutableQuery.mk src dst assume).answerDfa fuel

end Frontend.Transmute
