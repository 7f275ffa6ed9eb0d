import Frontend.Library.IndexMap
import Frontend.Transmute.Layout

namespace Frontend.Transmute

open Library

-- A `u32`.
abbrev State := Nat

-- The counter that the states are taken from, and the state for one of its values.
def State.new (counter : Nat) : State := counter % 2 ^ 32

section

variable {S : Type}

abbrev EdgeSet (S : Type) := List (Byte × S)

namespace EdgeSet

def new (range : Byte) (dst : S) : EdgeSet S := if range.isEmpty then [] else [(range,dst)]

def getUninitEdgeDst (runs : EdgeSet S) : Option S := runs.getLast?.bind fun run => if run.1.containsUninit
    then some run.2 else none

def mapStates {S' : Type} (f : S → S') (runs : EdgeSet S) : EdgeSet S' := runs.map fun run => (run.1,f run.2)

-- Extends the last run if it ends where `range` starts and has the same destination.
def push [DecidableEq S] : EdgeSet S → Byte → S → EdgeSet S
  | [], range, dst => [(range,dst)]
  | [last], range, dst =>
    if last.1.end = range.start ∧ last.2 = dst then [(⟨last.1.start,range.end⟩,last.2)]
    else [last,(range,dst)]
  | run :: runs, range, dst => run :: push runs range dst

end EdgeSet

def unionNext : EdgeSet S → EdgeSet S → Option ((Byte × Option S × Option S) × EdgeSet S × EdgeSet S)
  | [], [] => none
  | x :: xs, [] => some ((x.1,some x.2,none),xs,[])
  | [], y :: ys => some ((y.1,none,some y.2),[],ys)
  | x :: xs, y :: ys =>
    let (range,dst) :=
      match compare x.1.start y.1.start with
      | .lt => (Byte.mk x.1.start (min x.1.end y.1.start),(some x.2,none))
      | .gt => (Byte.mk y.1.start (min x.1.start y.1.end),(none,some y.2))
      | .eq => (Byte.mk x.1.start (min x.1.end y.1.end),(some x.2,some y.2))
    let xByte := if range.start = x.1.start then ⟨range.end,x.1.end⟩ else x.1
    let yByte := if range.start = y.1.start then ⟨range.end,y.1.end⟩ else y.1
    some ((range,dst),if xByte.isEmpty then xs else (xByte,x.2) :: xs,
      if yByte.isEmpty then ys else (yByte,y.2) :: ys)

def unionIter : Nat → EdgeSet S → EdgeSet S → List (Byte × Option S × Option S)
  | 0, _, _ => []
  | fuel + 1, xs, ys =>
    match unionNext xs ys with
    | none => []
    | some (item,xs,ys) => item :: unionIter fuel xs ys

def width (runs : EdgeSet S) : Nat := (runs.map fun run => run.1.end - run.1.start).sum

def union (xs ys : EdgeSet S) : List (Byte × Option S × Option S) := unionIter (width xs + width ys) xs ys

end

structure Transitions (R T : Type) where
  byteTransitions : EdgeSet State
  refTransitions : List (Reference R T × State)

structure Dfa (R T : Type) where
  transitions : List (State × Transitions R T)
  start : State
  accept : State

inductive Failure
  | uninhabited
  | assertion
  | outOfFuel
  deriving DecidableEq

namespace Dfa

variable {R T : Type}

def unit (counter : Nat) : Dfa R T × Nat := (⟨[],State.new counter,State.new counter⟩,counter + 1)

def fromTransitions (f : State → Transitions R T) (counter : Nat) : Dfa R T × Nat :=
  let start := State.new counter
  let accept := State.new (counter + 1)
  (⟨[(start,f accept)],start,accept⟩,counter + 2)

def fromByte (byte : Byte) : Nat → Dfa R T × Nat := fromTransitions fun accept => ⟨EdgeSet.new byte accept,[]⟩

def fromRef (r : Reference R T) : Nat → Dfa R T × Nat := fromTransitions fun accept => ⟨[],[(r,accept)]⟩

def byteEdges (d : Dfa R T) (state : State) : EdgeSet State :=
  (d.transitions.lookup state).elim [] Transitions.byteTransitions

def refEdges (d : Dfa R T) (state : State) : List (Reference R T × State) :=
  (d.transitions.lookup state).elim [] Transitions.refTransitions

def getUninitEdgeDst (d : Dfa R T) (state : State) : Option State :=
  (d.transitions.lookup state).bind fun t => t.byteTransitions.getUninitEdgeDst

def fixState (selfAccept otherStart state : State) : State :=
  if state = otherStart then selfAccept else state

def addTransitions [DecidableEq State] (fix : State → State) :
    List (State × Transitions R T) → List (State × Transitions R T) → Except Failure (List (State × Transitions R T))
  | transitions, [] => .ok transitions
  | transitions, (source,t) :: rest =>
    let moved : Transitions R T := ⟨t.byteTransitions.mapStates fix,t.refTransitions.map fun edge => (edge.1,fix edge.2)⟩
    if (transitions.lookup (fix source)).isSome then .error .assertion
    else addTransitions fix (IndexMap.insert transitions (fix source) moved) rest

def concat (self other : Dfa R T) : Except Failure (Dfa R T) :=
  if self.start = self.accept then .ok other
  else if other.start = other.accept then .ok self
  else
    match addTransitions (fixState self.accept other.start) self.transitions other.transitions with
    | .ok transitions => .ok ⟨transitions,self.start,other.accept⟩
    | .error e => .error e

section

variable [DecidableEq R] [DecidableEq T]

abbrev Pair := Option State × Option State

structure Product (R T : Type) where
  counter : Nat
  mapping : List (Pair × State)
  queue : List Pair
  enqueued : List Pair
  transitions : List (State × Transitions R T)

section

variable (d a b : Dfa R T) (accept : State)

def isAccepting (p : Pair) : Bool := some a.accept = p.1 ∨ some b.accept = p.2

def mapped (p : Pair) (s : Product R T) : State × Product R T :=
  if isAccepting a b p then (accept,s)
  else
    match s.mapping.lookup p with
    | some state => (state,s)
    | none => (State.new s.counter,
        { s with counter := s.counter + 1, mapping := IndexMap.insert s.mapping p (State.new s.counter) })

def enqueue (p : Pair) (s : Product R T) : Product R T :=
  if p ∈ s.enqueued then s else { s with queue := p :: s.queue, enqueued := p :: s.enqueued }

def destination (p : Pair) (s : Product R T) : Except Failure (State × Product R T) :=
  if p = (none,none) then .error .assertion else .ok (mapped a b accept p (enqueue p s))

def productBytes (a b : Dfa R T) (accept : State) :
    List (Byte × Pair) → EdgeSet State → Product R T → Except Failure (EdgeSet State) × Product R T
  | [], runs, s => (.ok runs,s)
  | (range,p) :: items, runs, s =>
    match destination a b accept p s with
    | .error e => (.error e,s)
    | .ok (state,s) => productBytes a b accept items (runs.push range state) s

def productRefs (a b : Dfa R T) (accept : State) (aRefs bRefs : List (Reference R T × State)) :
    List (Reference R T) → List (Reference R T × State) → Product R T →
    Except Failure (List (Reference R T × State)) × Product R T
  | [], edges, s => (.ok edges,s)
  | r :: refs, edges, s =>
    match destination a b accept (aRefs.lookup r,bRefs.lookup r) s with
    | .error e => (.error e,s)
    | .ok (state,s) => productRefs a b accept aRefs bRefs refs (IndexMap.insert edges r state) s

def edgesOf (state : Option State) : EdgeSet State × List (Reference R T × State) :=
  match state with
  | none => ([],[])
  | some state => (d.byteEdges state,d.refEdges state)

def productNode (p : Pair) (s : Product R T) : Except Failure Unit × Product R T :=
  let (src,s) := mapped a b accept p s
  if src = accept then (.ok (),s)
  else
    let aEdges := edgesOf a p.1
    let bEdges := edgesOf b p.2
    match productBytes a b accept (Transmute.union aEdges.1 bEdges.1) [] s with
    | (.error e,s) => (.error e,s)
    | (.ok bytes,s) =>
      match productRefs a b accept aEdges.2 bEdges.2 (aEdges.2.map Prod.fst ++ bEdges.2.map Prod.fst) [] s with
      | (.error e,s) => (.error e,s)
      | (.ok refs,s) =>
        if (s.transitions.lookup src).isSome then (.error .assertion,s)
        else (.ok (),{ s with transitions := IndexMap.insert s.transitions src ⟨bytes,refs⟩ })

def productLoop (a b : Dfa R T) (accept : State) : Nat → Product R T → Except Failure Unit × Product R T
  | 0, s => (if s.queue = [] then .ok () else .error .outOfFuel,s)
  | fuel + 1, s =>
    match s.queue with
    | [] => (.ok (),s)
    | p :: queue =>
      match productNode a b accept p { s with queue := queue } with
      | (.error e,s) => (.error e,s)
      | (.ok (),s) => productLoop a b accept fuel s

def targets : List State :=
  d.start :: d.transitions.flatMap fun t => t.2.byteTransitions.map Prod.snd ++ t.2.refTransitions.map Prod.snd

end

def union (a b : Dfa R T) (counter : Nat) : Except Failure (Dfa R T) × Nat :=
  let accept := State.new counter
  let (start,s) := mapped a b accept (some a.start,some b.start)
    { counter := counter + 1, mapping := [], queue := [], enqueued := [], transitions := [] }
  let s := enqueue (some a.start,some b.start) s
  match productLoop a b accept ((a.targets.length + 1) * (b.targets.length + 1)) s with
  | (.error e,s) => (.error e,s.counter)
  | (.ok (),s) => (.ok ⟨s.transitions,start,accept⟩,s.counter)

end

section

variable [DecidableEq R] [DecidableEq T]

mutual

def fromTree : Tree Empty R T → Nat → Except Failure (Dfa R T) × Nat
  | .byte b _, counter => let (d,counter) := fromByte b counter; (.ok d,counter)
  | .ref r, counter => let (d,counter) := fromRef r counter; (.ok d,counter)
  | .alt alts, counter => fromAlts none alts counter
  | .seq elts, counter => let (d,counter) := unit counter; fromSeq d elts counter
  | .def d , _ => nomatch d

def fromAlts : Option (Dfa R T) → List (Tree Empty R T) → Nat → Except Failure (Dfa R T) × Nat
  | none, [], counter => (.error .uninhabited,counter)
  | some dfa, [], counter => (.ok dfa,counter)
  | acc, t :: alts, counter =>
    match fromTree t counter with
    | (.error .uninhabited,counter) => fromAlts acc alts counter
    | (.error e,counter) => (.error e,counter)
    | (.ok new,counter) =>
      match acc with
      | none => fromAlts (some new) alts counter
      | some dfa =>
        match union dfa new counter with
        | (.error e,counter) => (.error e,counter)
        | (.ok dfa,counter) => fromAlts (some dfa) alts counter

def fromSeq : Dfa R T → List (Tree Empty R T) → Nat → Except Failure (Dfa R T) × Nat
  | dfa, [], counter => (.ok dfa,counter)
  | dfa, t :: elts, counter =>
    match fromTree t counter with
    | (.error e,counter) => (.error e,counter)
    | (.ok elt,counter) =>
      match concat dfa elt with
      | .error e => (.error e,counter)
      | .ok dfa => fromSeq dfa elts counter

end

end

end Dfa

end Frontend.Transmute
