import Mathlib.Tactic
import Frontend.Library.Run

namespace Frontend.Sync.OwnedStage

open Frontend.Library Function

variable {In O P : Type}

structure Config (In O P : Type) where
  input : In
  len : Nat
  weight : In → Nat → Nat
  run : In → Nat → Except P O
  parallelHere : Bool
  sessionWidth : Nat
  workers : Nat

namespace Config

variable (c : Config In O P)

def item (index : Nat) : Except P O := c.run c.input index

def poolWidth : Nat :=
  match c.sessionWidth with
  | 0 => c.workers + 1
  | width => width

def width : Nat := min c.poolWidth (c.workers + 1)

def threaded : Bool := 1 < c.len && c.parallelHere && 2 ≤ c.width

def heavier (a b : Nat) : Bool := c.weight c.input b < c.weight c.input a || c.weight c.input a == c.weight
    c.input b && a ≤ b

def order : List Nat := (List.range' 1 (c.len - 1)).mergeSort c.heavier

def submissions : Nat := min (c.width - 1) (c.len - 1)

end Config

structure Completion (O P : Type) where
  outcome : Option (Except P O)
  waiter : Bool

inductive TaskPc (O P : Type) where
  | claim (index : Nat)
  | running (index : Nat)
  | ran (index : Nat) (outcome : Except P O)
  | waking (index : Nat) (waiter : Bool)

def TaskPc.index : TaskPc O P → Nat
  | .claim index => index
  | .running index => index
  | .ran index _ => index
  | .waking index _ => index

inductive HelperPc (O P : Type) where
  | queued
  | fetched (next : Nat)
  | task (next : Nat) (pc : TaskPc O P)
  | ended (next : Nat)
  | continuing
  | releasing
  | done

inductive OwnerPc (O P : Type) where
  | serial (index : Nat)
  | load (submitted : Nat)
  | cas (submitted current : Nat)
  | launch (submitted : Nat)
  | task (pc : TaskPc O P)
  | poll (index : Nat)
  | parked (index : Nat)
  | returned (result : Except P (List O))

structure State (O P : Type) where
  jobs : Nat → Bool
  completion : Nat → Completion O P
  next : Nat
  inFlight : Nat
  others : Nat
  owner : OwnerPc O P
  helpers : List (HelperPc O P)
  notified : Bool
  values : List O
  firstPanic : Option P
  runs : Nat → Nat

def finish (values : List O) : Option P → Except P (List O)
  | some panic => .error panic
  | none => .ok values

namespace State

variable (c : Config In O P) (σ : State O P)

def start : State O P where
  jobs := fun index => c.threaded && decide (index < c.len)
  completion := fun _ => ⟨none,false⟩
  next := 0
  inFlight := 0
  others := 0
  owner := if c.threaded then .load 0 else .serial 0
  helpers := []
  notified := false
  values := []
  firstPanic := none
  runs := fun _ => 0

def countRun (index : Nat) : State O P :=
  { σ with runs := update σ.runs index (σ.runs index + 1) }

def taskStep : TaskPc O P → State O P × Option (TaskPc O P)
  | .claim index =>
    if σ.jobs index then
      ({ σ with jobs := update σ.jobs index false },some (.running index))
    else (σ,none)
  | .running index => (σ.countRun index,some (.ran index (c.item index)))
  | .ran index outcome =>
    ({ σ with completion := update σ.completion index ⟨some outcome,false⟩ },
      some (.waking index (σ.completion index).waiter))
  | .waking _ waiter => ({ σ with notified := σ.notified || waiter },none)

section

variable (index : Nat)

def afterTask : Option (TaskPc O P) → OwnerPc O P
  | some pc => .task pc
  | none => .poll index

def helperAfterTask (next : Nat) : Option (TaskPc O P) → HelperPc O P
  | some pc => .task next pc
  | none => .ended next

def setHelper (h : Nat) (pc : HelperPc O P) : State O P := { σ with helpers := σ.helpers.set h pc }

def record (outcome : Except P O) : State O P :=
  match outcome with
  | .ok value => { σ with values := σ.values ++ [value] }
  | .error panic => { σ with firstPanic := σ.firstPanic.or (some panic) }

def advance : State O P :=
  { σ with
    owner :=
      if index + 1 < c.len then .task (.claim (index + 1))
      else .returned (finish σ.values σ.firstPanic) }

def takeOutcome : State O P :=
  { σ with
    completion := update σ.completion index { σ.completion index with outcome := none } }

def registerWaiter : State O P :=
  { σ with
    completion := update σ.completion index { σ.completion index with waiter := true }
    owner := .parked index }

end

end State

open State

inductive Step (c : Config In O P) : State O P → State O P → Prop
  | serialOk {σ index value} (hown : σ.owner = .serial index) (hlen : index < c.len) (hitem : c.item index = .ok value) :
      Step c σ { σ.countRun index with owner := .serial (index + 1), values := σ.values ++ [value] }
  | serialPanic {σ index panic} (hown : σ.owner = .serial index) (hlen : index < c.len)
      (hitem : c.item index = .error panic) :
      Step c σ { σ.countRun index with owner := .returned (.error panic) }
  | serialEnd {σ index} (hown : σ.owner = .serial index) (hlen : c.len ≤ index) :
      Step c σ { σ with owner := .returned (.ok σ.values) }
  | load {σ k} (hown : σ.owner = .load k) (hmore : k < c.submissions) : Step c σ { σ with owner := .cas k σ.inFlight }
  | loadEnd {σ k} (hown : σ.owner = .load k) (hmore : c.submissions ≤ k) : Step c σ { σ with owner := .task (.claim 0) }
  | casFull {σ k current} (hown : σ.owner = .cas k current) (hfull : c.workers ≤ current) :
      Step c σ { σ with owner := .task (.claim 0) }
  | casTake {σ k current} (hown : σ.owner = .cas k current) (hroom : current < c.workers) (hcur : σ.inFlight = current) :
      Step c σ { σ with inFlight := current + 1, owner := .launch k }
  | casRetry {σ k current} (hown : σ.owner = .cas k current) (hroom : current < c.workers) :
      Step c σ { σ with owner := .cas k σ.inFlight }
  | launch {σ k} (hown : σ.owner = .launch k) :
      Step c σ { σ with helpers := σ.helpers ++ [.queued], owner := .load (k + 1) }
  | ownerTask {σ pc} (hown : σ.owner = .task pc) :
      Step c σ { (σ.taskStep c pc).1 with owner := afterTask pc.index (σ.taskStep c pc).2 }
  | pollReady {σ index outcome} (hown : σ.owner = .poll index) (hout : (σ.completion index).outcome = some outcome) :
      Step c σ (((σ.takeOutcome index).record outcome).advance c index)
  | pollPending {σ index} (hown : σ.owner = .poll index) (hout : (σ.completion index).outcome = none) :
      Step c σ (σ.registerWaiter index)
  | wake {σ index} (hown : σ.owner = .parked index) (hnot : σ.notified = true) :
      Step c σ { σ with owner := .poll index, notified := false }
  | spurious {σ index} (hown : σ.owner = .parked index) : Step c σ { σ with owner := .poll index }
  | fetch {σ h} (hhel : σ.helpers[h]? = some .queued) :
      Step c σ { σ.setHelper h (.fetched σ.next) with next := σ.next + 1 }
  | exhausted {σ h next} (hhel : σ.helpers[h]? = some (.fetched next)) (hord : c.order[next]? = none) :
      Step c σ (σ.setHelper h .releasing)
  | begin {σ h next index} (hhel : σ.helpers[h]? = some (.fetched next)) (hord : c.order[next]? = some index) :
      Step c σ (σ.setHelper h (.task next (.claim index)))
  | helperTask {σ h next pc} (hhel : σ.helpers[h]? = some (.task next pc)) :
      Step c σ ((σ.taskStep c pc).1.setHelper h (helperAfterTask next (σ.taskStep c pc).2))
  | continuation {σ h next} (hhel : σ.helpers[h]? = some (.ended next)) (hmore : next + 1 < c.order.length) :
      Step c σ { σ.setHelper h .continuing with inFlight := σ.inFlight + 1 }
  | lastItem {σ h next} (hhel : σ.helpers[h]? = some (.ended next)) (hmore : c.order.length ≤ next + 1) :
      Step c σ (σ.setHelper h .releasing)
  | submitContinuation {σ h} (hhel : σ.helpers[h]? = some .continuing) :
      Step c σ { σ with helpers := σ.helpers.set h .releasing ++ [.queued] }
  | release {σ h} (hhel : σ.helpers[h]? = some .releasing) :
      Step c σ { σ.setHelper h .done with inFlight := σ.inFlight - 1 }
  | otherSubmits {σ} : Step c σ { σ with inFlight := σ.inFlight + 1, others := σ.others + 1 }
  | otherReleases {σ} (hoth : 0 < σ.others) : Step c σ { σ with inFlight := σ.inFlight - 1, others := σ.others - 1 }

def Reached (c : Config In O P) (σ : State O P) : Prop := Reachable (fun σ => σ = State.start c) (Step c) σ

end Frontend.Sync.OwnedStage
