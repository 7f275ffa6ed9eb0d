import Mathlib.Data.List.AList
import Frontend.Library.Run
import Frontend.Library.Chain
import Frontend.Library.CycleSearch

namespace Frontend.Query

open Frontend.Library Function

variable {T K S : Type} [DecidableEq T] [DecidableEq K] [DecidableEq S]

structure QueryJob (T K : Type) where
  id : Nat
  key : K
  parent : Option Nat
  latch : Bool
  thread : T
deriving DecidableEq, Repr

structure QueryWaiter (T : Type) where
  id : Nat
  parent : Option Nat
  thread : T
deriving DecidableEq, Repr

inductive ActiveKeyStatus (T K : Type) where
  | started (job : QueryJob T K)
  | poisoned
deriving DecidableEq, Repr

abbrev Active (T K : Type) := AList (fun _ : K => ActiveKeyStatus T K)

abbrev QueryJobMap (T K : Type) := AList (fun _ : Nat => QueryJob T K)

abbrev Latches (T : Type) := Nat → Option (List (QueryWaiter T))

def chainReaches (edges : List (T × T)) (me waiteeThread : T) : Bool :=
  Chain.follow edges me (edges.length + 1) waiteeThread

def collectShardJobs (shardOf : K → S) (shard : S) (active : Active T K) (jobMap : QueryJobMap T K) : QueryJobMap T K :=
  (active.entries.filter fun e => shardOf e.1 = shard).foldl (fun jobMap e =>
      match e.2 with
      | .started job => jobMap.insert job.id job
      | .poisoned => jobMap)
    jobMap

section

variable (latches : Latches T)

section

variable (jobMap : QueryJobMap T K) (waitee query : Nat)

def abstractedWaitersOf : List (Option Nat) :=
  match jobMap.lookup query with
  | none => []
  | some job => job.parent :: if job.latch then ((latches query).getD []).map QueryWaiter.parent else []

def waitersOf : List Nat :=
  (abstractedWaitersOf latches jobMap query).filterMap id

def reachableJobs : List Nat :=
  waitee :: jobMap.keys.flatMap (waitersOf latches jobMap)

def findCycleClosedByWait : Bool :=
  match CycleSearch.findCycle (waitersOf latches jobMap) ((reachableJobs latches jobMap waitee).length + 1)
      waitee [] [] with
  | some search => search.found
  | none => false

end

end

structure Frame (K : Type) where
  id : Nat
  key : K
deriving DecidableEq, Repr

inductive Sleep where
  | check
  | waiting (notified : Bool)
deriving DecidableEq, Repr

inductive Pc (T K S : Type) where
  | running
  | asked (waitee : Nat) (waiteeThread : T) (key : K)
  | snapshot (waitee : Nat) (waiteeThread : T) (key : K) (waiter : Nat) (shards : List S) (jobMap : QueryJobMap T K)
  | asleep (waitee : Nat) (waiteeThread : T) (key : K) (waiter : Nat) (sleep : Sleep)
  | lookup (key : K)
  | finishing (job : QueryJob T K)
  | panicked

structure State (T K S : Type) where
  active : Active T K
  cache : List K
  latches : Latches T
  resumed : Nat → Bool
  waiterCount : Nat
  jobIds : List Nat
  stack : T → List (Frame K)
  pc : T → Pc T K S
  edges : List (T × T)
  graph : Option T

inductive Event (T : Type) where
  | internal
  | ok (thread : T) (waitee : Nat)
  | cycle (thread : T) (waitee : Nat)
  | slept (thread : T) (waitee : Nat)
deriving DecidableEq, Repr

def Pc.job? : Pc T K S → Option (QueryJob T K)
  | .finishing job => some job
  | _ => none

def Pc.target? : Pc T K S → Option (Nat × T × K)
  | .asked waitee waiteeThread key => some (waitee,waiteeThread,key)
  | .snapshot waitee waiteeThread key _ _ _ => some (waitee,waiteeThread,key)
  | .asleep waitee waiteeThread key _ _ => some (waitee,waiteeThread,key)
  | _ => none

def Pc.waiter? : Pc T K S → Option Nat
  | .snapshot _ _ _ waiter _ _ => some waiter
  | .asleep _ _ _ waiter _ => some waiter
  | _ => none

def Pc.sleeper? : Pc T K S → Option (T × Nat)
  | .asleep _ waiteeThread _ waiter _ => some (waiteeThread,waiter)
  | _ => none

def Pc.snapshot? : Pc T K S → Option Nat
  | .snapshot _ _ _ waiter _ _ => some waiter
  | _ => none

def Pc.dozing? : Pc T K S → Option Nat
  | .asleep _ _ _ waiter (.waiting false) => some waiter
  | _ => none

namespace State

variable (σ : State T K S)

def initial : State T K S where
  active := ∅
  cache := []
  latches := fun _ => some []
  resumed := fun _ => false
  waiterCount := 0
  jobIds := []
  stack := fun _ => []
  pc := fun _ => .running
  edges := []
  graph := none

section

variable (t : T)

def currentQueryJob : Option Nat := (σ.stack t).head?.map Frame.id

def setPc (pc : Pc T K S) : State T K S := { σ with pc := update σ.pc t pc }

def startJob (key : K) (id : Nat) : State T K S :=
  { σ with
    active := σ.active.insert key (.started ⟨id,key,σ.currentQueryJob t,false,t⟩)
    jobIds := id :: σ.jobIds
    stack := update σ.stack t (⟨id,key⟩ :: σ.stack t) }

def takeLatch (key : K) (job : QueryJob T K) : State T K S :=
  { σ with
    active := σ.active.insert key (.started { job with latch := true })
    pc := update σ.pc t (.asked job.id job.thread key) }

def pushWaiter (waitee : Nat) (waiters : List (QueryWaiter T)) : State T K S :=
  { σ with
    latches := update σ.latches waitee (some (waiters ++ [⟨σ.waiterCount,σ.currentQueryJob t,t⟩]))
    resumed := update σ.resumed σ.waiterCount false
    waiterCount := σ.waiterCount + 1 }

def removeWaiter (waitee waiter : Nat) : State T K S :=
  { σ with
    latches := update σ.latches waitee ((σ.latches waitee).map fun waiters => waiters.filter fun w => w.id ≠ waiter) }

def pushEdge (waiteeThread : T) : State T K S :=
  { σ with edges := σ.edges ++ [(t,waiteeThread)], graph := none }

def endJob (key : K) (job : QueryJob T K) (poisoned : Bool) : State T K S :=
  { σ with
    active :=
      if poisoned then (σ.active.erase key).insert key .poisoned else σ.active.erase key
    cache := if poisoned then σ.cache else key :: σ.cache
    pc := update σ.pc t (.finishing job) }

def notified (waiter : Nat) : Pc T K S → Pc T K S
  | .asleep waitee waiteeThread key id (.waiting n) => .asleep waitee waiteeThread key id (.waiting (n || id == waiter))
  | pc => pc

def resume (waiter : QueryWaiter T) : State T K S :=
  { σ with
    edges := σ.edges.filter fun e => e.1 ≠ waiter.thread
    resumed := update σ.resumed waiter.id true
    pc := update σ.pc waiter.thread (notified waiter.id (σ.pc waiter.thread)) }

def setLatch (waitee : Nat) (waiters : List (QueryWaiter T)) : State T K S :=
  waiters.foldl resume { σ with latches := update σ.latches waitee none }

def popJob : State T K S :=
  { σ with
    stack := update σ.stack t (σ.stack t).tail
    pc := update σ.pc t .running }

def mayClose (waiteeThread : T) : Bool := (σ.currentQueryJob t).isSome && chainReaches σ.edges t waiteeThread

end

end State

open State

inductive Step (shardOf : K → S) (shards : List S) : State T K S → Event T → State T K S → Prop
  | start {σ t key id} (hpc : σ.pc t = .running) (hcac : key ∉ σ.cache) (hvac : σ.active.lookup key = none)
      (hid : id ∉ σ.jobIds) :
      Step shardOf shards σ .internal (σ.startJob t key id)
  | ask {σ t key job} (hpc : σ.pc t = .running) (hcac : key ∉ σ.cache)
      (hstr : σ.active.lookup key = some (.started job)) :
      Step shardOf shards σ .internal (σ.takeLatch t key job)
  | complete {σ t waitee waiteeThread key} (hpc : σ.pc t = .asked waitee waiteeThread key)
      (hgra : σ.graph = none) (hlat : σ.latches waitee = none) :
      Step shardOf shards σ (.ok t waitee) (σ.setPc t (.lookup key))
  | sleep {σ t waitee waiteeThread key waiters} (hpc : σ.pc t = .asked waitee waiteeThread key)
      (hgra : σ.graph = none) (hlat : σ.latches waitee = some waiters)
      (hclo : σ.mayClose t waiteeThread = false) :
      Step shardOf shards σ (.slept t waitee) (((σ.pushWaiter t waitee waiters).pushEdge t waiteeThread).setPc t
          (.asleep waitee waiteeThread key σ.waiterCount .check))
  | snapshot {σ t waitee waiteeThread key waiters} (hpc : σ.pc t = .asked waitee waiteeThread key)
      (hgra : σ.graph = none) (hlat : σ.latches waitee = some waiters)
      (hclo : σ.mayClose t waiteeThread = true) :
      Step shardOf shards σ .internal { (σ.pushWaiter t waitee waiters).setPc t
            (.snapshot waitee waiteeThread key σ.waiterCount shards ∅) with graph := some t }
  | collect {σ t waitee waiteeThread key waiter shard rest jobMap}
      (hpc : σ.pc t = .snapshot waitee waiteeThread key waiter (shard :: rest) jobMap) :
      Step shardOf shards σ .internal (σ.setPc t (.snapshot waitee waiteeThread key waiter rest
          (collectShardJobs shardOf shard σ.active jobMap)))
  | cycle {σ t waitee waiteeThread key waiter jobMap} (hpc : σ.pc t = .snapshot waitee waiteeThread key waiter [] jobMap)
      (hfou : findCycleClosedByWait σ.latches jobMap waitee = true) :
      Step shardOf shards σ (.cycle t waitee) { (σ.removeWaiter waitee waiter).setPc t .running with graph := none }
  | noCycle {σ t waitee waiteeThread key waiter jobMap}
      (hpc : σ.pc t = .snapshot waitee waiteeThread key waiter [] jobMap)
      (hfou : findCycleClosedByWait σ.latches jobMap waitee = false) :
      Step shardOf shards σ (.slept t waitee)
        ((σ.pushEdge t waiteeThread).setPc t (.asleep waitee waiteeThread key waiter .check))
  | checkResumed {σ t waitee waiteeThread key waiter} (hpc : σ.pc t = .asleep waitee waiteeThread key waiter .check)
      (hres : σ.resumed waiter = true) :
      Step shardOf shards σ (.ok t waitee) (σ.setPc t (.lookup key))
  | checkWait {σ t waitee waiteeThread key waiter} (hpc : σ.pc t = .asleep waitee waiteeThread key waiter .check)
      (hres : σ.resumed waiter = false) :
      Step shardOf shards σ .internal (σ.setPc t (.asleep waitee waiteeThread key waiter (.waiting false)))
  | wake {σ t waitee waiteeThread key waiter notified}
      (hpc : σ.pc t = .asleep waitee waiteeThread key waiter (.waiting notified)) :
      Step shardOf shards σ .internal (σ.setPc t (.asleep waitee waiteeThread key waiter .check))
  | lookupDone {σ t key} (hpc : σ.pc t = .lookup key) (hdone : key ∈ σ.cache ∨ σ.active.lookup key = some .poisoned) :
      Step shardOf shards σ .internal (σ.setPc t .running)
  | lookupPanic {σ t key} (hpc : σ.pc t = .lookup key)
      (hdone : ¬ (key ∈ σ.cache ∨ σ.active.lookup key = some .poisoned)) :
      Step shardOf shards σ .internal (σ.setPc t .panicked)
  | finish {σ t frame rest job} (poisoned : Bool) (hpc : σ.pc t = .running) (hsta : σ.stack t = frame :: rest)
      (hstr : σ.active.lookup frame.key = some (.started job)) :
      Step shardOf shards σ .internal (σ.endJob t frame.key job poisoned)
  | finishPanic {σ t frame rest} (hpc : σ.pc t = .running) (hsta : σ.stack t = frame :: rest)
      (hstr : ∀ job, σ.active.lookup frame.key ≠ some (.started job)) :
      Step shardOf shards σ .internal (σ.setPc t .panicked)
  | signal {σ t job} (hpc : σ.pc t = .finishing job) (hlat : job.latch = false) :
      Step shardOf shards σ .internal (σ.popJob t)
  | set {σ t job waiters} (hpc : σ.pc t = .finishing job) (hlat : job.latch = true)
      (hgra : σ.graph = none) (hwai : σ.latches job.id = some waiters) :
      Step shardOf shards σ .internal ((σ.setLatch job.id waiters).popJob t)
  | setPanic {σ t job} (hpc : σ.pc t = .finishing job) (hlat : job.latch = true)
      (hgra : σ.graph = none) (hwai : σ.latches job.id = none) :
      Step shardOf shards σ .internal (σ.setPc t .panicked)

def Init (σ : State T K S) : Prop := σ = State.initial

def Reached (shardOf : K → S) (shards : List S) (σ : State T K S) : Prop :=
  Reachable Init (fun σ σ' => ∃ e, Step shardOf shards σ e σ') σ

inductive WaitsFor (σ : State T K S) : Nat → Nat → Prop
  | stack {t above upper lower below} (hsta : σ.stack t = above ++ upper :: lower :: below) :
      WaitsFor σ lower.id upper.id
  | latch {t waitee waiteeThread key waiter sleep top rest} (hpc : σ.pc t = .asleep waitee waiteeThread key waiter sleep)
      (hres : σ.resumed waiter = false) (hsta : σ.stack t = top :: rest) :
      WaitsFor σ top.id waitee

def ClosesCycle (σ : State T K S) (t : T) (waitee : Nat) : Prop :=
  ∃ top rest, σ.stack t = top :: rest ∧ Relation.ReflTransGen (WaitsFor σ) waitee top.id

omit [DecidableEq T] [DecidableEq K] in
theorem findCycleClosedByWait_of_cycle {latches : Latches T} {jobMap : QueryJobMap T K} {waitee : Nat}
    (hc : Relation.TransGen (CycleSearch.Edge (waitersOf latches jobMap)) waitee waitee) :
    findCycleClosedByWait latches jobMap waitee = true := by
  have hcl v (_ : v ∈ reachableJobs latches jobMap waitee) w (hw : w ∈ waitersOf latches jobMap v) :
      w ∈ reachableJobs latches jobMap waitee := by
    refine .tail _ (List.mem_flatMap.mpr ⟨v,?_,hw⟩)
    by_contra hk
    have hn := AList.lookup_eq_none.mpr hk
    simp [waitersOf,abstractedWaitersOf,hn] at hw
  have hf : CycleSearch.unvisited (reachableJobs latches jobMap waitee) [] <
    (reachableJobs latches jobMap waitee).length + 1 :=
    Nat.lt_succ_of_le (List.length_filter_le _ _)
  obtain ⟨r,hr,hfo⟩ := CycleSearch.findCycle_complete hcl (.head _) hf hc
  simp [findCycleClosedByWait,hr,hfo]

end Frontend.Query
