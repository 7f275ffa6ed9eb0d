import Mathlib

namespace Frontend.Obligation

variable {σ O E K : Type}

theorem bind_iff : (x >>= f) = some b ↔ ∃ a, x = some a ∧ f a = some b := Option.bind_eq_some_iff

inductive NodeState where
  | pending | success | waiting | done | error
  deriving DecidableEq, Repr

-- `uid` numbers the nodes in order of creation. The code has no such field: indices are reused by
-- `compress`, so the log below needs a name for a node that outlives its index.
structure Node (O : Type) where
  obligation : O
  state : NodeState
  dependents : List Nat
  hasParent : Bool
  obligationTreeId : Nat
  uid : Nat
  deriving Repr

def Node.new (parent : Option Nat) (obligation : O) (obligationTreeId uid : Nat) : Node O where
  obligation := obligation
  state := .pending
  dependents := parent.toList
  hasParent := parent.isSome
  obligationTreeId := obligationTreeId
  uid := uid

def Node.setState (state : NodeState) (node : Node O) : Node O := { node with state := state }

inductive ProcessResult (O E : Type) where
  | unchanged
  | changed (children : List O)
  | error (err : E)

structure Processor (σ O E : Type) where
  skippableObligations : σ → List O → Nat
  needsProcessObligation : σ → O → Bool
  processObligation : σ → O → σ × O × ProcessResult O E
  processBackedge : σ → List O → σ × Option E

-- What a run has done so far: `processed`, `sub` and the `uids` of an error are what an observer of
-- the callbacks knows, `completed` and `error` are the calls to the outcome.
inductive Event (O E : Type) where
  | processed (uid : Nat)
  | sub (parent child : Nat)
  | error (uids : List Nat) (backedge : Bool) (err : E) (backtrace : List O)
  | completed (uid : Nat) (obligation : O)
  deriving DecidableEq

structure ObligationForest (O E K : Type) where
  nodes : List (Node O)
  doneCache : List K
  activeCache : List (K × Nat)
  errorCache : List (Nat × K)
  nextTreeId : Nat
  nextUid : Nat
  log : List (Event O E)

namespace ObligationForest

def new : ObligationForest O E K where
  nodes := []
  doneCache := []
  activeCache := []
  errorCache := []
  nextTreeId := 0
  nextUid := 0
  log := []

def setState (f : ObligationForest O E K) (index : Nat) (state : NodeState) : ObligationForest O E K :=
  { f with nodes := f.nodes.modify index (Node.setState state) }

def record (f : ObligationForest O E K) (e : Event O E) : ObligationForest O E K :=
  { f with log := f.log ++ [e] }

section

variable [DecidableEq K] (key : O → K)

section

variable (f : ObligationForest O E K)

-- The code does not log anything here; `sub` records that the node `parent` waits for the node.
def addDependent (index parent : Nat) : Option (ObligationForest O E K) := do
  let node ← f.nodes[index]?
  let parentNode ← f.nodes[parent]?
  let nodes :=
    if parent ∈ node.dependents then f.nodes
    else f.nodes.modify index fun n => { n with dependents := n.dependents ++ [parent] }
  return { f with nodes := nodes }.record (.sub parentNode.uid node.uid)

def pushNode (obligation : O) (parent : Option Nat) (obligationTreeId : Nat) : ObligationForest O E K :=
  { f with
    activeCache := (key obligation,f.nodes.length) :: f.activeCache
    nodes := f.nodes ++ [Node.new parent obligation obligationTreeId f.nextUid]
    nextUid := f.nextUid + 1 }

def registerObligationAt (obligation : O) (parent : Option Nat) : Option (Bool × ObligationForest O E K) :=
  if key obligation ∈ f.doneCache then some (true,f)
  else
    match f.activeCache.lookup (key obligation), parent with
    | some index, none => do
      let node ← f.nodes[index]?
      return (node.state ≠ .error,f)
    | some index, some parent => do
      let node ← f.nodes[index]?
      let f ← f.addDependent index parent
      return (node.state ≠ .error,f)
    | none, none => some (true,{ f with nextTreeId := f.nextTreeId + 1 }.pushNode key obligation none f.nextTreeId)
    | none, some parent => do
      let parentNode ← f.nodes[parent]?
      if (parentNode.obligationTreeId,key obligation) ∈ f.errorCache then
        return (false,f)
      else
        return (true,(f.pushNode key obligation (some parent) parentNode.obligationTreeId).record
          (.sub parentNode.uid f.nextUid))

end

def registerObligation (f : ObligationForest O E K) (obligation : O) : Option (ObligationForest O E K) := do
  let (_,f) ← f.registerObligationAt key obligation none
  return f

end

def climb : Nat → List (Node O) → Nat → List Nat → List O → Option (List (Node O) × List Nat × List O)
  | 0, _, _, _, _ => none
  | fuel + 1, nodes, index, errorStack, trace => do
    let node ← nodes[index]?
    let nodes := nodes.modify index (Node.setState .error)
    let trace := trace ++ [node.obligation]
    if node.hasParent then
      let parent ← node.dependents.head?
      climb fuel nodes parent (node.dependents.tail.reverse ++ errorStack) trace
    else
      return (nodes,node.dependents.reverse ++ errorStack,trace)

def drain : Nat → List (Node O) → List Nat → Option (List (Node O))
  | _, nodes, [] => some nodes
  | 0, _, _ :: _ => none
  | fuel + 1, nodes, index :: errorStack => do
    let node ← nodes[index]?
    if node.state = .error then drain fuel nodes errorStack
    else drain fuel (nodes.modify index (Node.setState .error)) (node.dependents.reverse ++ errorStack)

def errorAt (f : ObligationForest O E K) (index : Nat) : Option (List O × ObligationForest O E K) := do
  let (nodes,errorStack,trace) ← climb (f.nodes.length + 1) f.nodes index [] []
  let pushes := (nodes.map fun node => node.dependents.length).sum
  let nodes ← drain (errorStack.length + pushes) nodes errorStack
  return (trace,{ f with nodes := nodes })

def markDependentsAsWaiting : Nat → List Nat → List (Node O) → Option (List (Node O))
  | 0, _, _ => none
  | fuel + 1, dependents, nodes =>
    dependents.foldlM (fun nodes index => do
      let node ← nodes[index]?
      if node.state = .success then
        markDependentsAsWaiting fuel node.dependents (nodes.modify index (Node.setState .waiting))
      else
        return nodes) nodes

def waitingToSuccess (node : Node O) : Node O :=
  if node.state = .waiting then node.setState .success else node

def markSuccesses (f : ObligationForest O E K) : Option (ObligationForest O E K) := do
  let nodes ← (List.range f.nodes.length).foldlM (fun nodes index => do
    let node ← nodes[index]?
    if node.state = .pending then
      markDependentsAsWaiting (f.nodes.length + 1) node.dependents nodes
    else
      return nodes) (f.nodes.map waitingToSuccess)
  return { f with nodes := nodes }

section

variable (P : Processor σ O E)

def rposition (stack : List Nat) (index : Nat) : Option Nat := (stack.reverse.idxOf? index).map fun i =>
    stack.length - 1 - i

def processBackedge (f : ObligationForest O E K) (s : σ) (cycle : List Nat) (index : Nat) :
    Option (ObligationForest O E K × σ) := do
  let members ← cycle.mapM fun i => f.nodes[i]?
  match P.processBackedge s (members.map Node.obligation) with
  | (s,none) => return (f,s)
  | (s,some err) =>
    let (backtrace,f) ← f.errorAt index
    return (f.record (.error (members.map Node.uid) true err backtrace),s)

def findCyclesFromNode : Nat → List Nat → ObligationForest O E K × σ → Nat → Option (ObligationForest O E K × σ)
  | 0, _, _, _ => none
  | fuel + 1, stack, (f,s), index => do
    let node ← f.nodes[index]?
    if node.state = .success then
      match rposition stack index with
      | none =>
        let (f,s) ← node.dependents.foldlM (findCyclesFromNode fuel (stack ++ [index])) (f,s)
        return (f.setState index .done,s)
      | some rpos => f.processBackedge P s (stack.drop rpos) index
    else
      return (f,s)

def processCycles (f : ObligationForest O E K) (s : σ) : Option (ObligationForest O E K × σ) :=
  (List.range f.nodes.length).foldlM (fun fs index => do
    let node ← fs.1.nodes[index]?
    if node.state = .success then findCyclesFromNode P (f.nodes.length + 1) [] fs index
    else return fs) (f,s)

end

section

variable [DecidableEq K] (key : O → K)

def swapNodes (nodes : List (Node O)) (i j : Nat) : Option (List (Node O)) := do
  let a ← nodes[i]?
  let b ← nodes[j]?
  return (nodes.set i b).set j a

section

variable (f : ObligationForest O E K) (nodeRewrites l : List Nat)

def swapRemove (i : Nat) : List Nat :=
  match l.getLast? with
  | none => l
  | some last => (l.set i last).dropLast

def rewriteDependents (nodeRewrites : List Nat) : Nat → Nat → List Nat → Bool → Option (List Nat × Bool)
  | 0, i, dependents, hasParent => if i < dependents.length then none else some (dependents,hasParent)
  | fuel + 1, i, dependents, hasParent =>
    match dependents[i]? with
    | none => some (dependents,hasParent)
    | some dependent => do
      let newIndex ← nodeRewrites[dependent]?
      if newIndex ≥ nodeRewrites.length then
        rewriteDependents nodeRewrites fuel i (swapRemove dependents i) (hasParent && i != 0)
      else
        rewriteDependents nodeRewrites fuel (i + 1) (dependents.set i newIndex) hasParent

def rewriteNode (node : Node O) : Option (Node O) := do
  let (dependents,hasParent) ← rewriteDependents nodeRewrites node.dependents.length 0 node.dependents node.hasParent
  return { node with dependents := dependents, hasParent := hasParent }

def rewriteActive (entry : K × Nat) : Option (Option (K × Nat)) := do
  let newIndex ← nodeRewrites[entry.2]?
  return if newIndex ≥ nodeRewrites.length then none else some (entry.1,newIndex)

def applyRewrites : Option (ObligationForest O E K) := do
  let nodes ← f.nodes.mapM (rewriteNode nodeRewrites)
  let activeCache ← f.activeCache.mapM (rewriteActive nodeRewrites)
  return { f with nodes := nodes, activeCache := activeCache.filterMap id }

end

structure Sweep (O E K : Type) where
  forest : ObligationForest O E K
  nodeRewrites : List Nat
  deadNodes : Nat

def Sweep.bury (s : Sweep O E K) (origNodesLen index : Nat) : Sweep O E K :=
  { s with
    nodeRewrites := s.nodeRewrites.set index origNodesLen
    deadNodes := s.deadNodes + 1 }

def removeActive (f : ObligationForest O E K) (k : K) : ObligationForest O E K :=
  { f with activeCache := f.activeCache.filter fun entry => entry.1 ≠ k }

section

variable (outcomeCb : Node O → Option (Event O E))

def sweepNode (origNodesLen : Nat) (s : Sweep O E K) (index : Nat) : Option (Sweep O E K) := do
  let f := s.forest
  let node ← f.nodes[index]?
  match node.state with
  | .pending | .waiting =>
    if s.deadNodes > 0 then
      let nodes ← swapNodes f.nodes index (index - s.deadNodes)
      return { s with
        forest := { f with nodes := nodes }
        nodeRewrites := s.nodeRewrites.modify index (· - s.deadNodes) }
    else
      return s
  | .done =>
    let cacheKey := key node.obligation
    let f := f.removeActive cacheKey
    let f := { f with doneCache := cacheKey :: f.doneCache }
    let event ← outcomeCb node
    return { s with forest := f.record event }.bury origNodesLen index
  | .error =>
    let cacheKey := key node.obligation
    let f := f.removeActive cacheKey
    let f := { f with errorCache := (node.obligationTreeId,cacheKey) :: f.errorCache }
    return { s with forest := f }.bury origNodesLen index
  | .success => none

def compress (f : ObligationForest O E K) : Option (ObligationForest O E K) := do
  let n := f.nodes.length
  let s ← (List.range n).foldlM (sweepNode key outcomeCb n) ⟨f,List.range n,0⟩
  if s.deadNodes > 0 then
    applyRewrites { s.forest with nodes := s.forest.nodes.take (n - s.deadNodes) } s.nodeRewrites
  else
    return s.forest

end

end

section

variable [DecidableEq K] (key : O → K) (P : Processor σ O E)

def registerChild (index : Nat) (f : ObligationForest O E K) (child : O) : Option (ObligationForest O E K) := do
  let (ok,f) ← f.registerObligationAt key child (some index)
  if ok then return f
  else
    let (_,f) ← f.errorAt index
    return f

def processNode (f : ObligationForest O E K) (s : σ) (index : Nat) (node : Node O) :
    Option (ObligationForest O E K × σ × Bool) :=
  if node.state ≠ .pending ∨ !P.needsProcessObligation s node.obligation then
    some (f,s,false)
  else
    match P.processObligation s node.obligation with
    | (s,obligation,result) =>
      let f := { f with nodes := f.nodes.modify index fun n => { n with obligation := obligation } }
      match result with
      | .unchanged => some (f,s,false)
      | .changed children => do
        let f := (f.setState index .success).record (.processed node.uid)
        let f ← children.foldlM (registerChild key index) f
        return (f,s,true)
      | .error err => do
        let (backtrace,f) ← f.errorAt index
        return (f.record (.error [node.uid] false err backtrace),s,true)

def processNodes : Nat → ObligationForest O E K → σ → Nat → Bool → Option (ObligationForest O E K × σ × Bool)
  | 0, _, _, _, _ => none
  | fuel + 1, f, s, index, hasChanged =>
    match f.nodes[index]? with
    | none => some (f,s,hasChanged)
    | some node => do
      let (f,s,changed) ← f.processNode key P s index node
      processNodes fuel f s (index + 1) (hasChanged || changed)

def recordCompleted (node : Node O) : Option (Event O E) := some (.completed node.uid node.obligation)

def processRound (fuel : Nat) (f : ObligationForest O E K) (s : σ) : Option (ObligationForest O E K × σ × Bool) := do
  let start := P.skippableObligations s (f.nodes.map Node.obligation)
  let (f,s,hasChanged) ← processNodes key P fuel f s start false
  if hasChanged then
    let f ← f.markSuccesses
    let (f,s) ← f.processCycles P s
    let f ← f.compress key recordCompleted
    return (f,s,true)
  else
    return (f,s,false)

def processObligations : Nat → ObligationForest O E K → σ → Option (ObligationForest O E K × σ)
  | 0, _, _ => none
  | fuel + 1, f, s => do
    let (f,s,hasChanged) ← processRound key P fuel f s
    if hasChanged then processObligations fuel f s else return (f,s)

end

section

variable [DecidableEq K] (key : O → K)

-- A call to `process_obligations` need not return, so its rounds are steps of their own: what holds
-- after every step holds at each point of a call that goes on for ever.
inductive Step : ObligationForest O E K → ObligationForest O E K → Prop
  | register {f g : ObligationForest O E K} (obligation : O) : f.registerObligation key obligation = some g → Step f g
  | round {f g : ObligationForest O E K} {σ : Type} (P : Processor σ O E) (fuel : Nat) (s s' : σ)
      (hasChanged : Bool) : f.processRound key P fuel s = some (g,s',hasChanged) → Step f g

theorem steps_of_processObligations (P : Processor σ O E) (fuel : Nat) (f g : ObligationForest O E K) (s s' : σ)
    (h : f.processObligations key P fuel s = some (g,s')) : Relation.ReflTransGen (Step key) f g := by
  induction fuel generalizing f s with
  | zero => simp [processObligations] at h
  | succ fuel ih =>
    simp only [processObligations,bind_iff] at h
    obtain ⟨⟨f',s1,ha⟩,hr,h⟩ := h
    refine .head (.round P fuel s s1 ha hr) ?_
    cases ha with
    | true => exact ih f' s1 (by simpa using h)
    | false =>
      cases h
      exact .refl

end

end ObligationForest

end Frontend.Obligation
