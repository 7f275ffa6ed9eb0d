import Mathlib

namespace Frontend.Scc

variable {A : Type}

structure Graph where
  numNodes : Nat
  successors : Nat → List Nat
  successors_lt : ∀ v < numNodes, ∀ w ∈ successors v, w < numNodes

structure Annotations (A : Type) where
  new : Nat → A
  updateScc : A → A → A
  updateReachable : A → A → A

structure SccData where
  sccDetails : List (Nat × Nat)
  allSuccessors : List Nat
  deriving DecidableEq

namespace SccData

def empty : SccData := ⟨[],[]⟩

def successors (data : SccData) (scc : Nat) : Option (List Nat) := do
  let range ← data.sccDetails[scc]?
  return (data.allSuccessors.take range.2).drop range.1

-- `scc_details.push` makes the index `S::new(len)`, which is in range: wherever `Sccs` is used, the
-- indices of the nodes and of the components have one range, and no component is without a node.
def createScc (data : SccData) (successors : List Nat) : Nat × SccData :=
  let allSuccessors := data.allSuccessors ++ successors
  (data.sccDetails.length,⟨data.sccDetails ++ [(data.allSuccessors.length,allSuccessors.length)],allSuccessors⟩)

end SccData

inductive NodeState (A : Type) where
  | notVisited
  | beingVisited (depth : Nat) (ann : A)
  | inCycle (sccIndex : Nat) (ann : A)
  | inCycleWith (parent : Nat)

inductive WalkReturn (A : Type) where
  | cycle (minDepth : Nat) (ann : A)
  | complete (sccIndex : Nat) (ann : A)

-- `annotated` lists the calls of `annotate_scc`.
structure Construction (A : Type) where
  nodeStates : List (NodeState A)
  nodeStack : List Nat
  successorsStack : List Nat
  sccData : SccData
  annotated : List (Nat × A)

def setAt {α : Type} (l : List α) (i : Nat) (a : α) : Option (List α) :=
  if i < l.length then some (l.set i a) else none

inductive Found (A : Type) where
  | notVisited
  | root (node previousNode : Nat) (rootState assignedState : NodeState A)

-- The first loop of `find_state`: every link passed is turned round.
def descend (nodeStack : List Nat) : Nat → List (NodeState A) → Nat → Nat → Option (List (NodeState A) × Found A)
  | 0, _, _, _ => none
  | fuel + 1, states, node, previousNode =>
    match states[node]? with
    | none => none
    | some .notVisited => some (states,.notVisited)
    | some (.inCycle sccIndex annotation) =>
      some (states,.root node previousNode (.inCycle sccIndex annotation) (.inCycle sccIndex annotation))
    | some (.beingVisited depth annotation) => do
      let parent ← nodeStack[depth]?
      return (states,.root node previousNode (.beingVisited depth annotation) (.inCycleWith parent))
    | some (.inCycleWith parent) =>
      if node = parent then none
      else descend nodeStack fuel (states.set node (.inCycleWith previousNode)) parent node

-- The second loop: back along the turned links to the node that points to itself.
def ascend (assignedState : NodeState A) : Nat → List (NodeState A) → Nat → Nat → Option (List (NodeState A))
  | 0, _, _, _ => none
  | fuel + 1, states, node, previousNode =>
    if previousNode = node then some states
    else
      match states[previousNode]? with
      | some (.inCycleWith previous) => ascend assignedState fuel
          (states.set previousNode assignedState) previousNode previous
      | _ => none

def findState (c : Construction A) (node : Nat) : Option (NodeState A × Construction A) := do
  let fuel := c.nodeStates.length + 1
  let (states,found) ← descend c.nodeStack fuel c.nodeStates node node
  match found with
  | .notVisited => return (.notVisited,{ c with nodeStates := states })
  | .root root previousNode rootState assignedState =>
    let states ← ascend assignedState fuel states root previousNode
    return (rootState,{ c with nodeStates := states })

def inspectNode (c : Construction A) (node : Nat) : Option (Option (WalkReturn A) × Construction A) := do
  let (state,c) ← findState c node
  match state with
  | .inCycle sccIndex annotation => return (some (.complete sccIndex annotation),c)
  | .beingVisited depth annotation => return (some (.cycle depth annotation),c)
  | .notVisited => return (none,c)
  | .inCycleWith _ => none

section

structure VisitingNodeFrame (A : Type) where
  node : Nat
  successors : Option (List Nat)
  depth : Nat
  minDepth : Nat
  successorsLen : Nat
  minCycleRoot : Nat
  successorNode : Nat
  annotation : A

structure WalkState (A : Type) where
  construction : Construction A
  stack : List (VisitingNodeFrame A)
  returnValue : Option (WalkReturn A)

def VisitingNodeFrame.new (ann : Annotations A) (node depth : Nat) : VisitingNodeFrame A where
  node := node
  successors := none
  depth := depth
  minDepth := depth
  successorsLen := 0
  minCycleRoot := node
  successorNode := node
  annotation := ann.new node

def dedup (seen : List Nat) : List Nat → List Nat
  | [] => []
  | x :: xs => if x ∈ seen then dedup seen xs else x :: dedup (x :: seen) xs

variable (G : Graph) (ann : Annotations A)

section

variable (c : Construction A)

section

variable (frame : VisitingNodeFrame A) (rest : List (VisitingNodeFrame A))

def enterNode : Option (WalkState A) :=
  match c.nodeStates[frame.node]? with
  | some .notVisited => some {
    construction := { c with
      nodeStates := c.nodeStates.set frame.node (.beingVisited frame.depth frame.annotation)
      nodeStack := c.nodeStack ++ [frame.node] }
    stack := { frame with
      successorsLen := c.successorsStack.length
      successors := some (G.successors frame.node) } :: rest
    returnValue := none }
  | _ => none

def foundSuccessor (successorNode : Nat) : WalkReturn A → Option (WalkState A)
  | .cycle successorMinDepth successorAnnotation =>
    if successorMinDepth ≤ frame.depth then
      let frame :=
        if successorMinDepth < frame.minDepth then
          { frame with minDepth := successorMinDepth, minCycleRoot := successorNode }
        else frame
      some {
        construction := c
        stack := { frame with
          annotation := ann.updateScc frame.annotation successorAnnotation } :: rest
        returnValue := none }
    else none
  | .complete successorSccIndex successorAnnotation =>
    some {
      construction := { c with successorsStack := c.successorsStack ++ [successorSccIndex] }
      stack := { frame with
        annotation := ann.updateReachable frame.annotation successorAnnotation } :: rest
      returnValue := none }

def finishNode : Option (WalkState A) :=
  if c.nodeStack.getLast? ≠ some frame.node then none
  else
  let c := { c with nodeStack := c.nodeStack.dropLast }
  if frame.minDepth = frame.depth then do
    let deduplicated := dedup [] (c.successorsStack.drop frame.successorsLen)
    let (sccIndex,sccData) := c.sccData.createScc deduplicated
    let states ← setAt c.nodeStates frame.node (.inCycle sccIndex frame.annotation)
    return {
      construction := { c with
        nodeStates := states
        successorsStack := c.successorsStack.take frame.successorsLen
        sccData := sccData
        annotated := c.annotated ++ [(sccIndex, frame.annotation)] }
      stack := rest
      returnValue := some (.complete sccIndex frame.annotation) }
  else do
    let states ← setAt c.nodeStates frame.node (.inCycleWith frame.minCycleRoot)
    return {
      construction := { c with nodeStates := states }
      stack := rest
      returnValue := some (.cycle frame.minDepth frame.annotation) }

end

end

-- One item of the `for` loop of `walk_unvisited_node`; the frame keeps the iterator, so leaving the
-- loop with `continue 'recurse` and coming back resumes it.
def walkStep (w : WalkState A) : Option (WalkState A) :=
  match w.stack with
  | [] => none
  | frame :: rest =>
    match frame.successors with
    | none => enterNode G w.construction frame rest
    | some successors =>
      match w.returnValue with
      | some walk => foundSuccessor ann w.construction frame rest frame.successorNode walk
      | none =>
        match successors with
        | [] => finishNode w.construction frame rest
        | successorNode :: successors => do
          let (walk,c) ← inspectNode w.construction successorNode
          let frame := { frame with successors := some successors }
          match walk with
          | some walk => foundSuccessor ann c frame rest successorNode walk
          | none =>
            return {
              construction := c
              stack := .new ann successorNode (frame.depth + 1) :: { frame with successorNode := successorNode } :: rest
              returnValue := none }

def walkLoop : Nat → WalkState A → Option (WalkReturn A × Construction A)
  | 0, _ => none
  | fuel + 1, w =>
    match w.stack with
    | [] => w.returnValue.map fun walk => (walk,w.construction)
    | _ :: _ => do
      let w ← walkStep G ann w
      walkLoop fuel w

def Graph.walkFuel : Nat := ((List.range G.numNodes).map fun v => (G.successors v).length + 3).sum + 1

def walkUnvisitedNode (c : Construction A) (initial : Nat) : Option (WalkReturn A × Construction A) := do
  guard (c.successorsStack.length = 0)
  let (walk,c) ← walkLoop G ann G.walkFuel ⟨c,[.new ann initial 0],none⟩
  guard (c.successorsStack.length = 0)
  return (walk,c)

def startWalkFrom (c : Construction A) (node : Nat) : Option (WalkReturn A × Construction A) := do
  let (walk,c) ← inspectNode c node
  match walk with
  | some walk => return (walk,c)
  | none => walkUnvisitedNode G ann c node

end

structure Sccs (A : Type) where
  sccIndices : List Nat
  sccData : SccData
  annotated : List (Nat × A)

section

variable (G : Graph) (ann : Annotations A)

def Graph.construction : Construction A where
  nodeStates := List.replicate G.numNodes .notVisited
  nodeStack := []
  successorsStack := []
  sccData := .empty
  annotated := []

def constructNode (acc : List Nat × Construction A) (node : Nat) : Option (List Nat × Construction A) := do
  let (walk,c) ← startWalkFrom G ann acc.2 node
  match walk with
  | .complete sccIndex _ => return (acc.1 ++ [sccIndex],c)
  | .cycle _ _ => none

def newWithAnnotation : Option (Sccs A) := do
  let (sccIndices,c) ← (List.range G.numNodes).foldlM (constructNode G ann) ([],G.construction)
  return ⟨sccIndices,c.sccData,c.annotated⟩

end

end Frontend.Scc
