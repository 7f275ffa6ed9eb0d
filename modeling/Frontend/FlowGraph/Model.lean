import Mathlib
import Frontend.Library.Exhaust

namespace Frontend.FlowGraph

open Frontend.Library Function

structure ControlFlowGraph where
  numNodes : Nat
  startNode : Fin numNodes
  successors : Fin numNodes → List (Fin numNodes)
  predecessors : Fin numNodes → List (Fin numNodes)
  mirror : ∀ u v, u ∈ predecessors v ↔ v ∈ successors u

abbrev ControlFlowGraph.Node (g : ControlFlowGraph) := Fin g.numNodes

section

-- `preOrderToReal` numbers the visited nodes; a frame holds the successors still to look at.
structure Traversal (n : Nat) where
  stack : List (Nat × List (Fin n))
  parent : Nat → Nat
  preOrderToReal : List (Fin n)
  realToPreOrder : Fin n → Option Nat

variable (g : ControlFlowGraph)

def Traversal.init : Traversal g.numNodes where
  stack := [(0,g.successors g.startNode)]
  parent := fun _ => 0
  preOrderToReal := [g.startNode]
  realToPreOrder := update (fun _ => none) g.startNode (some 0)

def Traversal.push (s : Traversal g.numNodes) (idx : Nat) (iter : List g.Node)
    (stack : List (Nat × List g.Node)) (successor : g.Node) : Traversal g.numNodes :=
  let preOrderIdx := s.preOrderToReal.length
  { stack := (preOrderIdx,g.successors successor) :: (idx,iter) :: stack
    parent := update s.parent preOrderIdx idx
    preOrderToReal := s.preOrderToReal ++ [successor]
    realToPreOrder := update s.realToPreOrder successor (some preOrderIdx) }

def Traversal.step (s : Traversal g.numNodes) : Option (Traversal g.numNodes) :=
  match s.stack with
  | [] => none
  | (_,[]) :: stack => some { s with stack := stack }
  | (idx,successor :: iter) :: stack =>
    match s.realToPreOrder successor with
    | some _ => some { s with stack := (idx,iter) :: stack }
    | none => some (s.push g idx iter stack successor)

def numEdges : Nat := ((List.finRange g.numNodes).map fun v => (g.successors v).length).sum

def traverse : Traversal g.numNodes := exhaust (Traversal.step g) (numEdges g + g.numNodes) (.init g)

end

-- The link-eval forest. `ancestor` is shared between linked and unlinked vertices.
structure Forest where
  ancestor : Nat → Nat
  label : Nat → Nat

def isProcessed (v : Nat) (lastlinked : Option Nat) : Bool := lastlinked.any fun last => last ≤ v

-- The stack of `compress`; an ancestor is smaller, so `fuel` need not exceed the vertex.
def processedChain (ancestor : Nat → Nat) (lastlinked : Option Nat) : Nat → Nat → List Nat
  | 0, v => [v]
  | fuel + 1, v =>
    v :: if isProcessed (ancestor v) lastlinked then
      processedChain ancestor lastlinked fuel (ancestor v) else []

def relabel (semi : Nat → Nat) : List Nat → Forest → Forest
  | v :: u :: chain, f =>
    let f := relabel semi (u :: chain) f
    { ancestor := update f.ancestor v (f.ancestor u)
      label :=
        if semi (f.label u) < semi (f.label v) then update f.label v (f.label u)
        else f.label }
  | _, f => f

def compress (f : Forest) (lastlinked : Option Nat) (semi : Nat → Nat) (v : Nat) : Forest :=
  relabel semi (processedChain f.ancestor lastlinked v v) f

def eval (f : Forest) (lastlinked : Option Nat) (semi : Nat → Nat) (node : Nat) : Forest × Nat :=
  if isProcessed node lastlinked then
    let f := compress f lastlinked semi node
    (f,f.label node)
  else (f,node)

structure Solver where
  forest : Forest
  semi : Nat → Nat
  idom : Nat → Nat
  bucket : Nat → List Nat
  lastlinked : Option Nat

def Solver.init (parent : Nat → Nat) : Solver where
  forest := ⟨parent,id⟩
  semi := id
  idom := fun _ => 0
  bucket := fun _ => []
  lastlinked := none

def Solver.drainBucket (w : Nat) : List Nat → Solver → Solver
  | [], s => s
  | v :: vs, s =>
    let (forest,y) := eval s.forest s.lastlinked s.semi v
    drainBucket w vs { s with
      forest := forest
      idom := update s.idom v (if s.semi y < w then y else w) }

def Solver.scanPredecessors (w : Nat) : List (Option Nat) → Solver → Solver
  | [], s => s
  | none :: vs, s => scanPredecessors w vs s
  | some v :: vs, s =>
    let (forest,x) := eval s.forest s.lastlinked s.semi v
    scanPredecessors w vs { s with
      forest := forest
      semi := update s.semi w (min (s.semi w) (s.semi x)) }

def Solver.link (w : Nat) (s : Solver) : Solver :=
  let z := s.forest.ancestor w
  let s :=
    if z ≠ s.semi w then
      { s with bucket := update s.bucket (s.semi w) (s.bucket (s.semi w) ++ [w]) }
    else { s with idom := update s.idom w z }
  { s with lastlinked := some w }

def Solver.process (predecessors : Nat → List (Option Nat)) (w : Nat) (s : Solver) : Solver :=
  let s := s.drainBucket w (s.bucket w)
  let s := { s with semi := update s.semi w w }
  (s.scanPredecessors w (predecessors w)).link w

def Solver.solve (predecessors : Nat → List (Option Nat)) : Nat → Solver → Solver
  | 0, s => s
  | w + 1, s => solve predecessors w (s.process predecessors (w + 1))

def finalize (semi idom : Nat → Nat) : Nat → Nat → Nat
  | 0 => idom
  | w + 1 =>
    let idom := finalize semi idom w
    if idom (w + 1) ≠ semi (w + 1) then update idom (w + 1) (idom (idom (w + 1))) else idom

section

structure Time where
  start : Nat
  finish : Nat
  deriving DecidableEq

def Time.default : Time := ⟨0,0⟩

variable {n : Nat} (immediateDominators : Fin n → Option (Fin n))

abbrev Edges (n : Nat) := Fin n → Nat × Nat

def countChildren : List (Fin n) → Edges n → Edges n
  | [], edges => edges
  | i :: is, edges =>
    match immediateDominators i with
    | none => countChildren is edges
    | some idom => countChildren is (update edges idom ((edges idom).1,(edges idom).2 + 1))

def closeRanges : List (Fin n) → Nat → Edges n → Edges n
  | [], _, edges => edges
  | i :: is, m, edges =>
    let m := m + (edges i).2
    closeRanges is m (update edges i (m,m))

def fillRanges : List (Fin n) → Edges n → (Nat → Fin n) → Edges n × (Nat → Fin n)
  | [], edges, node => (edges,node)
  | i :: is, edges, node =>
    match immediateDominators i with
    | none => fillRanges is edges node
    | some idom =>
      let start := (edges idom).1 - 1
      fillRanges is (update edges idom (start,(edges idom).2)) (update node start i)

def transpose (start : Fin n) : Edges n × (Nat → Fin n) :=
  let edges := countChildren immediateDominators (List.finRange n) fun _ => (0,0)
  fillRanges immediateDominators (List.finRange n) (closeRanges (List.finRange n) 0 edges) fun _ => ⟨0,start.pos⟩

structure Clock (n : Nat) where
  edges : Edges n
  time : Fin n → Time
  stack : List (Fin n)
  discovered : Nat

def Clock.step (node : Nat → Fin n) (c : Clock n) : Option (Clock n) :=
  match c.stack with
  | [] => none
  | i :: stack =>
    let e := c.edges i
    if e.1 = e.2 then
      some { c with
        time := update c.time i ⟨(c.time i).start,c.discovered⟩
        stack := stack }
    else
      let j := node e.1
      some {
        edges := update c.edges i (e.1 + 1,e.2)
        time := update c.time j ⟨c.discovered + 1,(c.time j).finish⟩
        stack := j :: i :: stack
        discovered := c.discovered + 1 }

def Clock.init (start : Fin n) (edges : Edges n) : Clock n where
  edges := edges
  time := update (fun _ => .default) start ⟨1,0⟩
  stack := [start]
  discovered := 1

def computeAccessTime (start : Fin n) : Fin n → Time :=
  let (edges,node) := transpose immediateDominators start
  (exhaust (Clock.step node) (2 * n) (.init start edges)).time

end

structure Inner (n : Nat) where
  immediateDominators : Fin n → Option (Fin n)
  time : Fin n → Time

inductive Dominators (n : Nat)
  | path
  | general (inner : Inner n)

section

variable (g : ControlFlowGraph)

def isSmallPathGraph : Bool :=
  if g.startNode.val ≠ 0 then false
  else if g.numNodes = 1 then true
  else if g.numNodes = 2 then (g.successors g.startNode).any fun n => n.val = 1
  else false

def realDominators {n : Nat} (order : List (Fin n)) (idom : Nat → Nat) :
    List (Fin n × Nat) → (Fin n → Option (Fin n)) → Fin n → Option (Fin n)
  | [], result => result
  | (node,idx) :: rest, result => realDominators order idom rest (update result node order[idom idx]?)

def immediateDominators : g.Node → Option g.Node :=
  let t := traverse g
  let predecessors : Nat → List (Option Nat) := fun w =>
    match t.preOrderToReal[w]? with
    | some node => (g.predecessors node).map t.realToPreOrder
    | none => []
  let last := t.preOrderToReal.length - 1
  let s := Solver.solve predecessors last (.init t.parent)
  let idom := finalize s.semi s.idom last
  update (realDominators t.preOrderToReal idom t.preOrderToReal.zipIdx fun _ => none) g.startNode none

def dominatorsImpl : Inner g.numNodes where
  immediateDominators := immediateDominators g
  time := computeAccessTime (immediateDominators g) g.startNode

def dominators : Dominators g.numNodes :=
  if isSmallPathGraph g then .path else .general (dominatorsImpl g)

end

namespace Dominators

variable {n : Nat}

section

variable (d : Dominators n) (node : Fin n)

def isReachable : Bool :=
  match d with
  | .path => true
  | .general g => (g.time node).start ≠ 0

def immediateDominator : Option (Fin n) :=
  match d with
  | .path => if 0 < node.val then some ⟨node.val - 1,Nat.lt_of_le_of_lt (Nat.sub_le _ _) node.isLt⟩ else none
  | .general g => g.immediateDominators node

-- No answer where the source panics, for an unreachable `b`.
def dominates (a b : Fin n) : Option Bool :=
  match d with
  | .path => some (a ≤ b)
  | .general g =>
    let a := g.time a
    let b := g.time b
    if b.start ≠ 0 then some (a.start ≤ b.start && b.finish ≤ a.finish) else none

def strictlyDominates (a b : Fin n) : Option Bool :=
  match d with
  | .path => some (a < b)
  | .general g =>
    let a := g.time a
    let b := g.time b
    if b.start ≠ 0 then some (a.start < b.start && b.finish < a.finish) else none

end

end Dominators

end Frontend.FlowGraph
