import Frontend.BitSet.Dense
import Frontend.Mir.Postorder

namespace Frontend.Dataflow

open Mir BitSet

structure Location (B : Type) where
  block : B
  statementIndex : Nat

inductive SwitchTargetIndex
  | normal (i : Nat)
  | otherwise

inductive Direction
  | forward
  | backward
  deriving DecidableEq

section

variable {D : Type} [SemilatticeSup D] [DecidableEq D]

def join (self other : D) : D × Bool := (self ⊔ other,decide (self ⊔ other ≠ self))

end

variable {Place Operand Statement : Type}

-- The terminator edges are edges of the graph, and the start block is initialised above bottom.
structure Analysis (body : Body Place Operand Statement) (D : Type) [SemilatticeSup D] where
  bottomValue : D
  initializeStartBlock : D → D
  applyEarlyStatementEffect : D → Statement → Location body.BasicBlock → D
  applyPrimaryStatementEffect : D → Statement → Location body.BasicBlock → D
  applyEarlyTerminatorEffect : D → TerminatorKind body.BasicBlock Place Operand → Location body.BasicBlock → D
  getTerminatorEdges : D → TerminatorKind body.BasicBlock Place Operand → Location body.BasicBlock →
    TerminatorEdges body.BasicBlock Place Operand
  applyPrimaryTerminatorEffect : D → TerminatorKind body.BasicBlock Place Operand → Location body.BasicBlock → D
  applyCallReturnEffect : D → body.BasicBlock → CallReturnPlaces Place → D
  SwitchIntData : Type
  getSwitchIntData : body.BasicBlock → SwitchTargets body.BasicBlock → Operand → Option SwitchIntData
  applySwitchIntEdgeEffect : D → SwitchIntData → SwitchTargetIndex → D
  bottom_le : bottomValue ≤ initializeStartBlock bottomValue
  edges_subset : ∀ d k loc, (getTerminatorEdges d k loc).targets ⊆ k.successors

inductive Bug
  | initializeStartBlock
  | switchIntEdgeEffects
  | unrankedTarget
  | debugAssert
  | outOfBounds
  | outOfFuel

section

variable {body : Body Place Operand Statement} {D : Type} [SemilatticeSup D] (a : Analysis body D)

section

variable (block : body.BasicBlock)

def statementEffect (state : D) (statement : Statement × Nat) : D :=
  let location := ⟨block,statement.2⟩
  a.applyPrimaryStatementEffect (a.applyEarlyStatementEffect state statement.1 location) statement.1 location

def applyEdges (exitState : D) : TerminatorEdges body.BasicBlock Place Operand → List (body.BasicBlock × D)
  | .none => []
  | .single target => [(target,exitState)]
  | .double target unwind => [(target,exitState),(unwind,exitState)]
  | .assignOnReturn returns cleanup place =>
    -- The unwind path does not see the assignments.
    cleanup.toList.map (fun cleanup => (cleanup,exitState)) ++
      if returns.isEmpty then []
      else
        let exitState := a.applyCallReturnEffect exitState block place
        returns.map fun target => (target,exitState)
  | .switchInt targets discr =>
    match a.getSwitchIntData block targets discr with
    | some data =>
      targets.iter.zipIdx.map (fun entry => (entry.1.2,a.applySwitchIntEdgeEffect exitState data (.normal entry.2))) ++
      [(targets.otherwise,a.applySwitchIntEdgeEffect exitState data .otherwise)]
    | none => targets.targets.map fun target => (target,exitState)

def forwardEffects (state : D) (block : body.BasicBlock) : List (body.BasicBlock × D) :=
  let data := body.basicBlocks block
  let state := data.statements.zipIdx.foldl (statementEffect a block) state
  let location := ⟨block,data.statements.length⟩
  let state := a.applyEarlyTerminatorEffect state data.terminator location
  let edges := a.getTerminatorEdges state data.terminator location
  let exitState := a.applyPrimaryTerminatorEffect state data.terminator location
  applyEdges a block exitState edges

def propagateBack (exitState : D) (pred : body.BasicBlock) : Except Bug (body.BasicBlock × D) :=
  match (body.basicBlocks pred).terminator.edges with
  | .assignOnReturn returns _ place =>
    if block ∈ returns then .ok (pred,a.applyCallReturnEffect exitState pred place)
    else .ok (pred,exitState)
  | .switchInt targets discr =>
    if (a.getSwitchIntData pred targets discr).isSome then .error .switchIntEdgeEffects
    else .ok (pred,exitState)
  | _ => .ok (pred,exitState)

end

def backwardEffects (state : D) (block : body.BasicBlock) : Except Bug (List (body.BasicBlock × D)) :=
  let data := body.basicBlocks block
  let location := ⟨block,data.statements.length⟩
  let state := a.applyEarlyTerminatorEffect state data.terminator location
  let state := a.applyPrimaryTerminatorEffect state data.terminator location
  let exitState := data.statements.zipIdx.reverse.foldl (statementEffect a block) state
  (body.predecessors block).mapM (propagateBack a block exitState)

def applyEffectsInBlock (dir : Direction) (state : D) (block : body.BasicBlock) :
    Except Bug (List (body.BasicBlock × D)) :=
  match dir with
  | .forward => .ok (forwardEffects a state block)
  | .backward => backwardEffects a state block

end

section

variable {body : Body Place Operand Statement} {D : Type} [SemilatticeSup D] [DecidableEq D] (a : Analysis body D)
  (dir : Direction)

-- The position in `rpo` of the block of rank `i`, and the rank of the block at position `i`.
def flip (body : Body Place Operand Statement) (i : Nat) : Nat :=
  match dir with
  | .forward => i
  | .backward => body.reversePostorder.length - 1 - i

def ranks (body : Body Place Operand Statement) : body.BasicBlock → Option Nat :=
  body.reversePostorder.zipIdx.foldl (fun ranks entry => Function.update ranks entry.1 (some (flip dir body entry.2)))
    fun _ => none

structure Loop (body : Body Place Operand Statement) (D : Type) where
  entryStates : body.BasicBlock → D
  dirty : DenseBitSet
  currRank : Nat

def assertSome {α : Type} (bug : Bug) : Option α → Except Bug α
  | some x => .ok x
  | none => .error bug

def propagate (s : Loop body D) (sent : body.BasicBlock × D) : Except Bug (Loop body D) :=
  match ranks dir body sent.1 with
  | none => if dir = .backward then .ok s else .error .unrankedTarget
  | some targetRank =>
    let (joined,setChanged) := join (s.entryStates sent.1) sent.2
    let s := { s with entryStates := Function.update s.entryStates sent.1 joined }
    if setChanged then do
      let dirty ← assertSome .outOfBounds (s.dirty.insert targetRank)
      .ok { s with dirty := dirty, currRank := min s.currRank targetRank }
    else .ok s

def process (s : Loop body D) : Except Bug (Loop body D) := do
  let bb ← assertSome .outOfBounds body.reversePostorder[flip dir body s.currRank]?
  let contained ← assertSome .outOfBounds (s.dirty.contains s.currRank)
  if !contained then .error .debugAssert
  let dirty ← assertSome .outOfBounds (s.dirty.remove s.currRank)
  let sent ← applyEffectsInBlock a dir (s.entryStates bb) bb
  sent.foldlM (propagate dir) { s with dirty := dirty }

def iteration (s : Loop body D) : Except Bug (Loop body D ⊕ (body.BasicBlock → D)) := do
  let s ← process a dir s
  match ← assertSome .outOfBounds (s.dirty.firstSetAtOrAfter s.currRank) with
  | some rank => .ok (.inl { s with currRank := rank })
  | none => .ok (.inr s.entryStates)

def loop : Nat → Loop body D → Except Bug (body.BasicBlock → D)
  | 0, _ => .error .outOfFuel
  | fuel + 1, s => do
    match ← iteration a dir s with
    | .inl s => loop fuel s
    | .inr entryStates => .ok entryStates

def initialStates : body.BasicBlock → D := Function.update (fun _ => a.bottomValue) body.startBlock
    (a.initializeStartBlock a.bottomValue)

def initialLoop : Loop body D where
  entryStates := initialStates a
  dirty := .newFilled body.reversePostorder.length
  currRank := 0

def iterateToFixpoint (fuel : Nat) : Except Bug (body.BasicBlock → D) :=
  if dir = .backward ∧ initialStates a body.startBlock ≠ a.bottomValue then
    .error .initializeStartBlock
  else loop a dir fuel (initialLoop a)

end

end Frontend.Dataflow
