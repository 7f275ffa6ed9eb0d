import Mathlib
import Frontend.Library.Exhaust

namespace Frontend.Mir

open Library List

inductive UnwindTerminateReason
  | abi
  | inCleanup
  deriving DecidableEq

inductive UnwindAction (B : Type)
  | «continue»
  | unreachable
  | terminate (reason : UnwindTerminateReason)
  | cleanup (bb : B)
  deriving DecidableEq

structure SwitchTargets (B : Type) where
  values : List Nat
  targets : List B
  length_targets : targets.length = values.length + 1
  deriving DecidableEq

inductive CallReturnPlaces (Place : Type)
  | call (place : Place)
  | yield (place : Place)
  | inlineAsm (operands : List Place)
  deriving DecidableEq

inductive TerminatorKind (B Place Operand : Type)
  | goto (target : B)
  | switchInt (discr : Operand) (targets : SwitchTargets B)
  | unwindResume
  | unwindTerminate (reason : UnwindTerminateReason)
  | «return»
  | unreachable
  | drop (place : Place) (target : B) (unwind : UnwindAction B) (drop : Option B)
  | call (destination : Place) (target : Option B) (unwind : UnwindAction B)
  | tailCall
  | assert (cond : Operand) (target : B) (unwind : UnwindAction B)
  | yield (resume : B) (resumeArg : Place) (drop : Option B)
  | coroutineDrop
  | falseEdge (realTarget imaginaryTarget : B)
  | falseUnwind (realTarget : B) (unwind : UnwindAction B)
  | inlineAsm (operands : List Place) (targets : List B) (unwind : UnwindAction B)

inductive TerminatorEdges (B Place Operand : Type)
  | none
  | single (target : B)
  | double (target unwind : B)
  | assignOnReturn (returns : List B) (cleanup : Option B) (place : CallReturnPlaces Place)
  | switchInt (targets : SwitchTargets B) (discr : Operand)

section

variable {B Place Operand : Type}

def UnwindAction.cleanupBlock : UnwindAction B → Option B
  | .cleanup bb => some bb
  | .continue | .unreachable | .terminate _ => none

def SwitchTargets.otherwise (t : SwitchTargets B) : B := t.targets.getLast (ne_nil_of_length_eq_add_one t.length_targets)

def SwitchTargets.iter (t : SwitchTargets B) : List (Nat × B) := t.values.zip t.targets

def mkSuccessors (slice : List B) (option1 option2 : Option B) : List B := slice ++ (option1.toList ++ option2.toList)

def TerminatorKind.successors : TerminatorKind B Place Operand → List B
  | .drop _ t (.cleanup u) (some d) => mkSuccessors [t] (some u) (some d)
  | .call _ (some t) (.cleanup u) => mkSuccessors [t] (some u) none
  | .yield t _ (some u) => mkSuccessors [t] (some u) none
  | .drop _ t (.cleanup u) none => mkSuccessors [t] (some u) none
  | .drop _ t _ (some u) => mkSuccessors [t] (some u) none
  | .assert _ t (.cleanup u) => mkSuccessors [t] (some u) none
  | .falseUnwind t (.cleanup u) => mkSuccessors [t] (some u) none
  | .goto t => mkSuccessors [t] none none
  | .call _ none (.cleanup t) => mkSuccessors [t] none none
  | .call _ (some t) _ => mkSuccessors [t] none none
  | .yield t _ none => mkSuccessors [t] none none
  | .drop _ t _ _ => mkSuccessors [t] none none
  | .assert _ t _ => mkSuccessors [t] none none
  | .falseUnwind t _ => mkSuccessors [t] none none
  | .unwindResume | .unwindTerminate _ | .coroutineDrop | .return | .unreachable | .tailCall
  | .call _ none _ => mkSuccessors [] none none
  | .inlineAsm _ targets (.cleanup u) => mkSuccessors targets (some u) none
  | .inlineAsm _ targets _ => mkSuccessors targets none none
  | .switchInt _ targets => mkSuccessors targets.targets none none
  | .falseEdge realTarget imaginaryTarget => mkSuccessors [realTarget] (some imaginaryTarget) none

def unwindEdges (target : B) : UnwindAction B → TerminatorEdges B Place Operand
  | .cleanup unwind => .double target unwind
  | .continue | .terminate _ | .unreachable => .single target

def TerminatorKind.edges : TerminatorKind B Place Operand → TerminatorEdges B Place Operand
  | .return | .tailCall | .unwindResume | .unwindTerminate _ | .coroutineDrop | .unreachable => .none
  | .goto target => .single target
  | .assert _ target unwind => unwindEdges target unwind
  | .drop _ target unwind _ => unwindEdges target unwind
  | .falseUnwind target unwind => unwindEdges target unwind
  | .falseEdge realTarget imaginaryTarget => .double realTarget imaginaryTarget
  | .yield target resumeArg dropLine => .assignOnReturn ([target] ++ dropLine.toList) none (.yield resumeArg)
  | .call destination target unwind => .assignOnReturn target.toList unwind.cleanupBlock (.call destination)
  | .inlineAsm operands targets unwind => .assignOnReturn targets unwind.cleanupBlock (.inlineAsm operands)
  | .switchInt discr targets => .switchInt targets discr

def TerminatorEdges.targets : TerminatorEdges B Place Operand → List B
  | .none => []
  | .single target => [target]
  | .double target unwind => [target,unwind]
  | .assignOnReturn returns cleanup _ => cleanup.toList ++ returns
  | .switchInt targets _ => targets.targets

section

variable (place : Place) (operand : Operand) (target : B) (unwind : UnwindAction B)

@[simp] theorem unwindEdges_targets : (unwindEdges target unwind : TerminatorEdges B Place Operand).targets =
    target :: unwind.cleanupBlock.toList := by
  cases unwind <;> rfl

@[simp] theorem drop_successors (dropLine : Option B) :
    (TerminatorKind.drop place target unwind dropLine : TerminatorKind B Place Operand).successors =
      target :: (unwind.cleanupBlock.toList ++ dropLine.toList) := by
  cases unwind <;> cases dropLine <;> rfl

@[simp] theorem call_successors (target : Option B) :
    (TerminatorKind.call place target unwind : TerminatorKind B Place Operand).successors =
      target.toList ++ unwind.cleanupBlock.toList := by
  cases unwind <;> cases target <;> rfl

@[simp] theorem assert_successors : (TerminatorKind.assert operand target unwind : TerminatorKind B Place
    Operand).successors =
      target :: unwind.cleanupBlock.toList := by
  cases unwind <;> rfl

@[simp] theorem yield_successors (dropLine : Option B) :
    (TerminatorKind.yield target place dropLine : TerminatorKind B Place Operand).successors = target ::
    dropLine.toList := by
  cases dropLine <;> rfl

@[simp] theorem falseUnwind_successors : (TerminatorKind.falseUnwind target unwind : TerminatorKind B
    Place Operand).successors =
      target :: unwind.cleanupBlock.toList := by
  cases unwind <;> rfl

@[simp] theorem inlineAsm_successors (operands : List Place) (targets : List B) :
    (TerminatorKind.inlineAsm operands targets unwind : TerminatorKind B Place Operand).successors =
      targets ++ unwind.cleanupBlock.toList := by
  cases unwind <;> simp [TerminatorKind.successors,mkSuccessors,UnwindAction.cleanupBlock]

@[simp] theorem switchInt_successors (targets : SwitchTargets B) :
    (TerminatorKind.switchInt operand targets : TerminatorKind B Place Operand).successors = targets.targets := by
  simp [TerminatorKind.successors,mkSuccessors]

end

theorem TerminatorKind.edges_targets_subset (k : TerminatorKind B Place Operand) : k.edges.targets ⊆ k.successors := by
  intro b hb
  cases k with
  | goto target => exact hb
  | falseEdge realTarget imaginaryTarget => exact hb
  | unwindResume => cases hb
  | unwindTerminate reason => cases hb
  | «return» => cases hb
  | unreachable => cases hb
  | tailCall => cases hb
  | coroutineDrop => cases hb
  | drop place target unwind dropLine =>
    rw [edges,unwindEdges_targets] at hb
    rw [drop_successors,← cons_append]
    exact mem_append_left _ hb
  | call destination target unwind => simpa [edges,TerminatorEdges.targets,or_comm] using hb
  | assert cond target unwind => simpa [edges] using hb
  | falseUnwind target unwind => simpa [edges] using hb
  | yield resume resumeArg dropLine => simpa [edges,TerminatorEdges.targets] using hb
  | inlineAsm operands targets unwind => simpa [edges,TerminatorEdges.targets,or_comm] using hb
  | switchInt discr targets => simpa [edges,TerminatorEdges.targets] using hb

end

structure BasicBlockData (B Place Operand Statement : Type) where
  statements : List Statement
  terminator : TerminatorKind B Place Operand

structure Body (Place Operand Statement : Type) where
  numBlocks : Nat
  basicBlocks : Fin numBlocks → BasicBlockData (Fin numBlocks) Place Operand Statement
  nonempty : 0 < numBlocks

namespace Body

variable {Place Operand Statement : Type} (body : Body Place Operand Statement)

abbrev BasicBlock := Fin body.numBlocks

def startBlock : body.BasicBlock := ⟨0,body.nonempty⟩

def successors (bb : body.BasicBlock) : List body.BasicBlock := (body.basicBlocks bb).terminator.successors

def Edge (a b : body.BasicBlock) : Prop := b ∈ body.successors a

def Reachable (bb : body.BasicBlock) : Prop := Relation.ReflTransGen body.Edge body.startBlock bb

def pushPredecessors (preds : body.BasicBlock → List body.BasicBlock) (bb : body.BasicBlock) :
    body.BasicBlock → List body.BasicBlock :=
  (body.successors bb).foldl (fun preds succ => Function.update preds succ (preds succ ++ [bb])) preds

def predecessors : body.BasicBlock → List body.BasicBlock :=
  (List.finRange body.numBlocks).foldl body.pushPredecessors fun _ => []

variable {body}

theorem mem_pushed (succs : List body.BasicBlock) :
    a ∈ succs.foldl (fun preds succ => Function.update preds succ (preds succ ++ [c])) preds b ↔ a ∈ preds b ∨
    a = c ∧ b ∈ succs := by
  induction succs generalizing preds with
  | nil => simp
  | cons succ succs ih =>
    rw [foldl_cons,ih]
    by_cases h : b = succ
    · subst h
      simp [or_assoc]
      tauto
    · simp [h]

theorem mem_predecessors : a ∈ body.predecessors b ↔ body.Edge a b := by
  have hf : ∀ (blocks : List body.BasicBlock) (preds : body.BasicBlock → List body.BasicBlock),
      a ∈ blocks.foldl body.pushPredecessors preds b ↔ a ∈ preds b ∨ ∃ c ∈ blocks, a = c ∧ b ∈ body.successors c := by
    intro blocks
    induction blocks with
    | nil => simp
    | cons c blocks ih =>
      intro preds
      rw [foldl_cons,ih,pushPredecessors,mem_pushed,or_assoc,exists_mem_cons_iff]
  simp [predecessors,hf,Edge]

end Body

end Frontend.Mir
