import Frontend.Dataflow.Model
import Frontend.Library.Fixpoint

namespace Frontend.Dataflow

open Mir Library List

variable {Place Operand Statement : Type} {body : Body Place Operand Statement} {D : Type} [SemilatticeSup D]

section

variable (a : Analysis body D)

inductive ForwardEdge (block : body.BasicBlock) (exitState : D) :
    TerminatorEdges body.BasicBlock Place Operand → body.BasicBlock → D → Prop
  | single (target) : ForwardEdge block exitState (.single target) target exitState
  | target (target unwind) : ForwardEdge block exitState (.double target unwind) target exitState
  | unwind (target unwind) : ForwardEdge block exitState (.double target unwind) unwind exitState
  | cleanup (returns cleanup place) : ForwardEdge block exitState
      (.assignOnReturn returns (some cleanup) place) cleanup exitState
  | returned (returns cleanup place target) : target ∈ returns →
      ForwardEdge block exitState (.assignOnReturn returns cleanup place) target
        (a.applyCallReturnEffect exitState block place)
  | switch (targets discr target) : a.getSwitchIntData block targets discr = none →
      target ∈ targets.targets → ForwardEdge block exitState (.switchInt targets discr) target exitState
  | normal (targets discr data i value target) : a.getSwitchIntData block targets discr = some data →
      targets.iter[i]? = some (value,target) →
      ForwardEdge block exitState (.switchInt targets discr) target
        (a.applySwitchIntEdgeEffect exitState data (.normal i))
  | otherwise (targets discr data) : a.getSwitchIntData block targets discr = some data →
      ForwardEdge block exitState (.switchInt targets discr) targets.otherwise
        (a.applySwitchIntEdgeEffect exitState data .otherwise)

inductive BackwardEdge (block : body.BasicBlock) (exitState : D) (pred : body.BasicBlock) : D → Prop
  | returned (returns cleanup place) : (body.basicBlocks pred).terminator.edges = .assignOnReturn returns cleanup place →
      block ∈ returns → BackwardEdge block exitState pred (a.applyCallReturnEffect exitState pred place)
  | plain : (∀ returns cleanup place,
      (body.basicBlocks pred).terminator.edges = .assignOnReturn returns cleanup place → block ∉ returns) →
      BackwardEdge block exitState pred exitState

section

variable (dir : Direction) (state : D) (block : body.BasicBlock)

def earlyState : D :=
  a.applyEarlyTerminatorEffect ((body.basicBlocks block).statements.zipIdx.foldl (statementEffect a block)
    state) (body.basicBlocks block).terminator ⟨block,(body.basicBlocks block).statements.length⟩

def exitEdges : TerminatorEdges body.BasicBlock Place Operand :=
  a.getTerminatorEdges (earlyState a state block) (body.basicBlocks block).terminator ⟨block,
    (body.basicBlocks block).statements.length⟩

def exitState : D :=
  let data := body.basicBlocks block
  let location := ⟨block,data.statements.length⟩
  match dir with
  | .forward => a.applyPrimaryTerminatorEffect (earlyState a state block) data.terminator location
  | .backward =>
    data.statements.zipIdx.reverse.foldl (statementEffect a block) (a.applyPrimaryTerminatorEffect
      (a.applyEarlyTerminatorEffect state data.terminator location) data.terminator location)

def Propagates (state : D) (target : body.BasicBlock) (sent : D) : Prop :=
  match dir with
  | .forward => ForwardEdge a block (exitState a .forward state block) (exitEdges a state block) target sent
  | .backward => body.Edge target block ∧ BackwardEdge a block (exitState a .backward state block) target sent

end

structure MonotoneEffects : Prop where
  earlyStatement : ∀ s l, Monotone fun d => a.applyEarlyStatementEffect d s l
  primaryStatement : ∀ s l, Monotone fun d => a.applyPrimaryStatementEffect d s l
  earlyTerminator : ∀ k l, Monotone fun d => a.applyEarlyTerminatorEffect d k l
  primaryTerminator : ∀ k l, Monotone fun d => a.applyPrimaryTerminatorEffect d k l
  callReturn : ∀ b p, Monotone fun d => a.applyCallReturnEffect d b p
  switchInt : ∀ data i, Monotone fun d => a.applySwitchIntEdgeEffect d data i
  edges : ∀ k (l : Location body.BasicBlock) d d', d ≤ d' → ∀ out t e, ForwardEdge a l.block out
    (a.getTerminatorEdges d k l) t e →
      ∃ e', e ≤ e' ∧ ForwardEdge a l.block out (a.getTerminatorEdges d' k l) t e'

end

variable {a : Analysis body D} {block target pred : body.BasicBlock} {state state' out out' sent : D}

variable {edges : TerminatorEdges body.BasicBlock Place Operand}

theorem mem_applyEdges : (target,sent) ∈ applyEdges a block out edges ↔ ForwardEdge a block out edges target sent := by
  constructor
  · intro h
    cases edges with
    | none => cases h
    | single t =>
      obtain ⟨rfl,rfl⟩ := Prod.mk.inj (mem_singleton.mp h)
      exact .single _
    | double t u =>
      simp only [applyEdges,mem_cons,not_mem_nil,or_false,Prod.mk.injEq] at h
      rcases h with ⟨rfl,rfl⟩ | ⟨rfl,rfl⟩
      · exact .target _ _
      · exact .unwind _ _
    | assignOnReturn returns cleanup place =>
      rcases mem_append.mp h with h | h
      · obtain ⟨c,hc,heq⟩ := mem_map.mp h
        cases heq
        obtain rfl := Option.mem_toList.mp hc
        exact .cleanup _ _ _
      · split at h
        case isTrue => cases h
        case isFalse =>
          obtain ⟨t,ht,heq⟩ := mem_map.mp h
          cases heq
          exact .returned _ _ _ _ ht
    | switchInt targets discr =>
      simp only [applyEdges] at h
      split at h
      case h_1 data hd =>
        rcases mem_append.mp h with h | h
        · obtain ⟨⟨⟨v,t⟩,i⟩,hme,heq⟩ := mem_map.mp h
          cases heq
          exact .normal _ _ _ _ v _ hd (mem_zipIdx_iff_getElem?.mp hme)
        · obtain ⟨rfl,rfl⟩ := Prod.mk.inj (mem_singleton.mp h)
          exact .otherwise _ _ _ hd
      case h_2 hd =>
        obtain ⟨t,ht,heq⟩ := mem_map.mp h
        cases heq
        exact .switch _ _ _ hd ht
  · intro h
    cases h with
    | single => exact mem_singleton_self _
    | target => exact (.head _)
    | unwind => exact .tail _ (.head _)
    | cleanup => exact mem_append_left _ (mem_map.mpr ⟨_,by simp,rfl⟩)
    | returned returns cleanup place _ hme =>
      refine mem_append_right _ ?_
      rw [if_neg (by cases returns <;> simp_all)]
      exact mem_map_of_mem hme
    | switch targets discr _ hd hme =>
      simp only [applyEdges,hd]
      exact mem_map_of_mem hme
    | normal targets discr data i value _ hd hg =>
      simp only [applyEdges,hd]
      exact mem_append_left _ (mem_map.mpr ⟨((value,target),i),mem_zipIdx_iff_getElem?.mpr hg,rfl⟩)
    | otherwise targets discr data hd =>
      simp only [applyEdges,hd]
      exact mem_append_right _ (mem_singleton_self _)

theorem ForwardEdge.mem_targets (h : ForwardEdge a block out edges target sent) : target ∈ edges.targets := by
  cases h with
  | single => exact mem_singleton_self _
  | target => exact (.head _)
  | unwind => exact .tail _ (.head _)
  | cleanup => exact mem_append_left _ (by simp)
  | returned _ _ _ _ hme => exact mem_append_right _ hme
  | switch _ _ _ _ hme => exact hme
  | normal _ _ _ _ _ _ _ hg => exact (of_mem_zip (mem_of_getElem? hg)).2
  | otherwise targets => exact getLast_mem _

section

variable (hm : MonotoneEffects a)

include hm

theorem ForwardEdge.mono (hle : out ≤ out') (h : ForwardEdge a block out edges target sent) :
    ∃ sent', sent ≤ sent' ∧ ForwardEdge a block out' edges target sent' := by
  cases h with
  | single => exact ⟨_,hle,.single _⟩
  | target => exact ⟨_,hle,.target _ _⟩
  | unwind => exact ⟨_,hle,.unwind _ _⟩
  | cleanup => exact ⟨_,hle,.cleanup _ _ _⟩
  | returned _ _ _ _ hme => exact ⟨_,hm.callReturn _ _ hle,.returned _ _ _ _ hme⟩
  | switch _ _ _ hd hme => exact ⟨_,hle,.switch _ _ _ hd hme⟩
  | normal _ _ _ _ _ _ hd hg => exact ⟨_,hm.switchInt _ _ hle,.normal _ _ _ _ _ _ hd hg⟩
  | otherwise _ _ _ hd => exact ⟨_,hm.switchInt _ _ hle,.otherwise _ _ _ hd⟩

theorem BackwardEdge.mono (hle : out ≤ out') (h : BackwardEdge a block out pred sent) :
    ∃ sent', sent ≤ sent' ∧ BackwardEdge a block out' pred sent' := by
  cases h with
  | returned _ _ _ he hme => exact ⟨_,hm.callReturn _ _ hle,.returned _ _ _ he hme⟩
  | plain hp => exact ⟨_,hle,.plain hp⟩

theorem statements_mono (statements : List (Statement × Nat)) (hle : state ≤ state') :
    statements.foldl (statementEffect a block) state ≤ statements.foldl (statementEffect a block) state' := by
  induction statements generalizing state state' with
  | nil => exact hle
  | cons s statements ih => exact ih (hm.primaryStatement _ _ (hm.earlyStatement _ _ hle))

theorem earlyState_mono (hle : state ≤ state') : earlyState a state block ≤ earlyState a state' block :=
  hm.earlyTerminator _ _ (statements_mono hm _ hle)

theorem exitState_mono (dir : Direction) (hle : state ≤ state') :
    exitState a dir state block ≤ exitState a dir state' block := by
  cases dir with
  | forward => exact hm.primaryTerminator _ _ (earlyState_mono hm hle)
  | backward => exact statements_mono hm _ (hm.primaryTerminator _ _ (hm.earlyTerminator _ _ hle))

theorem Propagates.mono (hle : state ≤ state') (h : Propagates a dir block state target sent) :
    ∃ sent', sent ≤ sent' ∧ Propagates a dir block state' target sent' := by
  cases dir with
  | forward =>
    obtain ⟨e,hee,he⟩ := ForwardEdge.mono hm (exitState_mono hm .forward hle) h
    obtain ⟨e',hee',he'⟩ := hm.edges _ ⟨block,_⟩ _ _ (earlyState_mono hm hle) _ _ _ he
    exact ⟨e',hee.trans hee',he'⟩
  | backward =>
    obtain ⟨e,hee,he⟩ := h.2.mono hm (exitState_mono hm .backward hle)
    exact ⟨e,hee,h.1,he⟩

end

-- The effects that the backward direction does not support.
def NoSwitchIntData (a : Analysis body D) : Prop :=
  ∀ bb targets discr, (body.basicBlocks bb).terminator.edges = .switchInt targets discr →
    a.getSwitchIntData bb targets discr = none

theorem mapM_ok {f : α → Except Bug β} {g : α → β} (l : List α) (h : ∀ x ∈ l, f x = .ok (g x)) :
    l.mapM f = .ok (l.map g) := by
  induction l with
  | nil => rfl
  | cons x l ih =>
    rw [mapM_cons,h x (.head _),ih fun y hy => h y (.tail _ hy)]
    rfl

theorem backwardEdge_plain (h : ∀ returns cleanup place,
    (body.basicBlocks pred).terminator.edges = .assignOnReturn returns cleanup place → block ∉ returns)
    (sent : D) : BackwardEdge a block out pred sent ↔ sent = out := by
  constructor
  · rintro (⟨_,_,_,he,hme⟩ | -)
    · exact absurd hme (h _ _ _ he)
    · rfl
  · rintro rfl
    exact .plain h

theorem backwardEdge_returned (he : (body.basicBlocks pred).terminator.edges = .assignOnReturn returns cleanup place)
    (hme : block ∈ returns) (sent : D) :
    BackwardEdge a block out pred sent ↔ sent = a.applyCallReturnEffect out pred place := by
  constructor
  · rintro (⟨_,_,_,heq,-⟩ | hp)
    · cases he.symm.trans heq
      rfl
    · exact absurd hme (hp _ _ _ he)
  · rintro rfl
    exact .returned _ _ _ he hme

theorem propagateBack_spec (hs : NoSwitchIntData a) (block : body.BasicBlock) (out : D)
    (pred : body.BasicBlock) : ∃ sent, propagateBack a block out pred = .ok (pred,sent) ∧
      ∀ sent', BackwardEdge a block out pred sent' ↔ sent' = sent := by
  cases he : (body.basicBlocks pred).terminator.edges with
  | assignOnReturn returns cleanup place =>
    by_cases hme : block ∈ returns
    · exact ⟨_,by simp [propagateBack,he,hme],backwardEdge_returned he hme⟩
    · refine ⟨out,by simp [propagateBack,he,hme],backwardEdge_plain fun _ _ _ heq => ?_⟩
      cases he.symm.trans heq
      exact hme
  | switchInt targets discr => exact ⟨out,by simp [propagateBack,he,hs _ _ _ he],backwardEdge_plain (by simp [he])⟩
  | _ => exact ⟨out,by simp [propagateBack,he],backwardEdge_plain (by simp [he])⟩

theorem applyEffectsInBlock_spec (hsw : dir = .backward → NoSwitchIntData a)
    (state : D) (block : body.BasicBlock) : ∃ sent, applyEffectsInBlock a dir state block = .ok sent ∧
      ∀ t e, (t,e) ∈ sent ↔ Propagates a dir block state t e := by
  cases dir with
  | forward => exact ⟨_,rfl,fun t e => mem_applyEdges⟩
  | backward =>
    choose sent hs hed using propagateBack_spec (hsw rfl) block (exitState a .backward state block)
    refine ⟨_,mapM_ok _ fun pred _ => hs pred,fun t e => ?_⟩
    rw [mem_map]
    constructor
    · rintro ⟨pred,hp,heq⟩
      obtain ⟨rfl,rfl⟩ := Prod.mk.inj heq
      exact ⟨Body.mem_predecessors.mp hp,(hed pred _).mpr rfl⟩
    · rintro ⟨hp,he⟩
      exact ⟨t,Body.mem_predecessors.mpr hp,by rw [(hed t e).mp he]⟩

end Frontend.Dataflow
