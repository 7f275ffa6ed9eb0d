import Frontend.Dataflow.Engine

namespace Frontend.Dataflow

open Mir BitSet Library Analysis

variable {Place Operand Statement : Type} {body : Body Place Operand Statement} {D : Type}
  [SemilatticeSup D] {a : Analysis body D} {dir : Direction}

structure IsSolution (a : Analysis body D) (dir : Direction) (value : body.BasicBlock → D) : Prop where
  bottom : ∀ b, a.bottomValue ≤ value b
  start : a.initializeStartBlock a.bottomValue ≤ value body.startBlock
  edge : ∀ b t sent, body.Reachable b → (dir = .backward → body.Reachable t) → Propagates a dir b (value b) t sent →
    sent ≤ value t

theorem isSolution_iff : IsSolution a dir value ↔ Solution (sends a dir) (initialStates a) value := by
  constructor
  · intro h
    refine ⟨update_le_iff.mpr ⟨h.start,fun b _ => h.bottom b⟩,?_⟩
    rintro k t e ⟨hk,ht,hs⟩
    exact h.edge k t e hk (fun _ => ht) hs
  · intro h
    obtain ⟨hst,hbo⟩ := update_le_iff.mp h.seed
    refine ⟨fun b => ?_,hst,fun b t sent hb ht hs => h.sent b t sent ⟨hb,?_,hs⟩⟩
    · by_cases hb : b = body.startBlock
      · exact hb ▸ a.bottom_le.trans hst
      · exact hbo b hb
    · cases dir with
      | forward => exact Propagates.reachable hs hb
      | backward => exact ht rfl

variable [DecidableEq D]

inductive LoopHead (a : Analysis body D) (dir : Direction) : Loop body D → Prop
  | initial : LoopHead a dir (initialLoop a)
  | next {s s'} : LoopHead a dir s → iteration a dir s = .ok (.inl s') → LoopHead a dir s'

theorem LoopHead.consistent (hm : MonotoneEffects a) (hsw : dir = .backward → NoSwitchIntData a) (h : LoopHead a dir s) :
    Consistent a dir s ∧ s.dirty.Mem s.currRank := by
  induction h with
  | initial => exact initial_consistent a dir
  | next _ hs ih =>
    rcases iteration_spec hm hsw ih.1 ih.2 with ⟨s',hs',hc,hme,-⟩ | ⟨_,hs',-⟩
    · cases hs.symm.trans hs'
      exact ⟨hc,hme⟩
    · cases hs.symm.trans hs'

theorem loop_spec [WellFoundedGT D] (hm : MonotoneEffects a)
    (hs : dir = .backward → NoSwitchIntData a) (s : Loop body D) (h : Consistent a dir s)
    (hcu : s.dirty.Mem s.currRank) : ∃ entryStates enough,
    (∀ fuel, enough ≤ fuel → loop a dir fuel s = .ok entryStates) ∧
        IsLeast {value | Solution (sends a dir) (initialStates a) value} entryStates := by
  obtain ⟨p,hp⟩ : ∃ p, p = (s.entryStates,dirtyBlocks body dir s.dirty) := ⟨_,rfl⟩
  induction p using (progress_wf (K := body.BasicBlock) (D := D)).induction generalizing s with
  | _ p ih =>
    subst hp
    rcases iteration_spec hm hs h hcu with ⟨s',hs',hc,hme,hpr⟩ | ⟨result,hs',hl⟩
    · obtain ⟨entryStates,enough,hr,hl⟩ := ih _ hpr s' hc hme rfl
      refine ⟨entryStates,enough + 1,fun fuel hf => ?_,hl⟩
      obtain ⟨fuel,rfl⟩ : ∃ n, fuel = n + 1 := ⟨fuel - 1,by omega⟩
      simpa [loop,hs'] using hr fuel (by omega)
    · refine ⟨result,1,fun fuel hf => ?_,hl⟩
      obtain ⟨fuel,rfl⟩ : ∃ n, fuel = n + 1 := ⟨fuel - 1,by omega⟩
      simp [loop,hs']

theorem iterateToFixpoint_least [WellFoundedGT D] (a : Analysis body D) (dir : Direction) (hm : MonotoneEffects a)
    (hback : dir = .backward → a.initializeStartBlock a.bottomValue = a.bottomValue ∧ NoSwitchIntData a) :
    (∃ entryStates enough, (∀ fuel, enough ≤ fuel → iterateToFixpoint a dir fuel = .ok entryStates) ∧
      IsLeast {value | IsSolution a dir value} entryStates) ∧
    ∀ s, LoopHead a dir s → s.dirty.Mem s.currRank ∧ ∀ r, s.dirty.Mem r → s.currRank ≤ r := by
  have hsw : dir = .backward → NoSwitchIntData a := fun h => (hback h).2
  refine ⟨?_,fun s hs => ?_⟩
  · obtain ⟨hc,hme⟩ := initial_consistent a dir
    obtain ⟨entryStates,enough,hr,hl⟩ := loop_spec hm hsw _ hc hme
    refine ⟨entryStates,enough,fun fuel hf => ?_,by simpa only [isSolution_iff] using hl⟩
    rw [iterateToFixpoint,if_neg]
    · exact hr fuel hf
    · rintro ⟨hd,hne⟩
      exact hne (by rw [initialStates,Function.update_self,(hback hd).1])
  · obtain ⟨hc,hme⟩ := hs.consistent hm hsw
    exact ⟨hme,hc.lowest⟩

def Analysis.plain (body : Body Unit Unit Unit) (mark : Bool) : Analysis body Bool where
  bottomValue := false
  initializeStartBlock := id
  applyEarlyStatementEffect := fun d _ _ => d
  applyPrimaryStatementEffect := fun d _ _ => d
  applyEarlyTerminatorEffect := fun d _ _ => d
  getTerminatorEdges := fun _ k _ => k.edges
  applyPrimaryTerminatorEffect := fun d _ _ => d || mark
  applyCallReturnEffect := fun d _ _ => d
  SwitchIntData := Empty
  getSwitchIntData := fun _ _ _ => none
  applySwitchIntEdgeEffect := fun d _ _ => d
  bottom_le := le_rfl
  edges_subset := fun _ k _ => k.edges_targets_subset

theorem Analysis.plain_monotone (body : Body Unit Unit Unit) (mark : Bool) : MonotoneEffects (plain body mark) where
  earlyStatement _ _ := monotone_id
  primaryStatement _ _ := monotone_id
  earlyTerminator _ _ := monotone_id
  primaryTerminator _ _ := fun _ _ h => sup_le_sup_right h mark
  callReturn _ _ := monotone_id
  switchInt data _ := data.elim
  edges _ _ _ _ _ _ _ e he := ⟨e,le_rfl,he⟩

-- The second block is not reachable and jumps to the first.
def strayPredecessor : Body Unit Unit Unit where
  numBlocks := 2
  basicBlocks := ![⟨[],.return⟩,⟨[],.goto 0⟩]
  nonempty := by decide

theorem strayPredecessor_ignored : ∃ entryStates, iterateToFixpoint (plain strayPredecessor true) .backward 2 =
    .ok entryStates ∧
      strayPredecessor.Reachable strayPredecessor.startBlock ∧
      Propagates (plain strayPredecessor true) .backward strayPredecessor.startBlock
        (entryStates strayPredecessor.startBlock) (1 : Fin 2) true ∧
      ¬ true ≤ entryStates (1 : Fin 2) := by
  have hr : (iterateToFixpoint (plain strayPredecessor true) .backward 2).toOption.map
      (fun entryStates => entryStates (1 : Fin 2)) = some false := by decide +kernel
  cases hre : iterateToFixpoint (plain strayPredecessor true) .backward 2 with
  | error bug => simp [hre,Except.toOption] at hr
  | ok entryStates =>
    have he : entryStates (1 : Fin 2) = false := by simpa [hre,Except.toOption] using hr
    have hs : exitState (plain strayPredecessor true) .backward
        (entryStates strayPredecessor.startBlock) strayPredecessor.startBlock = true := by
      exact Bool.or_true _
    refine ⟨entryStates,rfl,.refl,⟨List.mem_singleton_self _,?_⟩,by simp [he]⟩
    rw [hs]
    refine .plain fun _ _ _ h => ?_
    cases h

-- A loop of two blocks that is left for a third.
def twoBlockLoop : Body Unit Unit Unit where
  numBlocks := 4
  basicBlocks := ![⟨[],.goto 1⟩,⟨[],.falseEdge 0 2⟩,⟨[],.goto 3⟩,⟨[],.return⟩]
  nonempty := by decide

theorem twoBlockLoop_least : ∃ entryStates enough, (∀ fuel, enough ≤ fuel →
        iterateToFixpoint (plain twoBlockLoop true) .backward fuel = .ok entryStates) ∧
      IsLeast {value | IsSolution (plain twoBlockLoop true) .backward value} entryStates ∧
      entryStates (0 : Fin 4) = true ∧ entryStates (1 : Fin 4) = true := by
  obtain ⟨entryStates,enough,hr,hl⟩ := (iterateToFixpoint_least (plain twoBlockLoop true) .backward
    (plain_monotone _ _) fun _ => ⟨rfl,fun _ _ _ _ => rfl⟩).1
  have h01 : twoBlockLoop.Edge (0 : Fin 4) (1 : Fin 4) := List.mem_singleton_self _
  have h1 : twoBlockLoop.Reachable (1 : Fin 4) := .single h01
  have hp (b t : Fin 4) (hb : twoBlockLoop.Reachable b) (ht : twoBlockLoop.Reachable t) (he : twoBlockLoop.Edge t b) :
      entryStates t = true := by
    have hs : exitState (plain twoBlockLoop true) .backward (entryStates b) b = true := by
      fin_cases b <;> exact Bool.or_true _
    refine hl.1.edge b t true hb (fun _ => ht) ⟨he,?_⟩ rfl
    rw [hs]
    refine .plain fun _ _ _ h => ?_
    fin_cases t <;> cases h
  exact ⟨entryStates,enough,hr,hl,hp (1 : Fin 4) (0 : Fin 4) h1 .refl h01,
    hp (0 : Fin 4) (1 : Fin 4) .refl h1 List.mem_cons_self⟩

end Frontend.Dataflow
