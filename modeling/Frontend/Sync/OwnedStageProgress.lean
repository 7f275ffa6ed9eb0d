import Frontend.Sync.OwnedStageInvariant

namespace Frontend.Sync.OwnedStage

open Frontend.Library Frontend.Library.Tally State Relation

variable {In O P : Type} {c : Config In O P} {σ σ' : State O P}

def Deliberate (c : Config In O P) (σ σ' : State O P) : Prop :=
  Step c σ σ' ∧ (σ'.owner = σ.owner ∨ σ.owner.parked? = none ∨ σ.notified = true)

def OwnerPc.Submitting (c : Config In O P) : OwnerPc O P → Prop
  | .cas k _ => k < c.submissions
  | .launch k => k < c.submissions
  | _ => True

def taskRank : TaskPc O P → Nat
  | .claim _ => 4
  | .running _ => 3
  | .ran _ _ => 2
  | .waking _ _ => 1

theorem taskStep_spec (pc : TaskPc O P) : (σ.taskStep c pc).1.owner = σ.owner ∧ (σ.taskStep c pc).1.helpers = σ.helpers ∧
    (σ.taskStep c pc).1.inFlight = σ.inFlight ∧ counted taskRank (σ.taskStep c pc).2 < taskRank pc := by
  cases pc with
  | claim index =>
    simp only [taskStep]
    split <;> simp [counted,taskRank]
  | _ => simp [taskStep,countRun,counted,taskRank]

theorem Submitting.step (h : σ.owner.Submitting c) (hs : Step c σ σ') : σ'.owner.Submitting c := by
  cases hs with
  | load _ hm => exact hm
  | casTake ho => rw [ho] at h; exact h
  | casRetry ho => rw [ho] at h; exact h
  | @ownerTask pc ho =>
    show (afterTask pc.index (σ.taskStep c pc).2).Submitting c
    cases (σ.taskStep c pc).2 <;> trivial
  | @pollReady index outcome ho =>
    simp only [advance]
    split <;> trivial
  | @helperTask k next pc hh =>
    show ((σ.taskStep c pc).1.owner).Submitting c
    rw [(taskStep_spec pc).1]
    exact h
  | serialOk | serialPanic | serialEnd | loadEnd | casFull | launch | pollPending | wake | spurious => trivial
  | fetch | exhausted | begin | continuation | lastItem | submitContinuation | release | otherSubmits
  | otherReleases => exact h

def ownerRank (c : Config In O P) (inFlight : Nat) : OwnerPc O P → Nat
  | .serial index => c.len - index + 1
  | .load k => 10 * c.len + 10 + 5 * (c.submissions - k) + 4
  | .cas k current => 10 * c.len + 10 + 5 * (c.submissions - k) + if inFlight = current then 2 else 3
  | .launch k => 10 * c.len + 10 + 5 * (c.submissions - k) + 1
  | .task pc => 10 * (c.len - pc.index) + 4 + taskRank pc
  | .poll index => 10 * (c.len - index) + 2
  | .parked index => 10 * (c.len - index) + 4
  | .returned _ => 0

def helperRank (x : HelperPc O P) : Nat := counted taskRank x.task?

def rank (c : Config In O P) (σ : State O P) : Nat := ownerRank c σ.inFlight σ.owner + tally helperRank σ.helpers

theorem helper_progress {k next : Nat} (hh : σ.helpers[k]? = some (.task next pc)) :
    ∃ σ', Deliberate c σ σ' ∧ rank c σ' < rank c σ := by
  obtain ⟨how,hhe,hi,hlt⟩ := taskStep_spec (σ := σ) (c := c) pc
  refine ⟨_,⟨.helperTask hh,.inl how⟩,?_⟩
  have hs := tally_set helperRank hh (helperAfterTask next (σ.taskStep c pc).2)
  have hn : helperRank (helperAfterTask next (σ.taskStep c pc).2) = counted taskRank (σ.taskStep c pc).2 := by
    cases (σ.taskStep c pc).2 <;> rfl
  have ho : helperRank (HelperPc.task next pc) = taskRank pc := rfl
  rw [hn,ho] at hs
  simp only [rank,setHelper,how,hi,hhe]
  omega

theorem exists_task_of_tally_pos (hf : 0 < tally (fun x : HelperPc O P => counted f x.task?) hs) :
    ∃ (k next : Nat) (pc : TaskPc O P), hs[k]? = some (.task next pc) ∧ 0 < f pc := by
  obtain ⟨k,x,hx,hp⟩ := exists_of_tally_pos hf
  cases x with
  | task next pc => exact ⟨k,next,pc,hx,hp⟩
  | _ => exact absurd hp (by simp [HelperPc.task?,counted])

theorem Inv.busy_helper (h : Inv c σ) (hi : i < c.len) (hps : σ.owner.position c = i)
    (hc : σ.jobs i = false) (ho : (σ.completion i).outcome = none)
    (ht : σ.owner.task? = none) :
    ∃ (k next : Nat) (pc : TaskPc O P), σ.helpers[k]? = some (.task next pc) ∧
    (pc = .running i ∨ ∃ o, pc = .ran i o) := by
  have hb := h.balance i hi
  simp only [count,ht,hc,hps,stored,ho,counted,Bool.toNat_false,Option.isSome_none,lt_irrefl,decide_false] at hb
  have hca : 0 < tally (fun x : HelperPc O P => counted (runningAt i) x.task?) σ.helpers ∨
      0 < tally (fun x : HelperPc O P => counted (ranAt i) x.task?) σ.helpers := by
    simp only [counted]
    omega
  rcases hca with hr | hra
  · obtain ⟨k,next,pc,hk,hp⟩ := exists_task_of_tally_pos hr
    refine ⟨k,next,pc,hk,.inl ?_⟩
    cases pc <;> grind [runningAt]
  · obtain ⟨k,next,pc,hk,hp⟩ := exists_task_of_tally_pos hra
    refine ⟨k,next,pc,hk,.inr ?_⟩
    cases pc <;> grind [ranAt]

theorem Inv.progress (h : Inv c σ) (hsu : σ.owner.Submitting c) (hru : ∀ r, σ.owner ≠ .returned r) :
    ∃ σ', Deliberate c σ σ' ∧ rank c σ' < rank c σ := by
  have hlt : σ.owner.position c < c.len := by
    rcases h.position with ⟨r,hr,-⟩ | hlt
    · exact absurd hr (hru r)
    · exact hlt
  cases how : σ.owner with
  | serial i => exact absurd how (h.threaded i)
  | returned r => exact absurd how (hru r)
  | load k =>
    by_cases hm : k < c.submissions
    · refine ⟨_,⟨.load how hm,.inr (.inl (by rw [how]; rfl))⟩,?_⟩
      simp only [rank,how,ownerRank,if_true]
      omega
    · refine ⟨_,⟨.loadEnd how (not_lt.mp hm),.inr (.inl (by rw [how]; rfl))⟩,?_⟩
      simp only [rank,how,ownerRank,TaskPc.index,taskRank]
      omega
  | cas k current =>
    by_cases hf : c.workers ≤ current
    · refine ⟨_,⟨.casFull how hf,.inr (.inl (by rw [how]; rfl))⟩,?_⟩
      simp only [rank,how,ownerRank,TaskPc.index,taskRank]
      split <;> omega
    by_cases hc : σ.inFlight = current
    · refine ⟨_,⟨.casTake how (not_le.mp hf) hc,.inr (.inl (by rw [how]; rfl))⟩,?_⟩
      simp only [rank,how,ownerRank,hc,if_true]
      omega
    · refine ⟨_,⟨.casRetry how (not_le.mp hf),.inr (.inl (by rw [how]; rfl))⟩,?_⟩
      simp only [rank,how,ownerRank,if_true,if_neg hc]
      omega
  | launch k =>
    rw [how] at hsu
    have hk : k < c.submissions := hsu
    refine ⟨_,⟨.launch how,.inr (.inl (by rw [how]; rfl))⟩,?_⟩
    have hq : helperRank (HelperPc.queued : HelperPc O P) = 0 := rfl
    simp only [rank,how,ownerRank,tally_append,tally_cons,tally_nil,hq]
    omega
  | task pc =>
    refine ⟨_,⟨.ownerTask how,.inr (.inl (by rw [how]; rfl))⟩,?_⟩
    have hs := h.taskShift (.inl (by rw [how]; rfl) : σ.HasTask pc)
    obtain ⟨-,hhe,hi,hra⟩ := taskStep_spec (σ := σ) (c := c) pc
    simp only [rank,how,hhe,hi]
    cases hne : (σ.taskStep c pc).2 with
    | none =>
      simp only [afterTask,ownerRank]
      omega
    | some pc' =>
      rw [hne] at hra
      simp only [afterTask,ownerRank,hs.index pc' hne]
      simp only [counted] at hra
      omega
  | poll index =>
    have hlt' : index < c.len := by rw [how] at hlt; exact hlt
    cases hou : (σ.completion index).outcome with
    | some outcome =>
      refine ⟨_,⟨.pollReady how hou,.inr (.inl (by rw [how]; rfl))⟩,?_⟩
      have hsa : ((σ.takeOutcome index).record outcome).helpers = σ.helpers := by cases outcome <;> rfl
      simp only [rank,how,advance,hsa]
      split
      · simp only [ownerRank,TaskPc.index,taskRank]
        omega
      · simp only [ownerRank]
        omega
    | none =>
      obtain ⟨k,next,pc,hk,-⟩ := h.busy_helper hlt' (by rw [how]; rfl) (h.claimed index (by rw [how]; rfl)) hou
        (by rw [how]; rfl)
      exact helper_progress hk
  | parked index =>
    have hlt' : index < c.len := by rw [how] at hlt; exact hlt
    cases hno : σ.notified with
    | true =>
      refine ⟨_,⟨.wake how hno,.inr (.inr hno)⟩,?_⟩
      simp only [rank,how,ownerRank]
      omega
    | false =>
      rcases h.parked index (by rw [how]; rfl) with hw | hn | hwa
      · obtain ⟨k,next,pc,hk,-⟩ := h.busy_helper hlt' (by rw [how]; rfl)
          (h.claimed index (by rw [how]; rfl)) (h.waiter index hw) (by rw [how]; rfl)
        exact helper_progress hk
      · cases hno.symm.trans hn
      · rcases hwa with ho | ⟨x,hx,ht⟩
        · rw [how] at ho
          cases ho
        · obtain ⟨k,hk⟩ := List.getElem?_of_mem hx
          cases x with
          | task next pc => exact helper_progress hk
          | _ => cases ht

theorem Inv.returns (h : Inv c σ) (hs : σ.owner.Submitting c) : ∃ σ', ReflTransGen (Deliberate c) σ σ' ∧
    ∃ r, σ'.owner = .returned r := by
  refine leads_to_of_rank (fun σ => Inv c σ ∧ σ.owner.Submitting c) (rank c) ?_ ⟨h,hs⟩
  rintro σ ⟨hin,hs⟩
  by_cases hru : ∃ r, σ.owner = .returned r
  · exact .inl hru
  · obtain ⟨σ1,hm,hlt⟩ := hin.progress hs (fun r hr => hru ⟨r,hr⟩)
    exact .inr ⟨σ1,hm,⟨hin.step hm.1,Submitting.step hs hm.1⟩,hlt⟩

end Frontend.Sync.OwnedStage
