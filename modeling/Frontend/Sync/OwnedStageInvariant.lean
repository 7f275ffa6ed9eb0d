import Frontend.Library.Tally
import Frontend.Sync.OwnedStage

namespace Frontend.Sync.OwnedStage

open Frontend.Library Frontend.Library.Tally State List Function Option OwnerPc

variable {In O P : Type} {c : Config In O P} {σ σ' : State O P}

def runningAt (index : Nat) : TaskPc O P → Nat
  | .running i => if i = index then 1 else 0
  | _ => 0

def ranAt (index : Nat) : TaskPc O P → Nat
  | .ran i _ => if i = index then 1 else 0
  | _ => 0

section

variable (c : Config In O P) (σ : State O P) (f : TaskPc O P → Nat)

def counted : Option (TaskPc O P) → Nat
  | some pc => f pc
  | none => 0

def OwnerPc.task? : OwnerPc O P → Option (TaskPc O P)
  | .task pc => some pc
  | _ => none

def HelperPc.task? : HelperPc O P → Option (TaskPc O P)
  | .task _ pc => some pc
  | _ => none

def State.count (σ : State O P) : Nat :=
  counted f σ.owner.task? + tally (fun h : HelperPc O P => counted f h.task?) σ.helpers

def State.HasTask (pc : TaskPc O P) : Prop :=
  σ.owner.task? = some pc ∨ ∃ h : HelperPc O P, h ∈ σ.helpers ∧ h.task? = some pc

def OwnerPc.position : OwnerPc O P → Nat
  | .serial index => index
  | .load _ => 0
  | .cas _ _ => 0
  | .launch _ => 0
  | .task pc => pc.index
  | .poll index => index
  | .parked index => index
  | .returned _ => c.len

def OwnerPc.claimed? : OwnerPc O P → Option Nat
  | .task (.running index) => some index
  | .task (.ran index _) => some index
  | .task (.waking index _) => some index
  | .poll index => some index
  | .parked index => some index
  | _ => none

def OwnerPc.parked? : OwnerPc O P → Option Nat
  | .parked index => some index
  | _ => none

def gather (c : Config In O P) : Nat → List O × Option P
  | 0 => ([],none)
  | index + 1 =>
    match c.item index with
    | .ok value => ((gather c index).1 ++ [value],(gather c index).2)
    | .error panic => ((gather c index).1,(gather c index).2.or (some panic))

def State.stored (index : Nat) : Nat := (σ.completion index).outcome.isSome.toNat

structure TaskOk (pc : TaskPc O P) : Prop where
  lt : pc.index < c.len
  outcome : ∀ index outcome, pc = .ran index outcome → outcome = c.item index

structure Inv : Prop where
  balance : ∀ i < c.len, (σ.jobs i).toNat + σ.count (runningAt i) + σ.count (ranAt i) + σ.stored i +
    (decide (i < σ.owner.position c)).toNat = 1
  runs : ∀ i < c.len, σ.runs i = σ.count (ranAt i) + σ.stored i + (decide (i < σ.owner.position c)).toNat
  outcomes : ∀ i o, (σ.completion i).outcome = some o → o = c.item i
  tasks : ∀ pc, σ.HasTask pc → TaskOk c pc
  gathered : (σ.values,σ.firstPanic) = gather c (σ.owner.position c)
  position : (∃ r, σ.owner = .returned r ∧ r = finish σ.values σ.firstPanic) ∨ σ.owner.position c < c.len
  threaded : ∀ i, σ.owner ≠ .serial i
  claimed : ∀ i, σ.owner.claimed? = some i → σ.jobs i = false
  waiter : ∀ i, (σ.completion i).waiter = true → (σ.completion i).outcome = none
  parked : ∀ i, σ.owner.parked? = some i → (σ.completion i).waiter = true ∨ σ.notified = true ∨
    σ.HasTask (.waking i true)

end

theorem Inv.start (hc : c.threaded = true) : Inv c (start c) := by
  have hl : 1 < c.len := by
    simp only [Config.threaded,Bool.and_eq_true,decide_eq_true_eq] at hc
    exact hc.1.1
  have how : (State.start c).owner = .load 0 := by simp [State.start,hc]
  have hco f : (State.start c).count f = 0 := by
    rw [State.count,how]
    rfl
  have hta : ∀ pc, ¬ (State.start c).HasTask pc := by
    rintro pc (h | ⟨h,hm,-⟩)
    · rw [how] at h
      cases h
    · exact not_mem_nil hm
  refine ⟨?_,?_,?_,?_,?_,?_,?_,?_,?_,?_⟩
  · intro i hi
    have hj : (State.start c).jobs i = true := by simp [State.start,hc,hi]
    rw [hco,hco,hj,how]
    rfl
  · intro i hi
    rw [hco,how]
    rfl
  · intro i o ho
    simp [State.start] at ho
  · exact fun pc hpc => absurd hpc (hta pc)
  · rw [how]
    rfl
  · rw [how]
    exact .inr (by simp only [OwnerPc.position]; omega)
  · simp [how]
  · simp [how,claimed?]
  · simp [State.start]
  · simp [how,parked?]

structure State.Same (σ σ' : State O P) : Prop where
  jobs : σ'.jobs = σ.jobs
  completion : σ'.completion = σ.completion
  runs : σ'.runs = σ.runs
  values : σ'.values = σ.values
  firstPanic : σ'.firstPanic = σ.firstPanic

-- The defaults say that a part is left as it was.
structure TaskShift (c : Config In O P) (σ : State O P) (pc : TaskPc O P) (τ : State O P)
    (pc? : Option (TaskPc O P)) : Prop where
  owner : τ.owner = σ.owner := by rfl
  helpers : τ.helpers = σ.helpers := by rfl
  values : τ.values = σ.values := by rfl
  firstPanic : τ.firstPanic = σ.firstPanic := by rfl
  notified : σ.notified = true ∨ (∃ i, pc = .waking i true) → τ.notified = true := by exact fun h => h.elim id nofun
  jobs : ∀ i, σ.jobs i = false → τ.jobs i = false := by exact fun _ => id
  balance : ∀ i, (τ.jobs i).toNat + counted (runningAt i) pc? + counted (ranAt i) pc? + τ.stored i =
    (σ.jobs i).toNat + runningAt i pc + ranAt i pc + σ.stored i := by exact fun _ => rfl
  runs : ∀ i, τ.runs i + ranAt i pc + σ.stored i = σ.runs i + counted (ranAt i) pc? + τ.stored i := by exact fun _ => rfl
  outcomes : ∀ i o, (τ.completion i).outcome = some o → (σ.completion i).outcome = some o ∨ pc = .ran i o := by
    exact fun _ _ => .inl
  waiter : ∀ i, (τ.completion i).waiter = true → (σ.completion i).waiter = true ∧
    (τ.completion i).outcome = (σ.completion i).outcome := by exact fun _ h => ⟨h,rfl⟩
  woken : ∀ i, (σ.completion i).waiter = true → (τ.completion i).waiter = true ∨ pc? = some (.waking i true) := by
    exact fun _ => .inl
  task : ∀ pc', pc? = some pc' → TaskOk c pc → TaskOk c pc' := by rintro _ ⟨⟩ ⟨hlt,-⟩ <;> exact ⟨hlt,nofun⟩
  index : ∀ pc', pc? = some pc' → pc'.index = pc.index := by rintro _ ⟨⟩ <;> rfl
  claims : (∃ i w, pc = .waking i w) ∨ (∃ i o, pc = .ran i o) ∨ τ.jobs pc.index = false

theorem taskShift_claim (index : Nat) : TaskShift c σ (.claim index) (σ.taskStep c (.claim index)).1
    (σ.taskStep c (.claim index)).2 := by
  cases hj : σ.jobs index with
  | false =>
    have hs : σ.taskStep c (.claim index) = (σ,none) := by simp [taskStep,hj]
    rw [hs]
    exact { claims := .inr (.inr hj) }
  | true =>
    have hs : σ.taskStep c (.claim index) = ({ σ with jobs := update σ.jobs index false },some (.running index)) := by
      simp [taskStep,hj]
    rw [hs]
    refine { jobs := fun i hi => ?_, balance := fun i => ?_, claims := .inr (.inr (by simp [TaskPc.index])) }
    · by_cases he : i = index
      · simp [he]
      · simpa [he] using hi
    · by_cases he : i = index
      · subst he
        simp [counted,runningAt,ranAt,hj,stored]
      · simp [counted,runningAt,ranAt,he,Ne.symm he,stored]

theorem taskShift_running (index : Nat) (hj : σ.jobs index = false) :
    TaskShift c σ (.running index) (σ.countRun index) (some (.ran index (c.item index))) := by
  refine { balance := fun i => ?_, runs := fun i => ?_, task := ?_, claims := .inr (.inr hj) }
  · by_cases he : index = i
    · simp [counted,runningAt,ranAt,he,stored,countRun]
    · simp [counted,runningAt,ranAt,he,stored,countRun]
  · by_cases he : index = i
    · subst he
      simp only [counted,ranAt,stored,countRun,update_self,if_true]
    · simp [counted,ranAt,he,Ne.symm he,stored,countRun]
  · rintro pc' hpc' ⟨hlt,-⟩
    obtain rfl := some.inj hpc'
    refine ⟨hlt,fun i o he => ?_⟩
    injection he with hi ho
    rw [← ho,hi]

theorem taskShift_ran (index : Nat) (outcome : Except P O) (hf : (σ.completion index).outcome = none) :
    TaskShift c σ (.ran index outcome) { σ with completion := update σ.completion index ⟨some outcome,false⟩ }
      (some (.waking index (σ.completion index).waiter)) := by
  refine {
      balance := fun i => ?_, runs := fun i => ?_, outcomes := fun i o ho => ?_, waiter := fun i hi => ?_,
      woken := fun i hi => ?_, claims := .inr (.inl ⟨_,_,rfl⟩) }
  · by_cases he : index = i
    · subst he
      simp [counted,runningAt,ranAt,stored,hf]
    · simp [counted,runningAt,ranAt,he,Ne.symm he,stored]
  · by_cases he : index = i
    · subst he
      simp [counted,ranAt,stored,hf]
    · simp [counted,ranAt,he,Ne.symm he,stored]
  · by_cases he : i = index
    · subst he
      simp only [update_self,some.injEq] at ho
      exact .inr (by rw [ho])
    · simp only [update_of_ne he] at ho
      exact .inl ho
  · by_cases he : i = index
    · subst he
      simp at hi
    · simp only [update_of_ne he] at hi ⊢
      exact ⟨hi,trivial⟩
  · by_cases he : i = index
    · subst he
      exact .inr (by rw [hi])
    · exact .inl (by simpa [he] using hi)

theorem taskShift_waking (index : Nat) (waiter : Bool) :
    TaskShift c σ (.waking index waiter) { σ with notified := σ.notified || waiter } none := by
  refine { notified := ?_, claims := .inl ⟨_,_,rfl⟩ }
  rintro (h | ⟨i,h⟩)
  · simp [h]
  · injection h with _ hw
    simp [hw]

variable {pc : TaskPc O P} {a b : HelperPc O P} {index : Nat}

theorem count_pos_of_hasTask (hpc : σ.HasTask pc) (hf : 0 < f pc) : 0 < σ.count f := by
  rcases hpc with ho | ⟨h,hm,ht⟩
  · rw [State.count,ho]
    exact Nat.add_pos_left hf _
  obtain ⟨i,hi⟩ := getElem?_of_mem hm
  have hle := le_tally (fun h : HelperPc O P => counted f h.task?) hi
  simp only [ht,counted] at hle
  rw [State.count]
  simp only [counted] at hle ⊢
  omega

theorem Inv.taskShift (h : Inv c σ) (hpc : σ.HasTask pc) : TaskShift c σ pc (σ.taskStep c pc).1 (σ.taskStep c pc).2 := by
  have hlt := (h.tasks pc hpc).lt
  have hb := h.balance pc.index hlt
  cases pc with
  | claim index => exact taskShift_claim index
  | running index =>
    refine taskShift_running index ?_
    have hp : 0 < σ.count (runningAt index) := count_pos_of_hasTask hpc (by simp [runningAt])
    simp only [TaskPc.index] at hb
    cases hj : σ.jobs index with
    | false => rfl
    | true =>
      rw [hj] at hb
      simp only [Bool.toNat_true] at hb
      omega
  | ran index outcome =>
    refine taskShift_ran index outcome ?_
    have hp : 0 < σ.count (ranAt index) := count_pos_of_hasTask hpc (by simp [ranAt])
    simp only [TaskPc.index] at hb
    cases ho : (σ.completion index).outcome with
    | none => rfl
    | some o =>
      simp only [stored,ho,isSome_some,Bool.toNat_true] at hb
      omega
  | waking index waiter => exact taskShift_waking index waiter

theorem Inv.of_counts (h : Inv c σ) (he : σ.Same σ') (hp : σ'.owner.position c = σ.owner.position c)
    (hrn : ∀ i, σ'.count (runningAt i) = σ.count (runningAt i))
    (hra : ∀ i, σ'.count (ranAt i) = σ.count (ranAt i))
    (hta : ∀ pc, σ'.HasTask pc → σ.HasTask pc ∨ ∃ i < c.len, pc = .claim i)
    (hen : (∀ r, σ.owner ≠ .returned r) ∨ σ'.owner = σ.owner)
    (hth : ∀ i, σ'.owner ≠ .serial i)
    (hcl : ∀ i, σ'.owner.claimed? = some i → σ.owner.claimed? = some i)
    (hpr : ∀ i, σ'.owner.parked? = some i → (σ.completion i).waiter = true ∨ σ'.notified = true ∨
    σ'.HasTask (.waking i true)) :
    Inv c σ' := by
  obtain ⟨hj,hc,hru,hv,hpa⟩ := he
  have hs i : σ'.stored i = σ.stored i := by rw [stored,hc]; rfl
  refine ⟨?_,?_,?_,?_,?_,?_,hth,?_,?_,?_⟩
  · intro i hi
    rw [hj,hrn,hra,hs,hp]
    exact h.balance i hi
  · intro i hi
    rw [hru,hra,hs,hp]
    exact h.runs i hi
  · rw [hc]
    exact h.outcomes
  · intro pc hpc
    rcases hta pc hpc with hpc | ⟨i,hi,rfl⟩
    · exact h.tasks pc hpc
    · exact ⟨hi,fun _ _ he => by cases he⟩
  · rw [hv,hpa,hp]
    exact h.gathered
  · rcases h.position with ⟨r,hr,hre⟩ | hlt
    · rcases hen with hne | heq
      · exact absurd hr (hne r)
      · exact .inl ⟨r,heq.trans hr,by rw [hv,hpa]; exact hre⟩
    · exact .inr (by rw [hp]; exact hlt)
  · intro i hi
    rw [hj]
    exact h.claimed i (hcl i hi)
  · rw [hc]
    exact h.waiter
  · exact hc ▸ hpr

theorem count_helper (f : TaskPc O P → Nat) {τ : State O P} (ho : τ.owner = σ.owner)
    (hh : τ.helpers = σ.helpers.set h b) (ha : σ.helpers[h]? = some a) :
    τ.count f + counted f a.task? = σ.count f + counted f b.task? := by
  have hs := tally_set (fun x : HelperPc O P => counted f x.task?) ha b
  simp only [State.count,ho,hh]
  omega

theorem hasTask_set (ha : σ.helpers[h]? = some a) (how : σ'.owner = σ.owner) (hh : σ'.helpers = σ.helpers.set h b)
    (pc : TaskPc O P) :
    (σ'.HasTask pc → σ.HasTask pc ∨ b.task? = some pc) ∧ (σ.HasTask pc → σ'.HasTask pc ∨ a.task? = some pc) := by
  refine ⟨?_,?_⟩
  · rintro (ho | ⟨x,hx,ht⟩)
    · exact .inl (.inl (how ▸ ho))
    · rw [hh] at hx
      rcases mem_or_eq_of_mem_set hx with hx | rfl
      · exact .inl (.inr ⟨x,hx,ht⟩)
      · exact .inr ht
  · rintro (ho | ⟨x,hx,ht⟩)
    · exact .inl (.inl (how ▸ ho))
    · obtain ⟨k,hk⟩ := getElem?_of_mem hx
      by_cases hkh : k = h
      · rw [hkh,ha] at hk
        cases hk
        exact .inr ht
      · refine .inl (.inr ⟨x,?_,ht⟩)
        rw [hh]
        refine mem_of_getElem? (i := k) ?_
        rw [getElem?_set_ne (Ne.symm hkh)]
        exact hk

theorem Inv.helperMove (h : Inv c σ) {k : Nat} (ha : σ.helpers[k]? = some a) (hat : a.task? = none)
    (hbt : b.task? = none ∨ ∃ i < c.len, b.task? = some (.claim i)) (ho : σ'.owner = σ.owner)
    (hh : σ'.helpers = σ.helpers.set k b) (he : σ.Same σ')
    (hnt : σ'.notified = σ.notified) : Inv c σ' := by
  have hc (f : TaskPc O P → Nat) (hf : ∀ i, f (.claim i) = 0) : σ'.count f = σ.count f := by
    have heq := count_helper f ho hh ha
    have hb : counted f b.task? = 0 := by
      rcases hbt with hb | ⟨i,-,hb⟩
      · rw [hb]
        rfl
      · rw [hb]
        exact hf i
    rw [hat,hb] at heq
    exact heq
  refine h.of_counts he (by rw [ho]) (fun i => hc _ fun _ => rfl) (fun i => hc _ fun _ => rfl) ?_ (.inr ho) ?_ ?_ ?_
  · intro pc hpc
    rcases (hasTask_set ha ho hh pc).1 hpc with hol | hne
    · exact .inl hol
    rcases hbt with hb | ⟨i,hi,hb⟩
    · cases hb.symm.trans hne
    · rw [hb] at hne
      exact .inr ⟨i,hi,(some.inj hne).symm⟩
  · rw [ho]
    exact h.threaded
  · rw [ho]
    exact fun i hi => hi
  · intro i hi
    rw [ho] at hi
    refine (h.parked i hi).imp_right (Or.imp hnt.trans fun hw => ?_)
    rcases (hasTask_set ha ho hh _).2 hw with hw | hw
    · exact hw
    · cases hat.symm.trans hw

theorem Inv.ownerMove (h : Inv c σ) {a b : OwnerPc O P} (ha : σ.owner = a) (hb : σ'.owner = b)
    (hn : a.task? = none) (hbt : b.task? = none ∨ b = .task (.claim 0))
    (hp : b.position c = a.position c) (hlt : ∀ r, a ≠ .returned r)
    (hs : ∀ i, b ≠ .serial i) (hcl : ∀ i, b.claimed? = some i → a.claimed? = some i)
    (hpa : ∀ i, b.parked? = some i → (σ.completion i).waiter = true) (hh : σ'.helpers = σ.helpers ∨
    σ'.helpers = σ.helpers ++ [.queued])
    (he : σ.Same σ') : Inv c σ' := by
  subst ha
  have hl : 0 < c.len := by
    rcases h.position with ⟨r,hr,-⟩ | hpo
    · exact absurd hr (hlt r)
    · omega
  have hta (f : HelperPc O P → Nat) (hf : f .queued = 0) : tally f σ'.helpers = tally f σ.helpers := by
    rcases hh with he | he <;> simp [he,hf]
  have hc (f : TaskPc O P → Nat) (hf : ∀ i, f (.claim i) = 0) : σ'.count f = σ.count f := by
    rw [State.count,State.count,hta _ rfl,hb,hn]
    rcases hbt with hb' | rfl
    · rw [hb']
    · simp [task?,counted,hf]
  refine h.of_counts he (by rw [hb,hp]) (fun i => hc _ fun _ => rfl) (fun i => hc _ fun _ => rfl) ?_
    (.inl hlt) (by rw [hb]; exact hs)
    (by rw [hb]; exact hcl) ?_
  · rintro pc (ho | ⟨x,hx,ht⟩)
    · rw [hb] at ho
      rcases hbt with hb' | rfl
      · cases hb'.symm.trans ho
      · exact .inr ⟨0,hl,(some.inj ho).symm⟩
    · rcases hh with he | he
      · exact .inl (.inr ⟨x,he ▸ hx,ht⟩)
      · rw [he] at hx
        rcases mem_append.mp hx with hx | hx
        · exact .inl (.inr ⟨x,hx,ht⟩)
        · obtain rfl := mem_singleton.mp hx
          cases ht
  · rw [hb]
    exact fun i hi => .inl (hpa i hi)

theorem TaskShift.inv (hs : TaskShift c σ pc τ pc?) (h : Inv c σ) (hok : TaskOk c pc)
    (he : τ.Same σ') (hc : ∀ f, σ'.count f + f pc = σ.count f + counted f pc?)
    (hta : ∀ pc', σ'.HasTask pc' → σ.HasTask pc' ∨ pc? = some pc') (hp : σ'.owner.position c = σ.owner.position c)
    (hen : σ'.owner = σ.owner ∨ σ.owner.position c < c.len) (hth : ∀ i, σ'.owner ≠ .serial i)
    (hcl : ∀ i, σ'.owner.claimed? = some i → τ.jobs i = false)
    (hpk : ∀ i, σ'.owner.parked? = some i → (τ.completion i).waiter = true ∨ σ'.notified = true ∨
    σ'.HasTask (.waking i true)) :
    Inv c σ' := by
  obtain ⟨hj,hco,hru,hv,hpa⟩ := he
  have hst i : σ'.stored i = τ.stored i := by rw [stored,hco]; rfl
  refine ⟨?_,?_,?_,?_,?_,?_,hth,?_,?_,?_⟩
  · intro i hi
    have hb := h.balance i hi
    have hba := hs.balance i
    have hr := hc (runningAt i)
    have hn := hc (ranAt i)
    rw [hj,hst,hp]
    omega
  · intro i hi
    have hb := h.runs i hi
    have hba := hs.runs i
    have hn := hc (ranAt i)
    rw [hru,hst,hp]
    omega
  · intro i o ho
    rw [hco] at ho
    rcases hs.outcomes i o ho with hol | rfl
    · exact h.outcomes i o hol
    · exact hok.outcome i o rfl
  · intro pc' hpc'
    rcases hta pc' hpc' with hol | hne
    · exact h.tasks pc' hol
    · exact hs.task pc' hne hok
  · rw [hv,hpa,hs.values,hs.firstPanic,hp]
    exact h.gathered
  · rw [hv,hpa,hs.values,hs.firstPanic,hp]
    rcases hen with he | hlt
    · exact he ▸ h.position
    · exact .inr hlt
  · exact hj ▸ hcl
  · intro i hi
    rw [hco] at hi ⊢
    obtain ⟨hw,ho⟩ := hs.waiter i hi
    exact ho.trans (h.waiter i hw)
  · exact hco ▸ hpk

theorem Inv.ownerTask (h : Inv c σ) (how : σ.owner = .task pc) :
    Inv c { (σ.taskStep c pc).1 with owner := afterTask pc.index (σ.taskStep c pc).2 } := by
  have hpc : σ.HasTask pc := .inl (by rw [how]; rfl)
  have hs := h.taskShift hpc
  have hok := h.tasks pc hpc
  generalize (σ.taskStep c pc).1 = τ at hs
  generalize (σ.taskStep c pc).2 = pc? at hs
  have hta : (afterTask pc.index pc?).task? = pc? := by cases pc? <;> rfl
  have hol : σ.owner.position c = pc.index := by rw [how]; rfl
  have hcl : τ.jobs pc.index = false := by
    rcases hs.claims with ⟨i,w,rfl⟩ | ⟨i,o,rfl⟩ | hj
    · exact hs.jobs i (h.claimed i (by rw [how]; rfl))
    · exact hs.jobs i (h.claimed i (by rw [how]; rfl))
    · exact hj
  refine hs.inv h hok ⟨rfl,rfl,rfl,rfl,rfl⟩ ?_ ?_ ?_ (.inr (hol ▸ hok.lt)) ?_ ?_ ?_
  · intro f
    simp only [State.count,hta,how,hs.helpers]
    simp only [task?,counted]
    omega
  · rintro pc' (ho | ⟨x,hx,ht⟩)
    · exact .inr (hta ▸ ho)
    · exact .inl (.inr ⟨x,hs.helpers ▸ hx,ht⟩)
  · rw [hol]
    cases pc? with
    | none => rfl
    | some pc' => exact hs.index pc' rfl
  · intro i hi
    cases pc? <;> cases hi
  · intro i hi
    obtain rfl : i = pc.index := by
      cases pc? with
      | none => exact (some.inj hi).symm
      | some pc' =>
        have hix := hs.index pc' rfl
        cases pc' with
        | claim => cases hi
        | running | ran | waking => exact (some.inj hi).symm.trans hix
    exact hcl
  · intro i hi
    cases pc? <;> cases hi

theorem Inv.helperTask (h : Inv c σ) {k next : Nat} (hh : σ.helpers[k]? = some (.task next pc)) :
    Inv c ((σ.taskStep c pc).1.setHelper k (helperAfterTask next (σ.taskStep c pc).2)) := by
  have hpc : σ.HasTask pc := .inr ⟨_,List.mem_of_getElem? hh,rfl⟩
  have hs := h.taskShift hpc
  generalize (σ.taskStep c pc).1 = τ at hs
  generalize (σ.taskStep c pc).2 = pc? at hs
  have hta : (helperAfterTask next pc?).task? = pc? := by cases pc? <;> rfl
  have how : (τ.setHelper k (helperAfterTask next pc?)).owner = σ.owner := hs.owner
  have hhe : (τ.setHelper k (helperAfterTask next pc?)).helpers = σ.helpers.set k (helperAfterTask next pc?) := by
    rw [setHelper,hs.helpers]
  have hse := fun pc' => hasTask_set hh how hhe pc'
  rw [hta] at hse
  refine hs.inv h (h.tasks pc hpc) ⟨rfl,rfl,rfl,rfl,rfl⟩ ?_ (fun pc' => (hse pc').1) (by rw [how]) (.inl how)
    (how ▸ h.threaded) ?_ ?_
  · intro f
    have heq := count_helper f how hhe hh
    rw [hta] at heq
    exact heq
  · intro i hi
    rw [how] at hi
    exact hs.jobs i (h.claimed i hi)
  · intro i hi
    rw [how] at hi
    rcases h.parked i hi with hw | hn | hw
    · rcases hs.woken i hw with hw' | hne
      · exact .inl hw'
      · refine .inr (.inr (.inr ⟨helperAfterTask next pc?,?_,hta.trans hne⟩))
        rw [hhe]
        exact List.mem_set (List.getElem_of_getElem? hh).1 _
    · exact .inr (.inl (hs.notified (.inl hn)))
    · rcases (hse _).2 hw with hw' | hsl
      · exact .inr (.inr hw')
      · exact .inr (.inl (hs.notified (.inr ⟨i,some.inj hsl⟩)))

theorem gather_succ (c : Config In O P) (index : Nat) (values : List O) (panic : Option P)
    (h : (values,panic) = gather c index) :
    (∀ v, c.item index = .ok v → (values ++ [v],panic) = gather c (index + 1)) ∧
      ∀ p, c.item index = .error p → (values,panic.or (some p)) = gather c (index + 1) := by
  refine ⟨fun v hv => ?_,fun p hp => ?_⟩
  · rw [gather,hv,← h]
  · rw [gather,hp,← h]

theorem Inv.pollReady (h : Inv c σ) (how : σ.owner = .poll index) (hoc : (σ.completion index).outcome = some outcome) :
    Inv c (((σ.takeOutcome index).record outcome).advance c index) := by
  have hlt : index < c.len := by
    rcases h.position with ⟨r,hr,-⟩ | hlt
    · cases how.symm.trans hr
    · rwa [how] at hlt
  have hol : σ.owner.position c = index := by rw [how]; rfl
  have hit := h.outcomes index outcome hoc
  have hg := h.gathered
  rw [hol] at hg
  obtain ⟨τ,hτ⟩ : ∃ τ, τ = (σ.takeOutcome index).record outcome := ⟨_,rfl⟩
  rw [← hτ]
  have hs : τ.jobs = σ.jobs ∧ τ.runs = σ.runs ∧ τ.helpers = σ.helpers ∧ τ.completion =
        update σ.completion index { σ.completion index with outcome := none } := by
    rw [hτ]
    cases outcome <;> exact ⟨rfl,rfl,rfl,rfl⟩
  obtain ⟨hj,hru,hh,hc⟩ := hs
  have hv : (τ.values,τ.firstPanic) = gather c (index + 1) := by
    rw [hτ]
    cases outcome with
    | ok v => exact (gather_succ c index _ _ hg).1 v hit.symm
    | error p => exact (gather_succ c index _ _ hg).2 p hit.symm
  have hp : (τ.advance c index).owner.position c = index + 1 := by
    by_cases hm : index + 1 < c.len
    · simp [advance,hm,OwnerPc.position,TaskPc.index]
    · simp only [advance,hm,if_false,OwnerPc.position]
      omega
  have hco (f : TaskPc O P → Nat) (hf : ∀ i, f (.claim i) = 0) : (τ.advance c index).count f = σ.count f := by
    have hown : counted f (τ.advance c index).owner.task? = 0 := by
      by_cases hm : index + 1 < c.len
      · simp [advance,hm,task?,counted,hf]
      · simp [advance,hm,task?,counted]
    rw [State.count,State.count,hown,how]
    show 0 + tally _ τ.helpers = _
    rw [hh]
    rfl
  have hmv i : (τ.advance c index).stored i + (decide (i < index + 1)).toNat = σ.stored i +
      (decide (i < index)).toNat := by
    show (τ.completion i).outcome.isSome.toNat + _ = _
    rw [hc]
    by_cases he : i = index
    · simp [he,stored,hoc]
    have hde : decide (i < index + 1) = decide (i < index) := by
      rw [decide_eq_decide]
      omega
    rw [hde,update_of_ne he,stored]
  refine ⟨?_,?_,?_,?_,?_,?_,?_,?_,?_,?_⟩
  · intro i hi
    have hb := h.balance i hi
    have hm := hmv i
    rw [hol] at hb
    rw [hco _ fun _ => rfl,hco _ fun _ => rfl,hp]
    show (τ.jobs i).toNat + _ + _ + _ + _ = 1
    rw [hj]
    omega
  · intro i hi
    have hb := h.runs i hi
    have hm := hmv i
    rw [hol] at hb
    rw [hco _ fun _ => rfl,hp]
    show τ.runs i = _
    rw [hru]
    omega
  · intro i o ho
    refine h.outcomes i o ?_
    have ho' : (τ.completion i).outcome = some o := ho
    rw [hc] at ho'
    by_cases he : i = index
    · simp [he] at ho'
    · simpa [he] using ho'
  · rintro pc (ho | ⟨x,hx,ht⟩)
    · by_cases hm : index + 1 < c.len
      · simp only [advance,hm,if_true,task?,some.injEq] at ho
        subst ho
        exact ⟨hm,fun _ _ he => by cases he⟩
      · simp [advance,hm,task?] at ho
    · exact h.tasks pc (.inr ⟨x,hh ▸ hx,ht⟩)
  · rw [hp]
    exact hv
  · by_cases hm : index + 1 < c.len
    · exact .inr (by rw [hp]; exact hm)
    · exact .inl ⟨finish τ.values τ.firstPanic,by simp [advance,hm],rfl⟩
  · intro i hi
    by_cases hm : index + 1 < c.len <;> simp [advance,hm] at hi
  · intro i hi
    by_cases hm : index + 1 < c.len <;> simp [advance,hm,claimed?] at hi
  · intro i hi
    have hi' : (τ.completion i).waiter = true := hi
    show (τ.completion i).outcome = none
    rw [hc] at hi' ⊢
    by_cases he : i = index
    · simp [he]
    · simp only [update_of_ne he] at hi' ⊢
      exact h.waiter i hi'
  · intro i hi
    by_cases hm : index + 1 < c.len <;> simp [advance,hm,parked?] at hi

theorem Inv.pollPending (h : Inv c σ) (how : σ.owner = .poll index)
    (hoc : (σ.completion index).outcome = none) : Inv c (σ.registerWaiter index) := by
  have hou i : (update σ.completion index { σ.completion index with waiter := true } i).outcome =
      (σ.completion i).outcome := by
    by_cases he : i = index <;> simp [he]
  have hs : ∀ i, stored { σ with completion := update σ.completion index { σ.completion index with waiter := true } }
    i = σ.stored i :=
    fun i => congrArg (·.isSome.toNat) (hou i)
  have hr : Inv c { σ with completion := update σ.completion index { σ.completion index with waiter := true } } := by
    refine { h with
        balance := fun i hi => ?_, runs := fun i hi => ?_, outcomes := fun i o ho => ?_,
        waiter := fun i hi => ?_, parked := ?_ }
    · rw [hs]
      exact h.balance i hi
    · rw [hs]
      exact h.runs i hi
    · exact h.outcomes i o ((hou i).symm.trans ho)
    · by_cases he : i = index
      · exact (hou i).trans (he ▸ hoc)
      · exact (hou i).trans (h.waiter i (by simpa [he] using hi))
    · simp [how,parked?]
  refine hr.ownerMove how rfl rfl (.inl rfl) rfl nofun nofun (fun _ hi => hi) (fun i hi => ?_)
    (.inl rfl) ⟨rfl,rfl,rfl,rfl,rfl⟩
  cases hi
  simp

theorem Inv.budgetMove (h : Inv c σ) (ho : σ'.owner = σ.owner) (hhe : σ'.helpers = σ.helpers ∨
    σ'.helpers = σ.helpers ++ [.queued])
    (he : σ.Same σ') (hnt : σ'.notified = σ.notified) : Inv c σ' := by
  have hm pc : (∃ x : HelperPc O P, x ∈ σ'.helpers ∧ x.task? = some pc) ↔ ∃ x : HelperPc O P, x ∈ σ.helpers ∧
      x.task? = some pc := by
    rcases hhe with he | he
    · rw [he]
    · simp [he,or_and_right,exists_or,HelperPc.task?]
  have hh pc : σ'.HasTask pc ↔ σ.HasTask pc := by rw [HasTask,HasTask,hm,ho]
  have hc f : σ'.count f = σ.count f := by
    rw [State.count,State.count,ho]
    rcases hhe with he | he
    · rw [he]
    · simp [he,HelperPc.task?,counted]
  refine h.of_counts he (by rw [ho]) (fun i => hc _)
    (fun i => hc _) (fun pc hpc => .inl ((hh pc).mp hpc)) (.inr ho) (by rw [ho]; exact h.threaded)
    (by rw [ho]; exact fun i hi => hi) ?_
  intro i hi
  rw [ho] at hi
  exact (h.parked i hi).imp_right (Or.imp hnt.trans (hh _).mpr)

theorem order_lt {next : Nat} (h : c.order[next]? = some index) : index < c.len := by
  have hm := mem_of_getElem? h
  rw [Config.order,mem_mergeSort,mem_range'_1] at hm
  omega

theorem Inv.step (h : Inv c σ) (hs : Step c σ σ') : Inv c σ' := by
  cases hs with
  | serialOk ho | serialPanic ho | serialEnd ho => exact absurd ho (h.threaded _)
  | ownerTask ho => exact h.ownerTask ho
  | helperTask hh => exact h.helperTask hh
  | pollReady ho hoc => exact h.pollReady ho hoc
  | pollPending ho hoc => exact h.pollPending ho hoc
  | load ho | casTake ho | casRetry ho =>
    exact h.ownerMove ho rfl rfl (.inl rfl) rfl nofun nofun nofun nofun (.inl rfl) ⟨rfl,rfl,rfl,rfl,rfl⟩
  | loadEnd ho | casFull ho =>
    exact h.ownerMove ho rfl rfl (.inr rfl) rfl nofun nofun nofun nofun (.inl rfl) ⟨rfl,rfl,rfl,rfl,rfl⟩
  | launch ho => exact h.ownerMove ho rfl rfl (.inl rfl) rfl nofun nofun nofun nofun (.inr rfl) ⟨rfl,rfl,rfl,rfl,rfl⟩
  | wake ho | spurious ho =>
    exact h.ownerMove ho rfl rfl (.inl rfl) rfl nofun nofun (fun _ hi => hi) nofun (.inl rfl) ⟨rfl,rfl,rfl,rfl,rfl⟩
  | fetch hh | exhausted hh | continuation hh | lastItem hh | release hh =>
    exact h.helperMove hh rfl (.inl rfl) rfl rfl ⟨rfl,rfl,rfl,rfl,rfl⟩ rfl
  | begin hh hor => exact h.helperMove hh rfl (.inr ⟨_,order_lt hor,rfl⟩) rfl rfl ⟨rfl,rfl,rfl,rfl,rfl⟩ rfl
  | @submitContinuation k hh =>
    have hm : Inv c (σ.setHelper k .releasing) := h.helperMove hh rfl (.inl rfl) rfl rfl ⟨rfl,rfl,rfl,rfl,rfl⟩ rfl
    exact hm.budgetMove rfl (.inr rfl) ⟨rfl,rfl,rfl,rfl,rfl⟩ rfl
  | otherSubmits | otherReleases => exact h.budgetMove rfl (.inl rfl) ⟨rfl,rfl,rfl,rfl,rfl⟩ rfl

end Frontend.Sync.OwnedStage
