import Frontend.Sync.OwnedStageProgress

namespace Frontend.Sync.OwnedStage

open Frontend.Library Frontend.Library.Tally State Relation List

variable {In O P : Type} {c : Config In O P} {σ σ' : State O P}

variable {n : Nat} {r : Except P (List O)}

theorem gather_ok (hok : ∀ i < n, c.item i = .ok (f i)) : gather c n = ((range n).map f,none) := by
  induction n with
  | zero => rfl
  | succ n ih =>
    have hn := hok n (Nat.lt_succ_self n)
    rw [gather,hn,ih fun i hi => hok i (Nat.lt_succ_of_lt hi)]
    simp [range_succ]

theorem gather_calm (hok : ∀ i < n, ∃ v, c.item i = .ok v) : (gather c n).2 = none := by
  induction n with
  | zero => rfl
  | succ n ih =>
    obtain ⟨v,hv⟩ := hok n (Nat.lt_succ_self n)
    simp [gather,hv,ih fun i hi => hok i (Nat.lt_succ_of_lt hi)]

theorem gather_error (hk : c.item k = .error p) (hf : ∀ j < k, ∃ v, c.item j = .ok v) (hkn : k < n) :
    (gather c n).2 = some p := by
  induction n with
  | zero => omega
  | succ n ih =>
    rcases Nat.lt_succ_iff_lt_or_eq.mp hkn with hlt | rfl
    · cases hn : c.item n <;> simp [gather,hn,ih hlt]
    · simp [gather,hk,gather_calm hf]

-- The result of running the items one after the other: the values in index order, or the
-- panic of the smallest index that has one.
structure SerialResult (c : Config In O P) (r : Except P (List O)) : Prop where
  ok : ∀ f, (∀ i < c.len, c.item i = .ok (f i)) → r = .ok ((List.range c.len).map f)
  panic : ∀ k < c.len, ∀ p, c.item k = .error p → (∀ j < k, ∃ v, c.item j = .ok v) → r = .error p

theorem serialResult_gather (h : (vs,p) = gather c c.len) : SerialResult c (finish vs p) := by
  refine ⟨fun f hf => ?_,fun k hk p hp hfi => ?_⟩
  · cases h.trans (gather_ok hf)
    rfl
  · cases (congrArg Prod.snd h).trans (gather_error hp hfi hk)
    rfl

structure SerialInv (c : Config In O P) (σ : State O P) : Prop where
  jobs : ∀ i, σ.jobs i = false
  helpers : σ.helpers = []
  completion : ∀ i, (σ.completion i).outcome = none
  phase : (∃ k ≤ c.len, σ.owner = .serial k ∧ (∀ j < k, ∃ v, c.item j = .ok v) ∧
      (σ.values,none) = gather c k ∧ ∀ i, σ.runs i = (decide (i < k)).toNat) ∨
    (σ.owner = .returned (.ok σ.values) ∧ (∀ j < c.len, ∃ v, c.item j = .ok v) ∧
      (σ.values,none) = gather c c.len ∧ ∀ i, σ.runs i = (decide (i < c.len)).toNat) ∨
    ∃ k < c.len, ∃ p, σ.owner = .returned (.error p) ∧ c.item k = .error p ∧
      (∀ j < k, ∃ v, c.item j = .ok v) ∧ ∀ i, σ.runs i = (decide (i ≤ k)).toNat

theorem SerialInv.start (hc : c.threaded = false) : SerialInv c (start c) := by
  refine ⟨?_,rfl,fun _ => rfl,.inl ⟨0,Nat.zero_le _,?_,?_,rfl,?_⟩⟩
  · simp [State.start,hc]
  · simp [State.start,hc]
  · intro j hj
    omega
  · simp [State.start]

theorem runs_countRun (h : ∀ i, σ.runs i = (decide (i < k)).toNat) (i : Nat) :
    (σ.countRun k).runs i = (decide (i ≤ k)).toNat := by
  by_cases he : i = k
  · simp [countRun,he,h]
  · simp [countRun,he,h,Nat.le_iff_lt_or_eq]

theorem SerialInv.step (h : SerialInv c σ) (hst : Step c σ σ') : SerialInv c σ' := by
  have how : (∃ k, σ.owner = .serial k) ∨ ∃ r, σ.owner = .returned r := by
    rcases h.phase with ⟨k,-,ho,-⟩ | ⟨ho,-⟩ | ⟨k,-,p,ho,-⟩
    · exact .inl ⟨k,ho⟩
    · exact .inr ⟨_,ho⟩
    · exact .inr ⟨_,ho⟩
  have hs k (hk : σ.owner = .serial k) : k ≤ c.len ∧ (∀ j < k, ∃ v, c.item j = .ok v) ∧
      (σ.values,none) = gather c k ∧ ∀ i, σ.runs i = (decide (i < k)).toNat := by
    rcases h.phase with ⟨k',hle,ho,hre⟩ | ⟨ho,-⟩ | ⟨k',-,p,ho,-⟩
    · cases hk.symm.trans ho
      exact ⟨hle,hre⟩
    · cases hk.symm.trans ho
    · cases hk.symm.trans ho
  cases hst with
  | @serialOk index value ho hl hit =>
    obtain ⟨-,hf,hv,hru⟩ := hs index ho
    refine ⟨h.jobs,h.helpers,h.completion,.inl ⟨index + 1,hl,rfl,?_,?_,?_⟩⟩
    · intro j hj
      rcases Nat.lt_succ_iff_lt_or_eq.mp hj with hj | rfl
      · exact hf j hj
      · exact ⟨value,hit⟩
    · exact (gather_succ c index _ _ hv).1 value hit
    · simpa only [Nat.lt_succ_iff] using runs_countRun hru
  | @serialPanic index p ho hl hit =>
    obtain ⟨-,hf,-,hru⟩ := hs index ho
    exact ⟨h.jobs,h.helpers,h.completion,.inr (.inr ⟨index,hl,p,rfl,hit,hf,runs_countRun hru⟩)⟩
  | @serialEnd index ho hl =>
    obtain ⟨hle,hf,hv,hru⟩ := hs index ho
    obtain rfl : index = c.len := Nat.le_antisymm hle hl
    exact ⟨h.jobs,h.helpers,h.completion,.inr (.inl ⟨rfl,hf,hv,hru⟩)⟩
  | load ho | loadEnd ho | casFull ho | casTake ho | casRetry ho | launch ho | ownerTask ho
  | pollReady ho | pollPending ho | wake ho | spurious ho =>
    rw [ho] at how
    rcases how with ⟨k,hk⟩ | ⟨r,hr⟩
    · cases hk
    · cases hr
  | fetch hk | exhausted hk | begin hk | helperTask hk | continuation hk | lastItem hk
  | submitContinuation hk | release hk =>
    rw [h.helpers] at hk
    simp at hk
  | otherSubmits | otherReleases => exact ⟨h.jobs,h.helpers,h.completion,h.phase⟩

theorem SerialInv.returns (h : SerialInv c σ) : ∃ σ', ReflTransGen (Deliberate c) σ σ' ∧
    ∃ r, σ'.owner = .returned r := by
  refine leads_to_of_rank (SerialInv c) (fun σ => ownerRank c 0 σ.owner) ?_ h
  intro σ hin
  rcases hin.phase with ⟨k,hle,ho,-⟩ | ⟨ho,-⟩ | ⟨k,-,p,ho,-⟩
  · have hst : ∀ {τ}, Step c σ τ → ownerRank c 0 τ.owner < ownerRank c 0 (.serial k : OwnerPc O P) →
        ∃ τ, Deliberate c σ τ ∧ SerialInv c τ ∧ ownerRank c 0 τ.owner < ownerRank c 0 σ.owner :=
      fun hs hlt => ⟨_,⟨hs,.inr (.inl (by rw [ho]; rfl))⟩,hin.step hs,ho ▸ hlt⟩
    refine .inr ?_
    by_cases hlt : k < c.len
    · cases hit : c.item k with
      | ok value => exact hst (.serialOk ho hlt hit) (by simp only [ownerRank]; omega)
      | error p => exact hst (.serialPanic ho hlt hit) (by simp only [ownerRank]; omega)
    · exact hst (.serialEnd ho (not_lt.mp hlt)) (by simp only [ownerRank]; omega)
  · exact .inl ⟨_,ho⟩
  · exact .inl ⟨_,ho⟩

theorem Reached.inv (hc : c.threaded = true) (h : Reached c σ) : Inv c σ ∧ σ.owner.Submitting c := by
  have hst : ∀ σ, σ = start c → Inv c σ ∧ σ.owner.Submitting c := by
    rintro σ0 rfl
    refine ⟨.start hc,?_⟩
    simp [start,hc,OwnerPc.Submitting]
  exact Reachable.invariant (I := fun σ => Inv c σ ∧ σ.owner.Submitting c) h hst
    fun σ0 σ1 hin hs => ⟨hin.1.step hs,Submitting.step hin.2 hs⟩

theorem Reached.serialInv (hc : c.threaded = false) (h : Reached c σ) : SerialInv c σ := by
  refine Reachable.invariant h ?_ ?_
  · rintro σ0 rfl
    exact .start hc
  · exact fun σ0 σ1 hin hs => hin.step hs

def holding : TaskPc O P → Nat
  | .running _ => 1
  | _ => 0

def State.inputReferences (c : Config In O P) (σ : State O P) : Nat := (List.range c.len).countP σ.jobs + σ.count holding

theorem Inv.no_references (h : Inv c σ) (hr : σ.owner = .returned r) : σ.inputReferences c = 0 := by
  have hba i (hi : i < c.len) : σ.jobs i = false ∧ σ.count (runningAt i) = 0 := by
    have hb := h.balance i hi
    rw [hr] at hb
    simp only [OwnerPc.position,hi,decide_true,Bool.toNat_true] at hb
    refine ⟨?_,by omega⟩
    cases hj : σ.jobs i with
    | false => rfl
    | true =>
      rw [hj,Bool.toNat_true] at hb
      omega
  have hjo : (range c.len).countP σ.jobs = 0 := by
    rw [countP_eq_zero]
    intro i hi
    simp [(hba i (mem_range.mp hi)).1]
  have hc : σ.count holding = 0 := by
    by_contra hne
    have hp : 0 < tally (fun x : HelperPc O P => counted holding x.task?) σ.helpers := by
      have : counted holding σ.owner.task? = 0 := by rw [hr]; rfl
      rw [State.count] at hne
      omega
    obtain ⟨k,next,pc,hx,hp⟩ := exists_task_of_tally_pos hp
    cases pc with
    | running i =>
      have ht : σ.HasTask (.running i) := .inr ⟨_,mem_of_getElem? hx,rfl⟩
      have hlt := (h.tasks _ ht).lt
      have hru : 0 < σ.count (runningAt i) := count_pos_of_hasTask ht (by simp [runningAt])
      rw [(hba i hlt).2] at hru
      omega
    | _ => exact absurd hp (by simp [holding])
  rw [inputReferences,hjo,hc]

theorem SerialInv.no_references (h : SerialInv c σ) : σ.inputReferences c = 0 := by
  have how : counted holding σ.owner.task? = 0 := by
    rcases h.phase with ⟨k,-,ho,-⟩ | ⟨ho,-⟩ | ⟨k,-,p,ho,-⟩ <;> rw [ho] <;> rfl
  have hj : (range c.len).countP σ.jobs = 0 := by
    rw [countP_eq_zero]
    intro i _
    simp [h.jobs i]
  rw [inputReferences,hj,State.count,how,h.helpers]
  rfl

def RunsOnce (c : Config In O P) (σ : State O P) : Prop :=
  ∀ i < c.len, σ.runs i = if c.threaded = true ∨ ∀ j < i, (c.item j).isOk = true then 1 else 0

theorem Inv.runsOnce (hc : c.threaded = true) (h : Inv c σ) (hre : σ.owner = .returned r) : RunsOnce c σ := by
  intro i hi
  have hb := h.balance i hi
  have hr := h.runs i hi
  rw [hre] at hb hr
  simp only [OwnerPc.position,hi,decide_true,Bool.toNat_true] at hb hr
  rw [if_pos (.inl hc)]
  omega

theorem isOk_iff {x : Except P O} : x.isOk = true ↔ ∃ v, x = .ok v := by
  cases x with
  | ok v => simp [Except.isOk,Except.toBool]
  | error p => simp [Except.isOk,Except.toBool]

theorem SerialInv.runsOnce (hc : c.threaded = false) (h : SerialInv c σ) (hre : σ.owner = .returned r) :
    RunsOnce c σ := by
  intro i hi
  have hn : ¬ c.threaded = true := by simp [hc]
  rcases h.phase with ⟨k,-,ho,-⟩ | ⟨-,hf,-,hr⟩ | ⟨k,-,p,-,hk,hf,hr⟩
  · cases hre.symm.trans ho
  · have ha j (hj : j < i) : (c.item j).isOk = true := isOk_iff.mpr (hf j (by omega))
    rw [hr i,if_pos (.inr ha)]
    simp [hi]
  · rw [hr i]
    by_cases hik : i ≤ k
    · have ha j (hj : j < i) : (c.item j).isOk = true := isOk_iff.mpr (hf j (by omega))
      rw [if_pos (.inr ha)]
      simp [hik]
    · have hs : ¬ ∀ j < i, (c.item j).isOk = true := by
        intro ha
        obtain ⟨v,hv⟩ := isOk_iff.mp (ha k (by omega))
        cases hk.symm.trans hv
      rw [if_neg (not_or.mpr ⟨hn,hs⟩)]
      simp [hik]

theorem Inv.result (h : Inv c σ) (hr : σ.owner = .returned r) : SerialResult c r := by
  have hg := h.gathered
  rw [hr] at hg
  rcases h.position with ⟨r',hr',rfl⟩ | hlt
  · cases hr.symm.trans hr'
    exact serialResult_gather hg
  · rw [hr] at hlt
    exact absurd hlt (lt_irrefl _)

theorem SerialInv.result (h : SerialInv c σ) (hr : σ.owner = .returned r) : SerialResult c r := by
  rcases h.phase with ⟨k,-,ho,-⟩ | ⟨ho,-,hva,-⟩ | ⟨k,hk,p,ho,hit,hfi,-⟩
  · cases hr.symm.trans ho
  · cases hr.symm.trans ho
    exact serialResult_gather hva
  · cases hr.symm.trans ho
    refine ⟨fun f hf => ?_,fun k' hk' p' hp' hf' => ?_⟩
    · rw [hf k hk] at hit
      cases hit
    · rcases Nat.lt_trichotomy k k' with hlt | rfl | hlt
      · obtain ⟨v,hv⟩ := hf' k hlt
        cases hit.symm.trans hv
      · cases hit.symm.trans hp'
        rfl
      · obtain ⟨v,hv⟩ := hfi k' hlt
        cases hp'.symm.trans hv

theorem Inv.runs_le (h : Inv c σ) (hi : i < c.len) : σ.runs i ≤ 1 := by
  have hb := h.balance i hi
  have hr := h.runs i hi
  omega

theorem SerialInv.runs_le (h : SerialInv c σ) (i : Nat) : σ.runs i ≤ 1 := by
  rcases h.phase with ⟨k,-,-,-,-,hr⟩ | ⟨-,-,-,hr⟩ | ⟨k,-,p,-,-,-,hr⟩ <;>
    rw [hr i] <;> exact Bool.toNat_le _

def Claimed (σ : State O P) (index : Nat) : Prop :=
  σ.jobs index = false ∧ (σ.HasTask (.running index) ∨ (∃ o, σ.HasTask (.ran index o)) ∨
    (σ.completion index).outcome.isSome = true)

theorem Inv.blocked_claimed (h : Inv c σ) (hp : σ.owner = .parked i) : Claimed σ i := by
  have hj := h.claimed i (by rw [hp]; rfl)
  have hlt : i < c.len := by
    rcases h.position with ⟨r,hr,-⟩ | hlt
    · cases hp.symm.trans hr
    · rwa [hp] at hlt
  refine ⟨hj,?_⟩
  cases ho : (σ.completion i).outcome with
  | some o => exact .inr (.inr rfl)
  | none =>
    obtain ⟨k,next,pc,hk,hpc⟩ := h.busy_helper hlt (by rw [hp]; rfl) hj ho (by rw [hp]; rfl)
    have ht : σ.HasTask pc := .inr ⟨_,mem_of_getElem? hk,rfl⟩
    rcases hpc with rfl | ⟨o,rfl⟩
    · exact .inl ht
    · exact .inr (.inl ⟨o,ht⟩)

theorem owned_stage_is_serial_map (h : Reached c σ) : (∀ i < c.len, σ.runs i ≤ 1) ∧
    (∀ i, σ.owner = .parked i → Claimed σ i) ∧
      (∀ i, (σ.completion i).outcome.isSome = true → (σ.completion i).waiter = false ∧
        (σ.owner = .parked i → σ.notified = true ∨ σ.HasTask (.waking i true))) ∧
      (∃ σ', ReflTransGen (Deliberate c) σ σ' ∧ ∃ r, σ'.owner = .returned r) ∧
      ∀ r, σ.owner = .returned r → SerialResult c r ∧ RunsOnce c σ ∧ σ.inputReferences c = 0 := by
  cases hc : c.threaded with
  | true =>
    obtain ⟨hin,hs⟩ := h.inv hc
    have hwa i (hi : (σ.completion i).outcome.isSome = true) : (σ.completion i).waiter = false := by
      by_contra hw
      rw [hin.waiter i (by simpa using hw)] at hi
      cases hi
    refine ⟨fun i hi => hin.runs_le hi,fun i hi => hin.blocked_claimed hi,fun i hi => ?_,
      hin.returns hs,fun r hr => ⟨hin.result hr,hin.runsOnce hc hr,hin.no_references hr⟩⟩
    refine ⟨hwa i hi,fun hp => ?_⟩
    rcases hin.parked i (by rw [hp]; rfl) with hw | hre
    · rw [hwa i hi] at hw
      cases hw
    · exact hre
  | false =>
    have hin := h.serialInv hc
    refine ⟨fun i _ => hin.runs_le i,fun i hi => ?_,fun i hi => ?_,hin.returns,
      fun r hr => ⟨hin.result hr,hin.runsOnce hc hr,hin.no_references⟩⟩
    · rcases hin.phase with ⟨k,-,ho,-⟩ | ⟨ho,-⟩ | ⟨k,-,p,ho,-⟩ <;> rw [hi] at ho <;> cases ho
    · rw [hin.completion i] at hi
      cases hi

def panickingPair : Config Unit Unit Unit where
  input := ()
  len := 2
  weight := fun _ _ => 0
  run := fun _ index => if index = 0 then .error () else .ok ()
  parallelHere := true
  sessionWidth := 0
  workers := 0

def panickedPair : State Unit Unit :=
  { (State.start panickingPair).countRun 0 with owner := .returned (.error ()) }

theorem serial_panic_skips_later_items : Reached panickingPair panickedPair ∧
    panickedPair.owner = .returned (.error ()) ∧
      1 < panickingPair.len ∧ panickedPair.runs 1 = 0 :=
  ⟨Reachable.tail (Reachable.start rfl) (.serialPanic rfl (by decide) rfl),rfl,by decide,rfl⟩

def threadedPair : Config Unit Nat Unit where
  input := ()
  len := 2
  weight := fun _ index => index
  run := fun _ index => .ok index
  parallelHere := true
  sessionWidth := 2
  workers := 1

theorem threaded_pair_returns : threadedPair.threaded = true ∧ ∃ σ, Reached threadedPair σ ∧
    σ.owner = .returned (.ok [0,1]) ∧
    σ.runs 0 = 1 ∧ σ.runs 1 = 1 ∧ σ.inputReferences threadedPair = 0 := by
  have h0 : Reached threadedPair (.start threadedPair) := Reachable.start rfl
  obtain ⟨σ,hr,r,ho⟩ := (owned_stage_is_serial_map h0).2.2.2.1
  have h : Reached threadedPair σ := ⟨_,rfl,hr.lift id fun _ _ hs => hs.1⟩
  obtain ⟨hse,hru,hi⟩ := (owned_stage_is_serial_map h).2.2.2.2 r ho
  obtain rfl : r = .ok [0,1] := hse.ok id fun _ _ => rfl
  exact ⟨by decide,σ,h,ho,(hru 0 (by decide)).trans rfl,(hru 1 (by decide)).trans (if_pos (.inl (by decide))),hi⟩

end Frontend.Sync.OwnedStage
