import Frontend.Query.Wait

namespace Frontend.Query

open Frontend.Library State List Function

variable {T K S : Type} [DecidableEq K]
variable {σ σ' : State T K S} {t : T}

structure Runs (job : QueryJob T K) (t : T) (frame : Frame K) (below : List (Frame K)) : Prop where
  id_eq : job.id = frame.id
  key_eq : job.key = frame.key
  thread_eq : job.thread = t
  parent_eq : job.parent = below.head?.map Frame.id

structure Stacks (σ : State T K S) : Prop where
  frame : ∀ t above f below, σ.stack t = above ++ f :: below →
    (∃ job, σ.active.lookup f.key = some (.started job) ∧ Runs job t f below) ∨
      above = [] ∧ ∃ job, (σ.pc t).job? = some job ∧ Runs job t f below
  active : ∀ key job, σ.active.lookup key = some (.started job) →
    ⟨job.id,key⟩ ∈ σ.stack job.thread ∧ ∀ job', (σ.pc job.thread).job? = some job' → job'.id ≠ job.id
  finishing : ∀ t job, (σ.pc t).job? = some job → ∃ below, σ.stack t = ⟨job.id,job.key⟩ :: below
  ids : ∀ t, ∀ f ∈ σ.stack t, f.id ∈ σ.jobIds
  own : ∀ t u f g, f ∈ σ.stack t → g ∈ σ.stack u → f.id = g.id → t = u
  nodup : ∀ t, ((σ.stack t).map Frame.id).Nodup

variable {f : Frame K} {job : QueryJob T K} {key : K}

theorem Stacks.frame_eq (h : Stacks σ) (hf : f ∈ σ.stack t) (hg : g ∈ σ.stack u) (hid : f.id = g.id) :
    t = u ∧ f = g := by
  obtain rfl := h.own t u f g hf hg hid
  exact ⟨rfl,inj_on_of_nodup_map (h.nodup t) hf hg hid⟩

theorem Stacks.of_eq (h : Stacks σ) (ha : σ'.active = σ.active) (hst : σ'.stack = σ.stack)
    (hid : σ'.jobIds = σ.jobIds) (hjo : ∀ u, (σ'.pc u).job? = (σ.pc u).job?) : Stacks σ' := by
  constructor
  · intro t above f below hs
    rw [hst] at hs
    rw [ha,hjo]
    exact h.frame t above f below hs
  · intro key job hl
    rw [ha] at hl
    rw [hst,hjo]
    exact h.active key job hl
  · intro t job hj
    rw [hjo] at hj
    rw [hst]
    exact h.finishing t job hj
  · rw [hst,hid]
    exact h.ids
  · rw [hst]
    exact h.own
  · rw [hst]
    exact h.nodup

theorem Stacks.initial : Stacks (initial : State T K S) := by refine ⟨?_,?_,?_,?_,?_,?_⟩ <;> simp [State.initial,Pc.job?]

theorem Stacks.top_runs (h : Stacks σ) (hpc : σ.pc t = .running)
    (hs : σ.stack t = f :: below) (hst : σ.active.lookup f.key = some (.started job)) :
    Runs job t f below := by
  rcases h.frame t [] f below hs with ⟨job',hl,hr⟩ | ⟨-,job',hj,-⟩
  · cases hst.symm.trans hl
    exact hr
  · simp [hpc,Pc.job?] at hj

variable [DecidableEq T]

omit [DecidableEq K] in
theorem view_update (f : Pc T K S → α) (hpc : σ.pc t = a) (hab : f b = f a) (u : T) :
    f (update σ.pc t b u) = f (σ.pc u) := by
  by_cases hu : u = t
  · rw [hu,update_self,hpc,hab]
  · rw [update_of_ne hu]

omit [DecidableEq K] [DecidableEq T] in
theorem ne_of_view {f : Pc T K S → Option α} (hpc : σ.pc t = a) (ha : f a = none) (hu : f (σ.pc u) = some x) :
    u ≠ t := by
  rintro rfl
  rw [hpc,ha] at hu
  cases hu

theorem Stacks.startJob (h : Stacks σ) {id : Nat} (hpc : σ.pc t = .running) (hva : σ.active.lookup key = none)
    (hid : id ∉ σ.jobIds) :
    Stacks (σ.startJob t key id) := by
  have hn : ∀ u, ∀ f ∈ σ.stack u, f.id ≠ id := fun u f hf he => hid (he ▸ h.ids u f hf)
  have hlo key' job (hl : σ.active.lookup key' = some (.started job)) :
      (σ.startJob t key id).active.lookup key' = some (.started job) := by
    have hne : key' ≠ key := by
      rintro rfl
      cases hva.symm.trans hl
    simpa [State.startJob,AList.lookup_insert_ne hne] using hl
  have hme u f (hf : f ∈ (σ.startJob t key id).stack u) : f ∈ σ.stack u ∨ u = t ∧ f = ⟨id,key⟩ := by
    by_cases hu : u = t
    · subst hu
      simp only [startJob,update_self,mem_cons] at hf
      tauto
    · simp only [State.startJob,update_of_ne hu] at hf
      exact .inl hf
  constructor
  · intro u above f below hs
    by_cases hu : u = t
    · subst hu
      simp only [startJob,update_self] at hs
      cases above with
      | nil =>
        obtain ⟨rfl,rfl⟩ := cons.inj hs
        exact .inl ⟨_,AList.lookup_insert _,⟨rfl,rfl,rfl,rfl⟩⟩
      | cons x above =>
        rcases h.frame u above f below (cons.inj hs).2 with ⟨job,hl,hr⟩ | ⟨-,job,hj,-⟩
        · exact .inl ⟨job,hlo _ _ hl,hr⟩
        · simp [hpc,Pc.job?] at hj
    · simp only [State.startJob,update_of_ne hu] at hs
      rcases h.frame u above f below hs with ⟨job,hl,hr⟩ | hfi
      · exact .inl ⟨job,hlo _ _ hl,hr⟩
      · exact .inr hfi
  · intro key' job hl
    by_cases hk : key' = key
    · subst hk
      obtain rfl : _ = job := by simpa [startJob] using hl
      refine ⟨by simp [startJob],fun job' hj => ?_⟩
      simp [startJob,hpc,Pc.job?] at hj
    · simp only [State.startJob,AList.lookup_insert_ne hk] at hl
      obtain ⟨hf,hj⟩ := h.active key' job hl
      refine ⟨?_,hj⟩
      by_cases hu : job.thread = t
      · rw [hu] at hf
        simp [State.startJob,hu,hf]
      · simpa [State.startJob,update_of_ne hu] using hf
  · intro u job hj
    have hu : u ≠ t := by
      rintro rfl
      simp [startJob,hpc,Pc.job?] at hj
    simpa [State.startJob,update_of_ne hu] using h.finishing u job hj
  · intro u f hf
    rcases hme u f hf with hf | ⟨rfl,rfl⟩
    · exact mem_cons_of_mem _ (h.ids u f hf)
    · exact mem_cons_self
  · intro u v f g hf hg hid'
    rcases hme u f hf with hf' | ⟨hu,hf'⟩ <;> rcases hme v g hg with hg' | ⟨hv,hg'⟩
    · exact h.own u v f g hf' hg' hid'
    · exact absurd (hid'.trans (congrArg Frame.id hg')) (hn u f hf')
    · exact absurd (hid'.symm.trans (congrArg Frame.id hf')) (hn v g hg')
    · rw [hu,hv]
  · intro u
    by_cases hu : u = t
    · subst hu
      simp only [startJob,update_self,map_cons,nodup_cons]
      refine ⟨fun hm => ?_,h.nodup u⟩
      obtain ⟨f,hf,he⟩ := mem_map.mp hm
      exact hn u f hf he
    · simpa [State.startJob,update_of_ne hu] using h.nodup u

theorem Stacks.takeLatch (h : Stacks σ) (hpc : σ.pc t = .running)
    (hst : σ.active.lookup key = some (.started job)) : Stacks (σ.takeLatch t key job) := by
  have hjo : ∀ u, ((σ.takeLatch t key job).pc u).job? = (σ.pc u).job? := view_update Pc.job? hpc rfl
  constructor
  · intro u above f below hs
    rcases h.frame u above f below hs with ⟨job',hl,hr⟩ | hf
    · refine .inl ?_
      by_cases hk : f.key = key
      · rw [hk,hst] at hl
        obtain rfl : job = job' := by simpa using hl
        refine ⟨{ job with latch := true },?_,⟨hr.id_eq,hr.key_eq,hr.thread_eq,hr.parent_eq⟩⟩
        rw [hk]
        exact AList.lookup_insert σ.active
      · exact ⟨job',by simpa [State.takeLatch,AList.lookup_insert_ne hk] using hl,hr⟩
    · rw [hjo]
      exact .inr hf
  · intro key' job' hl
    rw [hjo]
    by_cases hk : key' = key
    · subst hk
      obtain rfl : _ = job' := by simpa [takeLatch] using hl
      exact h.active key' job hst
    · exact h.active key' job' (by simpa [State.takeLatch,AList.lookup_insert_ne hk] using hl)
  · intro u job' hj
    rw [hjo] at hj
    exact h.finishing u job' hj
  · exact h.ids
  · exact h.own
  · exact h.nodup

theorem lookup_endJob : (σ.endJob t key job poisoned).active.lookup key' = some (.started job') ↔
      key' ≠ key ∧ σ.active.lookup key' = some (.started job') := by
  by_cases hk : key' = key
  · subst hk
    cases poisoned <;> simp [State.endJob,AList.lookup_erase]
  · cases poisoned <;>
      simp [State.endJob,AList.lookup_erase_ne hk,AList.lookup_insert_ne hk,hk]

theorem Stacks.endJob (h : Stacks σ) (hpc : σ.pc t = .running) (hst : σ.stack t = f :: below)
    (hsr : σ.active.lookup f.key = some (.started job)) :
    Stacks (σ.endJob t f.key job poisoned) := by
  have hru := h.top_runs hpc hst hsr
  have hf : f ∈ σ.stack t := by simp [hst]
  have hp : ∀ u, (σ.endJob t f.key job poisoned).pc u = update σ.pc t (.finishing job) u := fun _ => rfl
  have hpt : (σ.endJob t f.key job poisoned).pc t = .finishing job := by simp [hp]
  constructor
  · intro u above g below' hs
    rcases h.frame u above g below' hs with ⟨job',hl,hr⟩ | ⟨hab,job',hj,hr⟩
    · by_cases hk : g.key = f.key
      · -- the finished key belongs to the top frame only
        rw [hk,hsr] at hl
        cases hl
        have hg : g ∈ σ.stack u := by simp [show σ.stack u = above ++ g :: below' from hs]
        obtain ⟨rfl,rfl⟩ := h.frame_eq hg hf (by rw [← hr.id_eq,hru.id_eq])
        refine .inr ⟨?_,job,by simp [hpt,Pc.job?],hr⟩
        cases above with
        | nil => rfl
        | cons x above =>
          have hs' : σ.stack u = x :: above ++ g :: below' := hs
          have hnd := h.nodup u
          rw [hst] at hs'
          obtain ⟨rfl,ht⟩ := List.cons.inj hs'
          rw [hst,ht] at hnd
          simp at hnd
      · exact .inl ⟨job',lookup_endJob.mpr ⟨hk,hl⟩,hr⟩
    · have hu : u ≠ t := by
        rintro rfl
        simp [hpc,Pc.job?] at hj
      exact .inr ⟨hab,job',by rw [hp,update_of_ne hu]; exact hj,hr⟩
  · intro key' job' hl
    obtain ⟨hk,hl⟩ := lookup_endJob.mp hl
    obtain ⟨hg,hj⟩ := h.active key' job' hl
    refine ⟨hg,fun job'' hj'' => ?_⟩
    by_cases hu : job'.thread = t
    · rw [hu,hpt] at hj''
      obtain rfl : job = job'' := by simpa [Pc.job?] using hj''
      intro hid
      have heq := (h.frame_eq hg hf (by rw [← hru.id_eq,hid])).2
      exact hk (by rw [← heq])
    · rw [hp,update_of_ne hu] at hj''
      exact hj job'' hj''
  · intro u job' hj
    by_cases hu : u = t
    · subst hu
      rw [hpt] at hj
      cases hj
      exact ⟨below,by rw [hru.id_eq,hru.key_eq]; exact hst⟩
    · rw [hp,update_of_ne hu] at hj
      exact h.finishing u job' hj
  · exact h.ids
  · exact h.own
  · exact h.nodup

theorem Stacks.popJob (h : Stacks σ) (hpc : (σ.pc t).job? = some job) : Stacks (σ.popJob t) := by
  obtain ⟨below,hst⟩ := h.finishing t job hpc
  have ht : (σ.popJob t).stack t = below := by simp [State.popJob,hst]
  have ho : ∀ u, u ≠ t → (σ.popJob t).stack u = σ.stack u ∧ (σ.popJob t).pc u = σ.pc u :=
    fun u hu => ⟨by simp [State.popJob,hu],by simp [State.popJob,hu]⟩
  have hp : (σ.popJob t).pc t = .running := by simp [State.popJob]
  have hsu u f (hf : f ∈ (σ.popJob t).stack u) : f ∈ σ.stack u := by
    by_cases hu : u = t
    · subst hu
      rw [ht] at hf
      simp [hst,hf]
    · rwa [(ho u hu).1] at hf
  constructor
  · intro u above f below' hs
    by_cases hu : u = t
    · subst hu
      rw [ht] at hs
      rcases h.frame u (⟨job.id,job.key⟩ :: above) f below' (by rw [hst,hs]; rfl) with hl | ⟨hab,-⟩
      · exact .inl hl
      · cases hab
    · rw [(ho u hu).1] at hs
      rw [(ho u hu).2]
      exact h.frame u above f below' hs
  · intro key job' hl
    obtain ⟨hf,hj⟩ := h.active key job' hl
    by_cases hu : job'.thread = t
    · rw [hu] at hf hj ⊢
      rw [ht,hp]
      refine ⟨?_,fun job'' hj'' => by simp [Pc.job?] at hj''⟩
      rw [hst] at hf
      rcases mem_cons.mp hf with he | hf
      · exact absurd (congrArg Frame.id he).symm (hj job hpc)
      · exact hf
    · rw [(ho _ hu).1,(ho _ hu).2]
      exact ⟨hf,hj⟩
  · intro u job' hj
    by_cases hu : u = t
    · subst hu
      simp [hp,Pc.job?] at hj
    · rw [(ho u hu).2] at hj
      rw [(ho u hu).1]
      exact h.finishing u job' hj
  · exact fun u f hf => h.ids u f (hsu u f hf)
  · exact fun u v f g hf hg => h.own u v f g (hsu u f hf) (hsu v g hg)
  · intro u
    by_cases hu : u = t
    · subst hu
      have hnd := h.nodup u
      rw [hst] at hnd
      rw [ht]
      exact (nodup_cons.mp hnd).2
    · rw [(ho u hu).1]
      exact h.nodup u

section

omit [DecidableEq K]

theorem setLatch_frame (waitee : Nat) (waiters : List (QueryWaiter T)) :
    (σ.setLatch waitee waiters).active = σ.active ∧ (σ.setLatch waitee waiters).stack = σ.stack ∧
      (σ.setLatch waitee waiters).jobIds = σ.jobIds ∧ (σ.setLatch waitee waiters).cache = σ.cache ∧
      (σ.setLatch waitee waiters).graph = σ.graph ∧
      (σ.setLatch waitee waiters).waiterCount = σ.waiterCount ∧
      (σ.setLatch waitee waiters).latches = update σ.latches waitee none := by
  suffices hf : ∀ σ0 : State T K S,
      let σ1 := waiters.foldl resume σ0
      σ1.active = σ0.active ∧ σ1.stack = σ0.stack ∧ σ1.jobIds = σ0.jobIds ∧ σ1.cache = σ0.cache ∧
        σ1.graph = σ0.graph ∧ σ1.waiterCount = σ0.waiterCount ∧ σ1.latches = σ0.latches from
    hf { σ with latches := update σ.latches waitee none }
  induction waiters with
  | nil => exact fun _ => ⟨rfl,rfl,rfl,rfl,rfl,rfl,rfl⟩
  | cons w waiters ih => exact fun σ0 => ih (σ0.resume w)

theorem setLatch_pc (waitee : Nat) (waiters : List (QueryWaiter T)) (u : T) : (σ.setLatch waitee waiters).pc u =
      ((waiters.filter fun w => w.thread = u).map QueryWaiter.id).foldl (fun pc id => notified id pc) (σ.pc u) := by
  suffices hf : ∀ σ0 : State T K S, (waiters.foldl resume σ0).pc u =
      ((waiters.filter fun w => w.thread = u).map QueryWaiter.id).foldl (fun pc id => notified id pc) (σ0.pc u) from
    hf { σ with latches := update σ.latches waitee none }
  induction waiters with
  | nil => exact fun _ => rfl
  | cons w waiters ih =>
    intro σ0
    rw [foldl_cons,ih]
    by_cases hu : w.thread = u
    · subst hu
      simp [State.resume]
    · simp [State.resume,hu,update_of_ne (Ne.symm hu)]

omit [DecidableEq T] in
theorem notified_view {f : Pc T K S → α}
    (hf : ∀ J w key n a b, f (.asleep J w key n (.waiting a)) = f (.asleep J w key n (.waiting b))) (id : Nat)
    (pc : Pc T K S) :
    f (notified id pc) = f pc := by
  cases pc with
  | asleep J w key n s =>
    cases s with
    | check => rfl
    | waiting b => exact hf ..
  | _ => rfl

theorem setLatch_view (f : Pc T K S → α) (hf : ∀ J w key n a b, f (.asleep J w key n (.waiting a)) = f
    (.asleep J w key n (.waiting b)))
    (waitee : Nat) (waiters : List (QueryWaiter T)) (u : T) : f ((σ.setLatch waitee waiters).pc u) = f (σ.pc u) := by
  rw [setLatch_pc]
  generalize (waiters.filter fun w => w.thread = u).map QueryWaiter.id = ids
  generalize σ.pc u = pc
  induction ids generalizing pc with
  | nil => rfl
  | cons id ids ih => exact (ih (notified id pc)).trans (notified_view hf id pc)

theorem setLatch_job? (waitee : Nat) (waiters : List (QueryWaiter T)) (u : T) :
    ((σ.setLatch waitee waiters).pc u).job? = (σ.pc u).job? :=
  setLatch_view Pc.job? (fun _ _ _ _ _ _ => rfl) waitee waiters u

end

theorem Stacks.setLatch (h : Stacks σ) (waitee : Nat) (waiters : List (QueryWaiter T)) :
    Stacks (σ.setLatch waitee waiters) := by
  obtain ⟨ha,hs,hid,-⟩ := setLatch_frame (σ := σ) waitee waiters
  exact h.of_eq ha hs hid (setLatch_job? waitee waiters)

variable [DecidableEq S] {shardOf : K → S} {shards : List S} {e : Event T}

def LatchesOpen (σ : State T K S) : Prop := ∀ J, σ.latches J = none → J ∈ σ.jobIds ∧ ∀ t, ∀ f ∈ σ.stack t, f.id ≠ J

theorem Stacks.step (h : Stacks σ) (ho : LatchesOpen σ) (hsp : Step shardOf shards σ e σ') : Stacks σ' := by
  cases hsp with
  | start hpc _ hv hid => exact h.startJob hpc hv hid
  | ask hpc _ hs => exact h.takeLatch hpc hs
  | finish poisoned hpc hst hs => exact h.endJob hpc hst hs
  | signal hpc => exact h.popJob (by rw [hpc]; rfl)
  | set hpc => exact (h.setLatch _ _).popJob (by rw [setLatch_job?,hpc]; rfl)
  | setPanic hpc _ _ hl =>
    obtain ⟨below,hst⟩ := h.finishing _ _ (by rw [hpc]; rfl)
    exact absurd rfl ((ho _ hl).2 _ _ (by rw [hst]; exact (.head _)))
  | complete hpc | sleep hpc | snapshot hpc | collect hpc | cycle hpc | noCycle hpc
  | checkResumed hpc | checkWait hpc | wake hpc | lookupDone hpc | lookupPanic hpc
  | finishPanic hpc => exact h.of_eq rfl rfl rfl (view_update Pc.job? hpc rfl)

end Frontend.Query
