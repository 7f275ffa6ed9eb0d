import Frontend.Query.Snapshot

namespace Frontend.Query

open Frontend.Library State Relation Function

variable {T K S : Type} {σ σ' : State T K S} {t : T} {shardOf : K → S} {shards : List S} {e : Event T}

theorem snapshot_of_update [DecidableEq T] (hb : b.snapshot? = none)
        (hu : update σ.pc t b u = .snapshot J w key n sh m) : σ.pc u = .snapshot J w key n sh m := by
  by_cases hut : u = t
  · rw [hut,update_self] at hu
    rw [hu] at hb
    cases hb
  · rwa [update_of_ne hut] at hu

theorem update_stack [DecidableEq T] (hpc : σ.pc t = a) (ha : a.waiter? = none) (frames : List (Frame K)) (u : T)
    (hu : (σ.pc u).waiter?.isSome) : update σ.stack t frames u = σ.stack u := by
  refine update_of_ne ?_ ..
  rintro rfl
  rw [hpc,ha] at hu
  cases hu

variable [DecidableEq K]

section

variable (shardOf : K → S) (σ : State T K S)

def Answered (key : K) : Prop := key ∈ σ.cache ∨ σ.active.lookup key = some .poisoned

def Traced (J : Nat) (key : K) : Prop :=
  (∃ job, σ.active.lookup key = some (.started job) ∧ job.id = J) ∨ Answered σ key

def Pc.outcome? : Pc T K S → Option (Option K)
  | .lookup key => some (some key)
  | .panicked => some none
  | _ => none

structure Answers : Prop where
  target : ∀ t J w key, (σ.pc t).target? = some (J,w,key) → Traced σ J key
  outcome : ∀ t o, (σ.pc t).outcome? = some o → ∃ key, o = some key ∧ Answered σ key

structure Inv : Prop where
  frames : Stacks σ
  waits : Waits σ
  graph : Graph σ
  snapshot : Snapshot shardOf σ
  answers : Answers σ

end

theorem Answers.initial : Answers (initial : State T K S) := by
  refine ⟨?_,?_⟩ <;> simp [State.initial,Pc.target?,Pc.outcome?]

theorem Inv.initial : Inv shardOf (initial : State T K S) := ⟨.initial,.initial,.initial,.vacuous fun _ => rfl,.initial⟩

variable {job : QueryJob T K} {key : K}

theorem Inv.top_started (h : Inv shardOf σ) (hpc : σ.pc t = .running) (hs : σ.stack t = f :: below) :
    ∃ job, σ.active.lookup f.key = some (.started job) := by
  rcases h.frames.frame t [] f below hs with ⟨job,hl,-⟩ | ⟨-,job,hj,-⟩
  · exact ⟨job,hl⟩
  · rw [hpc] at hj
    cases hj

-- Once the latch of a job is complete, its key is in the cache or poisoned.
theorem Inv.answered (h : Inv shardOf σ) (ht : (σ.pc t).target? = some (J,w,key)) (hla : σ.latches J = none) :
    Answered σ key := by
  rcases h.answers.target t J w key ht with ⟨job,hl,hid⟩ | hd
  · exact absurd hid ((h.waits.opened J hla).2 _ _ (h.frames.active key job hl).1)
  · exact hd

theorem Answers.update (h : Answers σ) (ht : ∀ J key, Traced σ J key → Traced σ' J key)
    (ha : ∀ key, Answered σ key → Answered σ' key)
    (htr : ∀ u, u ≠ t → (σ'.pc u).target? = (σ.pc u).target?)
    (ho : ∀ u, u ≠ t → (σ'.pc u).outcome? = (σ.pc u).outcome?)
    (how : ∀ J w key, (σ'.pc t).target? = some (J,w,key) → Traced σ' J key)
    (hd : ∀ o, (σ'.pc t).outcome? = some o → ∃ key, o = some key ∧ Answered σ' key) : Answers σ' := by
  refine ⟨fun u J w key hu => ?_,fun u o hu => ?_⟩
  · by_cases hut : u = t
    · exact how J w key (hut ▸ hu)
    · rw [htr u hut] at hu
      exact ht J key (h.target u J w key hu)
  · by_cases hut : u = t
    · exact hd o (hut ▸ hu)
    · rw [ho u hut] at hu
      obtain ⟨key,rfl,hk⟩ := h.outcome u o hu
      exact ⟨key,rfl,ha key hk⟩

variable [DecidableEq T]

theorem Graph.step [DecidableEq S] (h : Inv shardOf σ) (hs : Step shardOf shards σ e σ') : Graph σ' := by
  have hg := h.graph
  cases hs with
  | sleep hpc hgr hl hc => exact hg.sleep h.waits hpc hgr hl hc
  | snapshot hpc hgr => exact hg.snapshot h.waits hpc hgr
  | cycle hpc => exact hg.cycle hpc
  | noCycle hpc hf =>
    rw [h.snapshot.found h.waits hg hpc] at hf
    cases hf
  | set hpc _ hgr hl => exact hg.set h.waits hpc hgr hl
  | start => exact hg.of_eq rfl rfl rfl (fun _ => rfl) (fun _ => rfl)
  | checkResumed hpc hr =>
    refine hg.leave hpc rfl rfl rfl fun w n hn => ?_
    cases hn
    exact hr
  | ask hpc | signal hpc | complete hpc | collect hpc | checkWait hpc | wake hpc | lookupDone hpc
  | lookupPanic hpc | finishPanic hpc | setPanic hpc | finish _ hpc =>
    exact hg.of_eq rfl rfl rfl (view_update Pc.snapshot? hpc rfl) (view_update Pc.sleeper? hpc rfl)

theorem Snapshot.stay (h : Inv shardOf σ) (hb : b.snapshot? = none) (hl : σ'.latches = σ.latches)
    (he : σ'.edges = σ.edges)
    (hpc : σ'.pc = update σ.pc t b)
    (hs : ∀ u, (σ.pc u).waiter?.isSome → σ'.stack u = σ.stack u) : Snapshot shardOf σ' :=
  h.snapshot.of_eq h.graph hl he (fun u _ _ _ _ _ _ hu => snapshot_of_update hb (by rw [← hpc]; exact hu)) hs

theorem Snapshot.step [DecidableEq S] (hc : ∀ key, shardOf key ∈ shards) (h : Inv shardOf σ)
    (hs : Step shardOf shards σ e σ') : Snapshot shardOf σ' := by
  have hg := h.graph
  have hg' := Graph.step h hs
  cases hs with
  | start hpc => exact h.snapshot.of_eq hg rfl rfl (fun _ _ _ _ _ _ _ hu => hu) (update_stack hpc rfl _)
  | signal hpc => exact Snapshot.stay h rfl rfl rfl rfl (update_stack hpc rfl _)
  | sleep hpc hgr => exact .vacuous (hg'.no_snapshot rfl)
  | cycle hpc => exact .vacuous (hg'.no_snapshot rfl)
  | noCycle hpc => exact .vacuous (hg'.no_snapshot rfl)
  | set hpc _ hgr => exact .vacuous (hg'.no_snapshot ((setLatch_frame (σ := σ) _ _).2.2.2.2.1.trans hgr))
  | snapshot hpc hgr hl hcl => exact Snapshot.enter hg hc hpc hgr hcl
  | collect hpc => exact h.snapshot.collect h.frames h.waits hg hpc
  | ask | complete | checkResumed | checkWait | wake | lookupDone | lookupPanic | finish | finishPanic
  | setPanic => exact Snapshot.stay h rfl rfl rfl rfl (fun _ _ => rfl)

section

variable (h : Answers σ)

include h

theorem Answers.move (hp : σ'.pc = Function.update σ.pc t b)
    (ht : ∀ J key, Traced σ J key → Traced σ' J key) (ha : ∀ key, Answered σ key → Answered σ' key)
    (how : ∀ J w key, b.target? = some (J,w,key) → Traced σ' J key)
    (hd : ∀ o, b.outcome? = some o → ∃ key, o = some key ∧ Answered σ' key) : Answers σ' := by
  have hs : σ'.pc t = b := by rw [hp,update_self]
  have hot u (hu : u ≠ t) : σ'.pc u = σ.pc u := by rw [hp,update_of_ne hu]
  exact h.update ht ha (fun u hu => by rw [hot u hu]) (fun u hu => by rw [hot u hu]) (hs.symm ▸ how) (hs.symm ▸ hd)

theorem Answers.setPc (hac : σ'.active = σ.active)
    (hc : σ'.cache = σ.cache) (hp : σ'.pc = Function.update σ.pc t b) (hpc : σ.pc t = a)
    (htr : b.target? = a.target? ∨ b.target? = none)
    (hd : ∀ o, b.outcome? = some o → ∃ key, o = some key ∧ Answered σ key) : Answers σ' := by
  have ha key : Answered σ' key ↔ Answered σ key := by simp only [Answered,hac,hc]
  have ht J key : Traced σ' J key ↔ Traced σ J key := by simp only [Traced,hac,ha]
  refine h.move hp (fun J key => (ht J key).mpr) (fun key => (ha key).mpr) ?_ ?_
  · intro J w key hu
    rcases htr with he | he
    · exact (ht J key).mpr (h.target t J w key (by rw [hpc,← he,hu]))
    · cases he.symm.trans hu
  · intro o ho
    obtain ⟨key,rfl,hk⟩ := hd o ho
    exact ⟨key,rfl,(ha key).mpr hk⟩

theorem Answers.startJob {id : Nat} (hv : σ.active.lookup key = none) : Answers (σ.startJob t key id) := by
  have hlo key' status (hl : σ.active.lookup key' = some status) :
      (σ.startJob t key id).active.lookup key' = some status := by
    have hk : key' ≠ key := by
      rintro rfl
      cases hv.symm.trans hl
    exact (AList.lookup_insert_ne hk).trans hl
  have ha key' : Answered σ key' → Answered (σ.startJob t key id) key' := Or.imp_right (hlo key' _)
  have ht : ∀ J key', Traced σ J key' → Traced (σ.startJob t key id) J key' := by
    rintro J key' (⟨job,hl,hid⟩ | hd)
    · exact .inl ⟨job,hlo key' _ hl,hid⟩
    · exact .inr (ha key' hd)
  refine h.update (t := t) ht ha (fun _ _ => rfl) (fun _ _ => rfl) ?_ ?_
  · exact fun J w key' hu => ht J key' (h.target t J w key' hu)
  · intro o ho
    obtain ⟨key',rfl,hk⟩ := h.outcome t o ho
    exact ⟨key',rfl,ha key' hk⟩

theorem Answers.takeLatch (hst : σ.active.lookup key = some (.started job)) : Answers (σ.takeLatch t key job) := by
  have ha : ∀ key', Answered σ key' → Answered (σ.takeLatch t key job) key' := by
    rintro key' (hc | hp)
    · exact .inl hc
    · have hk : key' ≠ key := by
        rintro rfl
        cases hst.symm.trans hp
      exact .inr ((AList.lookup_insert_ne hk).trans hp)
  have hn : Traced (σ.takeLatch t key job) job.id key :=
    .inl ⟨{ job with latch := true },AList.lookup_insert σ.active,rfl⟩
  have ht : ∀ J key', Traced σ J key' → Traced (σ.takeLatch t key job) J key' := by
    rintro J key' (⟨job',hl,hid⟩ | hd)
    · by_cases hk : key' = key
      · subst hk
        cases hst.symm.trans hl
        exact hid ▸ hn
      · exact .inl ⟨job',(AList.lookup_insert_ne hk).trans hl,hid⟩
    · exact .inr (ha key' hd)
  refine h.move rfl ht ha ?_ nofun
  intro J w key' hu
  cases hu
  exact hn

theorem Answers.endJob : Answers (σ.endJob t key job poisoned) := by
  have hn : Answered (σ.endJob t key job poisoned) key := by
    cases poisoned with
    | true => exact .inr (AList.lookup_insert _)
    | false => exact .inl (.head _)
  have hlo key' (hk : key' ≠ key) : (σ.endJob t key job poisoned).active.lookup key' = σ.active.lookup key' := by
    cases poisoned with
    | true => exact (AList.lookup_insert_ne hk).trans (AList.lookup_erase_ne hk)
    | false => exact AList.lookup_erase_ne hk
  have ha key' (hd : Answered σ key') : Answered (σ.endJob t key job poisoned) key' := by
    by_cases hk : key' = key
    · exact hk ▸ hn
    refine hd.imp (fun hc => ?_) (hlo key' hk).trans
    cases poisoned with
    | true => exact hc
    | false => exact .tail _ hc
  have ht : ∀ J key', Traced σ J key' → Traced (σ.endJob t key job poisoned) J key' := by
    rintro J key' (⟨job',hl,hid⟩ | hd)
    · by_cases hk : key' = key
      · exact .inr (hk ▸ hn)
      · exact .inl ⟨job',(hlo key' hk).trans hl,hid⟩
    · exact .inr (ha key' hd)
  exact h.move rfl ht ha nofun nofun

theorem Answers.set (hpc : σ.pc t = .finishing job) : Answers ((σ.setLatch job.id ws).popJob t) := by
  obtain ⟨ha,-,-,hc,-⟩ := setLatch_frame (σ := σ) job.id ws
  have han key : Answered ((σ.setLatch job.id ws).popJob t) key ↔ Answered σ key := by
    show key ∈ (σ.setLatch job.id ws).cache ∨ (σ.setLatch job.id ws).active.lookup key = _ ↔ _
    rw [ha,hc]
    rfl
  have htr : ∀ J key, Traced σ J key → Traced ((σ.setLatch job.id ws).popJob t) J key := by
    rintro J key (⟨job',hl,hid⟩ | hd)
    · refine .inl ⟨job',?_,hid⟩
      show (σ.setLatch job.id ws).active.lookup key = _
      rw [ha,hl]
    · exact .inr ((han key).mpr hd)
  have ht := setLatch_popJob_view job.id ws hpc Pc.target? (fun _ _ _ _ _ _ => rfl) rfl
  have hou := setLatch_popJob_view job.id ws hpc Pc.outcome? (fun _ _ _ _ _ _ => rfl) rfl
  refine h.update (t := t) htr (fun key => (han key).mpr) (fun u _ => ht u) (fun u _ => hou u) ?_ ?_
  · intro J w key hu
    rw [ht,hpc] at hu
    cases hu
  · intro o ho
    rw [hou,hpc] at ho
    cases ho

end

variable [DecidableEq S]

theorem Answers.step (h : Inv shardOf σ) (hst : Step shardOf shards σ e σ') : Answers σ' := by
  have ha := h.answers
  cases hst with
  | start hpc _ hv => exact ha.startJob hv
  | ask hpc _ hs => exact ha.takeLatch hs
  | complete hpc _ hl =>
    refine ha.setPc rfl rfl rfl hpc (.inr rfl) fun o ho => ?_
    cases ho
    exact ⟨_,rfl,h.answered (by rw [hpc]; rfl) hl⟩
  | checkResumed hpc hr =>
    refine ha.setPc rfl rfl rfl hpc (.inr rfl) fun o ho => ?_
    cases ho
    have ht := congrArg Pc.target? hpc
    have hl := ((h.waits.waiter _ _ (congrArg Pc.waiter? hpc)).2 _ _ _ ht).2 hr
    exact ⟨_,rfl,h.answered ht hl⟩
  | lookupPanic hpc hd =>
    obtain ⟨key,hk,han⟩ := ha.outcome _ _ (congrArg Pc.outcome? hpc)
    cases hk
    exact absurd han hd
  | finish poisoned => exact ha.endJob
  | finishPanic hpc hsa hs =>
    obtain ⟨job,hj⟩ := h.top_started hpc hsa
    exact absurd hj (hs job)
  | set hpc => exact ha.set hpc
  | setPanic hpc _ _ hl =>
    obtain ⟨below,hs⟩ := h.frames.finishing _ _ (by rw [hpc]; rfl)
    exact absurd rfl ((h.waits.opened _ hl).2 _ _ (by rw [hs]; exact .head _))
  | sleep hpc | snapshot hpc | collect hpc | noCycle hpc | checkWait hpc | wake hpc =>
    exact ha.setPc rfl rfl rfl hpc (.inl rfl) (by simp [Pc.outcome?])
  | cycle hpc | lookupDone hpc | signal hpc => exact ha.setPc rfl rfl rfl hpc (.inr rfl) (by simp [Pc.outcome?])

theorem Inv.step (hc : ∀ key, shardOf key ∈ shards) (h : Inv shardOf σ) (hs : Step shardOf shards σ e σ') :
    Inv shardOf σ' :=
  ⟨h.frames.step h.waits.opened hs,h.waits.step h.frames hs,Graph.step h hs,Snapshot.step hc h hs,Answers.step h hs⟩

theorem Reached.inv (hc : ∀ key, shardOf key ∈ shards) (h : Reached shardOf shards σ) : Inv shardOf σ := by
  refine Reachable.invariant h ?_ ?_
  · rintro σ0 rfl
    exact .initial
  · rintro σ0 σ1 hin ⟨e,hs⟩
    exact hin.step hc hs

end Frontend.Query
