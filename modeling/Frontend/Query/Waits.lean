import Frontend.Query.Stacks

namespace Frontend.Query

open Frontend.Library State List Function Option Pc

variable {T K S : Type}

theorem Pc.waiter?_of_dozing? {pc : Pc T K S} (h : pc.dozing? = some n) : pc.waiter? = some n := by
  cases pc with
  | asleep J w key m s =>
    cases s with
    | check => cases h
    | waiting notified =>
      cases notified with
      | true => cases h
      | false => exact h
  | _ => cases h

theorem Pc.waiter?_of_sleeper? {pc : Pc T K S} (h : pc.sleeper? = some (w,n)) : pc.waiter? = some n := by
  cases pc with
  | asleep J w' key m s =>
    cases h
    rfl
  | _ => cases h

variable [DecidableEq K] {σ σ' : State T K S} {t : T}

def LatchTaken (σ : State T K S) (waitee : Nat) : Prop :=
  (∀ key job, σ.active.lookup key = some (.started job) → job.id = waitee → job.latch = true) ∧
    ∀ u job, (σ.pc u).job? = some job → job.id = waitee → job.latch = true

structure Waits (σ : State T K S) : Prop where
  opened : LatchesOpen σ
  target : ∀ t J w key, (σ.pc t).target? = some (J,w,key) →
    J ∈ σ.jobIds ∧ LatchTaken σ J ∧ (σ.latches J ≠ none → ∃ f ∈ σ.stack w, f.id = J)
  waiters : ∀ J ws, σ.latches J = some ws → ∀ x ∈ ws,
    (∃ w key, (σ.pc x.thread).target? = some (J,w,key)) ∧ (σ.pc x.thread).waiter? = some x.id ∧
      σ.resumed x.id = false ∧ x.parent = σ.currentQueryJob x.thread
  waiter : ∀ t n, (σ.pc t).waiter? = some n → n < σ.waiterCount ∧ ∀ J w key, (σ.pc t).target? = some (J,w,key) →
      (σ.resumed n = false → ∃ ws, σ.latches J = some ws ∧ ⟨n,σ.currentQueryJob t,t⟩ ∈ ws) ∧
        (σ.resumed n = true → σ.latches J = none)
  distinct : ∀ t u n, (σ.pc t).waiter? = some n → (σ.pc u).waiter? = some n → t = u
  dozing : ∀ t n, (σ.pc t).dozing? = some n → σ.resumed n = false

theorem Waits.initial : Waits (initial : State T K S) := by
  refine ⟨?_,?_,?_,?_,?_,?_⟩ <;>
    simp [State.initial,LatchesOpen,target?,waiter?,dozing?]

theorem Waits.of_eq (h : Waits σ) (ha : σ'.active = σ.active) (hl : σ'.latches = σ.latches)
    (hr : σ'.resumed = σ.resumed) (hco : σ'.waiterCount = σ.waiterCount)
    (hid : σ'.jobIds = σ.jobIds) (hs : σ'.stack = σ.stack)
    (hj : ∀ u, (σ'.pc u).job? = (σ.pc u).job?)
    (ht : ∀ u, (σ'.pc u).target? = (σ.pc u).target?)
    (hw : ∀ u, (σ'.pc u).waiter? = (σ.pc u).waiter?)
    (hd : ∀ u n, (σ'.pc u).dozing? = some n → σ.resumed n = false) : Waits σ' := by
  have hc u : σ'.currentQueryJob u = σ.currentQueryJob u := by
    simp only [currentQueryJob,hs]
  refine ⟨?_,?_,?_,?_,?_,?_⟩
  · simpa only [LatchesOpen,hl,hid,hs] using h.opened
  · simpa only [LatchTaken,ha,hl,hid,hs,hj,ht] using h.target
  · simpa only [hl,hr,ht,hw,hc] using h.waiters
  · simpa only [hl,hr,hco,ht,hw,hc] using h.waiter
  · simpa only [hw] using h.distinct
  · simpa only [hr] using hd

theorem Waits.withGraph (h : Waits σ) (edges : List (T × T)) (graph : Option T) :
    Waits { σ with edges := edges, graph := graph } :=
  h.of_eq rfl rfl rfl rfl rfl rfl (fun _ => rfl) (fun _ => rfl) (fun _ => rfl) h.dozing

theorem LatchTaken.of_job (h : LatchTaken σ J) (ha : σ'.active = σ.active)
    (hj : ∀ u, (σ'.pc u).job? = (σ.pc u).job?) : LatchTaken σ' J := by
  simpa only [LatchTaken,ha,hj] using h

theorem Waits.keep (h : Waits σ) (hl : σ'.latches = σ.latches) (hr : σ'.resumed = σ.resumed)
    (hco : σ'.waiterCount = σ.waiterCount)
    (hwa : ∀ u n, (σ'.pc u).waiter? = some n → u ≠ t) (hwb : ∀ u n, (σ.pc u).waiter? = some n →
    σ.resumed n = false → u ≠ t)
    (hk : ∀ u, u ≠ t → σ'.pc u = σ.pc u ∧ σ'.currentQueryJob u = σ.currentQueryJob u) (ho : LatchesOpen σ')
    (hta : ∀ u J w key, (σ'.pc u).target? = some (J,w,key) →
      J ∈ σ'.jobIds ∧ LatchTaken σ' J ∧ (σ'.latches J ≠ none → ∃ f ∈ σ'.stack w, f.id = J)) : Waits σ' := by
  have hol u n (hu : (σ'.pc u).waiter? = some n) : (σ.pc u).waiter? = some n := (hk u (hwa u n hu)).1 ▸ hu
  refine ⟨ho,hta,?_,?_,fun u v n hu hv => h.distinct u v n (hol u n hu) (hol v n hv),?_⟩
  · intro J ws hJ x hx
    rw [hl] at hJ
    obtain ⟨ht,hw,hre,hp⟩ := h.waiters J ws hJ x hx
    obtain ⟨hpc,hc⟩ := hk _ (hwb _ _ hw hre)
    rw [hpc,hc,hr]
    exact ⟨ht,hw,hre,hp⟩
  · intro u n hu
    obtain ⟨hpc,hc⟩ := hk u (hwa u n hu)
    rw [hpc,hc,hl,hr,hco]
    exact h.waiter u n (hol u n hu)
  · intro u n hn
    rw [(hk u (hwa u n (waiter?_of_dozing? hn))).1] at hn
    rw [hr]
    exact h.dozing u n hn

variable [DecidableEq T]

section

variable (h : Waits σ)

include h

theorem dozing_setPc (hb : ∀ n, b.dozing? = some n → σ.resumed n = false) (u : T)
    (n : Nat) (hn : (update σ.pc t b u).dozing? = some n) : σ.resumed n = false := by
  by_cases hu : u = t
  · rw [hu,update_self] at hn
    exact hb n hn
  · rw [update_of_ne hu] at hn
    exact h.dozing u n hn

theorem Waits.stay (hpc : σ.pc t = a) (hj : b.job? = a.job?) (ht : b.target? = a.target?) (hw : b.waiter? = a.waiter?)
    (hd : ∀ n, b.dozing? = some n → σ.resumed n = false) : Waits (σ.setPc t b) :=
  h.of_eq rfl rfl rfl rfl rfl rfl (view_update job? hpc hj) (view_update target? hpc ht)
    (view_update waiter? hpc hw) (dozing_setPc h hd)

theorem Waits.leave (hpc : σ.pc t = a) (hjo : b.job? = a.job?) (htt : b.target? = none) (hwr : b.waiter? = none)
    (hrs : ∀ n, a.waiter? = some n → σ.resumed n = true) : Waits (σ.setPc t b) := by
  have hs : (σ.setPc t b).pc t = b := update_self ..
  have ho u (hu : u ≠ t) : (σ.setPc t b).pc u = σ.pc u := update_of_ne hu ..
  refine h.keep rfl rfl rfl (fun u n => ne_of_view hs hwr) ?_ (fun u hu => ⟨ho u hu,rfl⟩) h.opened ?_
  · rintro u n hu hf rfl
    rw [hpc] at hu
    cases hf.symm.trans (hrs n hu)
  · intro u J w key hu
    rw [ho u (ne_of_view hs htt hu)] at hu
    obtain ⟨hJ,htk,hf⟩ := h.target u J w key hu
    exact ⟨hJ,htk.of_job rfl (view_update job? hpc hjo),hf⟩

theorem Waits.startJob {id : Nat} (hpc : σ.pc t = .running) (hid : id ∉ σ.jobIds) : Waits (σ.startJob t key id) := by
  have hw u n : (σ.pc u).waiter? = some n → u ≠ t := ne_of_view hpc rfl
  refine h.keep rfl rfl rfl hw (fun u n hn _ => hw u n hn)
    (fun u hu => ⟨rfl,by simp [currentQueryJob,State.startJob,hu]⟩) ?_ ?_
  · intro J hJ
    obtain ⟨hm,hfr⟩ := h.opened J hJ
    refine ⟨mem_cons_of_mem _ hm,fun u f hf => ?_⟩
    by_cases hu : u = t
    · subst hu
      simp only [startJob,update_self,mem_cons] at hf
      rcases hf with rfl | hf
      · rintro rfl
        exact hid hm
      · exact hfr u f hf
    · simp only [State.startJob,update_of_ne hu] at hf
      exact hfr u f hf
  · intro u J w key' hu
    obtain ⟨hJ,ht,hfa⟩ := h.target u J w key' hu
    refine ⟨mem_cons_of_mem _ hJ,⟨fun key'' job hl hj => ?_,ht.2⟩,fun hJ' => ?_⟩
    · by_cases hk : key'' = key
      · subst hk
        obtain rfl : _ = job := by simpa [State.startJob] using hl
        exact absurd (show id = J from hj) (fun he => hid (he ▸ hJ))
      · exact ht.1 key'' job (by simpa [State.startJob,AList.lookup_insert_ne hk] using hl) hj
    · obtain ⟨f,hf,hfi⟩ := hfa hJ'
      refine ⟨f,?_,hfi⟩
      by_cases hw : w = t
      · subst hw
        simp [startJob,hf]
      · simpa [State.startJob,update_of_ne hw] using hf

theorem Waits.takeLatch (hs : Stacks σ) (hpc : σ.pc t = .running)
    (hst : σ.active.lookup key = some (.started job)) : Waits (σ.takeLatch t key job) := by
  obtain ⟨hf,hn⟩ := hs.active key job hst
  have hse : (σ.takeLatch t key job).pc t = .asked job.id job.thread key := update_self ..
  have ho u (hu : u ≠ t) : (σ.takeLatch t key job).pc u = σ.pc u := update_of_ne hu ..
  have hj : ∀ u, ((σ.takeLatch t key job).pc u).job? = (σ.pc u).job? := view_update job? hpc rfl
  have hke : ∀ key' job', (σ.takeLatch t key job).active.lookup key' = some (.started job') →
      key' ≠ key ∧ σ.active.lookup key' = some (.started job') ∨ job' = { job with latch := true } := by
    intro key' job' hl
    by_cases hk : key' = key
    · subst hk
      exact .inr (by simpa [State.takeLatch,eq_comm] using hl)
    · exact .inl ⟨hk,by simpa [State.takeLatch,AList.lookup_insert_ne hk] using hl⟩
  refine h.keep rfl rfl rfl (fun u n => ne_of_view hse rfl) (fun u n hu _ => ne_of_view hpc rfl hu)
    (fun u hu => ⟨ho u hu,rfl⟩) h.opened ?_
  intro u J w key' hu
  by_cases hut : u = t
  · rw [hut,hse] at hu
    cases hu
    refine ⟨hs.ids _ _ hf,⟨fun key'' job' hl hid => ?_,fun v job' hv hid => ?_⟩,fun _ => ⟨_,hf,rfl⟩⟩
    · rcases hke key'' job' hl with ⟨hk,hl⟩ | rfl
      · have hf' := (hs.active key'' job' hl).1
        have heq := (hs.frame_eq hf' hf hid).2
        exact absurd (congrArg Frame.key heq) hk
      · rfl
    · rw [hj] at hv
      obtain ⟨below,hsa⟩ := hs.finishing v job' hv
      obtain rfl := hs.own v job.thread ⟨job'.id,job'.key⟩ _ (by simp [hsa]) hf hid
      exact absurd hid (hn job' hv)
  · rw [ho u hut] at hu
    obtain ⟨hJ,ht,hf'⟩ := h.target u J w key' hu
    refine ⟨hJ,⟨fun key'' job' hl hid => ?_,fun v job' hv => ?_⟩,hf'⟩
    · rcases hke key'' job' hl with ⟨-,hl⟩ | rfl
      · exact ht.1 key'' job' hl hid
      · rfl
    · rw [hj] at hv
      exact ht.2 v job' hv

theorem Waits.enter {ws : List (QueryWaiter T)} (hpc : σ.pc t = .asked J w key) (hlc : σ.latches J = some ws)
    (hjo : b.job? = none)
    (hta : b.target? = some (J,w,key)) (hw : b.waiter? = some σ.waiterCount)
    (hd : b.dozing? = none) : Waits ((σ.pushWaiter t J ws).setPc t b) := by
  have hs : ((σ.pushWaiter t J ws).setPc t b).pc t = b := update_self ..
  have ho u (hu : u ≠ t) : ((σ.pushWaiter t J ws).setPc t b).pc u = σ.pc u := update_of_ne hu ..
  have htg : ∀ u, (((σ.pushWaiter t J ws).setPc t b).pc u).target? = (σ.pc u).target? := view_update target? hpc hta
  have hol u n (hu : (σ.pc u).waiter? = some n) : u ≠ t ∧ n ≠ σ.waiterCount := by
    exact ⟨ne_of_view hpc rfl hu,(h.waiter u n hu).1.ne⟩
  have hr n (hn : n ≠ σ.waiterCount) : ((σ.pushWaiter t J ws).setPc t b).resumed n = σ.resumed n := update_of_ne hn ..
  have hf : ((σ.pushWaiter t J ws).setPc t b).resumed σ.waiterCount = false := update_self ..
  have hl J' : ((σ.pushWaiter t J ws).setPc t b).latches J' =
      if J' = J then some (ws ++ [⟨σ.waiterCount,σ.currentQueryJob t,t⟩]) else σ.latches J' := by
    simp only [setPc,pushWaiter,update_apply]
  have hno J' : ((σ.pushWaiter t J ws).setPc t b).latches J' = none ↔ σ.latches J' = none := by
    rw [hl]
    split
    · rename_i he
      simp [he,hlc]
    · rfl
  refine ⟨?_,?_,?_,?_,?_,?_⟩
  · intro J' hJ'
    exact h.opened J' ((hno J').mp hJ')
  · intro u J' w' key' hu
    rw [htg] at hu
    obtain ⟨hJ,htk,hfr⟩ := h.target u J' w' key' hu
    exact ⟨hJ,htk.of_job rfl (view_update job? hpc hjo),fun hJ' => hfr (mt (hno J').mpr hJ')⟩
  · intro J' ws' hJ' x hx
    have hm : (∃ ws0, σ.latches J' = some ws0 ∧ x ∈ ws0) ∨ J' = J ∧ x = ⟨σ.waiterCount,σ.currentQueryJob t,t⟩ := by
      rw [hl] at hJ'
      split at hJ'
      · rename_i he
        obtain rfl := some.inj hJ'
        rcases mem_append.mp hx with hx | hx
        · exact .inl ⟨ws,by rw [he,hlc],hx⟩
        · exact .inr ⟨he,mem_singleton.mp hx⟩
      · exact .inl ⟨ws',hJ',hx⟩
    rcases hm with ⟨ws0,hws0,hx⟩ | ⟨rfl,rfl⟩
    · obtain ⟨ht,hwt,hre,hp⟩ := h.waiters J' ws0 hws0 x hx
      obtain ⟨hne,hn⟩ := hol _ _ hwt
      rw [ho _ hne,hr _ hn]
      exact ⟨ht,hwt,hre,hp⟩
    · rw [hs]
      exact ⟨⟨w,key,hta⟩,hw,hf,rfl⟩
  · intro u n hu
    by_cases hut : u = t
    · subst hut
      rw [hs] at hu ⊢
      obtain rfl : σ.waiterCount = n := by
        rw [hw] at hu
        exact some.inj hu
      refine ⟨Nat.lt_succ_self _,fun J' w' key' ht => ?_⟩
      obtain ⟨rfl,-,-⟩ : J = J' ∧ w = w' ∧ key = key' := by
        rw [hta] at ht
        simpa using ht
      rw [hf]
      exact ⟨fun _ => ⟨_,by rw [hl,if_pos rfl],by simp [currentQueryJob,setPc,pushWaiter]⟩,by simp⟩
    · rw [ho u hut] at hu ⊢
      obtain ⟨hlt,hla⟩ := h.waiter u n hu
      refine ⟨Nat.lt_succ_of_lt hlt,fun J' w' key' ht => ?_⟩
      rw [hr n hlt.ne,hno]
      obtain ⟨hfa,htr⟩ := hla J' w' key' ht
      refine ⟨fun hre => ?_,htr⟩
      obtain ⟨ws0,hws0,hm⟩ := hfa hre
      rw [hl]
      split
      · rename_i he
        rw [he,hlc] at hws0
        cases hws0
        exact ⟨_,rfl,mem_append_left _ hm⟩
      · exact ⟨ws0,hws0,hm⟩
  · intro u v n hu hv
    by_cases hut : u = t <;> by_cases hvt : v = t
    · rw [hut,hvt]
    · rw [hut,hs,hw] at hu
      rw [ho v hvt] at hv
      exact absurd (some.inj hu).symm (hol v n hv).2
    · rw [hvt,hs,hw] at hv
      rw [ho u hut] at hu
      exact absurd (some.inj hv).symm (hol u n hu).2
    · rw [ho u hut] at hu
      rw [ho v hvt] at hv
      exact h.distinct u v n hu hv
  · intro u n hn
    by_cases hut : u = t
    · rw [hut,hs,hd] at hn
      cases hn
    · rw [ho u hut] at hn
      rw [hr n (hol u n (waiter?_of_dozing? hn)).2]
      exact h.dozing u n hn

theorem Waits.removeWaiter (hpc : σ.pc t = .snapshot J w key n sh m) :
    Waits ((σ.removeWaiter J n).setPc t .running) := by
  set τ := (σ.removeWaiter J n).setPc t .running with hτ
  have hs : τ.pc t = .running := update_self ..
  have ho u (hu : u ≠ t) : τ.pc u = σ.pc u := update_of_ne hu ..
  have htr : ∀ u J' w' key', (τ.pc u).target? = some (J',w',key') → (σ.pc u).target? = some (J',w',key') := by
    intro u J' w' key' hu
    exact ho u (ne_of_view hs rfl hu) ▸ hu
  have hw : ∀ u n', (τ.pc u).waiter? = some n' → u ≠ t := fun u n' => ne_of_view hs rfl
  have hl : ∀ J', τ.latches J' =
      if J' = J then (σ.latches J).map fun ws => ws.filter fun x => x.id ≠ n else σ.latches J' := by
    intro J'
    simp only [hτ,setPc,State.removeWaiter,update_apply]
  have hn J' : τ.latches J' = none ↔ σ.latches J' = none := by
    rw [hl]
    split
    · rename_i he
      simp [he]
    · rfl
  refine ⟨?_,?_,?_,?_,?_,?_⟩
  · intro J' hJ'
    exact h.opened J' ((hn J').mp hJ')
  · intro u J' w' key' hu
    obtain ⟨hJ,hta,hf⟩ := h.target u J' w' key' (htr u J' w' key' hu)
    exact ⟨hJ,hta.of_job rfl (view_update job? hpc rfl),fun hJ' => hf (mt (hn J').mpr hJ')⟩
  · intro J' ws' hJ' x hx
    have hm : ∃ ws0, σ.latches J' = some ws0 ∧ x ∈ ws0 ∧ (J' = J → x.id ≠ n) := by
      rw [hl] at hJ'
      split at hJ'
      · rename_i he
        obtain ⟨ws0,hws0,rfl⟩ := map_eq_some_iff.mp hJ'
        rw [mem_filter] at hx
        exact ⟨ws0,he ▸ hws0,hx.1,fun _ => by simpa using hx.2⟩
      · rename_i he
        exact ⟨ws',hJ',hx,fun h => absurd h he⟩
    obtain ⟨ws0,hws0,hx,hid⟩ := hm
    obtain ⟨⟨w',key',ht⟩,hwt,hr,hp⟩ := h.waiters J' ws0 hws0 x hx
    have hne : x.thread ≠ t := by
      intro he
      rw [he,hpc] at ht hwt
      cases ht
      exact hid rfl (some.inj hwt).symm
    rw [ho _ hne]
    exact ⟨⟨w',key',ht⟩,hwt,hr,hp⟩
  · intro u n' hu
    have hne := hw u n' hu
    rw [ho u hne] at hu ⊢
    obtain ⟨hlt,hla⟩ := h.waiter u n' hu
    refine ⟨hlt,fun J' w' key' ht => ?_⟩
    rw [hn]
    refine ⟨fun hr => ?_,(hla J' w' key' ht).2⟩
    obtain ⟨ws0,hws0,hm⟩ := (hla J' w' key' ht).1 hr
    rw [hl]
    split
    · rename_i he
      rw [he] at hws0
      refine ⟨_,by rw [hws0,map_some],mem_filter.mpr ⟨hm,?_⟩⟩
      have hnn : n' ≠ n := by
        rintro rfl
        exact hne (h.distinct u t n' hu (by rw [hpc]; rfl))
      simpa using hnn
    · exact ⟨ws0,hws0,hm⟩
  · intro u v n' hu hv
    rw [ho u (hw u n' hu)] at hu
    rw [ho v (hw v n' hv)] at hv
    exact h.distinct u v n' hu hv
  · exact dozing_setPc h (by simp [dozing?])

theorem Waits.endJob {f : Frame K} (hpc : σ.pc t = .running) (hst : σ.active.lookup f.key = some (.started job)) :
    Waits (σ.endJob t f.key job poisoned) := by
  have hs : (σ.endJob t f.key job poisoned).pc t = .finishing job := update_self ..
  have ho u (hu : u ≠ t) : (σ.endJob t f.key job poisoned).pc u = σ.pc u := update_of_ne hu ..
  have ht : ∀ u, ((σ.endJob t f.key job poisoned).pc u).target? = (σ.pc u).target? := view_update target? hpc rfl
  refine h.keep rfl rfl rfl (fun u n => ne_of_view hs rfl) (fun u n hu _ => ne_of_view hpc rfl hu)
    (fun u hu => ⟨ho u hu,rfl⟩) h.opened ?_
  intro u J w key hu
  rw [ht] at hu
  obtain ⟨hJ,hta,hf⟩ := h.target u J w key hu
  refine ⟨hJ,⟨fun key' job' hl => hta.1 key' job' (lookup_endJob.mp hl).2,?_⟩,hf⟩
  intro v job' hv hid
  by_cases hvt : v = t
  · rw [hvt,hs] at hv
    cases hv
    exact hta.1 f.key job hst hid
  · rw [ho v hvt] at hv
    exact hta.2 v job' hv hid

end

theorem mem_popJob (hs : Stacks σ) (hpc : (σ.pc t).job? = some job) : f ∈ (σ.popJob t).stack u ↔ f ∈ σ.stack u ∧
    f.id ≠ job.id := by
  obtain ⟨below,hst⟩ := hs.finishing t job hpc
  have ht : (⟨job.id,job.key⟩ : Frame K) ∈ σ.stack t := by simp [hst]
  by_cases hu : u = t
  · subst hu
    have hnd := hs.nodup u
    rw [hst,map_cons,nodup_cons] at hnd
    simp only [popJob,update_self,hst,tail_cons,mem_cons]
    refine ⟨fun hf => ⟨.inr hf,fun he => hnd.1 (mem_map.mpr ⟨f,hf,he⟩)⟩,?_⟩
    rintro ⟨rfl | hf,hid⟩
    · exact absurd rfl hid
    · exact hf
  · simp only [popJob,update_of_ne hu]
    exact ⟨fun hf => ⟨hf,fun he => hu (hs.own u t f _ hf ht he)⟩,fun hf => hf.1⟩

omit [DecidableEq K] in
theorem currentQueryJob_popJob (hu : u ≠ t) : (σ.popJob t).currentQueryJob u = σ.currentQueryJob u := by
  simp [currentQueryJob,popJob,hu]

theorem Waits.signal (h : Waits σ) (hs : Stacks σ) (hpc : σ.pc t = .finishing job) (hl : job.latch = false) :
    Waits (σ.popJob t) := by
  have hj : (σ.pc t).job? = some job := by rw [hpc]; rfl
  have htr : ∀ u, ((σ.popJob t).pc u).target? = (σ.pc u).target? := view_update target? hpc rfl
  have hr : (σ.popJob t).pc t = .running := update_self ..
  refine h.keep rfl rfl rfl (fun u n => ne_of_view hr rfl) (fun u n hu _ => ne_of_view hpc rfl hu)
    (fun u hu => ⟨update_of_ne hu ..,currentQueryJob_popJob hu⟩) ?_ ?_
  · intro J hJ
    obtain ⟨hm,hfr⟩ := h.opened J hJ
    exact ⟨hm,fun u f hf => hfr u f ((mem_popJob hs hj).mp hf).1⟩
  · intro u J w key hu
    rw [htr] at hu
    obtain ⟨hJ,hta,hfa⟩ := h.target u J w key hu
    refine ⟨hJ,⟨hta.1,fun v job' hv => ?_⟩,fun hJ' => ?_⟩
    · have hvt : v ≠ t := by
        rintro rfl
        simp [popJob,job?] at hv
      rw [show (σ.popJob t).pc v = σ.pc v from update_of_ne hvt ..] at hv
      exact hta.2 v job' hv
    · obtain ⟨f,hf,hid⟩ := hfa hJ'
      refine ⟨f,(mem_popJob hs hj).mpr ⟨hf,fun he => ?_⟩,hid⟩
      have ht := hta.2 t job hj (he.symm.trans hid)
      cases hl.symm.trans ht

section

variable (J : Nat) (ws : List (QueryWaiter T))

omit [DecidableEq K]

theorem setLatch_resumed (n : Nat) : (σ.setLatch J ws).resumed n = true ↔ σ.resumed n = true ∨
    n ∈ ws.map QueryWaiter.id := by
  suffices hf : ∀ σ0 : State T K S, (ws.foldl resume σ0).resumed n = true ↔
      σ0.resumed n = true ∨ n ∈ ws.map QueryWaiter.id from
    hf { σ with latches := update σ.latches J none }
  induction ws with
  | nil => simp
  | cons x ws ih =>
    intro σ0
    rw [foldl_cons,ih]
    by_cases hn : n = x.id
    · simp [resume,hn]
    · simp [resume,hn]

theorem setLatch_edges (e : T × T) : e ∈ (σ.setLatch J ws).edges ↔ e ∈ σ.edges ∧ e.1 ∉ ws.map QueryWaiter.thread := by
  suffices hf : ∀ σ0 : State T K S, e ∈ (ws.foldl resume σ0).edges ↔ e ∈ σ0.edges ∧ e.1 ∉ ws.map QueryWaiter.thread from
    hf { σ with latches := update σ.latches J none }
  induction ws with
  | nil => simp
  | cons x ws ih =>
    intro σ0
    rw [foldl_cons,ih]
    simp only [resume,mem_filter,decide_eq_true_eq,map_cons,mem_cons,not_or,and_assoc]

theorem setLatch_edges_sublist : (σ.setLatch J ws).edges.Sublist σ.edges := by
  suffices hf : ∀ σ0 : State T K S, (ws.foldl resume σ0).edges.Sublist σ0.edges from
    hf { σ with latches := update σ.latches J none }
  induction ws with
  | nil => exact fun _ => List.Sublist.refl _
  | cons x ws ih => exact fun σ0 => (ih (σ0.resume x)).trans filter_sublist

omit [DecidableEq T] in
theorem notified_dozing? {id n : Nat} {pc : Pc T K S} (h : (notified id pc).dozing? = some n) :
    pc.dozing? = some n ∧ n ≠ id := by
  cases pc with
  | asleep J w key m s =>
    cases s with
    | check => cases h
    | waiting b =>
      cases b with
      | true => simp [notified,dozing?] at h
      | false =>
        by_cases hm : m = id
        · simp [notified,dozing?,hm] at h
        have hb : (m == id) = false := by simpa using hm
        simp only [notified,Bool.false_or,hb] at h
        cases h
        exact ⟨rfl,hm⟩
  | _ => cases h

theorem setLatch_dozing? {u : T} {n : Nat} (h : ((σ.setLatch J ws).pc u).dozing? = some n) :
    (σ.pc u).dozing? = some n ∧ ∀ x ∈ ws, x.thread = u → x.id ≠ n := by
  rw [setLatch_pc] at h
  have hf : ∀ (ids : List Nat) (pc : Pc T K S), (ids.foldl (fun pc id => notified id pc) pc).dozing? = some n →
        pc.dozing? = some n ∧ n ∉ ids := by
    intro ids
    induction ids with
    | nil => exact fun pc hpc => ⟨hpc,not_mem_nil⟩
    | cons id ids ih =>
      intro pc hpc
      obtain ⟨hid,his⟩ := ih _ hpc
      obtain ⟨hd,hne⟩ := notified_dozing? hid
      exact ⟨hd,by simp [hne,his]⟩
  obtain ⟨hd,hn⟩ := hf _ _ h
  refine ⟨hd,fun x hx hu he => hn (mem_map.mpr ⟨x,?_,he⟩)⟩
  simp [hx,hu]

theorem setLatch_popJob_view {α : Type} (hpc : σ.pc t = a) (f : Pc T K S → α)
    (hf : ∀ J w key n a b, f (.asleep J w key n (.waiting a)) = f (.asleep J w key n (.waiting b)))
    (hr : f .running = f a) (u : T) :
    f (((σ.setLatch J ws).popJob t).pc u) = f (σ.pc u) := by
  by_cases hu : u = t
  · rw [hu,hpc,show ((σ.setLatch J ws).popJob t).pc t = .running from update_self ..,hr]
  · rw [show ((σ.setLatch J ws).popJob t).pc u = (σ.setLatch J ws).pc u from update_of_ne hu ..]
    exact setLatch_view f hf J ws u

end

theorem Waits.set (h : Waits σ) (hs : Stacks σ) {job : QueryJob T K} (hpc : σ.pc t = .finishing job)
    (hl : σ.latches job.id = some ws) :
    Waits ((σ.setLatch job.id ws).popJob t) := by
  set τ := σ.setLatch job.id ws with hτ
  obtain ⟨ha,hst,his,-,-,hco,hla⟩ := setLatch_frame (σ := σ) job.id ws
  have hsτ : Stacks τ := hs.setLatch job.id ws
  have hj : (τ.pc t).job? = some job := by
    rw [hτ,setLatch_job?,hpc]
    rfl
  have htr := setLatch_popJob_view job.id ws hpc target? (fun _ _ _ _ _ _ => rfl) rfl
  have hw := setLatch_popJob_view job.id ws hpc waiter? (fun _ _ _ _ _ _ => rfl) rfl
  have hne u n : (σ.pc u).waiter? = some n → u ≠ t := ne_of_view hpc rfl
  have hc u (hu : u ≠ t) : (τ.popJob t).currentQueryJob u = σ.currentQueryJob u := by
    rw [currentQueryJob_popJob hu,currentQueryJob,currentQueryJob,hst]
  have ho J (hJ : J ≠ job.id) : (τ.popJob t).latches J = σ.latches J := by
    show τ.latches J = _
    rw [hla,update_of_ne hJ]
  have hse : (τ.popJob t).latches job.id = none := by
    show τ.latches job.id = _
    rw [hla,update_self]
  have hrs : ∀ n, (τ.popJob t).resumed n = true ↔ σ.resumed n = true ∨ n ∈ ws.map QueryWaiter.id :=
    setLatch_resumed job.id ws
  have hwo u n (hu : (σ.pc u).waiter? = some n) (hn : n ∈ ws.map QueryWaiter.id) :
      ∃ x ∈ ws, x.thread = u ∧ x.id = n := by
    obtain ⟨x,hx,rfl⟩ := mem_map.mp hn
    exact ⟨x,hx,h.distinct _ _ _ (h.waiters _ ws hl x hx).2.1 hu,rfl⟩
  have hfa n (hn : σ.resumed n = false) (hno : n ∉ ws.map QueryWaiter.id) : (τ.popJob t).resumed n = false := by
    rw [← Bool.not_eq_true,hrs]
    simp [hn,hno]
  refine ⟨?_,?_,?_,?_,?_,?_⟩
  · intro J hJ
    show J ∈ τ.jobIds ∧ _
    rw [his]
    by_cases hJj : J = job.id
    · obtain ⟨below,hto⟩ := hs.finishing t job (by rw [hpc]; rfl)
      refine ⟨hJj ▸ hs.ids t ⟨job.id,job.key⟩ (by rw [hto]; exact (.head _)),?_⟩
      intro u f hf
      rw [hJj]
      exact ((mem_popJob hsτ hj).mp hf).2
    · rw [ho J hJj] at hJ
      obtain ⟨hm,hfr⟩ := h.opened J hJ
      refine ⟨hm,fun u f hf => hfr u f ?_⟩
      rw [← hst]
      exact ((mem_popJob hsτ hj).mp hf).1
  · intro u J w key hu
    rw [htr] at hu
    obtain ⟨hJ,hta,hfra⟩ := h.target u J w key hu
    refine ⟨his ▸ hJ,⟨?_,fun v job' hv => ?_⟩,fun hJ' => ?_⟩
    · show ∀ key job, τ.active.lookup key = _ → _
      rw [ha]
      exact hta.1
    · have hvt : v ≠ t := by
        rintro rfl
        simp [popJob,job?] at hv
      rw [show (τ.popJob t).pc v = τ.pc v from update_of_ne hvt ..,hτ,setLatch_job?] at hv
      exact hta.2 v job' hv
    · have hJj : J ≠ job.id := by
        rintro rfl
        exact hJ' hse
      rw [ho J hJj] at hJ'
      obtain ⟨f,hf,hid⟩ := hfra hJ'
      exact ⟨f,(mem_popJob hsτ hj).mpr ⟨hst ▸ hf,by rw [hid]; exact hJj⟩,hid⟩
  · intro J ws' hJ x hx
    have hJj : J ≠ job.id := by
      rintro rfl
      cases hse.symm.trans hJ
    rw [ho J hJj] at hJ
    obtain ⟨ht,hwt,hre,hp⟩ := h.waiters J ws' hJ x hx
    rw [htr,hw,hc _ (hne _ _ hwt)]
    refine ⟨ht,hwt,hfa _ hre fun hm => ?_,hp⟩
    obtain ⟨y,hy,hth,-⟩ := hwo _ _ hwt hm
    obtain ⟨w',key',ht'⟩ := (h.waiters _ ws hl y hy).1
    obtain ⟨w,key,ht⟩ := ht
    rw [hth,ht] at ht'
    simp only [some.injEq,Prod.mk.injEq] at ht'
    exact hJj ht'.1
  · intro u n hu
    rw [hw] at hu
    obtain ⟨hlt,hlat⟩ := h.waiter u n hu
    refine ⟨hco ▸ hlt,fun J w key ht => ?_⟩
    rw [htr] at ht
    obtain ⟨hon,hdo⟩ := hlat J w key ht
    rw [hc u (hne u n hu)]
    refine ⟨fun hre => ?_,fun hre => ?_⟩
    · have hno : ¬ (σ.resumed n = true ∨ n ∈ ws.map QueryWaiter.id) := by
        rw [← hrs,hre]
        simp
      obtain ⟨ws0,hws0,hm⟩ := hon (by simpa using fun hr => hno (.inl hr))
      have hJj : J ≠ job.id := by
        rintro rfl
        cases hl.symm.trans hws0
        exact hno (.inr (mem_map.mpr ⟨_,hm,rfl⟩))
      exact ⟨ws0,by rw [ho J hJj]; exact hws0,hm⟩
    · rcases (hrs n).mp hre with hre | hm
      · have hnn := hdo hre
        have hJj : J ≠ job.id := by
          rintro rfl
          cases hl.symm.trans hnn
        rw [ho J hJj]
        exact hnn
      · obtain ⟨y,hy,hth,-⟩ := hwo _ _ hu hm
        obtain ⟨w',key',ht'⟩ := (h.waiters _ ws hl y hy).1
        rw [hth,ht] at ht'
        simp only [some.injEq,Prod.mk.injEq] at ht'
        rw [ht'.1]
        exact hse
  · intro u v n hu hv
    rw [hw] at hu hv
    exact h.distinct u v n hu hv
  · intro u n hn
    have hut : u ≠ t := by
      rintro rfl
      simp [popJob,dozing?] at hn
    rw [show (τ.popJob t).pc u = τ.pc u from update_of_ne hut ..] at hn
    obtain ⟨hd,hno⟩ := setLatch_dozing? job.id ws hn
    refine hfa n (h.dozing u n hd) fun hm => ?_
    obtain ⟨y,hy,hth,hid⟩ := hwo u n (waiter?_of_dozing? hd) hm
    exact hno y hy hth hid

variable [DecidableEq S] {shardOf : K → S} {shards : List S} {e : Event T}

theorem Waits.step (h : Waits σ) (hs : Stacks σ) (hsp : Step shardOf shards σ e σ') : Waits σ' := by
  cases hsp with
  | start hpc _ _ hid => exact h.startJob hpc hid
  | ask hpc _ hst => exact h.takeLatch hs hpc hst
  | complete hpc => exact h.leave hpc rfl rfl rfl (by simp [waiter?])
  | sleep hpc _ hl => exact (h.enter hpc hl rfl rfl rfl rfl).withGraph _ _
  | snapshot hpc _ hl => exact (h.enter hpc hl rfl rfl rfl rfl).withGraph _ _
  | collect hpc => exact h.stay hpc rfl rfl rfl (by simp [dozing?])
  | cycle hpc => exact (h.removeWaiter hpc).withGraph _ _
  | @noCycle t _ w _ _ _ hpc => exact (h.withGraph (σ.edges ++ [(t,w)]) none).stay hpc rfl rfl rfl (by simp [dozing?])
  | checkResumed hpc hr => exact h.leave hpc rfl rfl rfl (by simp [waiter?,hr])
  | checkWait hpc hr => exact h.stay hpc rfl rfl rfl (by simp [dozing?,hr])
  | wake hpc => exact h.stay hpc rfl rfl rfl (by simp [dozing?])
  | lookupDone hpc => exact h.leave hpc rfl rfl rfl (by simp [waiter?])
  | lookupPanic hpc => exact h.leave hpc rfl rfl rfl (by simp [waiter?])
  | finish poisoned hpc hsa hst => exact h.endJob hpc hst
  | finishPanic hpc => exact h.leave hpc rfl rfl rfl (by simp [waiter?])
  | signal hpc hl => exact h.signal hs hpc hl
  | set hpc _ _ hw => exact h.set hs hpc hw
  | setPanic hpc _ _ hl =>
    obtain ⟨below,hsa⟩ := hs.finishing _ _ (by rw [hpc]; rfl)
    exact absurd rfl ((h.opened _ hl).2 _ _ (by rw [hsa]; exact (.head _)))

end Frontend.Query
