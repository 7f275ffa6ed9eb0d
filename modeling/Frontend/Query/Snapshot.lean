import Frontend.Query.WaitGraph

namespace Frontend.Query

open Frontend.Library State Relation List Function

variable {T K S : Type} {σ σ' : State T K S} {t : T} {shardOf : K → S}

structure Recorded (σ : State T K S) (f : Frame K) (below : List (Frame K)) (job : QueryJob T K) : Prop where
  parent : job.parent = below.head?.map Frame.id
  latch : ∀ ws, σ.latches f.id = some ws → ws ≠ [] → job.latch = true

structure Snapshot (shardOf : K → S) (σ : State T K S) : Prop where
  closes : ∀ t J w key n sh m, σ.pc t = .snapshot J w key n sh m → ReflTransGen (Chain.Edge σ.edges) w t ∧ σ.stack t ≠ []
  covers : ∀ t J w key n sh m, σ.pc t = .snapshot J w key n sh m →
    ∀ u, ReflTransGen (Chain.Edge σ.edges) u t → ∀ above f below, σ.stack u = above ++ f :: below →
      shardOf f.key ∈ sh ∨ ∃ job, m.lookup f.id = some job ∧ Recorded σ f below job

theorem Snapshot.vacuous (h : ∀ u, (σ.pc u).snapshot? = none) : Snapshot shardOf σ := by
  have hn {p : Prop} {t J w key n sh m} (hpc : σ.pc t = .snapshot J w key n sh m) : p := by
    have hn := h t
    rw [hpc] at hn
    cases hn
  exact ⟨fun _ _ _ _ _ _ _ => hn,fun _ _ _ _ _ _ _ => hn⟩

theorem Graph.frozen (hg : Graph σ) (hpc : σ.pc t = .snapshot J w key n sh m)
    (hr : ReflTransGen (Chain.Edge σ.edges) u t) :
    (σ.pc u).waiter?.isSome := by
  rcases hr.cases_head with rfl | ⟨v,he,-⟩
  · rw [hpc]
    rfl
  · obtain ⟨n',hn,-⟩ := (hg.edge u v).mp he
    rw [Pc.waiter?_of_sleeper? hn]
    rfl

theorem Snapshot.of_eq (h : Snapshot shardOf σ) (hg : Graph σ) (hl : σ'.latches = σ.latches) (he : σ'.edges = σ.edges)
    (hpc : ∀ u J w key n sh m, σ'.pc u = .snapshot J w key n sh m → σ.pc u = .snapshot J w key n sh m)
    (hst : ∀ u, (σ.pc u).waiter?.isSome → σ'.stack u = σ.stack u) : Snapshot shardOf σ' := by
  refine ⟨?_,?_⟩
  · intro t J w key n sh m ht
    have ht' := hpc t J w key n sh m ht
    rw [he,hst t (hg.frozen ht' .refl)]
    exact h.closes t J w key n sh m ht'
  · intro t J w key n sh m ht u hu above f below hs
    have ht' := hpc t J w key n sh m ht
    rw [he] at hu
    rw [hst u (hg.frozen ht' hu)] at hs
    rcases h.covers t J w key n sh m ht' u hu above f below hs with hin | ⟨job,hj,hr⟩
    · exact .inl hin
    · exact .inr ⟨job,hj,hr.parent,by rw [hl]; exact hr.latch⟩

theorem lookup_insertJobs (entries : List (Sigma fun _ : K => ActiveKeyStatus T K)) (m : QueryJobMap T K) (id : Nat) :
    let m' := entries.foldl (fun m e =>
      match e.2 with
      | .started job => m.insert job.id job
      | .poisoned => m) m
    (m'.lookup id = m.lookup id ∧ ∀ e ∈ entries, ∀ job, e.2 = .started job → job.id ≠ id) ∨
      ∃ e ∈ entries, ∃ job, e.2 = .started job ∧ job.id = id ∧ m'.lookup id = some job := by
  induction entries generalizing m with
  | nil => exact .inl ⟨rfl,by simp⟩
  | cons e entries ih =>
    obtain ⟨key,status⟩ := e
    cases status with
    | poisoned =>
      rcases ih m with ⟨heq,hn⟩ | ⟨e,he,hj⟩
      · exact .inl ⟨heq,by simpa using hn⟩
      · exact .inr ⟨e,.tail _ he,hj⟩
    | started job =>
      rcases ih (m.insert job.id job) with ⟨heq,hn⟩ | ⟨e,he,hj⟩
      · by_cases hid : job.id = id
        · subst hid
          exact .inr ⟨_,.head _,job,rfl,rfl,heq.trans (AList.lookup_insert m)⟩
        · refine .inl ⟨heq.trans (AList.lookup_insert_ne (Ne.symm hid)),?_⟩
          intro e he job' hj'
          rcases mem_cons.mp he with rfl | he
          · obtain rfl : job = job' := by simpa using hj'
            exact hid
          · exact hn e he job' hj'
      · exact .inr ⟨e,.tail _ he,hj⟩

theorem Pc.job?_of_waiter? {pc : Pc T K S} (h : pc.waiter?.isSome) : pc.job? = none := by
  cases pc with
  | finishing job => cases h
  | _ => rfl

theorem Snapshot.enter [DecidableEq T] (hg : Graph σ) (hco : ∀ key, shardOf key ∈ shards)
    (hpc : σ.pc t = .asked J w key) (hgr : σ.graph = none) (hc : σ.mayClose t w = true) :
    Snapshot shardOf { (σ.pushWaiter t J ws).setPc t (.snapshot J w key σ.waiterCount shards ∅) with
      graph := some t } := by
  set τ : State T K S := { (σ.pushWaiter t J ws).setPc t (.snapshot J w key σ.waiterCount shards ∅) with
      graph := some t } with hτ
  have ho u J' w' key' n' sh' m' (hu : τ.pc u = .snapshot J' w' key' n' sh' m') : u = t ∧ w' = w ∧ sh' = shards := by
    by_cases hut : u = t
    · subst hut
      rw [show τ.pc u = .snapshot J w key σ.waiterCount shards ∅ from update_self ..] at hu
      cases hu
      exact ⟨rfl,rfl,rfl⟩
    · rw [show τ.pc u = σ.pc u from update_of_ne hut ..] at hu
      have hno := hg.no_snapshot hgr u
      rw [hu] at hno
      cases hno
  rw [State.mayClose,Bool.and_eq_true] at hc
  refine ⟨?_,?_⟩
  · intro u J' w' key' n' sh' m' hu
    obtain ⟨rfl,rfl,-⟩ := ho u J' w' key' n' sh' m' hu
    refine ⟨(Chain.follow_iff hg.nodup hg.acyclic).mp hc.2,fun he => ?_⟩
    have hcu := hc.1
    rw [State.currentQueryJob,show σ.stack u = [] from he] at hcu
    cases hcu
  · intro u J' w' key' n' sh' m' hu v hv above f below hst
    obtain ⟨-,-,rfl⟩ := ho u J' w' key' n' sh' m' hu
    exact .inl (hco f.key)

section

variable [DecidableEq K]

theorem lookup_collect [DecidableEq S] (shard : S) (active : Active T K) (m : QueryJobMap T K) (id : Nat) :
    ((collectShardJobs shardOf shard active m).lookup id = m.lookup id ∧
        ∀ key job, active.lookup key = some (.started job) → shardOf key = shard → job.id ≠ id) ∨
      ∃ key job, active.lookup key = some (.started job) ∧ job.id = id ∧
        (collectShardJobs shardOf shard active m).lookup id = some job := by
  rcases lookup_insertJobs (active.entries.filter fun e => shardOf e.1 = shard) m id with
    ⟨heq,hn⟩ | ⟨e,he,job,hj,hid,hl⟩
  · refine .inl ⟨heq,fun key job hl hs => hn ⟨key,.started job⟩ ?_ job rfl⟩
    rw [mem_filter]
    exact ⟨AList.mem_lookup_iff.mp hl,by simpa using hs⟩
  · obtain ⟨key,status⟩ := e
    obtain rfl : status = .started job := hj
    exact .inr ⟨key,job,AList.mem_lookup_iff.mpr (mem_filter.mp he).1,hid,hl⟩

-- The active map holds the record of every frame of a thread that is not finishing a job.
theorem Stacks.recorded (hs : Stacks σ) (h : Waits σ) (hst : σ.stack u = above ++ f :: below)
    (hb : (σ.pc u).job? = none) :
    (∃ job, σ.active.lookup f.key = some (.started job) ∧ job.id = f.id) ∧
      ∀ key job, σ.active.lookup key = some (.started job) → job.id = f.id → Recorded σ f below job := by
  rcases hs.frame u above f below hst with ⟨job,hl,hr⟩ | ⟨-,job,hj,-⟩
  · refine ⟨⟨job,hl,hr.id_eq⟩,fun key job' hl' hid => ?_⟩
    have hf : f ∈ σ.stack u := by simp [hst]
    have heq := (hs.frame_eq (hs.active key job' hl').1 hf hid).2
    obtain rfl : key = f.key := congrArg Frame.key heq
    rw [hl] at hl'
    obtain rfl : job = job' := by simpa using hl'
    refine ⟨hr.parent_eq,fun ws hws hne => ?_⟩
    obtain ⟨x,hx⟩ := exists_mem_of_ne_nil ws hne
    obtain ⟨w,key',ht⟩ := (h.waiters f.id ws hws x hx).1
    exact (h.target _ _ _ _ ht).2.1.1 f.key job hl hr.id_eq
  · cases hb.symm.trans hj

theorem Snapshot.collect [DecidableEq T] [DecidableEq S] (h : Snapshot shardOf σ) (hs : Stacks σ) (hw : Waits σ)
    (hg : Graph σ)
    (hpc : σ.pc t = .snapshot J w key n (shard :: rest) m) :
    Snapshot shardOf (σ.setPc t (.snapshot J w key n rest (collectShardJobs shardOf shard σ.active m))) := by
  set τ := σ.setPc t (.snapshot J w key n rest (collectShardJobs shardOf shard σ.active m)) with hτ
  have ho u J' w' key' n' sh' m' (hu : τ.pc u = .snapshot J' w' key' n' sh' m') :
      u = t ∧ w' = w ∧ sh' = rest ∧ m' = collectShardJobs shardOf shard σ.active m := by
    by_cases hut : u = t
    · subst hut
      rw [show τ.pc u = .snapshot J w key n rest (collectShardJobs shardOf shard σ.active m) from update_self ..] at hu
      cases hu
      exact ⟨rfl,rfl,rfl,rfl⟩
    · rw [show τ.pc u = σ.pc u from update_of_ne hut ..] at hu
      have hu' := (hg.snapshotted u n' (by rw [hu]; rfl)).2
      rw [(hg.snapshotted t n (by rw [hpc]; rfl)).2] at hu'
      exact absurd (Option.some.inj hu').symm hut
  refine ⟨?_,?_⟩
  · intro u J' w' key' n' sh' m' hu
    obtain ⟨rfl,rfl,-⟩ := ho u J' w' key' n' sh' m' hu
    exact h.closes u J _ key n _ m hpc
  · intro u J' w' key' n' sh' m' hu v hv above f below hst
    obtain ⟨rfl,-,rfl,rfl⟩ := ho u J' w' key' n' sh' m' hu
    obtain ⟨⟨job,hl,hid⟩,hr⟩ := hs.recorded hw hst (Pc.job?_of_waiter? (hg.frozen hpc hv))
    rcases lookup_collect shard σ.active m f.id with ⟨hsa,hno⟩ | ⟨key',job',hl',hid',hne⟩
    · rcases h.covers u J w key n _ m hpc v hv above f below hst with hin | ⟨job',hj',hr'⟩
      · rcases mem_cons.mp hin with hsha | hin
        · exact absurd hid (hno f.key job hl hsha)
        · exact .inl hin
      · exact .inr ⟨job',hsa.trans hj',hr'.parent,hr'.latch⟩
    · obtain ⟨hp,hla⟩ := hr key' job' hl' hid'
      exact .inr ⟨job',hne,hp,hla⟩

end

section

variable {J n : Nat} {w : T} {key : K} {m : QueryJobMap T K}

theorem mem_waitersOf_latch {latches : Latches T} (hl : m.lookup q = some job) (hla : job.latch = true)
    (hws : latches q = some ws) (hx : x ∈ ws) (hp : x.parent = some p) : p ∈ waitersOf latches m q := by
  simp only [waitersOf,abstractedWaitersOf,hl,hla,if_true,hws,Option.getD_some,mem_filterMap,id_eq,exists_eq_right,
    mem_cons,mem_map]
  exact .inr ⟨x,hx,hp⟩

theorem Snapshot.top_reaches (h : Snapshot shardOf σ) (hpc : σ.pc t = .snapshot J w key n [] m)
    (hu : ReflTransGen (Chain.Edge σ.edges) u t)
    (hs : σ.stack u = above ++ f :: below) :
    ∃ top rest, σ.stack u = top :: rest ∧ ReflTransGen (CycleSearch.Edge (waitersOf σ.latches m)) top.id f.id := by
  induction above using List.reverseRecOn generalizing f below with
  | nil => exact ⟨f,below,hs,.refl⟩
  | append_singleton above g ih =>
    rw [append_assoc,singleton_append] at hs
    obtain ⟨top,rest,ht,hr⟩ := ih hs
    refine ⟨top,rest,ht,hr.tail ?_⟩
    rcases h.covers t J w key n [] m hpc u hu above g (f :: below) hs with hin | ⟨job,hj,hre⟩
    · cases hin
    · simp [CycleSearch.Edge,waitersOf,abstractedWaitersOf,hj,hre.parent]

theorem Snapshot.latch_reaches (h : Snapshot shardOf σ) (hpc : σ.pc t = .snapshot J w key n [] m)
    (hb : ReflTransGen (Chain.Edge σ.edges) b t)
    (hbl : Blocks σ a b f ws) (ht : σ.stack a = top :: rest) :
    CycleSearch.Edge (waitersOf σ.latches m) f.id top.id := by
  obtain ⟨above,below,hs⟩ := append_of_mem hbl.frame
  obtain ⟨n',hm⟩ := hbl.waiter
  rcases h.covers t J w key n [] m hpc b hb above f below hs with hin | ⟨job,hj,hr⟩
  · cases hin
  · refine mem_waitersOf_latch hj (hr.latch ws hbl.latch ?_) hbl.latch hm ?_
    · exact ne_nil_of_mem hm
    · simp [State.currentQueryJob,ht]

section

variable [DecidableEq K] (h : Snapshot shardOf σ) (hw : Waits σ) (hg : Graph σ) (hpc : σ.pc t = .snapshot J w key n [] m)

include h hw hg hpc

theorem Snapshot.top_reaches_all (hC : σ.stack t = C :: rest) (hu : ReflTransGen (Chain.Edge σ.edges) u t) :
    ∀ f ∈ σ.stack u, ReflTransGen (CycleSearch.Edge (waitersOf σ.latches m)) C.id f.id := by
  induction hu using ReflTransGen.head_induction_on with
  | refl =>
    intro f hf
    obtain ⟨above,below,hs⟩ := append_of_mem hf
    obtain ⟨top,rest',ht,hr⟩ := h.top_reaches hpc .refl hs
    rw [hC] at ht
    obtain ⟨rfl,-⟩ := List.cons.inj ht
    exact hr
  | @head a b he hb ih =>
    intro f hf
    obtain ⟨above,below,hs⟩ := append_of_mem hf
    obtain ⟨top,rest',ht,hr⟩ := h.top_reaches hpc (.head he hb) hs
    obtain ⟨J',n',key',g,ws,-,-,-,-,hbl⟩ := hg.blocks hw he
    exact ((ih g hbl.frame).tail (h.latch_reaches hpc hb hbl ht)).trans hr

theorem Snapshot.found : findCycleClosedByWait σ.latches m J = true := by
  obtain ⟨hr,hne⟩ := h.closes t J w key n [] m hpc
  obtain ⟨C,rest,hC⟩ := exists_cons_of_ne_nil hne
  obtain ⟨f,ws,rfl,hb⟩ := hw.blocks (a := t) (by rw [hpc]; rfl) (by rw [hpc]; rfl)
    (hg.snapshotted t n (by rw [hpc]; rfl)).1
  exact findCycleClosedByWait_of_cycle (.head' (h.latch_reaches hpc hr hb hC)
    (h.top_reaches_all hw hg hpc hC hr f hb.frame))

end

end

end Frontend.Query
