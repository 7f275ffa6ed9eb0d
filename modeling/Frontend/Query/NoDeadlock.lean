import Frontend.Query.WaitInvariant

namespace Frontend.Query

open Frontend.Library State Relation List Function

section

variable {T K S : Type} [DecidableEq K]
variable {σ : State T K S} {t : T} {shardOf : K → S}

omit [DecidableEq K] in
theorem Pc.eq_asleep_of_sleeper? {pc : Pc T K S} (h : pc.sleeper? = some (w,n)) :
    ∃ J key s, pc = .asleep J w key n s := by
  cases pc with
  | asleep J w' key m s =>
    cases h
    exact ⟨J,key,s,rfl⟩
  | _ => cases h

omit [DecidableEq K] in
theorem waitsFor_top (hs : σ.stack u = above ++ f :: below) :
    ∃ top rest, σ.stack u = top :: rest ∧ ReflTransGen (WaitsFor σ) f.id top.id := by
  induction above using reverseRecOn generalizing f below with
  | nil => exact ⟨f,below,hs,.refl⟩
  | append_singleton above g ih =>
    rw [append_assoc,singleton_append] at hs
    obtain ⟨top,rest,ht,hr⟩ := ih hs
    exact ⟨top,rest,ht,.head (.stack hs) hr⟩

theorem waitsFor_of_reaches (h : Inv shardOf σ) {C : Frame K} (hC : σ.stack t = C :: rest)
    (hu : ReflTransGen (Chain.Edge σ.edges) u t) :
    ∀ f ∈ σ.stack u, ReflTransGen (WaitsFor σ) f.id C.id := by
  induction hu using ReflTransGen.head_induction_on with
  | refl =>
    intro f hf
    obtain ⟨above,below,hs⟩ := append_of_mem hf
    obtain ⟨top,rest',ht,hr⟩ := waitsFor_top hs
    rw [hC] at ht
    obtain ⟨rfl,-⟩ := cons.inj ht
    exact hr
  | head he _ ih =>
    intro f hf
    obtain ⟨above,below,hs⟩ := append_of_mem hf
    obtain ⟨top,rest',ht,hr⟩ := waitsFor_top hs
    obtain ⟨J,n,key,g,ws,hsl,hre,hta,hid,hb⟩ := h.graph.blocks h.waits he
    obtain ⟨J',key',s,hpc⟩ := Pc.eq_asleep_of_sleeper? hsl
    rw [hpc] at hta
    cases hta
    have hw : WaitsFor σ top.id g.id := hid ▸ .latch hpc hre ht
    exact hr.trans (.head hw (ih g hb.frame))

theorem reaches_of_waitsFor (h : Inv shardOf σ) (hf : f ∈ σ.stack u) (hw : ReflTransGen (WaitsFor σ) f.id y) :
    ∃ v g, g ∈ σ.stack v ∧ g.id = y ∧ ReflTransGen (Chain.Edge σ.edges) u v := by
  induction hw with
  | refl => exact ⟨u,f,hf,rfl,.refl⟩
  | tail _ hst ih =>
    obtain ⟨v,g,hg,hid,hr⟩ := ih
    cases hst with
    | @stack a above upper lower below hs =>
      have hl : lower ∈ σ.stack a := by simp [hs]
      obtain rfl := h.frames.own v a g lower hg hl hid
      exact ⟨v,upper,by simp [hs],rfl,hr⟩
    | @latch a J w key n s top rest hpc hre hs =>
      have ht : top ∈ σ.stack a := by simp [hs]
      obtain rfl := h.frames.own v a g top hg ht hid
      have he := (h.graph.edge v w).mpr ⟨n,by rw [hpc]; rfl,hre⟩
      obtain ⟨f',ws,hid',hb⟩ := h.waits.blocks (congrArg Pc.target? hpc) (congrArg Pc.waiter? hpc) hre
      exact ⟨w,f',hb.frame,hid',hr.tail he⟩

-- The chain of waiting threads comes back to the caller exactly when the awaited job waits,
-- through stacks and latches, for the caller's own query.
theorem closesCycle_iff (h : Inv shardOf σ) (htr : (σ.pc t).target? = some (J,w,key)) (hl : σ.latches J ≠ none) :
    ClosesCycle σ t J ↔ σ.stack t ≠ [] ∧ ReflTransGen (Chain.Edge σ.edges) w t := by
  obtain ⟨f,hf,rfl⟩ := (h.waits.target t J w key htr).2.2 hl
  refine ⟨?_,?_⟩
  · rintro ⟨top,rest,ht,hw⟩
    obtain ⟨v,g,hg,hid,hr⟩ := reaches_of_waitsFor h hf hw
    obtain rfl := h.frames.own v t g top hg (by simp [ht]) hid
    exact ⟨by simp [ht],hr⟩
  · rintro ⟨hne,hr⟩
    obtain ⟨C,rest,hC⟩ := exists_cons_of_ne_nil hne
    exact ⟨C,rest,hC,waitsFor_of_reaches h hC hr f hf⟩

theorem Inv.snapshot_closes (h : Inv shardOf σ) (hpc : σ.pc t = .snapshot J w key n sh m) : ClosesCycle σ t J := by
  obtain ⟨hr,hne⟩ := h.snapshot.closes t J w key n sh m hpc
  have ht := congrArg Pc.target? hpc
  have hwt := congrArg Pc.waiter? hpc
  obtain ⟨f,ws,rfl,hb⟩ := h.waits.blocks ht hwt (h.graph.snapshotted t n (congrArg Pc.snapshot? hpc)).1
  exact (closesCycle_iff h ht (by simp [hb.latch])).mpr ⟨hne,hr⟩

theorem Inv.sleeper_woken (h : Inv shardOf σ) (hpc : σ.pc t = .asleep J w key n s) :
    (∃ ws, σ.latches J = some ws ∧ n ∈ ws.map QueryWaiter.id ∧ ∃ f ∈ σ.stack w, f.id = J) ∨ σ.resumed n = true ∧
    s ≠ .waiting false := by
  have ht := congrArg Pc.target? hpc
  have hwt := congrArg Pc.waiter? hpc
  cases hr : σ.resumed n with
  | false =>
    obtain ⟨ws,hws,hm⟩ := ((h.waits.waiter t n hwt).2 J w key ht).1 hr
    refine .inl ⟨ws,hws,mem_map.mpr ⟨_,hm,rfl⟩,?_⟩
    exact (h.waits.target t J w key ht).2.2 (by simp [hws])
  | true =>
    refine .inr ⟨rfl,?_⟩
    rintro rfl
    have hd := h.waits.dozing t n (congrArg Pc.dozing? hpc)
    cases hr.symm.trans hd

theorem Inv.chain_ends_awake (h : Inv shardOf σ) (t : T) : ∃ u, ReflTransGen (Chain.Edge σ.edges) t u ∧
      ∀ J w key n s, σ.pc u = .asleep J w key n s → σ.resumed n = true := by
  obtain ⟨u,hr,hen⟩ := Chain.exists_end h.graph.acyclic t
  refine ⟨u,hr,fun J w key n s hpc => ?_⟩
  by_contra hre
  have he := (h.graph.edge u w).mpr ⟨n,congrArg Pc.sleeper? hpc,by simpa using hre⟩
  exact hen (mem_map_of_mem he)

end

section

variable {T K S : Type} [DecidableEq T] [DecidableEq K] [DecidableEq S]
variable {σ σ' : State T K S} {t : T} {shardOf : K → S} {shards : List S}

theorem Inv.slept_not_closes (h : Inv shardOf σ) (hs : Step shardOf shards σ (.slept t J) σ') : ¬ ClosesCycle σ t J := by
  cases hs with
  | sleep hpc hg hl hc =>
    have ho : σ.latches J ≠ none := by simp [hl]
    rw [closesCycle_iff h (congrArg Pc.target? hpc) ho]
    exact fun hcl => not_reaches_of_mayClose h.graph h.waits hpc ho hc hcl.2
  | noCycle hpc hf =>
    rw [h.snapshot.found h.waits h.graph hpc] at hf
    cases hf

theorem Inv.holder_moves (h : Inv shardOf σ) (hg : σ.graph = some t) : ∃ e σ', Step shardOf shards σ e σ' ∧
    σ'.pc t ≠ σ.pc t := by
  obtain ⟨n,hn⟩ := Option.isSome_iff_exists.mp (h.graph.held t hg)
  cases hpc : σ.pc t with
  | snapshot J w key m sh jobMap =>
    cases sh with
    | nil =>
      refine ⟨_,_,.cycle hpc (h.snapshot.found h.waits h.graph hpc),?_⟩
      rw [show pc _ t = .running from update_self ..]
      simp
    | cons shard rest =>
      refine ⟨_,_,.collect hpc,?_⟩
      rw [show pc _ t = _ from update_self ..]
      simp
  | _ =>
    rw [hpc] at hn
    cases hn

omit [DecidableEq K] [DecidableEq S] in
theorem eq_of_moved (hm : update σ.pc u b t ≠ σ.pc t) : u = t := by
  by_contra hne
  exact hm (update_of_ne (Ne.symm hne) ..)

theorem complete_latch_returns (hpc : σ.pc t = .asked J w key) (hl : σ.latches J = none)
    (hs : Step shardOf shards σ e σ')
    (hm : σ'.pc t ≠ σ.pc t) : e = .ok t J ∧ σ'.edges = σ.edges ∧ σ'.pc t = .lookup key := by
  cases hs with
  | complete hpc' =>
    obtain rfl := eq_of_moved hm
    rw [hpc] at hpc'
    injection hpc' with hJ hw hk
    subst hJ hk
    exact ⟨rfl,rfl,update_self ..⟩
  | start => exact absurd rfl hm
  | sleep hpc' _ ho | snapshot hpc' _ ho =>
    obtain rfl := eq_of_moved hm
    rw [hpc] at hpc'
    injection hpc' with hJ
    rw [← hJ,hl] at ho
    cases ho
  | @set u job ws hpc' =>
    have hut : t ≠ u := by
      rintro rfl
      cases hpc.symm.trans hpc'
    refine absurd ?_ hm
    rw [show ((σ.setLatch job.id ws).popJob u).pc t = (σ.setLatch job.id ws).pc t from update_of_ne hut ..,
      setLatch_pc,hpc]
    induction (ws.filter fun x => x.thread = t).map QueryWaiter.id with
    | nil => rfl
    | cons id ids ih => exact ih
  | ask hpc' | collect hpc' | cycle hpc' | noCycle hpc' | checkResumed hpc' | checkWait hpc' | wake hpc'
  | lookupDone hpc' | lookupPanic hpc' | finish _ hpc' | finishPanic hpc' | signal hpc' | setPanic hpc' =>
    obtain rfl := eq_of_moved hm
    cases hpc.symm.trans hpc'

theorem query_waits_never_deadlock (hcover : ∀ key, shardOf key ∈ shards) (h : Reached shardOf shards σ) :
    Chain.Acyclic (Chain.Edge σ.edges) ∧ (σ.edges.map Prod.fst).Nodup ∧
      (∀ t J e σ', Step shardOf shards σ e σ' → e = .cycle t J ∨ e = .slept t J → (e = .cycle t J ↔ ClosesCycle σ t J)) ∧
      (∀ t J w key n sh m, σ.pc t = .snapshot J w key n sh m → ClosesCycle σ t J) ∧
      (∀ t, σ.graph = some t → ∃ e σ', Step shardOf shards σ e σ' ∧ σ'.pc t ≠ σ.pc t) ∧
      (∀ t J w key, σ.pc t = .asked J w key → σ.latches J = none → ∀ e σ',
        Step shardOf shards σ e σ' → σ'.pc t ≠ σ.pc t → e = .ok t J ∧ σ'.edges = σ.edges ∧ σ'.pc t = .lookup key) ∧
      (∀ t J w key n s, σ.pc t = .asleep J w key n s →
        (∃ ws, σ.latches J = some ws ∧ n ∈ ws.map QueryWaiter.id ∧ ∃ f ∈ σ.stack w, f.id = J) ∨ σ.resumed n = true ∧
        s ≠ .waiting false) ∧
      (∀ t, ∃ u, ReflTransGen (Chain.Edge σ.edges) t u ∧ ∀ J w key n s, σ.pc u = .asleep J w key n s →
      σ.resumed n = true) ∧
      ∀ t, σ.pc t ≠ .panicked := by
  have hin := h.inv hcover
  refine ⟨hin.graph.acyclic,hin.graph.nodup,?_,?_,?_,?_,?_,hin.chain_ends_awake,?_⟩
  · rintro t J e σ' hs (rfl | rfl)
    · cases hs with
      | cycle hpc => exact ⟨fun _ => hin.snapshot_closes hpc,fun _ => rfl⟩
    · exact ⟨fun he => (by cases he),fun hc => absurd hc (hin.slept_not_closes hs)⟩
  · exact fun t J w key n sh m hpc => hin.snapshot_closes hpc
  · exact fun t hg => hin.holder_moves hg
  · exact fun t J w key hpc hl e σ' hs hm => complete_latch_returns hpc hl hs hm
  · exact fun t J w key n s hpc => hin.sleeper_woken hpc
  · intro t hpc
    obtain ⟨key,hk,-⟩ := hin.answers.outcome t none (congrArg Pc.outcome? hpc)
    cases hk

end

abbrev Pair := State Bool Bool Unit

def crossedStarted : Pair := (State.initial.startJob false false 0).startJob true true 1

def crossedAsked : Pair := crossedStarted.takeLatch false true ⟨1,true,none,false,true⟩

def crossedAsleep : Pair := ((crossedAsked.pushWaiter false 1 []).pushEdge false true).setPc false
    (.asleep 1 true true 0 .check)

def crossedBack : Pair := crossedAsleep.takeLatch true false ⟨0,false,none,false,false⟩

def crossedSnapshot : Pair :=
  { (crossedBack.pushWaiter true 0 []).setPc true (.snapshot 0 false false 1 [()] ∅) with
    graph := some true }

theorem reached_crossedSnapshot : Reached (fun _ : Bool => ()) [()] crossedSnapshot := by
  have start0 : Step (fun _ : Bool => ()) [()] (initial : Pair) .internal
      (initial.startJob false false 0) := .start rfl not_mem_nil rfl not_mem_nil
  have start1 : Step (fun _ : Bool => ()) [()] (initial.startJob false false 0 : Pair) .internal
      crossedStarted := .start rfl not_mem_nil rfl (by decide)
  have ask0 : Step (fun _ : Bool => ()) [()] crossedStarted .internal crossedAsked := .ask rfl not_mem_nil rfl
  have sleep0 : Step (fun _ : Bool => ()) [()] crossedAsked (.slept false 1) crossedAsleep := .sleep rfl rfl rfl rfl
  have ask1 : Step (fun _ : Bool => ()) [()] crossedAsleep .internal crossedBack := .ask rfl not_mem_nil rfl
  have snapshot1 : Step (fun _ : Bool => ()) [()] crossedBack .internal crossedSnapshot := .snapshot rfl rfl rfl rfl
  have h : Reached (fun _ : Bool => ()) [()] (initial : Pair) := Reachable.start rfl
  exact (((((h.tail ⟨_,start0⟩).tail ⟨_,start1⟩).tail ⟨_,ask0⟩).tail ⟨_,sleep0⟩).tail ⟨_,ask1⟩).tail ⟨_,snapshot1⟩

theorem crossed_waits_found : ClosesCycle crossedSnapshot true 0 ∧ (crossedSnapshot.edges.map Prod.fst).Nodup := by
  have h := query_waits_never_deadlock (fun _ => mem_singleton.mpr rfl) reached_crossedSnapshot
  exact ⟨h.2.2.2.1 true 0 false false 1 [()] ∅ rfl,h.2.1⟩

end Frontend.Query
