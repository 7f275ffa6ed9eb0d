import Frontend.Query.Waits

namespace Frontend.Query

open Frontend.Library State Relation List Function Option

variable {T K S : Type} {σ σ' : State T K S} {t : T}

structure Graph (σ : State T K S) : Prop where
  snapshotted : ∀ t n, (σ.pc t).snapshot? = some n → σ.resumed n = false ∧ σ.graph = some t
  held : ∀ t, σ.graph = some t → (σ.pc t).snapshot?.isSome
  edge : ∀ a b, (a,b) ∈ σ.edges ↔ ∃ n, (σ.pc a).sleeper? = some (b,n) ∧ σ.resumed n = false
  nodup : (σ.edges.map Prod.fst).Nodup
  acyclic : Chain.Acyclic (Chain.Edge σ.edges)

theorem Graph.initial : Graph (initial : State T K S) := by
  refine ⟨?_,?_,?_,?_,?_⟩
  · simp [State.initial,Pc.snapshot?]
  · simp [State.initial]
  · simp [State.initial,Pc.sleeper?]
  · simp [State.initial]
  · intro v hv
    rcases TransGen.tail'_iff.mp hv with ⟨w,-,hw⟩
    cases hw

theorem Pc.target?_of_sleeper? {pc : Pc T K S} (h : pc.sleeper? = some (w,n)) :
    ∃ J key, pc.target? = some (J,w,key) := by
  cases pc with
  | asleep J w' key m s =>
    cases h
    exact ⟨J,key,rfl⟩
  | _ => cases h

structure Blocks (σ : State T K S) (a b : T) (f : Frame K) (ws : List (QueryWaiter T)) : Prop where
  frame : f ∈ σ.stack b
  latch : σ.latches f.id = some ws
  waiter : ∃ n, ⟨n,σ.currentQueryJob a,a⟩ ∈ ws

variable {J : Nat} {key : K} {w : T} {ws : List (QueryWaiter T)}

theorem Graph.of_eq (hg : Graph σ) (hr : σ'.resumed = σ.resumed) (he : σ'.edges = σ.edges)
    (hgr : σ'.graph = σ.graph) (hs : ∀ u, (σ'.pc u).snapshot? = (σ.pc u).snapshot?)
    (hsl : ∀ u, (σ'.pc u).sleeper? = (σ.pc u).sleeper?) : Graph σ' := by
  refine ⟨?_,?_,?_,?_,?_⟩
  · simpa only [hs,hr,hgr] using hg.snapshotted
  · simpa only [hs,hgr] using hg.held
  · simpa only [he,hsl,hr] using hg.edge
  · simpa only [he] using hg.nodup
  · simpa only [he] using hg.acyclic

theorem Graph.no_snapshot (hg : Graph σ) (hgr : σ.graph = none) (u : T) : (σ.pc u).snapshot? = none := by
  by_contra hne
  obtain ⟨n,hn⟩ := ne_none_iff_exists'.mp hne
  have hs := (hg.snapshotted u n hn).2
  cases hgr.symm.trans hs

section

variable [DecidableEq T]

theorem Graph.leave (hg : Graph σ) (hpc : σ.pc t = a) (ha : a.snapshot? = none) (hb : b.snapshot? = none)
    (hbs : b.sleeper? = none)
    (hrs : ∀ w n, a.sleeper? = some (w,n) → σ.resumed n = true) : Graph (σ.setPc t b) := by
  have hs : ∀ u, ((σ.setPc t b).pc u).snapshot? = (σ.pc u).snapshot? := view_update Pc.snapshot? hpc (hb.trans ha.symm)
  refine ⟨?_,?_,?_,hg.nodup,hg.acyclic⟩
  · intro u n hu
    rw [hs] at hu
    exact hg.snapshotted u n hu
  · intro u hu
    rw [hs]
    exact hg.held u hu
  · intro u v
    by_cases hut : u = t
    · subst hut
      have hse : (σ.setPc u b).pc u = b := update_self ..
      rw [hse,hbs]
      refine ⟨fun he => ?_,by simp⟩
      obtain ⟨n,hn,hr⟩ := (hg.edge u v).mp he
      rw [hpc] at hn
      rw [hrs v n hn] at hr
      cases hr
    · rw [show (σ.setPc t b).pc u = σ.pc u from update_of_ne hut ..]
      exact hg.edge u v

theorem Graph.cycle (hg : Graph σ) (hpc : σ.pc t = .snapshot J w key n sh m) :
    Graph { (σ.removeWaiter J n).setPc t .running with graph := none } := by
  set τ : State T K S := { (σ.removeWaiter J n).setPc t .running with graph := none } with hτ
  have hgr := (hg.snapshotted t n (by rw [hpc]; rfl)).2
  have hsl : ∀ u, (τ.pc u).sleeper? = (σ.pc u).sleeper? := view_update Pc.sleeper? hpc rfl
  refine ⟨?_,?_,?_,hg.nodup,hg.acyclic⟩
  · intro u n' hu
    by_cases hut : u = t
    · rw [hut,show τ.pc t = .running from update_self ..] at hu
      cases hu
    rw [show τ.pc u = σ.pc u from update_of_ne hut ..] at hu
    have hs := (hg.snapshotted u n' hu).2
    rw [hgr] at hs
    exact absurd (some.inj hs).symm hut
  · intro u hu
    cases hu
  · intro a b
    rw [hsl]
    exact hg.edge a b

end

variable [DecidableEq K]

theorem Waits.blocks (h : Waits σ) (ht : (σ.pc a).target? = some (J,b,key)) (hw : (σ.pc a).waiter? = some n)
    (hr : σ.resumed n = false) : ∃ f ws, f.id = J ∧ Blocks σ a b f ws := by
  obtain ⟨ws,hws,hm⟩ := ((h.waiter a n hw).2 J b key ht).1 hr
  obtain ⟨f,hf,hid⟩ := (h.target a J b key ht).2.2 (by simp [hws])
  exact ⟨f,ws,hid,⟨hf,by rw [hid]; exact hws,n,hm⟩⟩

theorem Graph.blocks (hg : Graph σ) (h : Waits σ) {a b : T} (he : (a,b) ∈ σ.edges) :
    ∃ J n key f ws, (σ.pc a).sleeper? = some (b,n) ∧ σ.resumed n = false ∧
      (σ.pc a).target? = some (J,b,key) ∧ f.id = J ∧ Blocks σ a b f ws := by
  obtain ⟨n,hs,hr⟩ := (hg.edge a b).mp he
  obtain ⟨J,key,ht⟩ := Pc.target?_of_sleeper? hs
  obtain ⟨f,ws,hid,hb⟩ := h.blocks ht (Pc.waiter?_of_sleeper? hs) hr
  exact ⟨J,n,key,f,ws,hs,hr,ht,hid,hb⟩

variable [DecidableEq T]

section

variable (hg : Graph σ) (h : Waits σ)

include hg h

theorem not_reaches_of_mayClose (hpc : σ.pc t = .asked J w key)
    (hl : σ.latches J ≠ none) (hcl : σ.mayClose t w = false) :
    ¬ ReflTransGen (Chain.Edge σ.edges) w t := by
  intro hr
  cases hc : σ.currentQueryJob t with
  | some C =>
    have hch := (Chain.follow_iff hg.nodup hg.acyclic).mpr hr
    simp [mayClose,hc,chainReaches,hch] at hcl
  | none =>
    have he : σ.stack t = [] := by simpa [currentQueryJob] using hc
    have ht : (σ.pc t).target? = some (J,w,key) := by rw [hpc]; rfl
    rcases hr.cases_tail with rfl | ⟨a,-,hed⟩
    · obtain ⟨f,hf,-⟩ := (h.target _ J _ key ht).2.2 hl
      rw [he] at hf
      cases hf
    · obtain ⟨J',n,key',f,ws,-,-,-,-,hb⟩ := hg.blocks h hed
      have hf := hb.frame
      rw [he] at hf
      cases hf

theorem Graph.sleep (hpc : σ.pc t = .asked J w key)
    (hgr : σ.graph = none) (hl : σ.latches J = some ws) (hc : σ.mayClose t w = false) :
    Graph (((σ.pushWaiter t J ws).pushEdge t w).setPc t (.asleep J w key σ.waiterCount .check)) := by
  set τ := ((σ.pushWaiter t J ws).pushEdge t w).setPc t (.asleep J w key σ.waiterCount .check) with hτ
  have hs : τ.pc t = .asleep J w key σ.waiterCount .check := update_self ..
  have ho u (hu : u ≠ t) : τ.pc u = σ.pc u := update_of_ne hu ..
  have hv : ∀ u, (τ.pc u).snapshot? = (σ.pc u).snapshot? := view_update Pc.snapshot? hpc rfl
  have hsn u : (τ.pc u).snapshot? = none := (hv u).trans (hg.no_snapshot hgr u)
  have hf : τ.resumed σ.waiterCount = false := update_self ..
  have hrs u n (hn : (σ.pc u).waiter? = some n) : τ.resumed n = σ.resumed n := update_of_ne (h.waiter u n hn).1.ne ..
  have he : τ.edges = σ.edges ++ [(t,w)] := rfl
  have haw : ∀ b, (t,b) ∉ σ.edges := by
    intro b hb
    obtain ⟨n,hn,-⟩ := (hg.edge t b).mp hb
    rw [hpc] at hn
    cases hn
  refine ⟨?_,?_,?_,?_,?_⟩
  · intro u n hu
    rw [hsn] at hu
    cases hu
  · intro u hu
    cases hu
  · intro a b
    rw [he,mem_append,mem_singleton]
    by_cases hat : a = t
    · subst hat
      rw [hs]
      refine ⟨?_,?_⟩
      · rintro (hol | hne)
        · exact absurd hol (haw b)
        · obtain ⟨-,rfl⟩ := Prod.mk.inj hne
          exact ⟨σ.waiterCount,rfl,hf⟩
      · rintro ⟨n,hn,-⟩
        obtain ⟨rfl,-⟩ : w = b ∧ _ := by simpa [Pc.sleeper?] using hn
        exact .inr rfl
    · rw [ho a hat,hg.edge a b]
      refine ⟨?_,?_⟩
      · rintro (⟨n,hn,hr⟩ | hne)
        · exact ⟨n,hn,(hrs a n (Pc.waiter?_of_sleeper? hn)).trans hr⟩
        · exact absurd (Prod.mk.inj hne).1 hat
      · rintro ⟨n,hn,hr⟩
        exact .inl ⟨n,hn,(hrs a n (Pc.waiter?_of_sleeper? hn)).symm.trans hr⟩
  · rw [he,map_append,map_singleton,nodup_append]
    refine ⟨hg.nodup,by simp,fun a ha b hb => ?_⟩
    obtain ⟨⟨x,y⟩,hxy,rfl⟩ := mem_map.mp ha
    rintro rfl
    obtain rfl : x = t := by simpa using hb
    exact haw y hxy
  · refine hg.acyclic.insert (not_reaches_of_mayClose hg h hpc (by simp [hl]) hc) ?_
    intro a b hab
    rcases mem_append.mp (show (a,b) ∈ σ.edges ++ [(t,w)] from hab) with hab | hab
    · exact .inl hab
    · exact .inr (Prod.mk.inj (mem_singleton.mp hab))

theorem Graph.snapshot (hpc : σ.pc t = .asked J w key) (hgr : σ.graph = none) :
    Graph { (σ.pushWaiter t J ws).setPc t (.snapshot J w key σ.waiterCount shards ∅) with
      graph := some t } := by
  set τ : State T K S := { (σ.pushWaiter t J ws).setPc t (.snapshot J w key σ.waiterCount shards ∅) with
      graph := some t } with hτ
  have hs : τ.pc t = .snapshot J w key σ.waiterCount shards ∅ := update_self ..
  have ho u (hu : u ≠ t) : τ.pc u = σ.pc u := update_of_ne hu ..
  have hsl : ∀ u, (τ.pc u).sleeper? = (σ.pc u).sleeper? := view_update Pc.sleeper? hpc rfl
  have hf : τ.resumed σ.waiterCount = false := update_self ..
  have hr u n (hn : (σ.pc u).waiter? = some n) : τ.resumed n = σ.resumed n := update_of_ne (h.waiter u n hn).1.ne ..
  refine ⟨?_,?_,?_,hg.nodup,hg.acyclic⟩
  · intro u n hu
    by_cases hut : u = t
    · subst hut
      rw [hs] at hu
      cases hu
      exact ⟨hf,rfl⟩
    · rw [ho u hut,hg.no_snapshot hgr u] at hu
      cases hu
  · intro u hu
    obtain rfl : t = u := some.inj hu
    rw [hs]
    rfl
  · intro a b
    rw [hsl,show τ.edges = σ.edges from rfl,hg.edge a b]
    refine exists_congr fun n => and_congr_right fun hn => ?_
    rw [hr a n (Pc.waiter?_of_sleeper? hn)]

theorem Graph.set (hpc : σ.pc t = .finishing job) (hga : σ.graph = none) (hl : σ.latches job.id = some ws) :
    Graph ((σ.setLatch job.id ws).popJob t) := by
  set τ := σ.setLatch job.id ws with hτ
  have hsl := setLatch_popJob_view job.id ws hpc Pc.sleeper? (fun _ _ _ _ _ _ => rfl) rfl
  have hsn : ∀ u, ((τ.popJob t).pc u).snapshot? = (σ.pc u).snapshot? :=
    setLatch_popJob_view job.id ws hpc Pc.snapshot? (fun _ _ _ _ _ _ => rfl) rfl
  have hgr : (τ.popJob t).graph = none := (setLatch_frame (σ := σ) job.id ws).2.2.2.2.1.trans hga
  have hs : τ.edges.Sublist σ.edges := setLatch_edges_sublist job.id ws
  refine ⟨?_,?_,?_,?_,?_⟩
  · intro u n hu
    rw [hsn,hg.no_snapshot hga u] at hu
    cases hu
  · intro u hu
    cases hgr.symm.trans hu
  · intro a b
    rw [hsl]
    show (a,b) ∈ τ.edges ↔ ∃ n, _ ∧ τ.resumed n = false
    rw [hτ,setLatch_edges,hg.edge a b]
    refine ⟨?_,?_⟩
    · rintro ⟨⟨n,hn,hr⟩,hno⟩
      refine ⟨n,hn,?_⟩
      rw [← Bool.not_eq_true,setLatch_resumed,not_or]
      refine ⟨by simp [hr],fun hm => hno ?_⟩
      obtain ⟨x,hx,rfl⟩ := mem_map.mp hm
      have ht := h.distinct _ _ _ (h.waiters _ ws hl x hx).2.1 (Pc.waiter?_of_sleeper? hn)
      exact mem_map.mpr ⟨x,hx,ht⟩
    · rintro ⟨n,hn,hr⟩
      rw [← Bool.not_eq_true,setLatch_resumed,not_or] at hr
      refine ⟨⟨n,hn,by simpa using hr.1⟩,fun hm => hr.2 ?_⟩
      obtain ⟨x,hx,ht⟩ := mem_map.mp hm
      have hwt := (h.waiters _ ws hl x hx).2.1
      rw [show x.thread = a from ht,Pc.waiter?_of_sleeper? hn] at hwt
      exact mem_map.mpr ⟨x,hx,(some.inj hwt).symm⟩
  · exact (hs.map Prod.fst).nodup hg.nodup
  · exact hg.acyclic.mono fun a b hab => hs.subset hab

end

end Frontend.Query
