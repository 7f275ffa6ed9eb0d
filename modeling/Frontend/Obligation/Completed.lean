import Frontend.Library.Run
import Frontend.Obligation.Invariant

namespace Frontend.Obligation

open Library List Option

variable {σ O E K : Type}

namespace ObligationForest

variable {key : O → K} {P : Processor σ O E} {f f' : ObligationForest O E K} {s s' : σ}

abbrev Processing (key : O → K) (f : ObligationForest O E K) : Prop := Inv key (· ≠ .done) (fun _ => False) f

section

theorem Inv.reword (h : Inv key ok todo f) (index : Nat) (obligation : O) : Inv key ok todo
      { f with nodes := f.nodes.modify index fun n => { n with obligation := obligation } } := by
  have hre : Restate Eq f.nodes (f.nodes.modify index fun n => { n with obligation := obligation }) :=
    .modifyObligation (fun _ => rfl) index obligation
  exact h.restate hre (fun a b ha hb => hb ▸ ha) (h.upward.restate hre fun a b hb => by rw [hb])
    (fun b hb => hb.symm) (h.processed_of_restate hre fun a b hb hr => hb ▸ hr)

theorem Inv.succeed (h : Processing key f) (hno : f.nodes[index]? = some node) (hs : node.state = .pending) :
    Processing key ((f.setState index .success).record (.processed node.uid)) := by
  have hr := h.record (e := .processed node.uid) nofun nofun
    (by simpa [Event.uids] using h.fresh node (mem_of_getElem? hno)) (by simp [Failed])
  have hre : Restate (fun a b => b = a ∨ a = .pending ∧ b = .success) f.nodes
    (f.nodes.modify index (Node.setState .success)) :=
    .modify (fun _ => .inl rfl) index .success fun n hn => by
      cases hno.symm.trans hn
      exact .inr ⟨hs,rfl⟩
  refine hr.restate hre (fun a b ha hR => ?_) (hr.upward.restate hre fun a b hR => ?_)
    (fun b hR => ?_) fun n' hn' hra => ?_
  · rcases hR with rfl | ⟨-,rfl⟩
    · exact ha
    · simp
  · rcases hR with rfl | ⟨rfl,rfl⟩ <;> simp
  · rcases hR with rfl | ⟨hp,-⟩
    · rfl
    · simp at hp
  · obtain ⟨i,hi⟩ := mem_iff_getElem?.mp hn'
    have hm : (f.nodes.modify index (Node.setState .success))[i]? = some n' := hi
    simp only [getElem?_modify,Option.map_eq_map,Option.map_eq_some_iff] at hm
    obtain ⟨n,hn,rfl⟩ := hm
    by_cases hin : index = i
    · subst hin
      cases hno.symm.trans hn
      exact mem_append_right _ (by simp [Node.setState])
    · simp only [hin,if_false] at hra ⊢
      exact hr.processed n (mem_of_getElem? hn) hra

variable [DecidableEq K]

theorem processNode_spec (hno : f.nodes[index]? = some node)
    (hs : f.processNode key P s index node = some (f',s',changed)) : f.log <+: f'.log ∧
    (Processing key f → Processing key f') := by
  unfold processNode at hs
  split at hs
  · cases hs
    exact ⟨prefix_rfl,id⟩
  rename_i hrd
  have hst : node.state = .pending := by
    by_contra hne
    exact hrd (.inl hne)
  obtain ⟨⟨s1,obligation,result⟩,hrs⟩ : ∃ r, P.processObligation s node.obligation = r := ⟨_,rfl⟩
  simp only [hrs] at hs
  have hn' : (f.nodes.modify index fun n => { n with obligation := obligation })[index]? =
      some { node with obligation := obligation } := by
    simp [hno]
  cases result with
  | unchanged =>
    cases hs
    exact ⟨prefix_rfl,fun h => h.reword index obligation⟩
  | changed children =>
    simp only [bind_iff] at hs
    obtain ⟨f1,hc,hs⟩ := hs
    cases hs
    obtain ⟨hl,hi⟩ := registerChildren_spec (p := (· ≠ .done)) (by simp) (by simp) hc
    refine ⟨(prefix_append ..).trans hl,fun h => hi ?_⟩
    have hs := (h.reword index obligation).succeed hn' hst
    exact hs
  | error err =>
    simp only [bind_iff] at hs
    obtain ⟨⟨backtrace,f1⟩,he,hs⟩ := hs
    cases hs
    refine ⟨errorAt_log he ▸ prefix_append ..,fun h => ?_⟩
    have hr := h.reword index obligation
    have hw : Inv key (· ≠ .done) (· = index) _ :=
      { hr with upward := hr.upward.mono fun _ _ _ hj => hj.elim }
    obtain ⟨hin,hl,hnx,hre,hse⟩ := hw.errorAt (by simp) he
    have hm := mem_of_getElem? hno
    refine hin.record_error (forall_mem_singleton.mpr ?_) ?_ (forall_mem_singleton.mpr ?_)
    · rw [hnx]
      exact h.fresh node hm
    · intro n hn hu
      obtain ⟨i,hi⟩ := mem_iff_getElem?.mp hn
      obtain ⟨n0,hn0,heq,-⟩ := hre.back hi
      have hui : n0.uid = node.uid := by
        have h1 := mem_singleton.mp hu
        rwa [heq] at h1
      obtain rfl := hr.index_eq hn0 hn' hui
      exact hse n hi
    · rw [hl]
      exact h.live node hm

theorem processNodes_spec (hs : processNodes key P fuel f s index ha = some (f',s',changed)) :
    f.log <+: f'.log ∧ (Processing key f → Processing key f') := by
  induction fuel generalizing f s index ha with
  | zero => simp [processNodes] at hs
  | succ fuel ih =>
    unfold processNodes at hs
    split at hs
    · cases hs
      exact ⟨prefix_rfl,id⟩
    rename_i node hn
    simp only [bind_iff] at hs
    obtain ⟨⟨f1,s1,changed1⟩,ho,hr⟩ := hs
    obtain ⟨hl,hi⟩ := processNode_spec hn ho
    obtain ⟨hl',hi'⟩ := ih hr
    exact ⟨hl.trans hl',fun h => hi' (hi h)⟩

end

structure Settled (key : O → K) (f : ObligationForest O E K) : Prop where
  inv : Inv key (· ≠ .success) (fun _ => False) f
  blocked : Upward (· ≠ .done) (fun _ => False) f.nodes

theorem Inv.markSuccesses (h : Processing key f) (hm : f.markSuccesses = some f') :
    Processing key f' ∧ Upward (· ≠ .success) (fun _ => False) f'.nodes := by
  obtain ⟨heq,hup,hre⟩ := markSuccesses_spec hm h.upward h.states
  refine ⟨?_,hup⟩
  rw [heq]
  refine h.restate hre (fun a b ha hR => ?_) (h.upward.restate hre fun a b hR => ?_)
    (fun b hR => ?_) (h.processed_of_restate hre fun a b hR hb => ?_)
  · rcases hR with rfl | ⟨-,rfl | rfl⟩
    · exact ha
    · simp
    · simp
  · rcases hR with rfl | ⟨rfl | rfl,rfl | rfl⟩ <;> simp
  · rcases hR with rfl | ⟨hf | hf,-⟩
    · rfl
    · simp at hf
    · simp at hf
  · rcases hR with rfl | ⟨rfl | rfl,-⟩
    · exact hb
    · exact .inl rfl
    · exact .inr (.inl rfl)

theorem Inv.processCycles (h : Processing key f) (hup : Upward (· ≠ .success) (fun _ => False) f.nodes)
    (hc : f.processCycles P s = some (f',s')) (hno : NoBackedgeError f'.log) :
    Settled key f' := by
  obtain ⟨heq,hre,hnn⟩ := (processCycles_spec hc).2 hno
  have hin : Inv key (fun _ => True) (fun _ => False) f' := by
    rw [heq]
    refine h.restate hre (fun _ _ _ _ => trivial) (h.upward.restate hre fun a b hR => ?_)
      (fun b hR => ?_) (h.processed_of_restate hre fun a b hR hb => ?_)
    · rcases hR with rfl | ⟨rfl,rfl⟩ <;> simp
    · rcases hR with rfl | ⟨hf,-⟩
      · rfl
      · simp at hf
    · rcases hR with rfl | ⟨rfl,-⟩
      · exact hb
      · exact .inl rfl
  constructor
  · exact { hin with states := hnn }
  · -- every `Success` node has become `Done`, so the two closure properties are the same
    intro i n' j m' hn' hp hj hm'
    obtain ⟨n,hn,he,hRn⟩ := hre.back hn'
    obtain ⟨m,hm,-,hRm⟩ := hre.back hm'
    have hns : n.state ≠ .success := by
      intro hs
      rcases hRn with hsa | ⟨-,hd⟩
      · exact hnn n' (mem_of_getElem? hn') (hsa.trans hs)
      · exact hp hd
    rw [he] at hj
    have hmn := (hup i n j m hn hns hj hm).resolve_right id
    refine .inl ?_
    rcases hRm with hsa | ⟨hs,-⟩
    · rw [hsa]
      exact h.states m (mem_of_getElem? hm)
    · exact absurd hs hmn

theorem mapM_recordCompleted (ns : List (Node O)) :
    ns.mapM recordCompleted = some (ns.map fun n => (.completed n.uid n.obligation : Event O E)) := by
  induction ns with
  | nil => rfl
  | cons n ns ih => simp [mapM_cons,ih,recordCompleted]

theorem Settled.sub_done (h : Settled key f) (hn : n ∈ f.nodes) (hd : n.state = .done) (hs : Sub f.log n.uid c) :
    (∃ m ∈ f.nodes, m.state = .done ∧ m.uid = c) ∨ Completed f.log c := by
  refine (h.inv.subLive n hn c hs).imp_left ?_
  rintro ⟨m,hm,rfl⟩
  obtain ⟨i,hi⟩ := mem_iff_getElem?.mp hm
  obtain ⟨j,hj⟩ := mem_iff_getElem?.mp hn
  refine ⟨m,hm,?_,rfl⟩
  by_contra hne
  exact (h.blocked i m j n hi hne (h.inv.dependent i j m n hi hj hs) hj).resolve_right id hd

theorem Settled.compress [DecidableEq K] (h : Settled key f) (hcs : f.compress key recordCompleted = some f') :
    Processing key f' := by
  obtain ⟨⟨events,hev,hl⟩,hne,hcm,hca⟩ := compress_spec hcs
  rw [mapM_recordCompleted] at hev
  cases hev
  have hme m (hm : m ∈ f'.nodes) : ∃ n ∈ f.nodes, alive n ∧ m.uid = n.uid ∧ m.state = n.state := by
    obtain ⟨j,hj⟩ := mem_iff_getElem?.mp hm
    obtain ⟨i,n,hs⟩ := hcm.back j m hj
    exact ⟨n,mem_of_getElem? hs.old,hs.alive,hs.uid,hs.state⟩
  have hsr n (hn : n ∈ f.nodes) (ha : alive n) : ∃ m ∈ f'.nodes, m.uid = n.uid := by
    have hin := hcm.uids ▸ mem_map_of_mem (mem_filter.mpr ⟨hn,ha⟩)
    simpa using hin
  have hco u : Completed f'.log u ↔ Completed f.log u ∨ ∃ n ∈ f.nodes, n.state = .done ∧ n.uid = u := by
    simp only [Completed,hl,mem_append,List.mem_map,mem_filter,isDone,
      decide_eq_true_eq,Event.completed.injEq,exists_or,and_assoc]
    refine or_congr_right ⟨?_,?_⟩
    · rintro ⟨-,n,hn,hd,hu,-⟩
      exact ⟨n,hn,hd,hu⟩
    · rintro ⟨n,hn,hd,hu⟩
      exact ⟨_,n,hn,hd,hu,rfl⟩
  have hfa u : Failed f'.log u ↔ Failed f.log u := by
    simp [Failed,hl]
  have hsu p c : Sub f'.log p c ↔ Sub f.log p c := by
    simp [Sub,hl]
  have hpr u : Processed f'.log u ↔ Processed f.log u := by
    simp [Processed,hl]
  have hui n (hn : n ∈ f.nodes) m (hm : m ∈ f.nodes) (hu : n.uid = m.uid) : n = m := by
    obtain ⟨i,hi⟩ := mem_iff_getElem?.mp hn
    obtain ⟨j,hj⟩ := mem_iff_getElem?.mp hm
    obtain rfl := h.inv.index_eq hi hj hu
    simpa [hi] using hj
  have hnd : ∀ n : Node O, alive n → n.state ≠ .done := by
    intro n ha hd
    simp [alive,hd] at ha
  have hno : ∀ n : Node O, alive n → n.state ≠ .error := by
    intro n ha hd
    simp [alive,hd] at ha
  constructor
  case nodup =>
    rw [hcm.uids]
    exact h.inv.nodup.sublist (filter_sublist.map _)
  case fresh =>
    intro m hm
    obtain ⟨n,hn,-,hu,-⟩ := hme m hm
    rw [hu,hne]
    exact h.inv.fresh n hn
  case freshLog =>
    intro e he u hu
    rw [hne]
    rw [hl,mem_append] at he
    rcases he with he | he
    · exact h.inv.freshLog e he u hu
    · obtain ⟨n,hn,rfl⟩ := mem_map.mp he
      obtain rfl := mem_singleton.mp hu
      exact h.inv.fresh n (mem_filter.mp hn).1
  case bound => exact hcm.bound h.inv.bound
  case states =>
    intro m hm
    obtain ⟨n,-,ha,-,hs⟩ := hme m hm
    exact hs ▸ hnd n ha
  case live =>
    intro m hm
    obtain ⟨n,hn,ha,hu,-⟩ := hme m hm
    rw [hco,hu]
    rintro (hc | ⟨n',hn',hd,hu'⟩)
    · exact h.inv.live n hn hc
    · exact hnd n ha (hui n' hn' n hn hu' ▸ hd)
  case dependent =>
    intro i j n' m' hn' hm' hs
    obtain ⟨i0,n,hsn⟩ := hcm.back i n' hn'
    obtain ⟨j0,m,hsm⟩ := hcm.back j m' hm'
    rw [hsu,hsn.uid,hsm.uid] at hs
    have hde := h.inv.dependent i0 j0 n m hsn.old hsm.old hs
    exact hsm.index ▸ hsn.dependents j0 m hde hsm.old hsm.alive
  case subLive =>
    intro m' hm' c hs
    obtain ⟨m,hm,ha,hu,-⟩ := hme m' hm'
    rw [hsu,hu] at hs
    rw [hco]
    rcases h.inv.subLive m hm c hs with ⟨n,hn,rfl⟩ | hc
    · cases hsa : n.state with
      | pending => exact .inl (hsr n hn (by simp [alive,hsa]))
      | waiting => exact .inl (hsr n hn (by simp [alive,hsa]))
      | done => exact .inr (.inr ⟨n,hn,hsa,rfl⟩)
      | success => exact absurd hsa (h.inv.states n hn)
      | error =>
        obtain ⟨i,hi⟩ := mem_iff_getElem?.mp hn
        obtain ⟨j,hj⟩ := mem_iff_getElem?.mp hm
        have hde := h.inv.dependent i j n m hi hj hs
        exact absurd ((h.inv.upward i n j m hi hsa hde hj).resolve_right id) (hno m ha)
    · exact .inr (.inl hc)
  case subCompleted =>
    intro p c hs hp
    rw [hsu] at hs
    rw [hco] at hp ⊢
    rcases hp with hp | ⟨n,hn,hd,rfl⟩
    · exact .inl (h.inv.subCompleted p c hs hp)
    · exact (h.sub_done hn hd hs).symm
  case upward =>
    intro i n' j m' hn' hs
    obtain ⟨n,-,ha,-,hst⟩ := hme n' (mem_of_getElem? hn')
    exact absurd (hst.symm.trans hs) (hno n ha)
  case failedState =>
    intro m hm hf
    obtain ⟨n,hn,-,hu,hs⟩ := hme m hm
    rw [hfa,hu] at hf
    exact hs ▸ h.inv.failedState n hn hf
  case failedCompleted =>
    intro u hf
    rw [hfa] at hf
    rw [hco]
    rintro (hc | ⟨n,hn,hd,rfl⟩)
    · exact h.inv.failedCompleted u hf hc
    · simp [h.inv.failedState n hn hf] at hd
  case processed =>
    intro m hm hr
    obtain ⟨n,hn,-,hu,hs⟩ := hme m hm
    rw [hpr,hu]
    exact h.inv.processed n hn (hs ▸ hr)
  case completedProcessed =>
    intro u hu
    rw [hpr]
    rcases (hco u).mp hu with hc | ⟨n,hn,hd,rfl⟩
    · exact h.inv.completedProcessed u hc
    · exact h.inv.processed n hn (.inr (.inr hd))
  case cached =>
    intro c hc
    rcases hca c hc with hc | ⟨n,hn,hd,hk⟩
    · obtain ⟨u,o,hme,hk⟩ := h.inv.cached c hc
      exact ⟨u,o,by rw [hl]; exact mem_append_left _ hme,hk⟩
    refine ⟨n.uid,n.obligation,?_,hk⟩
    rw [hl]
    refine mem_append_right _ (mem_map_of_mem (mem_filter.mpr ⟨hn,?_⟩))
    simp [isDone,hd]

theorem markSuccesses_log (h : f.markSuccesses = some f') : f'.log = f.log := by
  simp only [markSuccesses,bind_iff] at h
  obtain ⟨ns',-,h⟩ := h
  cases h
  rfl

section

variable [DecidableEq K]

theorem processRound_spec (h : f.processRound key P fuel s = some (f',s',changed)) :
    f.log <+: f'.log ∧ (Processing key f → NoBackedgeError f'.log → Processing key f') := by
  simp only [processRound,bind_iff] at h
  obtain ⟨⟨f1,s1,ha⟩,hn,h⟩ := h
  obtain ⟨hg1,hpr⟩ := processNodes_spec hn
  cases ha with
  | false =>
    obtain ⟨rfl,-⟩ := Prod.mk.inj (some.inj h)
    exact ⟨hg1,fun hin _ => hpr hin⟩
  | true =>
    simp only [if_true,bind_iff] at h
    obtain ⟨f2,hm,⟨f3,s3⟩,hc,f4,hco,h⟩ := h
    obtain ⟨rfl,-⟩ := Prod.mk.inj (some.inj h)
    have hg3 := (processCycles_spec hc).1
    have hg4 : f3.log <+: f4.log := by
      obtain ⟨⟨events,-,hl⟩,-⟩ := compress_spec hco
      exact hl ▸ prefix_append ..
    rw [markSuccesses_log hm] at hg3
    refine ⟨(hg1.trans hg3).trans hg4,fun hin hno => ?_⟩
    obtain ⟨hma,hup⟩ := (hpr hin).markSuccesses hm
    exact (hma.processCycles hup hc (hno.of_prefix hg4)).compress hco

theorem Step.spec (h : Step key f f') : f.log <+: f'.log ∧
    (Processing key f → NoBackedgeError f'.log → Processing key f') := by
  cases h with
  | register obligation h =>
    simp only [registerObligation,bind_iff] at h
    obtain ⟨⟨fine,f1⟩,hr,h⟩ := h
    cases h
    obtain ⟨hl,hi⟩ := registerObligationAt_none_spec (p := (· ≠ .done)) (by simp) hr
    exact ⟨hl,fun hin _ => hi hin⟩
  | round P fuel s s' changed h => exact processRound_spec h

theorem processing_of_reachable (h : Reachable (· = new) (Step key) f) (hno : NoBackedgeError f.log) :
    Processing key f := by
  refine h.invariant (I := fun f => NoBackedgeError f.log → Processing key f) ?_ ?_ hno
  · rintro _ rfl _
    constructor <;> simp [new,Sub,Completed,Failed,Processed,Upward]
  · intro f g hf hs hno
    obtain ⟨hg,hk⟩ := hs.spec
    exact hk (hf (hno.of_prefix hg)) hno

omit [DecidableEq K] in
theorem Inv.completed_of_sub (h : Processing key f) (hu : Completed f.log u)
    (hsu : Relation.ReflTransGen (Sub f.log) u c) : Completed f.log c := by
  induction hsu with
  | refl => exact hu
  | tail _ hs ih => exact h.subCompleted _ _ hs ih

theorem completed_without_failed_sub (h : Reachable (· = new) (Step key) f) (hno : NoBackedgeError f.log) :
    (∀ u, Completed f.log u → Processed f.log u ∧ ∀ c, Relation.ReflTransGen (Sub f.log) u c → ¬ Failed f.log c) ∧
    ∀ k ∈ f.doneCache, ∃ u o, .completed u o ∈ f.log ∧ key o = k := by
  have hin := processing_of_reachable h hno
  refine ⟨fun u hu => ⟨hin.completedProcessed u hu,fun c hc hf => ?_⟩,hin.cached⟩
  exact hin.failedCompleted c hf (hin.completed_of_sub hu hc)

end

-- `0` needs `1`, and whatever is above `1` needs only done obligations.
def chain : Processor Unit Nat Unit where
  skippableObligations _ _ := 0
  needsProcessObligation _ _ := true
  processObligation s o := (s,o,.changed (if o = 0 then [1] else []))
  processBackedge s _ := (s,none)

-- `0` and `1` need each other, and the processor rejects the cycle.
def rejectedCycle : Processor Unit Nat Unit where
  skippableObligations _ _ := 0
  needsProcessObligation _ _ := true
  processObligation s o := (s,o,.changed [1 - o])
  processBackedge s _ := (s,some ())

def oneCall (P : Processor Unit Nat Unit) : Option (ObligationForest Nat Unit Nat) := do
  let f ← (new : ObligationForest Nat Unit Nat).registerObligation id 0
  let (f,_) ← f.processObligations id P 5 ()
  return f

theorem reachable_of_oneCall {P : Processor Unit Nat Unit} {f : ObligationForest Nat Unit Nat}
    (h : oneCall P = some f) : Reachable (· = new) (Step id) f := by
  simp only [oneCall,bind_iff] at h
  obtain ⟨f1,hr,⟨f2,s⟩,hc,h⟩ := h
  cases h
  exact ⟨new,rfl,.head (Step.register 0 hr) (steps_of_processObligations id P 5 f1 f2 () s hc)⟩

theorem log_chain : (oneCall chain).map ObligationForest.log =
    some [.processed 0,.sub 0 1,.processed 1,.completed 0 0,.completed 1 1] := by
  decide +kernel

theorem chain_completed : ∃ f : ObligationForest Nat Unit Nat, Reachable (· = new) (Step id) f ∧
    NoBackedgeError f.log ∧ Completed f.log 0 ∧ Sub f.log 0 1 ∧ ¬ Failed f.log 1 := by
  obtain ⟨f,hf,hl⟩ := map_eq_some_iff.mp log_chain
  have hno : NoBackedgeError f.log := by simp [NoBackedgeError,hl]
  have hc : Completed f.log 0 := ⟨0,by simp [hl]⟩
  have hs : Sub f.log 0 1 := by simp [Sub,hl]
  have hr := reachable_of_oneCall hf
  exact ⟨f,hr,hno,hc,hs,((completed_without_failed_sub hr hno).1 0 hc).2 1 (.single hs)⟩

theorem log_rejectedCycle : (oneCall rejectedCycle).map (fun f => (f.doneCache,f.log)) =
    some ([1,0],[.processed 0,.sub 0 1,.processed 1,.sub 1 0,.error [0,1] true () [0],.completed 0 0,
    .completed 1 1]) := by
  decide +kernel

theorem rejected_cycle_completed : ∃ f : ObligationForest Nat Unit Nat,
    Reachable (· = new) (Step id) f ∧ Completed f.log 0 ∧ 0 ∈ f.doneCache ∧
      Relation.TransGen (Sub f.log) 0 1 ∧ Relation.TransGen (Sub f.log) 0 0 ∧ Failed f.log 0 ∧
      Failed f.log 1 := by
  obtain ⟨f,hf,hr⟩ := map_eq_some_iff.mp log_rejectedCycle
  obtain ⟨hc,hl⟩ := Prod.mk.inj hr
  have hd : Sub f.log 0 1 := by simp [Sub,hl]
  have hup : Sub f.log 1 0 := by simp [Sub,hl]
  have hfa u (hu : u ∈ [0,1]) : Failed f.log u := ⟨[0,1],true,(),[0],hu,by simp [hl]⟩
  refine ⟨f,reachable_of_oneCall hf,⟨0,by simp [hl]⟩,by simp [hc],.single hd,.tail (.single hd) hup,
    hfa 0 (by simp),hfa 1 (by simp)⟩

end ObligationForest

end Frontend.Obligation
