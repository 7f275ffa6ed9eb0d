import Frontend.Obligation.Compress

namespace Frontend.Obligation

open Library List Option

variable {σ O E K : Type}

namespace ObligationForest

section

variable (log : List (Event O E))

def Processed (u : Nat) : Prop := .processed u ∈ log

def Sub (p c : Nat) : Prop := .sub p c ∈ log

def Completed (u : Nat) : Prop := ∃ o, .completed u o ∈ log

def Failed (u : Nat) : Prop := ∃ uids backedge err backtrace, u ∈ uids ∧ .error uids backedge err backtrace ∈ log

end

def Event.uids : Event O E → List Nat
  | .processed u => [u]
  | .sub p c => [p,c]
  | .error uids _ _ _ => uids
  | .completed u _ => [u]

def Ran (state : NodeState) : Prop := state = .success ∨ state = .waiting ∨ state = .done

structure Inv (key : O → K) (ok : NodeState → Prop) (todo : Nat → Prop) (f : ObligationForest O E K) : Prop where
  nodup : (f.nodes.map Node.uid).Nodup
  fresh : ∀ n ∈ f.nodes, n.uid < f.nextUid
  freshLog : ∀ e ∈ f.log, ∀ u ∈ Event.uids e, u < f.nextUid
  bound : ∀ n ∈ f.nodes, ∀ d ∈ n.dependents, d < f.nodes.length
  states : ∀ n ∈ f.nodes, ok n.state
  live : ∀ n ∈ f.nodes, ¬ Completed f.log n.uid
  dependent : ∀ (i j : Nat) (n m : Node O), f.nodes[i]? = some n → f.nodes[j]? = some m → Sub f.log m.uid n.uid →
    j ∈ n.dependents
  subLive : ∀ m ∈ f.nodes, ∀ c, Sub f.log m.uid c → (∃ n ∈ f.nodes, n.uid = c) ∨ Completed f.log c
  subCompleted : ∀ p c, Sub f.log p c → Completed f.log p → Completed f.log c
  upward : Upward (· = .error) todo f.nodes
  failedState : ∀ n ∈ f.nodes, Failed f.log n.uid → n.state = .error
  failedCompleted : ∀ u, Failed f.log u → ¬ Completed f.log u
  processed : ∀ n ∈ f.nodes, Ran n.state → Processed f.log n.uid
  completedProcessed : ∀ u, Completed f.log u → Processed f.log u
  cached : ∀ c ∈ f.doneCache, ∃ u o, .completed u o ∈ f.log ∧ key o = c

variable {key : O → K} {ok ok' : NodeState → Prop} {todo todo' : Nat → Prop} {f f' : ObligationForest O E K}

structure Renews (f : ObligationForest O E K) (ok : NodeState → Prop) (n n' : Node O) : Prop where
  uid : n'.uid = n.uid
  grows : n.dependents ⊆ n'.dependents
  bound : ∀ d ∈ n'.dependents, d < f.nodes.length
  ok : ok n'.state
  error : n.state = .error → n'.state = .error
  ran : Ran n'.state → Processed f.log n'.uid

theorem Inv.renode (h : Inv key ok todo f) (hl : ns.length = f.nodes.length)
    (hb : ∀ (i : Nat) (n' : Node O), ns[i]? = some n' → ∃ n, f.nodes[i]? = some n ∧ Renews f ok' n n')
    (hup : Upward (· = .error) todo' ns) :
    Inv key ok' todo' { f with nodes := ns } := by
  have hui : ns.map Node.uid = f.nodes.map Node.uid := by
    apply ext_getElem?
    intro i
    simp only [getElem?_map]
    cases hi : ns[i]? with
    | none =>
      rw [getElem?_eq_none_iff,hl] at hi
      simp [hi]
    | some n' =>
      obtain ⟨n,hn,hr⟩ := hb i n' hi
      simp [hn,hr.uid]
  have hm n' (hn' : n' ∈ ns) : ∃ n ∈ f.nodes, Renews f ok' n n' := by
    obtain ⟨i,hi⟩ := mem_iff_getElem?.mp hn'
    obtain ⟨n,hn,hr⟩ := hb i n' hi
    exact ⟨n,mem_of_getElem? hn,hr⟩
  refine ⟨hui ▸ h.nodup,?_,h.freshLog,?_,?_,?_,?_,?_,h.subCompleted,hup,?_,h.failedCompleted,?_,
    h.completedProcessed,h.cached⟩
  · intro n' hn'
    obtain ⟨n,hn,hr⟩ := hm n' hn'
    exact hr.uid ▸ h.fresh n hn
  · intro n' hn' d hd
    obtain ⟨n,-,hr⟩ := hm n' hn'
    exact hl ▸ hr.bound d hd
  · intro n' hn'
    obtain ⟨n,-,hr⟩ := hm n' hn'
    exact hr.ok
  · intro n' hn'
    obtain ⟨n,hn,hr⟩ := hm n' hn'
    exact hr.uid ▸ h.live n hn
  · intro i j n' m' hn' hm' hs
    obtain ⟨n,hn,hr⟩ := hb i n' hn'
    obtain ⟨m,hm,hr'⟩ := hb j m' hm'
    rw [hr.uid,hr'.uid] at hs
    exact hr.grows (h.dependent i j n m hn hm hs)
  · intro m' hm' c hs
    obtain ⟨m,hm,hr⟩ := hm m' hm'
    refine (h.subLive m hm c (hr.uid ▸ hs)).imp_left ?_
    rintro ⟨n,hn,rfl⟩
    exact mem_map.mp (hui ▸ mem_map_of_mem hn)
  · intro n' hn' hf
    obtain ⟨n,hn,hr⟩ := hm n' hn'
    exact hr.error (h.failedState n hn (hr.uid ▸ hf))
  · intro n' hn'
    obtain ⟨n,-,hr⟩ := hm n' hn'
    exact hr.ran

theorem Inv.restate (h : Inv key ok todo f) (hre : Restate R f.nodes ns)
    (hok : ∀ a b, ok a → R a b → ok' b) (hup : Upward (· = .error) todo' ns)
    (her : ∀ b, R .error b → b = .error)
    (hp : ∀ n ∈ ns, Ran n.state → Processed f.log n.uid) :
    Inv key ok' todo' { f with nodes := ns } := by
  refine h.renode hre.1 (fun i n' hn' => ?_) hup
  obtain ⟨n,hn,heq,hR⟩ := hre.back hn'
  have hd : n'.dependents = n.dependents := by rw [heq]; rfl
  have hm := mem_of_getElem? hn
  exact ⟨n,hn,by rw [heq]; rfl,hd ▸ Subset.refl _,hd ▸ h.bound n hm,hok _ _ (h.states n hm) hR,
    fun he => her _ (he ▸ hR),hp n' (mem_of_getElem? hn')⟩

theorem Inv.processed_of_restate (h : Inv key ok todo f) (hre : Restate R f.nodes ns)
    (hR : ∀ a b, R a b → Ran b → Ran a) :
    ∀ n ∈ ns, Ran n.state → Processed f.log n.uid := by
  intro n' hn' hr
  obtain ⟨i,hi⟩ := mem_iff_getElem?.mp hn'
  obtain ⟨n,hn,heq,hRn⟩ := hre.back hi
  rw [heq]
  exact h.processed n (mem_of_getElem? hn) (hR _ _ hRn hr)

theorem Inv.errorAt (h : Inv key ok (· = index) f) (hok : ok .error) (he : f.errorAt index = some (trace,f')) :
    Inv key ok (fun _ => False) f' ∧ f'.log = f.log ∧ f'.nextUid = f.nextUid ∧
      Restate toError f.nodes f'.nodes ∧ ∀ n, f'.nodes[index]? = some n → n.state = .error := by
  obtain ⟨heq,hup,hre,hs⟩ := errorAt_spec he h.upward
  refine ⟨?_,by rw [heq],by rw [heq],hre,hs⟩
  rw [heq]
  refine h.restate hre (fun a b ha hR => ?_) hup (fun b hb => toError_error hb)
    (h.processed_of_restate hre fun a b hR hb => ?_)
  · rcases hR with rfl | rfl
    · exact ha
    · exact hok
  · rcases hR with rfl | rfl
    · exact hb
    · simp [Ran] at hb

theorem Inv.index_eq (h : Inv key ok todo f) {i j : Nat}
    (hn : f.nodes[i]? = some n) (hm : f.nodes[j]? = some m) (hu : n.uid = m.uid) : i = j := by
  refine (getElem?_inj (by simpa using (lt_of_getElem? hn)) h.nodup).mp ?_
  simp [hn,hm,hu]

theorem Inv.record {e : Event O E} (h : Inv key ok todo f) (hs : ∀ p c, e = .sub p c → ∃ (i j : Nat) (n m : Node O),
    f.nodes[i]? = some n ∧
      f.nodes[j]? = some m ∧ m.uid = p ∧ n.uid = c ∧ j ∈ n.dependents) (hc : ∀ u o, e ≠ .completed u o)
    (hfr : ∀ u ∈ Event.uids e, u < f.nextUid)
    (hfa : ∀ u, Failed [e] u → ¬ Completed f.log u ∧ ∀ n ∈ f.nodes, n.uid = u → n.state = .error) :
    Inv key ok todo (f.record e) := by
  have hsu p c : Sub (f.record e).log p c ↔ Sub f.log p c ∨ e = .sub p c := by
    simp [Sub,ObligationForest.record,eq_comm]
  have hco u : Completed (f.record e).log u ↔ Completed f.log u := by
    simp [Completed,ObligationForest.record,fun o => (hc u o).symm]
  have hfl : ∀ u, Failed (f.record e).log u → Failed f.log u ∨ Failed [e] u := by
    rintro u ⟨uids,b,err,bt,hu,hm⟩
    exact (mem_append.mp hm).imp (⟨uids,b,err,bt,hu,·⟩) (⟨uids,b,err,bt,hu,·⟩)
  constructor
  case freshLog => exact forall_mem_append.mpr ⟨h.freshLog,forall_mem_singleton.mpr hfr⟩
  case failedState =>
    intro n hn hf
    exact (hfl n.uid hf).elim (h.failedState n hn) fun hf => (hfa n.uid hf).2 n hn rfl
  case failedCompleted =>
    intro u hf
    rw [hco]
    exact (hfl u hf).elim (h.failedCompleted u) fun hf => (hfa u hf).1
  case processed => exact fun n hn hr => mem_append_left _ (h.processed n hn hr)
  case completedProcessed => exact fun u hu => mem_append_left _ (h.completedProcessed u ((hco u).mp hu))
  case cached =>
    intro c hc
    obtain ⟨u,o,hm,hk⟩ := h.cached c hc
    exact ⟨u,o,mem_append_left _ hm,hk⟩
  case nodup => exact h.nodup
  case fresh => exact h.fresh
  case bound => exact h.bound
  case states => exact h.states
  case upward => exact h.upward
  all_goals simp only [hsu,hco]
  case live => exact h.live
  case dependent =>
    rintro i j n m hn hm (hsu | he)
    · exact h.dependent i j n m hn hm hsu
    · obtain ⟨i',j',n',m',hn',hm',hp,hc,hd⟩ := hs _ _ he
      obtain rfl := h.index_eq hn' hn hc
      obtain rfl := h.index_eq hm' hm hp
      cases hn.symm.trans hn'
      exact hd
  case subLive =>
    rintro m hm c (hsu | he)
    · exact h.subLive m hm c hsu
    · obtain ⟨i,j,n,m',hn,-,-,hc,-⟩ := hs _ _ he
      exact .inl ⟨n,mem_of_getElem? hn,hc⟩
  case subCompleted =>
    rintro p c (hsu | he) hp
    · exact h.subCompleted p c hsu hp
    · obtain ⟨i,j,n,m,-,hm,rfl,-⟩ := hs _ _ he
      exact absurd hp (h.live m (mem_of_getElem? hm))

theorem Inv.record_sub {i j : Nat} (h : Inv key ok todo f) (hn : f.nodes[i]? = some n) (hm : f.nodes[j]? = some m)
    (hd : j ∈ n.dependents) :
    Inv key ok todo (f.record (.sub m.uid n.uid)) := by
  refine h.record (fun p c he => ?_) nofun ?_ (by simp [Failed])
  · cases he
    exact ⟨i,j,n,m,hn,hm,rfl,rfl,hd⟩
  · exact forall_mem_cons.mpr ⟨h.fresh m (mem_of_getElem? hm),forall_mem_singleton.mpr (h.fresh n (mem_of_getElem? hn))⟩

theorem Inv.record_error (h : Inv key ok todo f) (hfr : ∀ u ∈ uids, u < f.nextUid)
    (hst : ∀ n ∈ f.nodes, n.uid ∈ uids → n.state = .error)
    (hc : ∀ u ∈ uids, ¬ Completed f.log u) :
    Inv key ok todo (f.record (.error uids backedge err backtrace)) := by
  refine h.record nofun nofun hfr fun u hf => ?_
  have hu : u ∈ uids := by simpa [Failed] using hf
  exact ⟨hc u hu,fun n hn hnu => hst n hn (hnu ▸ hu)⟩

section

variable {index parent : Nat}

theorem addDependent_spec (h : f.addDependent index parent = some f') :
    ∃ node parentNode ns, f.nodes[index]? = some node ∧ f.nodes[parent]? = some parentNode ∧
      f' = { f with nodes := ns }.record (.sub parentNode.uid node.uid) ∧ ns.length = f.nodes.length ∧
      ∀ (i : Nat) (n' : Node O), ns[i]? = some n' → ∃ n, f.nodes[i]? = some n ∧
      n' = { n with dependents := n'.dependents } ∧
        ∀ j, j ∈ n'.dependents ↔ j ∈ n.dependents ∨ i = index ∧ j = parent := by
  simp only [addDependent,bind_iff] at h
  obtain ⟨node,hno,parentNode,hp,h⟩ := h
  cases h
  refine ⟨node,parentNode,_,hno,hp,rfl,?_,fun i n' hn' => ?_⟩
  · split <;> simp
  split at hn'
  case isTrue hm =>
    refine ⟨n',hn',rfl,fun j => ⟨.inl,?_⟩⟩
    rintro (hj | ⟨rfl,rfl⟩)
    · exact hj
    · cases hno.symm.trans hn'
      exact hm
  case isFalse =>
    rw [getElem?_modify] at hn'
    obtain ⟨n,hn,rfl⟩ := map_eq_some_iff.mp hn'
    refine ⟨n,hn,?_⟩
    by_cases hi : index = i
    · simp [hi]
    · simp [hi,Ne.symm hi]

theorem Inv.addDependent {node : Node O} (h : Inv key ok (fun _ => False) f)
    (hno : f.nodes[index]? = some node) (ha : f.addDependent index parent = some f') :
    Inv key ok (fun j => node.state = .error ∧ j = parent) f' := by
  obtain ⟨node',parentNode,ns,hno',hpa,rfl,hle,hb⟩ := addDependent_spec ha
  cases hno.symm.trans hno'
  have hi : Inv key ok (fun j => node.state = .error ∧ j = parent) { f with nodes := ns } := by
    refine h.renode hle (fun i n' hn' => ?_) fun i n' j m' hn' hs hj hm' => ?_
    · obtain ⟨n,hn,hen,hde⟩ := hb i n' hn'
      have hm := mem_of_getElem? hn
      have hu : n'.uid = n.uid := by rw [hen]
      have hs : n'.state = n.state := by rw [hen]
      refine ⟨n,hn,hu,fun d hd => (hde d).mpr (.inl hd),fun d hd => ?_,hs ▸ h.states n hm,hs.trans,
        hu ▸ hs ▸ h.processed n hm⟩
      rcases (hde d).mp hd with hd | ⟨-,rfl⟩
      · exact h.bound n hm d hd
      · exact lt_of_getElem? hpa
    · obtain ⟨n,hn,hen,hde⟩ := hb i n' hn'
      obtain ⟨m,hm,hem,-⟩ := hb j m' hm'
      have hst : n.state = .error := by rwa [hen] at hs
      rcases (hde j).mp hj with hj | ⟨rfl,rfl⟩
      · refine .inl ?_
        rw [hem]
        exact (h.upward i n j m hn hst hj hm).resolve_right id
      · cases hno.symm.trans hn
        exact .inr ⟨hst,rfl⟩
  have hat {i : Nat} {n : Node O} (hn : f.nodes[i]? = some n) : ∃ n', ns[i]? = some n' ∧ n'.uid = n.uid ∧
      (i = index → parent ∈ n'.dependents) := by
    have hlt := hle ▸ (lt_of_getElem? hn)
    obtain ⟨n1,hn1,hen,hde⟩ := hb i _ (getElem?_eq_getElem hlt)
    cases hn.symm.trans hn1
    exact ⟨_,getElem?_eq_getElem hlt,by rw [hen],fun hi => (hde parent).mpr (.inr ⟨hi,rfl⟩)⟩
  obtain ⟨n',hn',hu,hd⟩ := hat hno
  obtain ⟨m',hm',hu',-⟩ := hat hpa
  exact hu ▸ hu' ▸ hi.record_sub hn' hm' (hd rfl)

theorem Inv.push (node : Node O) (h : Inv key ok todo f) (hok : ok node.state) (hui : node.uid = f.nextUid)
    (hst : node.state = .pending) (hde : ∀ d ∈ node.dependents, d < f.nodes.length)
    (hno : f'.nodes = f.nodes ++ [node]) (hl : f'.log = f.log)
    (hnx : f'.nextUid = f.nextUid + 1) (hca : f'.doneCache = f.doneCache) :
    Inv key ok todo f' := by
  have hnt : ∀ e ∈ f.log, f.nextUid ∉ Event.uids e := fun e he hu => Nat.lt_irrefl _ (h.freshLog e he _ hu)
  constructor <;> simp only [hno,hl,hnx,hca,forall_mem_append,forall_mem_singleton]
  case nodup =>
    rw [map_append,nodup_append]
    refine ⟨h.nodup,by simp,?_⟩
    intro u hu v hv
    obtain ⟨n,hn,rfl⟩ := mem_map.mp hu
    obtain rfl : v = f.nextUid := by simpa [hui] using hv
    exact Nat.ne_of_lt (h.fresh n hn)
  case fresh => exact ⟨fun n hn => Nat.lt_succ_of_lt (h.fresh n hn),hui ▸ Nat.lt_succ_self _⟩
  case freshLog => exact fun e he v hv => Nat.lt_succ_of_lt (h.freshLog e he v hv)
  case bound =>
    rw [length_append]
    exact ⟨fun n hn d hd => Nat.lt_add_right _ (h.bound n hn d hd),fun d hd => Nat.lt_add_right _ (hde d hd)⟩
  case states => exact ⟨h.states,hok⟩
  case live => exact ⟨h.live,fun ⟨o,ho⟩ => hnt _ ho (by simp [Event.uids,hui])⟩
  case dependent =>
    intro i j n m hn hm hs
    rcases getElem?_concat.mp hn with hn | ⟨-,rfl⟩
    · rcases getElem?_concat.mp hm with hm | ⟨-,rfl⟩
      · exact h.dependent i j n m hn hm hs
      · exact absurd (by simp [Event.uids,hui]) (hnt _ hs)
    · exact absurd (by simp [Event.uids,hui]) (hnt _ hs)
  case subLive =>
    refine ⟨fun m hm c hs => (h.subLive m hm c hs).imp_left ?_,fun c hs => absurd (by simp [Event.uids,hui]) (hnt _ hs)⟩
    rintro ⟨n,hn,rfl⟩
    exact ⟨n,mem_append_left _ hn,rfl⟩
  case subCompleted => exact h.subCompleted
  case upward =>
    intro i n j m hn hs hj hm
    rcases getElem?_concat.mp hn with hol | ⟨-,rfl⟩
    · have hb := h.bound n (mem_of_getElem? hol) j hj
      rcases getElem?_concat.mp hm with hm | ⟨rfl,-⟩
      · exact h.upward i n j m hol hs hj hm
      · exact absurd hb (Nat.lt_irrefl _)
    · simp [hst] at hs
  case failedState => exact ⟨h.failedState,fun ⟨uids,b,e,bt,hu,hm⟩ => absurd (hui ▸ hu) (hnt _ hm)⟩
  case failedCompleted => exact h.failedCompleted
  case processed => exact ⟨h.processed,by simp [Ran,hst]⟩
  case completedProcessed => exact h.completedProcessed
  case cached => exact h.cached

variable [DecidableEq K]

theorem registerObligationAt_none_spec (hok : p .pending)
    (hr : f.registerObligationAt key obligation none = some (fresh,f')) : f.log <+: f'.log ∧
    (Inv key p todo f → Inv key p todo f') := by
  unfold registerObligationAt at hr
  split at hr
  · cases hr
    exact ⟨prefix_rfl,id⟩
  cases ha : f.activeCache.lookup (key obligation) with
  | some index =>
    simp only [ha,bind_iff] at hr
    obtain ⟨node,-,hr⟩ := hr
    cases hr
    exact ⟨prefix_rfl,id⟩
  | none =>
    simp only [ha] at hr
    cases hr
    exact ⟨prefix_rfl,fun h =>
      h.push (Node.new none obligation f.nextTreeId f.nextUid) hok rfl rfl nofun rfl rfl rfl rfl⟩

theorem registerObligationAt_some_spec (hok : ok .pending)
    (hr : f.registerObligationAt key obligation (some parent) = some (fine,f')) :
    f.log <+: f'.log ∧ (Inv key ok (fun _ => False) f → Inv key ok (fun j => fine = false ∧ j = parent) f') := by
  have hw : ∀ b : Bool, Inv key ok (fun _ => False) f → Inv key ok (fun j => b = false ∧ j = parent) f := fun b h =>
    { h with upward := h.upward.mono fun _ _ _ hj => hj.elim }
  unfold registerObligationAt at hr
  split at hr
  · cases hr
    exact ⟨prefix_rfl,hw _⟩
  cases ha : f.activeCache.lookup (key obligation) with
  | some index =>
    simp only [ha,bind_iff] at hr
    obtain ⟨node,hn,f1,had,hr⟩ := hr
    cases hr
    refine ⟨?_,fun h => by simpa using h.addDependent hn had⟩
    obtain ⟨_,_,_,-,-,rfl,-⟩ := addDependent_spec had
    exact prefix_append ..
  | none =>
    simp only [ha,bind_iff] at hr
    obtain ⟨parentNode,hp,hr⟩ := hr
    split at hr
    · cases hr
      exact ⟨prefix_rfl,hw _⟩
    · cases hr
      have hlt := lt_of_getElem? hp
      refine ⟨prefix_append ..,fun h => ?_⟩
      have hi : Inv key ok _ (f.pushNode key obligation (some parent) parentNode.obligationTreeId) :=
        (hw true h).push (Node.new (some parent) obligation parentNode.obligationTreeId f.nextUid) hok rfl rfl
          (by simpa [Node.new] using hlt) rfl rfl rfl rfl
      exact hi.record_sub (getElem?_concat.mpr (.inr ⟨rfl,rfl⟩)) ((getElem?_append_left hlt).trans hp)
        (by simp [Node.new])

theorem registerChildren_spec {children : List O} {p : NodeState → Prop} (hp : p .pending) (her : p .error)
    (hr : children.foldlM (registerChild key index) f = some f') :
    f.log <+: f'.log ∧ (Inv key p (fun _ => False) f → Inv key p (fun _ => False) f') := by
  induction children generalizing f with
  | nil =>
    cases hr
    exact ⟨prefix_rfl,id⟩
  | cons child children ih =>
    simp only [foldlM_cons,registerChild,bind_iff] at hr
    obtain ⟨f1,⟨⟨fine,f2⟩,ho,he⟩,hr⟩ := hr
    obtain ⟨hl,hin⟩ := registerObligationAt_some_spec hp ho
    obtain ⟨hl',hi'⟩ := ih hr
    cases fine with
    | true =>
      cases he
      exact ⟨hl.trans hl',fun h => hi' { hin h with upward := (hin h).upward.mono fun _ _ _ hj => by simp at hj }⟩
    | false =>
      simp only [Bool.false_eq_true,if_false,bind_iff] at he
      obtain ⟨⟨trace,f3⟩,he,hrt⟩ := he
      cases hrt
      refine ⟨hl.trans (errorAt_log he ▸ hl'),fun h => hi' ?_⟩
      have hi : Inv key p (· = index) f2 := { hin h with upward := (hin h).upward.mono fun _ _ _ hj => .inr hj.2 }
      exact (hi.errorAt her he).1

end

end ObligationForest

end Frontend.Obligation
