import Frontend.Scc.FindState

namespace Frontend.Scc

open Library List Option

variable {A : Type}

inductive Status where
  | white
  | active (depth : Nat)
  | done (scc : Nat)
  deriving DecidableEq

def RootOk (c : Construction A) (own : Nat → A) (st : Nat → Status) (v : Nat) (ps : List Nat) (r : Nat) :
    NodeState A → Prop
  | .notVisited => st v = .white ∧ ps = []
  | .beingVisited d a => st v = .active d ∧ c.nodeStack[d]? = some r ∧ a = own r
  | .inCycle s a => st v = .done s ∧ (s,a) ∈ c.annotated
  | .inCycleWith _ => False

structure Rep (n : Nat) (own : Nat → A) (c : Construction A) (st : Nat → Status) : Prop where
  length : c.nodeStates.length = n
  status : ∀ v < n, ∃ ps r s, Leads c.nodeStates v ps r ∧ c.nodeStates[r]? = some s ∧ RootOk c own st v ps r s
  stack : ∀ d r : Nat, c.nodeStack[d]? = some r → c.nodeStates[r]? = some (.beingVisited d (own r))

variable {n : Nat} {own : Nat → A} {c : Construction A} {st : Nat → Status}

theorem RootOk.mono (h : RootOk c own st v ps r s) (hst : st' v = st v)
    (hs : ∀ d a, s = .beingVisited d a → c.nodeStack[d]? = some r → c'.nodeStack[d]? = some r)
    (ha : ∀ x ∈ c.annotated, x ∈ c'.annotated) : RootOk c' own st' v ps r s := by
  cases s with
  | notVisited => exact ⟨hst.trans h.1,h.2⟩
  | beingVisited d a => exact ⟨hst.trans h.1,hs d a rfl h.2.1,h.2.2⟩
  | inCycle s a => exact ⟨hst.trans h.1,ha _ h.2⟩
  | inCycleWith p => exact h.elim

namespace Rep

theorem start (G : Graph) : Rep G.numNodes own (G.construction : Construction A) (fun _ => .white) where
  length := by simp [Graph.construction]
  status v hv := by
    have hs : (G.construction : Construction A).nodeStates[v]? = some .notVisited := by simp [Graph.construction,hv]
    exact ⟨[],v,.notVisited,.root hs (by simp),hs,rfl,rfl⟩
  stack d r hr := by simp [Graph.construction] at hr

variable {r v : Nat}

theorem stack_active (h : Rep n own c st) (hr : c.nodeStack[d]? = some r) : r < n ∧ st r = .active d := by
  have hst := h.stack d r hr
  have hlt : r < n := h.length ▸ (lt_of_getElem? hst)
  refine ⟨hlt,?_⟩
  obtain ⟨ps,r',s,hl,hs,hok⟩ := h.status r hlt
  obtain ⟨-,rfl⟩ := hl.unique (.root hst (by simp))
  obtain rfl : _ = s := mem_unique hst hs
  exact hok.1

theorem inj (h : Rep n own c st) {d d' : Nat} (hr : c.nodeStack[d]? = some r) (hr' : c.nodeStack[d']? = some r) :
    d = d' := by
  have heq := mem_unique (h.stack d r hr) (h.stack d' r hr')
  exact (NodeState.beingVisited.inj heq).1

theorem notVisited (h : Rep n own c st) (hv : v < n) (hw : st v = .white) : c.nodeStates[v]? = some .notVisited := by
  obtain ⟨ps,r,s,hl,hs,hok⟩ := h.status v hv
  cases s with
  | notVisited =>
    obtain ⟨-,rfl⟩ := hok
    cases hl
    exact hs
  | beingVisited d a => exact absurd (hok.1.symm.trans hw) (by simp)
  | inCycle s a => exact absurd (hok.1.symm.trans hw) (by simp)
  | inCycleWith p => exact hok.elim

theorem compress (h : Rep n own c st) (hl : Leads c.nodeStates v ps r) (hs : c.nodeStates[r]? = some s)
    (hc : Compressed c.nodeStates states ps assigned)
    (ha : assigned = s ∧ (∀ p, s ≠ .inCycleWith p) ∧ (∀ d a, s ≠ .beingVisited d a) ∨ assigned = .inCycleWith r) :
    Rep n own { c with nodeStates := states } st := by
  have hr := (hc.rest r hl.root_not_mem).trans hs
  have hn : ∀ p, s ≠ .inCycleWith p := by
    obtain ⟨s',hs',hne⟩ := hl.root_state
    obtain rfl : s = s' := mem_unique hs hs'
    exact hne
  refine ⟨hc.length.trans h.length,fun u hu => ?_,fun d r' hr' => ?_⟩
  · obtain ⟨qs,r',s',hl',hs',hok⟩ := h.status u hu
    have hnw : ∃ qs' r'', Leads states u qs' r'' ∧ states[r'']? = some s' ∧
        (r'' = r' ∨ ∀ d a, s' ≠ .beingVisited d a) ∧ (qs = [] → qs' = []) := by
      clear hok hu
      induction hl' with
      | @root u s0 hs0 hr0 =>
        obtain rfl : s0 = s' := mem_unique hs0 hs'
        have hsa := (hc.rest u (hl.not_mem hs0 hr0)).trans hs0
        exact ⟨[],u,.root hsa hr0,hsa,.inl rfl,fun _ => rfl⟩
      | @link u p r0 qs hli hre ih =>
        by_cases hu : u ∈ ps
        · obtain ⟨qs',hqs',-,-⟩ := hl.suffix hu
          obtain ⟨-,rfl⟩ := hqs'.unique (.link hli hre)
          obtain rfl : s = s' := mem_unique hs hs'
          have hp := hc.path u hu
          rcases ha with ⟨rfl,hne,hv⟩ | rfl
          · exact ⟨[],u,.root hp hne,hp,.inr hv,by simp⟩
          · exact ⟨[u],r,.link hp (.root hr hn),hr,.inl rfl,by simp⟩
        · obtain ⟨qs',r'',hl'',hs'',hor,-⟩ := ih hs'
          exact ⟨u :: qs',r'',.link ((hc.rest u hu).trans hli) hl'',hs'',hor,by simp⟩
    obtain ⟨qs',r'',hl'',hs'',hor,hni⟩ := hnw
    refine ⟨qs',r'',s',hl'',hs'',?_⟩
    cases s' with
    | notVisited => exact ⟨hok.1,hni hok.2⟩
    | beingVisited d a =>
      obtain rfl := hor.resolve_right fun hne => hne d a rfl
      exact hok
    | inCycle s a => exact hok
    | inCycleWith p => exact hok.elim
  · have hst := h.stack d r' hr'
    exact (hc.rest r' (hl.not_mem hst nofun)).trans hst

def Inspected (c : Construction A) (own : Nat → A) : Status → Option (WalkReturn A) → Prop
  | .white, walk => walk = none
  | .active d, walk => ∃ r, c.nodeStack[d]? = some r ∧ walk = some (.cycle d (own r))
  | .done s, walk => ∃ a, (s,a) ∈ c.annotated ∧ walk = some (.complete s a)

theorem inspectNode (h : Rep n own c st) (hv : v < n) :
    ∃ walk states, inspectNode c v = some (walk,{ c with nodeStates := states }) ∧
      Rep n own { c with nodeStates := states } st ∧ Inspected c own (st v) walk := by
  obtain ⟨ps,r,s,hl,hs,hok⟩ := h.status v hv
  cases s with
  | notVisited =>
    obtain ⟨hst,rfl⟩ := hok
    cases hl
    refine ⟨none,c.nodeStates,?_,h,?_⟩
    · simp [Scc.inspectNode,findState,descend,hs]
    · rw [hst]
      rfl
  | beingVisited d a =>
    obtain ⟨hst,hsc,rfl⟩ := hok
    obtain ⟨states,hf,hc⟩ : ∃ states, _ ∧ Compressed c.nodeStates states ps (.inCycleWith r) :=
      findState_compressed hl (s := .beingVisited d (own r)) fun _ _ _ he => by
        rw [descend,he,hs]
        simp [hsc]
    refine ⟨some (.cycle d (own r)),states,?_,h.compress hl hs hc (.inr rfl),?_⟩
    · simp [Scc.inspectNode,hf]
    · rw [hst]
      exact ⟨r,hsc,rfl⟩
  | inCycle s a =>
    obtain ⟨hst,ha⟩ := hok
    obtain ⟨states,hf,hc⟩ := findState_compressed hl fun _ _ _ he => by rw [descend,he,hs]
    refine ⟨some (.complete s a),states,?_,h.compress hl hs hc (.inl ⟨rfl,by simp,by simp⟩),?_⟩
    · simp [Scc.inspectNode,hf]
    · rw [hst]
      exact ⟨a,ha,rfl⟩
  | inCycleWith p => exact hok.elim

section

variable {v d : Nat} {stack : List Nat}

theorem enter (h : Rep n own c st) (hv : v < n) (hw : st v = .white) : Rep n own { c with
      nodeStates := c.nodeStates.set v (.beingVisited c.nodeStack.length (own v))
      nodeStack := c.nodeStack ++ [v] }
      (Function.update st v (.active c.nodeStack.length)) := by
  have hst := h.notVisited hv hw
  have hse : (c.nodeStates.set v (.beingVisited c.nodeStack.length (own v)))[v]? =
    some (.beingVisited c.nodeStack.length (own v)) :=
    getElem?_set_self (h.length ▸ hv)
  have hk : ∀ d r : Nat, c.nodeStack[d]? = some r → (c.nodeStack ++ [v])[d]? = some r :=
    fun _ _ hr => getElem?_concat.mpr (.inl hr)
  refine ⟨by simp [h.length],fun u hu => ?_,fun d r hr => ?_⟩
  · by_cases huv : u = v
    · subst huv
      refine ⟨[],u,_,.root hse (by simp),hse,?_,?_,rfl⟩
      · simp
      · simp
    · obtain ⟨ps,r,s,hl,hs,hok⟩ := h.status u hu
      have hvr : v ≠ r := by
        rintro rfl
        obtain rfl : _ = s := mem_unique hst hs
        obtain ⟨-,rfl⟩ := hok
        cases hl
        exact huv rfl
      exact ⟨ps,r,s,hl.set (hl.not_mem hst nofun) hvr,(getElem?_set_ne hvr).trans hs,
        hok.mono (Function.update_of_ne huv _ _) (fun d _ _ => hk d r) fun _ => id⟩
  · rcases getElem?_concat.mp hr with hr | ⟨rfl,rfl⟩
    · have hvr : v ≠ r := by
        rintro rfl
        exact absurd (h.stack d v hr) (by simp [hst])
      exact (getElem?_set_ne hvr).trans (h.stack d r hr)
    · exact hse

def settle (st : Nat → Status) (d : Nat) (new : Status) (u : Nat) : Status :=
  if st u = .active d then new else st u

theorem settle_of_eq (h : st u = .active d) : settle st d new u = new := by simp [settle,h]

theorem settle_of_ne (h : st u ≠ .active d) : settle st d new u = st u := by simp [settle,h]

theorem dropLast_stack (hr : (stack ++ [v])[d]? = some r) (hd : d ≠ stack.length) : stack[d]? = some r :=
  (getElem?_concat.mp hr).resolve_right fun h => hd h.1

theorem pop {status : Status} (h : Rep n own c st) (hsc : c.nodeStack = stack ++ [v])
    (hss : c'.nodeStates = c.nodeStates.set v new)
    (hst' : c'.nodeStack = stack) (ha : ∀ x ∈ c.annotated, x ∈ c'.annotated)
    (ht : ∀ u ps, Leads c.nodeStates u ps v → v ∉ ps → ∃ ps' r s, Leads c'.nodeStates u ps' r ∧
    c'.nodeStates[r]? = some s ∧
        (settle st stack.length status u = status → RootOk c' own (settle st stack.length status) u ps' r s)) :
    Rep n own c' (settle st stack.length status) := by
  have he : c.nodeStack[stack.length]? = some v := by simp [hsc]
  have hsa := h.stack _ _ he
  refine ⟨by simp [hss,h.length],fun u hu => ?_,fun d r hr => ?_⟩
  · obtain ⟨ps,r,s,hl,hs,hok⟩ := h.status u hu
    have hv := hl.not_mem hsa nofun
    by_cases hvr : v = r
    · subst hvr
      obtain rfl : _ = s := mem_unique hsa hs
      obtain ⟨ps',r',s',hl',hs',hok'⟩ := ht u ps hl hv
      exact ⟨ps',r',s',hl',hs',hok' (settle_of_eq hok.1)⟩
    · rw [hss]
      have hd (d : Nat) (a : A) (hs : s = .beingVisited d a) : d ≠ stack.length := by
        rintro rfl
        subst hs
        exact hvr (mem_unique he hok.2.1)
      refine ⟨ps,r,s,hl.set hv hvr,(getElem?_set_ne hvr).trans hs,hok.mono (settle_of_ne fun hst => ?_)
        (fun d a hs hr => hst' ▸ dropLast_stack (hsc ▸ hr) (hd d a hs)) ha⟩
      cases s with
      | beingVisited d a => exact hd d a rfl (Status.active.inj (hok.1.symm.trans hst))
      | inCycleWith p => exact hok.elim
      | _ => exact absurd (hok.1.symm.trans hst) nofun
  · rw [hst'] at hr
    have ho : c.nodeStack[d]? = some r := hsc ▸ getElem?_concat.mpr (.inl hr)
    have hvr : v ≠ r := by
      rintro rfl
      exact Nat.ne_of_lt (lt_of_getElem? hr) (h.inj ho he)
    rw [hss]
    exact (getElem?_set_ne hvr).trans (h.stack d r ho)

theorem complete {a : A} (h : Rep n own c st) (hs : c.nodeStack = stack ++ [v]) (ss : List Nat) (data : SccData) :
    Rep n own {
      nodeStates := c.nodeStates.set v (.inCycle s a)
      nodeStack := stack
      successorsStack := ss
      sccData := data
      annotated := c.annotated ++ [(s,a)] } (settle st stack.length (.done s)) := by
  have hse : (c.nodeStates.set v (.inCycle s a))[v]? = some (.inCycle s a) :=
    getElem?_set_self (List.getElem_of_getElem? (h.stack stack.length v (by simp [hs]))).1
  refine h.pop hs rfl rfl (fun x hx => mem_append_left _ hx) fun u ps hl hv => ?_
  exact ⟨ps,v,.inCycle s a,hl.reroot (fun x hx => getElem?_set_of_mem hv hx) hse nofun,hse,fun hst => ⟨hst,by simp⟩⟩

theorem link {p m : Nat} (h : Rep n own c st) (hsc : c.nodeStack = stack ++ [v]) (hp : p < n)
    (hps : st p = .active m) (hm : m < stack.length) :
    Rep n own { c with
      nodeStates := c.nodeStates.set v (.inCycleWith p)
      nodeStack := stack } (settle st stack.length (.active m)) := by
  have ht : c.nodeStack[stack.length]? = some v := by simp [hsc]
  have hsa := h.stack _ _ ht
  have hse : (c.nodeStates.set v (.inCycleWith p))[v]? = some (.inCycleWith p) := getElem?_set_self (lt_of_getElem? hsa)
  obtain ⟨qs,rp,hpl,hrp,hr⟩ : ∃ qs rp, Leads (c.nodeStates.set v (.inCycleWith p)) p qs rp ∧
      (c.nodeStates.set v (.inCycleWith p))[rp]? = some (.beingVisited m (own rp)) ∧
      stack[m]? = some rp := by
    obtain ⟨qs,rp,s,hl,hs,hok⟩ := h.status p hp
    cases s with
    | notVisited => exact absurd (hok.1.symm.trans hps) (by simp)
    | inCycle s a => exact absurd (hok.1.symm.trans hps) (by simp)
    | inCycleWith p => exact hok.elim
    | beingVisited d a =>
      obtain ⟨hd,hsd,rfl⟩ := hok
      obtain rfl : d = m := Status.active.inj (hd.symm.trans hps)
      have hvr : v ≠ rp := by
        rintro rfl
        have heq := h.inj hsd ht
        omega
      exact ⟨qs,rp,hl.set (hl.not_mem hsa nofun) hvr,(getElem?_set_ne hvr).trans hs,
        dropLast_stack (hsc ▸ hsd) (Nat.ne_of_lt hm)⟩
  refine h.pop hsc rfl rfl (fun _ => id) fun u ps hl hv => ?_
  exact ⟨_,rp,_,hl.extend (fun x hx => getElem?_set_of_mem hv hx) hse hpl,hrp,fun hst => ⟨hst,hr,rfl⟩⟩

end

end Rep

end Frontend.Scc
