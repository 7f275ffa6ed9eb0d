import Frontend.Transmute.Concat

namespace Frontend.Transmute.Dfa

open Library List State IndexMap

variable {R T : Type} {a b : Dfa R T} {c lo : Nat} {accept l l' : State} {p q : Pair} {s s' s'' : Product R T}
  {done : List Pair}

def Labeled (a b : Dfa R T) (accept : State) (s : Product R T) (p : Pair) (l : State) : Prop :=
  if isAccepting a b p then l = accept else s.mapping.lookup p = some l

structure Extends (s s' : Product R T) : Prop where
  mapping : ∀ p l, s.mapping.lookup p = some l → s'.mapping.lookup p = some l
  enqueued : ∀ p ∈ s.enqueued, p ∈ s'.enqueued
  transitions : s'.transitions = s.transitions

theorem Extends.refl (s : Product R T) : Extends s s := ⟨fun _ _ h => h,fun _ h => h,rfl⟩

theorem Extends.trans (h : Extends s s') (h' : Extends s' s'') : Extends s s'' :=
  ⟨fun p l hl => h'.mapping p l (h.mapping p l hl),fun p hp => h'.enqueued p (h.enqueued p hp),
    h'.transitions.trans h.transitions⟩

theorem Labeled.extend (h : Labeled a b accept s p l) (he : Extends s s') : Labeled a b accept s' p l := by
  unfold Labeled at *
  split
  case isTrue ha => rwa [if_pos ha] at h
  case isFalse ha => exact he.mapping p l (by rwa [if_neg ha] at h)

structure Numbering (c : Nat) (s : Product R T) : Prop where
  counter : s.counter = c + 1 + s.mapping.length
  labels : s.mapping.map Prod.snd = (List.range' (c + 1) s.mapping.length).map new
  keys : (s.mapping.map Prod.fst).Nodup

namespace Numbering

theorem label_within (h : Numbering c s) (hl : s.mapping.lookup p = some l) : Within (c + 1) s.counter l := by
  have hm : l ∈ s.mapping.map Prod.snd := mem_map_of_mem (mem_of_lookup hl)
  rw [h.labels] at hm
  obtain ⟨k,hk,rfl⟩ := mem_map.mp hm
  rw [mem_range'_1] at hk
  exact ⟨k,hk.1,by have := h.counter; omega,rfl⟩

theorem label_ne (h : Numbering c s) (hb : s.counter ≤ c + 2 ^ 32) (hl : s.mapping.lookup p = some l) : l ≠ new c := by
  have hc : Within c (c + 1) (new c) := ⟨c,le_rfl,by omega,rfl⟩
  exact (hc.ne (h.label_within hl) hb).symm

theorem label_inj (h : Numbering c s) (hb : s.counter ≤ c + 2 ^ 32) (hp : s.mapping.lookup p = some l)
    (hq : s.mapping.lookup q = some l) : p = q := by
  obtain ⟨i,hi,hge⟩ := getElem_of_mem (mem_of_lookup hp)
  obtain ⟨j,hj,hg⟩ := getElem_of_mem (mem_of_lookup hq)
  have hn : ∀ k (hk : k < s.mapping.length), s.mapping[k].2 = new (c + 1 + k) := by
    intro k hk
    have hgt := congrArg (fun l => l[k]?) h.labels
    simpa [hk] using hgt
  have hij : new (c + 1 + i) = new (c + 1 + j) := by rw [← hn i hi,← hn j hj,hge,hg]
  have hm : (c + 1 + i) % 2 ^ 32 = (c + 1 + j) % 2 ^ 32 := hij
  have hc := h.counter
  obtain rfl : i = j := by omega
  rw [hge] at hg
  exact (Prod.mk.inj hg).1

end Numbering

theorem mapped_of_labeled (h : Labeled a b accept s p l) : mapped a b accept p s = (l,s) := by
  unfold Labeled at h
  unfold mapped
  split
  case isTrue ha => rw [if_pos ha] at h; rw [h]
  case isFalse ha => rw [if_neg ha] at h; rw [h]

theorem mapped_spec (h : Numbering c s) (p : Pair) : ∃ l s', mapped a b (new c) p s = (l,s') ∧
    Numbering c s' ∧ Extends s s' ∧ Labeled a b (new c) s' p l ∧ s'.queue = s.queue ∧ s'.enqueued = s.enqueued := by
  by_cases hla : ∃ l, Labeled a b (new c) s p l
  · obtain ⟨l,hl⟩ := hla
    exact ⟨l,s,mapped_of_labeled hl,h,.refl s,hl,rfl,rfl⟩
  have ha : ¬ isAccepting a b p := fun ha => hla ⟨_,by rw [Labeled,if_pos ha]⟩
  have hn : s.mapping.lookup p = none := by
    by_contra hs
    obtain ⟨l,hl⟩ := Option.ne_none_iff_exists'.mp hs
    exact hla ⟨l,by rw [Labeled,if_neg ha,hl]⟩
  have hk := IndexMap.lookup_eq_none_iff.mp hn
  have hin : IndexMap.insert s.mapping p (new s.counter) = s.mapping ++ [(p,new s.counter)] :=
    IndexMap.insert_of_notMem hk
  refine ⟨new s.counter,{ s with counter := s.counter + 1, mapping := s.mapping ++ [(p,new s.counter)] },
    ?_,⟨?_,?_,?_⟩,⟨fun q l hq => ?_,fun q hq => hq,rfl⟩,?_,rfl,rfl⟩
  · rw [mapped,if_neg ha,hn,hin]
  · have := h.counter
    simp only [length_append,length_singleton]
    omega
  · simp [range'_concat,h.labels,h.counter]
  · rw [map_append]
    refine nodup_append.mpr ⟨h.keys,by simp,?_⟩
    rintro q hq r hr rfl
    rw [map_cons,map_nil,mem_singleton] at hr
    have hqp : q = p := hr
    exact hk (hqp ▸ hq)
  · simp only [IndexMap.lookup_append,hq,Option.some_or]
  · rw [Labeled,if_neg ha,IndexMap.lookup_append,hn]
    simp

structure Queued (a b : Dfa R T) (c : Nat) (done : List Pair) (s : Product R T) : Prop where
  labeled : ∀ p ∈ s.enqueued, ∃ l, Labeled a b (new c) s p l
  live : ∀ p ∈ s.enqueued, p ≠ (none,none)
  left : ∀ p ∈ s.enqueued, p.1 ∈ none :: a.targets.map some
  right : ∀ p ∈ s.enqueued, p.2 ∈ none :: b.targets.map some
  parts : ∀ p, p ∈ s.enqueued ↔ p ∈ s.queue ∨ p ∈ done
  nodup : (s.queue ++ done).Nodup

theorem destination_spec (hn : Numbering c s) (hq : Queued a b c done s) (hs : p ≠ (none,none))
    (hle : p.1 ∈ none :: a.targets.map some) (hr : p.2 ∈ none :: b.targets.map some) :
    ∃ l s', destination a b (new c) p s = .ok (l,s') ∧ Numbering c s' ∧ Queued a b c done s' ∧
      Extends s s' ∧ Labeled a b (new c) s' p l ∧ p ∈ s'.enqueued := by
  rw [destination,if_neg hs]
  by_cases ho : p ∈ s.enqueued
  · obtain ⟨l,hl⟩ := hq.labeled p ho
    refine ⟨l,s,?_,hn,hq,.refl s,hl,ho⟩
    rw [enqueue,if_pos ho,mapped_of_labeled hl]
  · have hn' : Numbering c { s with queue := p :: s.queue, enqueued := p :: s.enqueued } :=
      ⟨hn.counter,hn.labels,hn.keys⟩
    obtain ⟨l,s',hs',hns,hex,hl,hqu,he⟩ := mapped_spec (a := a) (b := b) hn' p
    have he' : Extends s s' := by
      refine ⟨hex.mapping,fun q hq => ?_,hex.transitions⟩
      exact he ▸ .tail _ hq
    refine ⟨l,s',?_,hns,⟨fun q hqm => ?_,?_,?_,?_,fun q => ?_,?_⟩,he',hl,he ▸ (.head _)⟩
    · rw [enqueue,if_neg ho,hs']
    · rcases mem_cons.mp (he ▸ hqm) with rfl | hqm
      · exact ⟨l,hl⟩
      · obtain ⟨l',hl'⟩ := hq.labeled q hqm
        exact ⟨l',hl'.extend he'⟩
    · rw [he]
      exact forall_mem_cons.mpr ⟨hs,hq.live⟩
    · rw [he]
      exact forall_mem_cons.mpr ⟨hle,hq.left⟩
    · rw [he]
      exact forall_mem_cons.mpr ⟨hr,hq.right⟩
    · rw [he,hqu,mem_cons,mem_cons,hq.parts,or_assoc]
    · rw [hqu,cons_append,nodup_cons,mem_append,← hq.parts]
      exact ⟨ho,hq.nodup⟩

def Leads (a b : Dfa R T) (accept : State) (s : Product R T) (dst : Option Pair) (found default : Option State) : Prop :=
  match dst with
  | none => found = default
  | some q => q ∈ s.enqueued ∧ ∃ l, Labeled a b accept s q l ∧ found = some l

theorem Leads.extend (h : Leads a b accept s dst found default) (he : Extends s s') :
    Leads a b accept s' dst found default := by
  cases dst with
  | none => exact h
  | some q =>
    obtain ⟨hm,l,hl,hf⟩ := h
    exact ⟨he.enqueued q hm,l,hl.extend he,hf⟩

theorem productBytes_spec (items : EdgeSet Pair) (hn : Numbering c s) (hq : Queued a b c done s)
    (hit : EdgeSet.Runs lo items)
    (hli : ∀ item ∈ items, item.2 ≠ (none,none))
    (hle : ∀ item ∈ items, item.2.1 ∈ none :: a.targets.map some)
    (hri : ∀ item ∈ items, item.2.2 ∈ none :: b.targets.map some) (hr : EdgeSet.Runs 0 runs)
    (he : ∀ run ∈ runs, run.1.end ≤ lo) :
    ∃ runs' s', productBytes a b (new c) items runs s = (.ok runs',s') ∧ Numbering c s' ∧
      Queued a b c done s' ∧ Extends s s' ∧ EdgeSet.Runs 0 runs' ∧
      ∀ v, Leads a b (new c) s' (EdgeSet.find items v) (EdgeSet.find runs' v) (EdgeSet.find runs v) := by
  induction items generalizing lo runs s with
  | nil => exact ⟨runs,s,rfl,hn,hq,.refl s,hr,fun v => rfl⟩
  | cons item items ih =>
    obtain ⟨range,p⟩ := item
    rw [forall_mem_cons] at hli hle hri
    obtain ⟨hs,hlt,hb,hre⟩ := hit
    obtain ⟨l,s1,hs1,hn1,hq1,hex1,hl,hme⟩ := destination_spec hn hq hli.1 hle.1 hri.1
    obtain ⟨hr1,he1,hf1⟩ := EdgeSet.push_spec l hr (Nat.zero_le _) hlt hb fun run hru => (he run hru).trans hs
    obtain ⟨runs',s',hs',hn',hq',he',hr',hf'⟩ := ih hn1 hq1 hre hli.2 hle.2 hri.2 hr1 he1
    refine ⟨runs',s',?_,hn',hq',hex1.trans he',hr',fun v => ?_⟩
    · rw [productBytes,hs1]
      exact hs'
    · have hv := hf' v
      rw [EdgeSet.find_cons]
      by_cases hm : range.Mem v
      · rw [if_pos hm]
        rw [hre.find_lt hm.2,hf1,if_pos hm] at hv
        exact ⟨he'.enqueued p hme,l,hl.extend he',hv⟩
      · rw [if_neg hm]
        rwa [hf1,if_neg hm] at hv

theorem find_of_mem (h : EdgeSet.Runs lo items) (hit : item ∈ items) :
    EdgeSet.find items item.1.start = some item.2 := by
  induction items generalizing lo with
  | nil => cases hit
  | cons head items ih =>
    obtain ⟨range,dst⟩ := head
    obtain ⟨-,hlt,-,hr⟩ := h
    rcases mem_cons.mp hit with rfl | hit
    · rw [EdgeSet.find_cons,if_pos ⟨le_rfl,hlt⟩]
    have hle : range.end ≤ item.1.start := by
      by_contra hgt
      have hf := ih hr hit
      rw [hr.find_lt (by omega)] at hf
      cases hf
    rw [EdgeSet.find_tail hle,ih hr hit]

theorem mem_targets {d : Dfa R T} (h : d.step x v = some y) : y ∈ d.targets := by
  obtain ⟨range,hm⟩ := find_mem h
  rcases d.byteEdges_cases x with heq | ⟨e,he,-,heq⟩
  · rw [heq] at hm
    cases hm
  · refine .tail _ (mem_flatMap.mpr ⟨e,he,mem_append_left _ ?_⟩)
    exact mem_map.mpr ⟨_,heq ▸ hm,rfl⟩

theorem edgesOf_find (d : Dfa R T) (x : Option State) (v : Nat) :
    EdgeSet.find (edgesOf d x).1 v = x.bind fun x => d.step x v := by
  cases x <;> rfl

theorem edgesOf_runs (h : Sane lo hi d) (x : Option State) : EdgeSet.Runs 0 (edgesOf d x).1 := by
  cases x with
  | none => trivial
  | some x => exact h.byteEdges_runs x

theorem edgesOf_refs (h : Sane lo hi d) (x : Option State) : (edgesOf d x).2 = [] := by
  cases x with
  | none => rfl
  | some x =>
    change d.refEdges x = []
    unfold refEdges
    cases hx : d.transitions.lookup x with
    | none => rfl
    | some t => exact h.refs (x,t) (mem_of_lookup hx)

theorem mem_step_targets {d : Dfa R T} (x : Option State) (v : Nat) :
    (x.bind fun x => d.step x v) ∈ none :: d.targets.map some := by
  cases hs : x.bind fun x => d.step x v with
  | none => exact (.head _)
  | some y =>
    obtain ⟨x,-,hx⟩ := Option.bind_eq_some_iff.mp hs
    exact .tail _ (mem_map_of_mem (mem_targets hx))

theorem both_eq_some (h : EdgeSet.both x y = some r) : r = (x,y) := by cases x <;> cases y <;> simp_all [EdgeSet.both]

theorem both_eq_none (h : EdgeSet.both x y = none) : (x,y) = (none,none) := by
  cases x <;> cases y <;> simp_all [EdgeSet.both]

structure Node (a b : Dfa R T) (accept : State) (s : Product R T) (p : Pair) (t : Transitions R T) : Prop where
  refs : t.refTransitions = []
  runs : EdgeSet.Runs 0 t.byteTransitions
  leads : ∀ v, Leads a b accept s (EdgeSet.both (p.1.bind fun x => a.step x v) (p.2.bind fun y => b.step y v))
    (EdgeSet.find t.byteTransitions v) none

theorem Node.extend (h : Node a b accept s p t) (he : Extends s s') : Node a b accept s' p t :=
  ⟨h.refs,h.runs,fun v => (h.leads v).extend he⟩

structure Filled (a b : Dfa R T) (c : Nat) (done : List Pair) (s : Product R T) : Prop where
  node : ∀ p ∈ done, ¬ isAccepting a b p → ∃ e ∈ s.transitions, Labeled a b (new c) s p e.1 ∧ Node a b (new c) s p e.2
  key : ∀ e ∈ s.transitions, ∃ p ∈ done, ¬ isAccepting a b p ∧ Labeled a b (new c) s p e.1 ∧ Node a b (new c) s p e.2
  keys : (s.transitions.map Prod.fst).Nodup

theorem Filled.extend (h : Filled a b c done s) (hex : Extends s s') : Filled a b c done s' := by
  refine ⟨fun p hp ha => ?_,fun e he => ?_,by rw [hex.transitions]; exact h.keys⟩
  · obtain ⟨e,he,hl,hn⟩ := h.node p hp ha
    exact ⟨e,hex.transitions ▸ he,hl.extend hex,hn.extend hex⟩
  · obtain ⟨p,hp,ha,hl,hn⟩ := h.key e (hex.transitions ▸ he)
    exact ⟨p,hp,ha,hl.extend hex,hn.extend hex⟩

section

theorem mapped_counter (a b : Dfa R T) (accept : State) (p : Pair) (s : Product R T) :
    s.counter ≤ (mapped a b accept p s).2.counter := by
  unfold mapped
  split
  · exact le_rfl
  · split
    · exact le_rfl
    · exact Nat.le_succ _

theorem enqueue_counter (p : Pair) (s : Product R T) : (enqueue p s).counter = s.counter := by
  unfold enqueue
  split <;> rfl

theorem destination_counter (h : destination a b accept p s = .ok (l,s')) : s.counter ≤ s'.counter := by
  unfold destination at h
  split at h
  · cases h
  · have hle := mapped_counter a b accept p (enqueue p s)
    rw [Except.ok.inj h,enqueue_counter] at hle
    exact hle

theorem productBytes_counter (a b : Dfa R T) (accept : State) (items : EdgeSet Pair) (runs : EdgeSet State)
    (s : Product R T) :
    s.counter ≤ (productBytes a b accept items runs s).2.counter := by
  induction items generalizing runs s with
  | nil => exact le_rfl
  | cons item items ih =>
    simp only [productBytes]
    split
    case h_1 => exact le_rfl
    case h_2 h => exact (destination_counter h).trans (ih _ _)

variable [DecidableEq R] [DecidableEq T]

theorem productRefs_counter (a b : Dfa R T) (accept : State) (aRefs bRefs : List (Reference R T × State))
    (refs : List (Reference R T))
    (edges : List (Reference R T × State)) (s : Product R T) :
    s.counter ≤ (productRefs a b accept aRefs bRefs refs edges s).2.counter := by
  induction refs generalizing edges s with
  | nil => exact le_rfl
  | cons r refs ih =>
    simp only [productRefs]
    split
    case h_1 => exact le_rfl
    case h_2 h => exact (destination_counter h).trans (ih _ _)

theorem productNode_counter (a b : Dfa R T) (accept : State) (p : Pair) (s : Product R T) :
    s.counter ≤ (productNode a b accept p s).2.counter := by
  have hm := mapped_counter a b accept p s
  unfold productNode
  generalize mapped a b accept p s = r at hm
  obtain ⟨src,s1⟩ := r
  simp only
  split
  case isTrue => exact hm
  case isFalse =>
    have hb := productBytes_counter a b accept (Transmute.union (edgesOf a p.1).1 (edgesOf b p.2).1) [] s1
    split
    case h_1 h => exact hm.trans (by rwa [h] at hb)
    case h_2 bytes s2 h =>
      rw [h] at hb
      have hr := productRefs_counter a b accept (edgesOf a p.1).2
        (edgesOf b p.2).2 ((edgesOf a p.1).2.map Prod.fst ++ (edgesOf b p.2).2.map Prod.fst) [] s2
      split
      case h_1 h => exact hm.trans (hb.trans (by rwa [h] at hr))
      case h_2 h =>
        rw [h] at hr
        split
        · exact hm.trans (hb.trans hr)
        · exact hm.trans (hb.trans hr)

theorem productLoop_counter (a b : Dfa R T) (accept : State) (fuel : Nat) (s : Product R T) :
    s.counter ≤ (productLoop a b accept fuel s).2.counter := by
  induction fuel generalizing s with
  | zero => exact le_rfl
  | succ fuel ih =>
    rw [productLoop]
    split
    case h_1 => exact le_rfl
    case h_2 p queue _ =>
      have hn := productNode_counter a b accept p { s with queue := queue }
      split
      case h_1 h => rwa [h] at hn
      case h_2 h =>
        rw [h] at hn
        exact hn.trans (ih _)

end

section

variable [DecidableEq R] [DecidableEq T] {loA hiA loB hiB : Nat}

theorem productNode_spec (ha : Sane loA hiA a) (hb : Sane loB hiB b) (hn : Numbering c s)
    (hq : Queued a b c (p :: done) s) (hf : Filled a b c done s) (hp : p ∈ s.enqueued) (hnw : p ∉ done)
    (hbo : (productNode a b (new c) p s).2.counter ≤ c + 2 ^ 32) :
    ∃ s', productNode a b (new c) p s = (.ok (),s') ∧ Numbering c s' ∧ Queued a b c (p :: done) s' ∧
    Filled a b c (p :: done) s' ∧
      (∀ q l, Labeled a b (new c) s q l → Labeled a b (new c) s' q l) ∧
      ∀ q ∈ s.enqueued, q ∈ s'.enqueued := by
  have hco := (productNode_counter a b (new c) p s).trans hbo
  obtain ⟨l,hl⟩ := hq.labeled p hp
  by_cases hac : isAccepting a b p
  · have hap : l = new c := by rwa [Labeled,if_pos hac] at hl
    refine ⟨s,by simp [productNode,mapped_of_labeled hl,hap],hn,hq,⟨fun q hm hqa => ?_,fun e he => ?_,
      hf.keys⟩,fun _ _ h => h,fun _ h => h⟩
    · rcases mem_cons.mp hm with rfl | hm
      · exact absurd hac hqa
      · exact hf.node q hm hqa
    · obtain ⟨q,hm,hno⟩ := hf.key e he
      exact ⟨q,.tail _ hm,hno⟩
  · have hlo : s.mapping.lookup p = some l := by rwa [Labeled,if_neg hac] at hl
    have hne := hn.label_ne hco hlo
    obtain ⟨hr,hli,hfn⟩ := EdgeSet.union_spec (edgesOf_runs ha p.1) (edgesOf_runs hb p.2)
    have hit item (hit : item ∈ Transmute.union (edgesOf a p.1).1 (edgesOf b p.2).1) : ∃ v,
        item.2 = (p.1.bind fun x => a.step x v,p.2.bind fun y => b.step y v) := by
      have hv := (hfn item.1.start).symm.trans (find_of_mem hr hit)
      rw [edgesOf_find,edgesOf_find] at hv
      exact ⟨item.1.start,both_eq_some hv⟩
    obtain ⟨runs',s',hs',hn',hq',hex,hr',hle⟩ := productBytes_spec _ hn hq hr hli
      (fun item h => by obtain ⟨v,hv⟩ := hit item h; rw [hv]; exact mem_step_targets _ v)
      (fun item h => by obtain ⟨v,hv⟩ := hit item h; rw [hv]; exact mem_step_targets _ v)
      (show EdgeSet.Runs 0 [] from trivial) (by simp)
    have hc : productNode a b (new c) p s = if (s'.transitions.lookup l).isSome then
        (.error .assertion,s')
        else (.ok (),{ s' with transitions := insert s'.transitions l ⟨runs',[]⟩ }) := by
      simp only [productNode,mapped_of_labeled hl,if_neg hne,hs',edgesOf_refs ha,edgesOf_refs hb,map_nil,
        append_nil,productRefs]
    have hc' : s'.counter ≤ c + 2 ^ 32 := by
      rw [hc] at hbo
      split at hbo <;> exact hbo
    have hl' := hex.mapping p l hlo
    have hla q l (hql : Labeled a b (new c) s q l) : Labeled a b (new c) s' q l := hql.extend hex
    have hfi := hf.extend hex
    have hke : l ∉ s'.transitions.map Prod.fst := by
      intro hm
      obtain ⟨e,he,rfl⟩ := mem_map.mp hm
      obtain ⟨q,hqd,hqa,hql,-⟩ := hfi.key e he
      rw [Labeled,if_neg hqa] at hql
      exact hnw (hn'.label_inj hc' hl' hql ▸ hqd)
    have hnn := lookup_eq_none_iff.mpr hke
    rw [hc,hnn,insert_of_notMem hke]
    have hno : Node a b (new c) s' p ⟨runs',[]⟩ := by
      refine ⟨rfl,hr',fun v => ?_⟩
      have hv := hle v
      rw [hfn,edgesOf_find,edgesOf_find] at hv
      exact hv
    refine ⟨{ s' with transitions := s'.transitions ++ [(l,⟨runs',[]⟩)] },rfl,
      ⟨hn'.counter,hn'.labels,hn'.keys⟩,⟨hq'.labeled,hq'.live,hq'.left,hq'.right,hq'.parts,hq'.nodup⟩,
      ⟨fun q hm hqa => ?_,fun e he => ?_,?_⟩,hla,hex.enqueued⟩
    · rcases mem_cons.mp hm with rfl | hm
      · exact ⟨(l,⟨runs',[]⟩),by simp,hla _ _ hl,hno.refs,hno.runs,hno.leads⟩
      · obtain ⟨e,he,hel,hen⟩ := hfi.node q hm hqa
        exact ⟨e,mem_append_left _ he,hel,hen.refs,hen.runs,hen.leads⟩
    · rcases mem_append.mp he with he | he
      · obtain ⟨q,hm,hqa,hql,hqn⟩ := hfi.key e he
        exact ⟨q,.tail _ hm,hqa,hql,hqn.refs,hqn.runs,hqn.leads⟩
      · obtain rfl := mem_singleton.mp he
        exact ⟨p,.head _,hac,hla _ _ hl,hno.refs,hno.runs,hno.leads⟩
    · rw [map_append]
      refine nodup_append.mpr ⟨hfi.keys,by simp,?_⟩
      rintro k hk k' hk' rfl
      rw [map_cons,map_nil,mem_singleton] at hk'
      have hkl : k = l := hk'
      exact hke (hkl ▸ hk)

omit [DecidableEq R] [DecidableEq T] in
theorem Queued.length_le (hq : Queued a b c done s) :
    (s.queue ++ done).length ≤ (a.targets.length + 1) * (b.targets.length + 1) := by
  have hs : s.queue ++ done ⊆ (none :: a.targets.map some) ×ˢ (none :: b.targets.map some) := by
    intro p hp
    have hm := (hq.parts p).mpr (mem_append.mp hp)
    exact pair_mem_product.mpr ⟨hq.left p hm,hq.right p hm⟩
  have hl := (subperm_of_subset hq.nodup hs).length_le
  simpa only [length_product,length_cons,length_map] using hl

theorem productLoop_spec (ha : Sane loA hiA a) (hb : Sane loB hiB b) (fuel : Nat) (hn : Numbering c s)
    (hq : Queued a b c done s) (hf : Filled a b c done s)
    (hfu : (a.targets.length + 1) * (b.targets.length + 1) ≤ fuel + done.length)
    (hbo : (productLoop a b (new c) fuel s).2.counter ≤ c + 2 ^ 32) :
    ∃ s' done', productLoop a b (new c) fuel s = (.ok (),s') ∧ Numbering c s' ∧
      Queued a b c done' s' ∧ Filled a b c done' s' ∧ s'.queue = [] ∧
      (∀ q l, Labeled a b (new c) s q l → Labeled a b (new c) s' q l) ∧
      ∀ q ∈ s.enqueued, q ∈ s'.enqueued := by
  induction fuel generalizing s done with
  | zero =>
    have hle := hq.length_le
    rw [length_append] at hle
    have he : s.queue = [] := eq_nil_of_length_eq_zero (by omega)
    exact ⟨s,done,by simp [productLoop,he],hn,hq,hf,he,fun _ _ h => h,fun _ h => h⟩
  | succ fuel ih =>
    cases hqu : s.queue with
    | nil => exact ⟨s,done,by simp [productLoop,hqu],hn,hq,hf,hqu,fun _ _ h => h,fun _ h => h⟩
    | cons p queue =>
      have hpe : (queue ++ p :: done).Perm (s.queue ++ done) := by
        rw [hqu]
        exact perm_middle
      have hno := hpe.nodup_iff.mpr hq.nodup
      have hq1 : Queued a b c (p :: done) { s with queue := queue } := by
        refine ⟨hq.labeled,hq.live,hq.left,hq.right,fun q => ?_,hno⟩
        rw [hq.parts q,hqu,mem_cons,mem_cons]
        tauto
      have hne : p ∉ done := fun hm => (nodup_cons.mp (nodup_append.mp hno).2.1).1 hm
      have hp := (hq.parts p).mpr (.inl (hqu ▸ (.head _)))
      have hnd : (productNode a b (new c) p { s with queue := queue }).2.counter ≤ c + 2 ^ 32 := by
        refine le_trans ?_ hbo
        simp only [productLoop,hqu]
        split
        case h_1 h => rw [h]
        case h_2 h =>
          rw [h]
          exact productLoop_counter _ _ _ fuel _
      have hn1 : Numbering c { s with queue := queue } := ⟨hn.counter,hn.labels,hn.keys⟩
      have hf1 : Filled a b c done { s with queue := queue }  := hf.extend ⟨fun _ _ h => h,fun _ h => h,rfl⟩
      obtain ⟨s1,hs1,hn',hq',hf',hla,hen⟩ := productNode_spec ha hb hn1 hq1 hf1 hp hne hnd
      have hl : productLoop a b (new c) (fuel + 1) s = productLoop a b (new c) fuel s1 := by
        simp only [productLoop,hqu,hs1]
      obtain ⟨s',done',hs',hn'',hq'',hf'',he,hl',he'⟩ := ih hn' hq' hf' (by rw [length_cons]; omega) (by rwa [hl] at hbo)
      exact ⟨s',done',hl.trans hs',hn'',hq'',hf'',he,fun q l h => hl' q l (hla q l h),fun q h => he' q (hen q h)⟩

end

section

variable {loA hiA loB hiB : Nat} {d : Dfa R T}

def labelOf (a b : Dfa R T) (c : Nat) (s : Product R T) (p : Pair) : State :=
  if isAccepting a b p then new c else (s.mapping.lookup p).getD 0

theorem Labeled.eq (h : Labeled a b (new c) s p l) : labelOf a b c s p = l := by
  unfold Labeled at h
  unfold labelOf
  split
  case isTrue ha => rw [if_pos ha] at h; exact h.symm
  case isFalse ha => rw [if_neg ha] at h; rw [h,Option.getD_some]

theorem Labeled.within (h : Labeled a b (new c) s p l) (hn : Numbering c s) : Within c s.counter l := by
  unfold Labeled at h
  have hc := hn.counter
  split at h
  case isTrue => exact ⟨c,le_rfl,by omega,h⟩
  case isFalse => exact (hn.label_within h).mono (by omega) le_rfl

structure Finished (a b : Dfa R T) (c : Nat) (s : Product R T) : Prop where
  numbering : Numbering c s
  bound : s.counter ≤ c + 2 ^ 32
  labeled : ∀ p ∈ s.enqueued, ∃ l, Labeled a b (new c) s p l
  filled : Filled a b c s.enqueued s

namespace Finished

theorem sane (h : Finished a b c s) (hp : p ∈ s.enqueued) :
    Sane c s.counter (⟨s.transitions,labelOf a b c s p,new c⟩ : Dfa R T) := by
  have hc := h.numbering.counter
  refine ⟨?_,⟨c,le_rfl,by omega,rfl⟩,fun e he => ?_,fun e he run hr => ?_,fun e he => ?_,fun e he => ?_,
    h.filled.keys,fun hm => ?_⟩
  · obtain ⟨l,hl⟩ := h.labeled p hp
    exact hl.eq ▸ hl.within h.numbering
  · obtain ⟨q,-,-,hl,-⟩ := h.filled.key e he
    exact hl.within h.numbering
  · obtain ⟨q,-,-,-,hn⟩ := h.filled.key e he
    have hv := hn.leads run.1.start
    rw [find_of_mem hn.runs hr] at hv
    unfold Leads at hv
    split at hv
    · cases hv
    rename_i r _
    obtain ⟨-,l,hl,hrl⟩ := hv
    exact Option.some.inj hrl ▸ hl.within h.numbering
  · obtain ⟨q,-,-,-,hn⟩ := h.filled.key e he
    exact hn.runs
  · obtain ⟨q,-,-,-,hn⟩ := h.filled.key e he
    exact hn.refs
  · obtain ⟨e,he,heq⟩ := mem_map.mp hm
    obtain ⟨q,-,ha,hl,-⟩ := h.filled.key e he
    rw [Labeled,if_neg ha] at hl
    exact h.numbering.label_ne h.bound hl heq

theorem label_eq_accept (h : Finished a b c s) (hp : p ∈ s.enqueued) : labelOf a b c s p = new c ↔
    isAccepting a b p = true := by
  constructor
  · intro heq
    by_contra ha
    obtain ⟨l,hl⟩ := h.labeled p hp
    rw [hl.eq] at heq
    rw [Labeled,if_neg ha] at hl
    exact h.numbering.label_ne h.bound hl heq
  · exact fun ha => if_pos ha

theorem leads (h : Finished a b c s) (hd : d.transitions = s.transitions) (hp : p ∈ s.enqueued)
    (hne : labelOf a b c s p ≠ new c) (v : Nat) :
    Leads a b (new c) s (EdgeSet.both (p.1.bind fun x => a.step x v) (p.2.bind fun y => b.step y v))
      (d.step (labelOf a b c s p) v) none := by
  obtain ⟨e,he,hl,hn⟩ := h.filled.node p hp fun ha => hne ((h.label_eq_accept hp).mpr ha)
  have hlo : d.transitions.lookup (labelOf a b c s p) = some e.2 := by
    rw [hd,hl.eq]
    exact lookup_of_mem h.filled.keys he
  rw [step,byteEdges,hlo]
  exact hn.leads v

theorem labels (h : Finished a b c s) (hp : p ∈ s.enqueued) : Labels a.step b.step a.accept b.accept
      (⟨s.transitions,labelOf a b c s p,new c⟩ : Dfa R T).step (new c)
      {q | q ∈ s.enqueued} (labelOf a b c s) := by
  refine ⟨fun q hq => ?_,(h.sane hp).accept_halts,fun q hq hne v hst => ?_,fun q hq hne v hli => ?_⟩
  · rw [h.label_eq_accept hq]
    exact decide_eq_true_iff.trans (or_congr eq_comm eq_comm)
  · have hv := h.leads (d := ⟨s.transitions,labelOf a b c s p,new c⟩) rfl hq hne v
    obtain ⟨hx,hy⟩ := Prod.mk.inj hst
    rw [hx,hy] at hv
    exact hv
  · have hv := h.leads (d := ⟨s.transitions,labelOf a b c s p,new c⟩) rfl hq hne v
    unfold Leads at hv
    split at hv
    case h_1 hn =>
      refine absurd ?_ hli
      unfold pairStep
      exact both_eq_none hn
    case h_2 r hr =>
      obtain ⟨hm,l,hl,hs⟩ := hv
      obtain rfl := both_eq_some hr
      exact ⟨hs.trans (congrArg some hl.eq.symm),hm⟩

end Finished

variable [DecidableEq R] [DecidableEq T]

theorem union_spec (ha : Sane loA hiA a) (hb : Sane loB hiB b) (hbo : (union a b c).2 ≤ c + 2 ^ 32) :
    ∃ d, (union a b c).1 = .ok d ∧ Sane c (union a b c).2 d ∧ c ≤ (union a b c).2 ∧
      ∃ reached label, Labels a.step b.step a.accept b.accept d.step d.accept reached label ∧
        (some a.start,some b.start) ∈ reached ∧ d.start = label (some a.start,some b.start) := by
  have hn : Numbering c (⟨c + 1,[],[],[],[]⟩ : Product R T) := ⟨rfl,rfl,nodup_nil⟩
  obtain ⟨start,s1,hs1,hn1,hex,hl,hqu,heq⟩ := mapped_spec (a := a) (b := b) hn (some a.start,some b.start)
  have hen : enqueue (some a.start,some b.start) s1 =
      { s1 with queue := [(some a.start,some b.start)], enqueued := [(some a.start,some b.start)] } := by
    rw [enqueue,heq,hqu,if_neg not_mem_nil]
  generalize hs2 : enqueue (some a.start,some b.start) s1 = s2 at hen
  have hn2 : Numbering c s2 := hen ▸ ⟨hn1.counter,hn1.labels,hn1.keys⟩
  have hl2 : Labeled a b (new c) s2 (some a.start,some b.start) start := hen ▸ hl
  have hm : ∀ q, q ∈ s2.enqueued ↔ q = (some a.start,some b.start) := by
    rw [hen]
    exact fun q => mem_singleton
  have hq2 : Queued a b c [] s2 := by
    refine ⟨fun q hq => ?_,fun q hq => ?_,fun q hq => ?_,fun q hq => ?_,fun q => ?_,?_⟩
    · exact ⟨start,(hm q).mp hq ▸ hl2⟩
    · simp [(hm q).mp hq]
    · simp [(hm q).mp hq,targets]
    · simp [(hm q).mp hq,targets]
    · simp [hen]
    · simp [hen]
  have ht : s2.transitions = [] := hen ▸ hex.transitions
  have hf2 : Filled a b c [] s2 := by
    refine ⟨fun q hq => ?_,fun e he => ?_,?_⟩
    · cases hq
    · rw [ht] at he
      cases he
    · simp [ht]
  have hu : (union a b c).2 = (productLoop a b (new c)
      ((a.targets.length + 1) * (b.targets.length + 1)) s2).2.counter := by
    simp only [union,hs1,hs2]
    split
    case h_1 h => rw [h]
    case h_2 h => rw [h]
  obtain ⟨s',done,hs',hn',hq',hf',hem,hla,he'⟩ :=
    productLoop_spec ha hb ((a.targets.length + 1) * (b.targets.length + 1)) hn2 hq2 hf2 le_rfl (hu ▸ hbo)
  rw [hs'] at hu
  have hd q : q ∈ s'.enqueued ↔ q ∈ done := by simp [hq'.parts q,hem]
  have hf : Finished a b c s' := by
    refine ⟨hn',hu ▸ hbo,hq'.labeled,fun q hq => hf'.node q ((hd q).mp hq),fun e he => ?_,hf'.keys⟩
    obtain ⟨q,hq,hno⟩ := hf'.key e he
    exact ⟨q,(hd q).mpr hq,hno⟩
  have hs := he' _ ((hm _).mpr rfl)
  have hlo := (hla _ _ hl2).eq
  refine ⟨⟨s'.transitions,labelOf a b c s' (some a.start,some b.start),new c⟩,?_,hu ▸ hf.sane hs,?_,
    _,_,hf.labels hs,hs,rfl⟩
  · simp [union,hs1,hs2,hs',hlo]
  · rw [hu]
    have hc := hn'.counter
    simp only
    omega

end

end Frontend.Transmute.Dfa
