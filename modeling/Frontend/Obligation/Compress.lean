import Frontend.Library.Compact
import Frontend.Obligation.Marking

namespace Frontend.Obligation

open Library List

variable {σ O E K : Type}

namespace ObligationForest

def alive (node : Node O) : Bool := node.state = .pending ∨ node.state = .waiting

def isDone (node : Node O) : Bool := node.state = .done

def newIndex (ns : List (Node O)) (i : Nat) (node : Node O) : Nat :=
  if alive node then rank alive ns i else ns.length

section

variable {key : O → K} {outcomeCb : Node O → Option (Event O E)}

structure Swept (key : O → K) (outcomeCb : Node O → Option (Event O E))
    (f : ObligationForest O E K) (k : Nat) (s : Sweep O E K) : Prop where
  layout : ∃ dead : List (Node O), dead.length = s.deadNodes ∧
    s.forest.nodes = (f.nodes.take k).filter alive ++ dead ++ f.nodes.drop k
  count : rank alive f.nodes k + s.deadNodes = k
  length : s.nodeRewrites.length = f.nodes.length
  rewrites : ∀ i n, f.nodes[i]? = some n → s.nodeRewrites[i]? = some (if i < k then newIndex f.nodes i n else i)
  log : ∃ events, ((f.nodes.take k).filter isDone).mapM outcomeCb = some events ∧ s.forest.log = f.log ++ events
  doneCache : ∀ c ∈ s.forest.doneCache, c ∈ f.doneCache ∨ ∃ n ∈ f.nodes, n.state = .done ∧ key n.obligation = c
  nextUid : s.forest.nextUid = f.nextUid

variable {f : ObligationForest O E K} {k : Nat} {s s' : Sweep O E K} {node : Node O}

theorem swept_start (f : ObligationForest O E K) : Swept key outcomeCb f 0 ⟨f,range f.nodes.length,0⟩ where
  layout := ⟨[],rfl,by simp⟩
  count := by simp
  length := by simp
  rewrites i n hn := by simp [getElem?_range (lt_of_getElem? hn)]
  log := ⟨[],by simp,by simp⟩
  doneCache c hc := .inl hc
  nextUid := rfl

theorem Swept.current (h : Swept key outcomeCb f k s) (hk : f.nodes[k]? = some node) :
    s.forest.nodes[k]? = some node := by
  obtain ⟨dead,hd,hn⟩ := h.layout
  have hl : ((f.nodes.take k).filter alive ++ dead).length = k := by
    rw [length_append,hd,← countP_eq_length_filter]
    exact h.count
  rw [hn,getElem?_append_right (Nat.le_of_eq hl),hl,Nat.sub_self,getElem?_drop,Nat.add_zero,hk]

theorem drop_of_getElem? {ns : List (Node O)} (hk : ns[k]? = some node) : ns.drop k = node :: ns.drop (k + 1) := by
  obtain ⟨hlt,rfl⟩ := List.getElem_of_getElem? hk
  exact drop_eq_getElem_cons hlt

theorem take_of_getElem? {ns : List (Node O)} (hk : ns[k]? = some node) : ns.take (k + 1) = ns.take k ++ [node] := by
  rw [take_add_one,hk]
  rfl

section

variable (h : Swept key outcomeCb f k s) (hk : f.nodes[k]? = some node)

include h hk

theorem Swept.swap (ha : alive node) {nodes : List (Node O)} (hd : s.deadNodes > 0)
    (hs : swapNodes s.forest.nodes k (k - s.deadNodes) = some nodes) :
    ∃ dead : List (Node O), dead.length = s.deadNodes ∧
    nodes = (f.nodes.take (k + 1)).filter alive ++ dead ++ f.nodes.drop (k + 1) := by
  obtain ⟨dead,hl,hn⟩ := h.layout
  have hke : ((f.nodes.take k).filter alive).length + s.deadNodes = k := by
    rw [← countP_eq_length_filter]
    exact h.count
  cases dead with
  | nil =>
    simp only [length_nil] at hl
    omega
  | cons d ds =>
    have hsu : k - s.deadNodes = ((f.nodes.take k).filter alive).length := by omega
    have hf : s.forest.nodes[k - s.deadNodes]? = some d := by
      rw [hn,hsu]
      simp
    simp only [swapNodes,h.current hk,hf,Option.bind_eq_bind,Option.bind_some,Option.pure_def,Option.some.injEq] at hs
    refine ⟨ds ++ [d],by simpa using hl,?_⟩
    have hin : ((f.nodes.take k).filter alive).length + (ds.length + 1) = k := by
      rw [length_cons] at hl
      omega
    have hr := set_set_rotate ((f.nodes.take k).filter alive) ds (f.nodes.drop (k + 1)) d node
    rw [hin] at hr
    rw [← hs,hn,hsu,drop_of_getElem? hk,hr,take_of_getElem? hk,filter_append]
    simp [ha]

theorem Swept.step_alive (ha : alive node) {nodes : List (Node O)} {rewrites : List Nat}
    (hl : ∃ dead : List (Node O), dead.length = s.deadNodes ∧
    nodes = (f.nodes.take (k + 1)).filter alive ++ dead ++ f.nodes.drop (k + 1))
    (hr : rewrites = s.nodeRewrites.modify k (· - s.deadNodes)) :
    Swept key outcomeCb f (k + 1) { s with forest := { s.forest with nodes := nodes }, nodeRewrites := rewrites } where
  layout := hl
  count := by
    have hc := h.count
    simp only [rank_succ alive hk,ha,if_true]
    omega
  length := by simp [hr,h.length]
  rewrites i n hn := by
    subst hr
    simp only [getElem?_modify,h.rewrites i n hn,Option.map_eq_map,Option.map_some]
    by_cases hki : k = i
    · subst hki
      cases hk.symm.trans hn
      have hc := h.count
      simp only [Nat.lt_irrefl,if_false,if_true,Nat.lt_succ_self,newIndex,ha]
      congr 1
      omega
    · simp only [hki,if_false]
      have hif : i < k ↔ i < k + 1 := by omega
      simp [hif]
  log := by
    obtain ⟨events,he,hlo⟩ := h.log
    refine ⟨events,?_,hlo⟩
    have hno : isDone node = false := by
      simp only [alive,isDone,decide_eq_true_eq,decide_eq_false_iff_not] at ha ⊢
      rcases ha with h | h <;> simp [h]
    simpa [take_of_getElem? hk,hno] using he
  doneCache := h.doneCache
  nextUid := h.nextUid

theorem Swept.step_dead (hd : alive node = false) {g : ObligationForest O E K}
    (hno : g.nodes = s.forest.nodes) (hu : g.nextUid = s.forest.nextUid)
    (hl : ∃ events, ([node].filter isDone).mapM outcomeCb = some events ∧ g.log = s.forest.log ++ events)
    (hca : ∀ c ∈ g.doneCache, c ∈ s.forest.doneCache ∨ node.state = .done ∧ key node.obligation = c) :
    Swept key outcomeCb f (k + 1) ({ s with forest := g }.bury f.nodes.length k) where
  layout := by
    obtain ⟨dead,hle,hla⟩ := h.layout
    refine ⟨dead ++ [node],by simp [hle,Sweep.bury],?_⟩
    simp [Sweep.bury,hno,hla,take_of_getElem? hk,drop_of_getElem? hk,hd]
  count := by
    have hco := h.count
    simp only [rank_succ alive hk,hd,Sweep.bury]
    simp only [Bool.false_eq_true,if_false]
    omega
  length := by simp [Sweep.bury,h.length]
  rewrites i n hn := by
    simp only [Sweep.bury,getElem?_set,h.length]
    by_cases hki : k = i
    · subst hki
      cases hk.symm.trans hn
      simp [newIndex,hd,(lt_of_getElem? hk)]
    · have hif : i < k ↔ i < k + 1 := by omega
      simp [hki,h.rewrites i n hn,hif]
  log := by
    obtain ⟨events,he,hl0⟩ := h.log
    obtain ⟨new,hne,hl1⟩ := hl
    refine ⟨events ++ new,?_,?_⟩
    · rw [take_of_getElem? hk,filter_append,mapM_append,he,hne]
      rfl
    · simp [Sweep.bury,hl1,hl0]
  doneCache c hc := by
    rcases hca c hc with hc | ⟨hs,hke⟩
    · exact h.doneCache c hc
    · exact .inr ⟨node,mem_of_getElem? hk,hs,hke⟩
  nextUid := hu.trans h.nextUid

end

variable [DecidableEq K]

theorem swept_sweepNode (h : Swept key outcomeCb f k s) (hk : k < f.nodes.length)
    (hs : sweepNode key outcomeCb f.nodes.length s k = some s') :
    Swept key outcomeCb f (k + 1) s' := by
  have hn := getElem?_eq_getElem hk
  simp only [sweepNode,h.current hn,Option.bind_eq_bind,Option.bind_some] at hs
  have hke : ∀ ha : alive f.nodes[k], (if s.deadNodes > 0 then do
      let nodes ← swapNodes s.forest.nodes k (k - s.deadNodes)
      return { s with
        forest := { s.forest with nodes := nodes }
        nodeRewrites := s.nodeRewrites.modify k (· - s.deadNodes) }
    else return s) = some s' → Swept key outcomeCb f (k + 1) s' := by
    intro ha hke
    split at hke
    case isTrue hd =>
      simp only [bind_iff] at hke
      obtain ⟨nodes,hsw,hke⟩ := hke
      cases hke
      exact h.step_alive hn ha (h.swap hn ha hd hsw) rfl
    case isFalse hd =>
      cases hke
      have hz : s.deadNodes = 0 := by omega
      obtain ⟨dead,hl,hla⟩ := h.layout
      obtain rfl : dead = [] := length_eq_zero_iff.mp (hl.trans hz)
      refine h.step_alive hn ha ⟨[],hz.symm,?_⟩ ?_
      · rw [hla,take_of_getElem? hn,drop_of_getElem? hn,filter_append]
        simp [ha,-getElem_cons_drop]
      · rw [hz]
        exact (modify_id ..).symm
  cases hst : f.nodes[k].state with
  | pending => exact hke (by simp [alive,hst]) (by simpa [hst] using hs)
  | waiting => exact hke (by simp [alive,hst]) (by simpa [hst] using hs)
  | success => simp [hst] at hs
  | done =>
    simp only [hst,Option.bind_eq_some_iff] at hs
    obtain ⟨event,he,hs⟩ := hs
    cases hs
    refine h.step_dead hn (by simp [alive,hst]) rfl rfl ⟨[event],by simp [isDone,hst,he],rfl⟩ fun c hc => ?_
    rcases mem_cons.mp hc with rfl | hc
    · exact .inr ⟨hst,rfl⟩
    · exact .inl hc
  | error =>
    simp only [hst] at hs
    cases hs
    exact h.step_dead hn (by simp [alive,hst]) rfl rfl ⟨[],by simp [isDone,hst],(append_nil _).symm⟩ fun c hc => .inl hc

theorem swept_fold (h : Swept key outcomeCb f k s) (hm : k + m = f.nodes.length)
    (hf : (range' k m).foldlM (sweepNode key outcomeCb f.nodes.length) s = some s') :
    Swept key outcomeCb f f.nodes.length s' := by
  induction m generalizing k s with
  | zero =>
    cases hf
    exact hm ▸ h
  | succ m ih =>
    simp only [range'_succ,foldlM_cons,bind_iff] at hf
    obtain ⟨s1,ho,hr⟩ := hf
    exact ih (swept_sweepNode h (by omega) ho) (by omega) hr

end

theorem mem_rewriteDependents (h : rewriteDependents rewrites fuel done.length (done ++ rest) hasParent =
    some (deps',ha')) (x : Nat) :
    x ∈ deps' ↔ x ∈ done ∨ ∃ d ∈ rest, rewrites[d]? = some x ∧ x < rewrites.length := by
  induction fuel generalizing done rest hasParent with
  | zero =>
    cases rest with
    | nil =>
      obtain ⟨rfl,-⟩ : done = deps' ∧ hasParent = ha' := by simpa [rewriteDependents] using h
      simp
    | cons d rest => simp [rewriteDependents] at h
  | succ fuel ih =>
    cases rest with
    | nil =>
      obtain ⟨rfl,-⟩ : done = deps' ∧ hasParent = ha' := by simpa [rewriteDependents] using h
      simp
    | cons d rest =>
      have hg : (done ++ d :: rest)[done.length]? = some d := by simp
      simp only [rewriteDependents,hg,bind_iff] at h
      obtain ⟨new,hn,h⟩ := h
      split at h
      case isTrue hd =>
        rcases eq_nil_or_concat' rest with rfl | ⟨rest,last,rfl⟩
        · have hr : swapRemove (done ++ [d]) done.length = done ++ [] := by
            simp [swapRemove]
          rw [hr] at h
          rw [ih h]
          simp only [not_mem_nil,false_and,exists_false,or_false,mem_singleton,
            exists_eq_left,hn,Option.some.injEq]
          constructor
          · exact .inl
          · rintro (hx | ⟨rfl,hlt⟩)
            · exact hx
            · omega
        · have hr : swapRemove (done ++ d :: (rest ++ [last])) done.length =
              done ++ last :: rest := by
            have hl : (done ++ d :: (rest ++ [last])).getLast? = some last := by
              rw [← cons_append,← append_assoc,getLast?_concat]
            rw [swapRemove,hl]
            exact dropLast_set_length ..
          rw [hr] at h
          rw [ih h]
          constructor
          · rintro (hx | ⟨e,he,hx⟩)
            · exact .inl hx
            · exact .inr ⟨e,by simp only [mem_cons,mem_append] at he ⊢; tauto,hx⟩
          · rintro (hx | ⟨e,he,hx,hlt⟩)
            · exact .inl hx
            · rcases mem_cons.mp he with rfl | he
              · cases hn.symm.trans hx
                omega
              · exact .inr ⟨e,by simp only [mem_cons,mem_append] at he ⊢; tauto,hx,hlt⟩
      case isFalse hli =>
        have hs : (done ++ d :: rest).set done.length new = (done ++ [new]) ++ rest := by
          rw [set_append_right _ _ (Nat.le_refl _)]
          simp
        have hle : done.length + 1 = (done ++ [new]).length := by simp
        rw [hs,hle] at h
        rw [ih h]
        simp only [mem_append,mem_cons,not_mem_nil,or_false,exists_eq_or_imp,hn,Option.some.injEq,or_assoc]
        refine or_congr_right (or_congr_left ⟨?_,?_⟩)
        · rintro rfl
          exact ⟨rfl,by omega⟩
        · rintro ⟨rfl,-⟩
          rfl

structure Survivor (ns : List (Node O)) (j : Nat) (m : Node O) (i : Nat) (n : Node O) : Prop where
  old : ns[i]? = some n
  alive : alive n
  index : rank ObligationForest.alive ns i = j
  uid : m.uid = n.uid
  state : m.state = n.state
  dependents : ∀ d p, d ∈ n.dependents → ns[d]? = some p → ObligationForest.alive p →
    rank ObligationForest.alive ns d ∈ m.dependents

structure Compacted (ns ns' : List (Node O)) : Prop where
  back : ∀ j m, ns'[j]? = some m → ∃ i n, Survivor ns j m i n
  uids : ns'.map Node.uid = (ns.filter alive).map Node.uid
  bound : (∀ n ∈ ns, ∀ d ∈ n.dependents, d < ns.length) → ∀ m ∈ ns', ∀ d ∈ m.dependents, d < ns'.length

theorem Swept.dead_eq (h : Swept key outcomeCb f f.nodes.length s) :
    s.forest.nodes.take (f.nodes.length - s.deadNodes) = f.nodes.filter alive := by
  obtain ⟨dead,hl,hn⟩ := h.layout
  have hc := h.count
  rw [rank,take_length,countP_eq_length_filter] at hc
  have ht : f.nodes.length - s.deadNodes = (f.nodes.filter alive).length := by omega
  rw [hn,take_length,drop_length,append_nil,ht,take_left]

theorem compacted_of_rewrite {ns ns' : List (Node O)} (hl : rewrites.length = ns.length)
    (hr : ∀ i n, ns[i]? = some n → rewrites[i]? = some (newIndex ns i n))
    (h : (ns.filter alive).mapM (rewriteNode rewrites) = some ns') : Compacted ns ns' := by
  have hno (n m : Node O) (hm : rewriteNode rewrites n = some m) : m.uid = n.uid ∧
      m.state = n.state ∧ ∀ x, x ∈ m.dependents ↔ ∃ d ∈ n.dependents, rewrites[d]? = some x ∧ x < rewrites.length := by
    simp only [rewriteNode,bind_iff] at hm
    obtain ⟨⟨deps,hasParent⟩,hde,hm⟩ := hm
    cases hm
    refine ⟨rfl,rfl,fun x => ?_⟩
    have hme : x ∈ deps ↔ x ∈ [] ∨ ∃ d ∈ n.dependents, rewrites[d]? = some x ∧ x < rewrites.length :=
      mem_rewriteDependents hde x
    simpa using hme
  refine ⟨fun j m hm => ?_,?_,fun _ m hm x hx => ?_⟩
  · rw [getElem?_of_mapM h,Option.bind_eq_some_iff] at hm
    obtain ⟨n,hn,hm⟩ := hm
    obtain ⟨i,hi,ha,hra⟩ := exists_rank alive hn
    obtain ⟨hu,hs,hde⟩ := hno n m hm
    refine ⟨i,n,hi,ha,hra,hu,hs,fun d p hd hp ha' => ?_⟩
    have hlt : rank alive ns d < ns.length := by
      have hle := rank_le alive ns d
      have hd := lt_of_getElem? hp
      omega
    exact (hde _).mpr ⟨d,hd,by simp [hr d p hp,newIndex,ha'],hl ▸ hlt⟩
  · apply ext_getElem?
    intro j
    simp only [getElem?_map,getElem?_of_mapM h]
    cases hj : (ns.filter alive)[j]? with
    | none => rfl
    | some n =>
      obtain ⟨m,hm,-⟩ := exists_of_mapM h hj
      simp [hm,(hno n m hm).1]
  · obtain ⟨j,hj⟩ := mem_iff_getElem?.mp hm
    rw [getElem?_of_mapM h,Option.bind_eq_some_iff] at hj
    obtain ⟨n,-,hm⟩ := hj
    obtain ⟨d,-,hd,hlt⟩ := ((hno n m hm).2.2 x).mp hx
    have hdl := hl ▸ lt_of_getElem? hd
    have hg := getElem?_eq_getElem hdl
    obtain rfl : newIndex ns d ns[d] = x := by simpa [hr d _ hg] using hd
    have ha : alive ns[d] := by
      by_contra hdd
      simp only [newIndex,hdd,if_false] at hlt
      omega
    rw [length_of_mapM h]
    simpa [newIndex,ha] using lt_of_getElem? (filter_rank alive hg ha)

theorem compacted_of_alive (h : ∀ n ∈ ns, alive n) : Compacted ns ns := by
  refine ⟨fun j m hm => ⟨j,m,hm,h m (mem_of_getElem? hm),?_,rfl,rfl,?_⟩,?_,id⟩
  · exact rank_of_all alive h (Nat.le_of_lt (lt_of_getElem? hm))
  · intro d p hd hp _
    rwa [rank_of_all alive h (Nat.le_of_lt (lt_of_getElem? hp))]
  · rw [filter_eq_self.mpr h]

theorem compress_spec [DecidableEq K] {key : O → K} {outcomeCb : Node O → Option (Event O E)}
    {f f' : ObligationForest O E K} (h : f.compress key outcomeCb = some f') :
    (∃ events, (f.nodes.filter isDone).mapM outcomeCb = some events ∧ f'.log = f.log ++ events) ∧
      f'.nextUid = f.nextUid ∧ Compacted f.nodes f'.nodes ∧
      ∀ c ∈ f'.doneCache, c ∈ f.doneCache ∨ ∃ n ∈ f.nodes, n.state = .done ∧ key n.obligation = c := by
  simp only [compress,bind_iff] at h
  obtain ⟨s,hf,h⟩ := h
  have hs : Swept key outcomeCb f f.nodes.length s := by
    refine swept_fold (swept_start f) (Nat.zero_add _) ?_
    rw [← range_eq_range']
    exact hf
  have hl := hs.log
  rw [take_length] at hl
  have hd := hs.dead_eq
  split at h
  case isTrue =>
    simp only [applyRewrites,hd,bind_iff] at h
    obtain ⟨nodes,hno,active,-,h⟩ := h
    cases h
    refine ⟨hl,hs.nextUid,compacted_of_rewrite hs.length (fun i n hn => ?_) hno,hs.doneCache⟩
    simpa [(lt_of_getElem? hn)] using hs.rewrites i n hn
  case isFalse hz =>
    cases h
    have hc := hs.count
    have ha : ∀ n ∈ f.nodes, alive n := by
      rw [← List.countP_eq_length]
      rw [rank,List.take_length] at hc
      omega
    have hsa : s.forest.nodes = f.nodes := by
      obtain ⟨dead,hle,hla⟩ := hs.layout
      obtain rfl : dead = [] := List.length_eq_zero_iff.mp (by omega)
      rw [hla,List.take_length,List.drop_length,List.filter_eq_self.mpr ha]
      simp
    refine ⟨hl,hs.nextUid,?_,hs.doneCache⟩
    rw [hsa]
    exact compacted_of_alive ha

end ObligationForest

end Frontend.Obligation
