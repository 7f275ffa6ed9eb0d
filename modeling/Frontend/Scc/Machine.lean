import Frontend.Scc.Annotated

namespace Frontend.Scc

open Library List Function Option Walking

variable {A : Type}

structure DataRep (data : SccData) (succs : List (List Nat)) : Prop where
  length : data.sccDetails.length = succs.length
  get : ∀ (s : Nat) (l : List Nat), succs[s]? = some l → ∃ range, data.sccDetails[s]? = some range ∧
    range.2 ≤ data.allSuccessors.length ∧ (data.allSuccessors.take range.2).drop range.1 = l

theorem DataRep.successors (h : DataRep data succs) (hl : succs[s]? = some l) : data.successors s = some l := by
  obtain ⟨range,hr,-,hs⟩ := h.get s l hl
  simp [SccData.successors,hr,hs]

theorem DataRep.createScc (h : DataRep data succs) (l : List Nat) :
    (data.createScc l).1 = succs.length ∧ DataRep (data.createScc l).2 (succs ++ [l]) := by
  refine ⟨h.length,by simp [SccData.createScc,h.length],fun s l' hl' => ?_⟩
  rcases getElem?_concat.mp hl' with hl' | ⟨rfl,rfl⟩
  · obtain ⟨range,hr,hle,hs⟩ := h.get s l' hl'
    refine ⟨range,?_,?_,?_⟩
    · rw [SccData.createScc,getElem?_append_left (lt_of_getElem? hr),hr]
    · rw [SccData.createScc,length_append]
      exact hle.trans (Nat.le_add_right ..)
    · rw [SccData.createScc,take_append_of_le_length hle,hs]
  · refine ⟨(data.allSuccessors.length,(data.allSuccessors ++ l').length),?_,le_rfl,?_⟩
    · rw [SccData.createScc,← h.length]
      simp
    · rw [SccData.createScc,take_length,drop_left]

def frameWeight (f : VisitingNodeFrame A) : Nat :=
  match f.successors with
  | none => 0
  | some successors => successors.length + 2

def nodeWeight (G : Graph) (st : Nat → Status) (v : Nat) : Nat :=
  if st v = .white then (G.successors v).length + 3 else 0

def weight (G : Graph) (st : Nat → Status) (w : WalkState A) : Nat :=
  ∑ v ∈ Finset.range G.numNodes, nodeWeight G st v + (w.stack.map frameWeight).sum +
    if w.returnValue.isSome then 1 else 0

theorem sum_nodeWeight_enter (new : Status) (hv : v < G.numNodes) (hwh : st v = .white) (hn : new ≠ .white) :
    ∑ u ∈ Finset.range G.numNodes, nodeWeight G (update st v new) u + ((G.successors v).length + 3) =
      ∑ u ∈ Finset.range G.numNodes, nodeWeight G st u := by
  have hm := Finset.mem_range.mpr hv
  rw [← Finset.add_sum_erase _ _ hm,← Finset.add_sum_erase _ (nodeWeight G st) hm]
  have hr : ∑ u ∈ (Finset.range G.numNodes).erase v, nodeWeight G (update st v new) u =
      ∑ u ∈ (Finset.range G.numNodes).erase v, nodeWeight G st u := by
    refine Finset.sum_congr rfl fun u hu => ?_
    simp [nodeWeight,update_of_ne (Finset.ne_of_mem_erase hu)]
  rw [hr]
  simp only [nodeWeight,update_self,hn,hwh,if_false,if_true]
  omega

theorem sum_nodeWeight_settle (hn : new ≠ .white) :
    ∑ u ∈ Finset.range G.numNodes, nodeWeight G (Rep.settle st d new) u = ∑ u ∈ Finset.range G.numNodes,
    nodeWeight G st u := by
  refine Finset.sum_congr rfl fun u _ => ?_
  by_cases hu : st u = .active d
  · simp [nodeWeight,Rep.settle_of_eq hu,hu,hn]
  · simp [nodeWeight,Rep.settle_of_ne hu]

def Annotations.IsSup (ann : Annotations A) (L : SemilatticeSup A) : Prop :=
  ∀ a b, ann.updateScc a b = L.sup a b ∧ ann.updateReachable a b = L.sup a b

structure Inv (G : Graph) (ann : Annotations A) (st₀ : Nat → Status) (initial : Nat)
    (w : WalkState A) (st : Nat → Status) (succs : List (List Nat)) : Prop where
  rep : Rep G.numNodes ann.new w.construction st
  bounded : ∀ v, st v ≠ .white → v < G.numNodes
  stack : w.construction.nodeStack = ((w.stack.filter fun f => f.successors.isSome).map VisitingNodeFrame.node).reverse
  data : DataRep w.construction.sccData succs
  walking : Walking G st w.stack w.returnValue w.construction.successorsStack succs
  fresh : ∀ f ∈ w.stack, ¬ f.Entered → f.annotation = ann.new f.node
  indices : w.construction.annotated.map Prod.fst = List.range succs.length
  bottom : ∀ f ∈ w.stack.getLast?, f.node = initial
  result : w.stack = [] → ∃ s x, w.returnValue = some (.complete s x) ∧ st initial = .done s
  kept : ∀ v s, st₀ v = .done s → st v = .done s
  merging : ∀ L : SemilatticeSup A, ann.IsSup L → Merging G ann.new st w.stack w.returnValue w.construction.annotated

namespace Inv

variable {G : Graph} {ann : Annotations A} {st₀ st : Nat → Status} {initial : Nat}
  {w : WalkState A} {succs : List (List Nat)} {f : VisitingNodeFrame A}
  {rest : List (VisitingNodeFrame A)}

section

variable (h : Inv G ann st₀ initial w st succs)

include h

section

variable (hw : w.stack = f :: rest)

include hw

theorem entered_rest : rest.filter (fun g => g.successors.isSome) = rest := by
  refine filter_eq_self.mpr fun g hg => ?_
  refine h.walking.entered g ?_
  rw [hw]
  exact hg

theorem walking_cons :
    Walking G st (f :: rest) w.returnValue w.construction.successorsStack succs := hw ▸ h.walking

theorem merging_cons {L : SemilatticeSup A} (hL : ann.IsSup L) :
    Merging G ann.new st (f :: rest) w.returnValue w.construction.annotated := hw ▸ h.merging L hL

theorem bottom_cons (hn : e.node = f.node) : ∀ g ∈ (e :: rest).getLast?, g.node = initial := by
  have hb := h.bottom
  rw [hw] at hb
  cases rest with
  | nil => simpa [hn] using hb
  | cons g rest => simpa using hb

theorem bottom_tail : ∀ g ∈ rest.getLast?, g.node = initial := by
  have hb := h.bottom
  rw [hw] at hb
  cases rest with
  | nil => simp
  | cons g rest => simpa using hb

theorem fresh_tail : ∀ g ∈ rest, ¬ g.Entered → g.annotation = ann.new g.node := by
  intro g hg
  refine h.fresh g ?_
  rw [hw]
  exact .tail _ hg

theorem depth_eq : (rest.map VisitingNodeFrame.node).reverse.length = f.depth := by
  rw [depth_head (h.walking_cons hw),length_reverse,length_map]

theorem setAt_node (state : NodeState A) :
    setAt w.construction.nodeStates f.node state = some (w.construction.nodeStates.set f.node state) := by
  rw [setAt,if_pos (h.rep.length ▸ (h.walking_cons hw).lt f (.head _))]

theorem nodeStack_entered (hf : f.Entered) :
    w.construction.nodeStack = (rest.map VisitingNodeFrame.node).reverse ++ [f.node] := by
  rw [h.stack,hw,filter_cons,hf,if_pos rfl,h.entered_rest hw]
  simp

theorem nodeStack_fresh (hf : ¬ f.Entered) :
    w.construction.nodeStack = (rest.map VisitingNodeFrame.node).reverse := by
  have hf' : ¬ f.successors.isSome = true := hf
  rw [h.stack,hw,filter_cons,if_neg hf',h.entered_rest hw]

end

end

-- One step of the walk: it does not panic, keeps the invariant and spends one unit of the weight.
def Advances (G : Graph) (ann : Annotations A) (st₀ : Nat → Status) (initial : Nat) (st : Nat → Status) (w : WalkState A)
    (r : Option (WalkState A)) : Prop :=
  ∃ w' st' succs', r = some w' ∧ Inv G ann st₀ initial w' st' succs' ∧ weight G st' w' + 1 = weight G st w

theorem enter (h : Inv G ann st₀ initial w st succs) (hw : w.stack = f :: rest) (hf : ¬ f.Entered) :
    Advances G ann st₀ initial st w (enterNode G w.construction f rest) := by
  have hwa := h.walking_cons hw
  obtain ⟨hwh,hret⟩ := hwa.fresh f (.head _) hf
  rw [hret] at hwa
  have hlt := hwa.lt f (.head _)
  have ho := h.fresh f (by rw [hw]; exact (.head _)) hf
  have hrep := h.rep.enter hlt hwh
  rw [show w.construction.nodeStack.length = f.depth by rw [h.nodeStack_fresh hw hf,h.depth_eq hw],← ho] at hrep
  refine ⟨_,update st f.node (.active f.depth),succs,by rw [enterNode,h.rep.notVisited hlt hwh],?_,?_⟩
  · refine { h with
        rep := hrep, walking := hwa.enter hf, bottom := h.bottom_cons hw rfl, result := nofun, bounded := ?b,
        stack := ?s, fresh := ?f, kept := ?k, merging := ?m }
    case b =>
      intro v hv
      by_cases hne : v = f.node
      · exact hne ▸ hlt
      · exact h.bounded v (by rwa [update_of_ne hne] at hv)
    case s =>
      rw [h.nodeStack_fresh hw hf]
      simp [h.entered_rest hw]
    case f => exact forall_mem_cons.mpr ⟨fun hne => absurd rfl hne,h.fresh_tail hw⟩
    case k =>
      intro v s hv
      have hd := h.kept v s hv
      have hne : v ≠ f.node := by
        rintro rfl
        exact absurd (hd.symm.trans hwh) (by simp)
      rw [update_of_ne hne,hd]
    case m =>
      intro L hL
      exact (hret ▸ h.merging_cons hw hL).enter hwa hf ho
  · have hs := sum_nodeWeight_enter (.active f.depth) hlt hwh (by simp)
    have hn : f.successors = none := by simpa [VisitingNodeFrame.Entered] using hf
    simp only [weight,hw,hret,map_cons,sum_cons,frameWeight,hn,isSome_none,Bool.false_eq_true,if_false]
    omega

section

def Seen (st : Nat → Status) (own : Nat → A) (ret : Option (WalkReturn A)) (c : Construction A) (x : Nat) :
    WalkReturn A → Prop
  | .cycle d y => st x = .active d ∧ (ret = some (.cycle d y) ∨ ret = none ∧ ∃ r, c.nodeStack[d]? = some r ∧ y = own r)
  | .complete s y => st x = .done s ∧ (ret = some (.complete s y) ∨ ret = none ∧ (s,y) ∈ c.annotated)

variable {x : Nat} {xs : List Nat} {states : List (NodeState A)} {walk : WalkReturn A}

theorem replaceTop (h : Inv G ann st₀ initial w st succs) (hw : w.stack = f :: rest) (hf : f.Entered)
    (hsa : SameTop f f') (hf' : f'.Entered) (hs : w'.stack = f' :: rest)
    (hrep : Rep G.numNodes ann.new w'.construction st)
    (hn : w'.construction.nodeStack = w.construction.nodeStack)
    (hd : w'.construction.sccData = w.construction.sccData)
    (ha : w'.construction.annotated = w.construction.annotated)
    (hwa : Walking G st (f' :: rest) w'.returnValue w'.construction.successorsStack succs)
    (hm : ∀ L : SemilatticeSup A, ann.IsSup L →
    Merging G ann.new st (f' :: rest) w'.returnValue w.construction.annotated) :
    Inv G ann st₀ initial w' st succs := by
  refine { h with
      rep := hrep, data := hd ▸ h.data, walking := hs ▸ hwa, indices := ha ▸ h.indices,
      bottom := hs ▸ h.bottom_cons hw hsa.node, stack := ?s, fresh := ?f, result := by simp [hs],
      merging := ?m }
  case s =>
    rw [hn,h.nodeStack_entered hw hf,hs,filter_cons,hf',if_pos rfl,h.entered_rest hw]
    simp [hsa.node]
  case f =>
    rw [hs]
    exact forall_mem_cons.mpr ⟨fun hne => absurd hf' hne,h.fresh_tail hw⟩
  case m =>
    intro L hL
    rw [hs,ha]
    exact hm L hL

def noteCycle (f : VisitingNodeFrame A) (d x : Nat) : VisitingNodeFrame A :=
  if d < f.minDepth then { f with minDepth := d, minCycleRoot := x } else f

theorem noteCycle_spec (f : VisitingNodeFrame A) (d x : Nat) :
    (noteCycle f d x).node = f.node ∧ (noteCycle f d x).depth = f.depth ∧ (noteCycle f d x).successors = f.successors ∧
      (noteCycle f d x).successorsLen = f.successorsLen ∧
      VisitingNodeFrame.annotation (noteCycle f d x) = f.annotation ∧
      (noteCycle f d x).minDepth = min f.minDepth d ∧
      (noteCycle f d x).minCycleRoot = if d < f.minDepth then x else f.minCycleRoot := by
  unfold noteCycle
  split
  case isTrue hlt => simp [Nat.min_eq_right hlt.le]
  case isFalse hge => simp [Nat.min_eq_left (Nat.not_lt.mp hge)]

theorem foundSuccessor_cycle (hd : d ≤ f.depth) : foundSuccessor ann c f rest x (.cycle d y) = some {
      construction := c
      stack := { noteCycle f d x with annotation := ann.updateScc f.annotation y } :: rest
      returnValue := none } := by
  rw [foundSuccessor,if_pos hd,noteCycle]
  split <;> rfl

def Looked (G : Graph) (ann : Annotations A) (st₀ : Nat → Status) (initial : Nat) (st : Nat → Status)
    (succs : List (List Nat))
    (xs : List Nat) (rest : List (VisitingNodeFrame A)) (r : Option (WalkState A)) : Prop :=
  ∃ w', r = some w' ∧ Inv G ann st₀ initial w' st succs ∧ w'.returnValue = none ∧
    (w'.stack.map frameWeight).sum = xs.length + 2 + (rest.map frameWeight).sum

section

variable (h : Inv G ann st₀ initial w st succs) (hw : w.stack = f :: rest) (hf : f.Entered)
  (hleft : leftOf G w.returnValue.isSome f = x :: xs)
  (hrep : Rep G.numNodes ann.new { w.construction with nodeStates := states } st)

include h hw hf hleft hrep

theorem foundCycle (hse : Seen st ann.new w.returnValue w.construction x (.cycle d y)) :
    Looked G ann st₀ initial st succs xs rest
      (foundSuccessor ann { w.construction with nodeStates := states } { f with successors := some xs } rest x
      (.cycle d y)) := by
  have hwa := h.walking_cons hw
  obtain ⟨hst,hfr⟩ := hse
  have hd := active_le hwa hst
  have hret m z (hr : w.returnValue = some (.cycle m z)) : m = d ∧ z = y := by
    rcases hfr with hr' | ⟨hr',-⟩
    · exact WalkReturn.cycle.inj (mem_unique hr hr')
    · simp [hr'] at hr
  have hsp := noteCycle_spec { f with successors := some xs } d x
  rw [foundSuccessor_cycle (f := { f with successors := some xs }) hd]
  generalize noteCycle { f with successors := some xs } d x = f1 at hsp
  obtain ⟨hn,hde,hsucc,hl,-,hmi,hro⟩ := hsp
  have hm' := hmi ▸ Nat.min_le_right ..
  have hsa : SameTop f { f1 with annotation := ann.updateScc f.annotation y } := ⟨hn,hde⟩
  refine ⟨_,rfl,?_,rfl,?_⟩
  · refine h.replaceTop hw hf hsa (.of_some hsucc) rfl hrep rfl rfl rfl ?_ ?_
    · exact hwa.lookCycle hf hleft hst (fun m z hr => Nat.le_of_eq (hret m z hr).1.symm) hsa hsucc hl hmi hro
    · intro L hL
      have hme := h.merging_cons hw hL
      refine hme.look hwa hleft hsa hsucc (hmi ▸ Nat.min_le_left ..) (hL _ _).1 (fun m z hr => ?_) (fun u hu hb => ?_)
        (fun s z hs => absurd (hs.symm.trans hst) (by simp)) hf
      · obtain ⟨rfl,rfl⟩ := hret m z hr
        exact ⟨hm',le_refl _⟩
      · rcases hfr with hr | ⟨-,r,hr,rfl⟩
        · refine hme.leastReturn d y hr f rfl u (hb.of_le (fun v a hv hm hd' => ?_) fun _ _ => id)
          exact ⟨a,hv,hm'.trans hm,hd'⟩
        · exact hb.member r d (h.rep.stack_active hr).2 hm' hd
  · simp [frameWeight,hsucc]

theorem foundComplete (hse : Seen st ann.new w.returnValue w.construction x (.complete s y)) :
    Looked G ann st₀ initial st succs xs rest
      (foundSuccessor ann { w.construction with nodeStates := states } { f with successors := some xs } rest x
      (.complete s y)) := by
  have hwa := h.walking_cons hw
  obtain ⟨hst,hfr⟩ := hse
  have hret : ∀ m z, w.returnValue ≠ some (.cycle m z) := by
    intro m z hr
    rcases hfr with hr' | ⟨hr',-⟩ <;> simp [hr'] at hr
  have hs : SameTop f { f with
    successors := some xs, annotation := ann.updateReachable f.annotation y } := ⟨rfl,rfl⟩
  refine ⟨_,rfl,?_,rfl,?_⟩
  · refine h.replaceTop hw hf hs rfl rfl ?_ rfl rfl rfl ?_ ?_
    · exact ⟨hrep.length,hrep.status,hrep.stack⟩
    · exact hwa.lookComplete hf hleft hst hret hs rfl rfl rfl rfl
    · intro L hL
      have hm := h.merging_cons hw hL
      have hy : (s,y) ∈ w.construction.annotated := by
        rcases hfr with hr | ⟨-,hy⟩
        · exact hm.complete s y hr
        · exact hy
      have he := edge_of_look hwa hleft
      have hg := hwa.gray f (.head _) hf
      refine hm.look hwa hleft hs rfl le_rfl (hL _ _).2
        (fun m z hr => absurd hr (hret m z)) (fun u hu hb => ?_) (fun t z ht hz => ?_) hf
      · exact hb.reachable f.node f.depth x s y hg (hwa.minLe f (.head _)) le_rfl he hst hy
      · obtain rfl := Status.done.inj (ht.symm.trans hst)
        exact le_of_eq (congrArg Prod.snd (inj_on_of_nodup_map (h.indices ▸ nodup_range) hz hy rfl))
  · simp [frameWeight]

end

theorem frameWeight_of_left {ret : Option (WalkReturn A)} (hf : f.Entered) (hleft : leftOf G ret.isSome f = x :: xs) :
    frameWeight f + (if ret.isSome then 1 else 0) = xs.length + 3 := by
  obtain ⟨l,hl⟩ := isSome_iff_exists.mp hf
  cases ret with
  | none =>
    obtain rfl : l = x :: xs := by simpa [leftOf,hl] using hleft
    simp [frameWeight,hl]
  | some walk =>
    cases hleft
    simp [frameWeight,hl]

theorem found (h : Inv G ann st₀ initial w st succs) (hw : w.stack = f :: rest) (hf : f.Entered)
    (hleft : leftOf G w.returnValue.isSome f = x :: xs)
    (hrep : Rep G.numNodes ann.new { w.construction with nodeStates := states } st)
    (hs : Seen st ann.new w.returnValue w.construction x walk) :
    Advances G ann st₀ initial st w (foundSuccessor ann { w.construction with nodeStates := states }
        { f with successors := some xs } rest x walk) := by
  obtain ⟨w',hfo,hin,hret,hsu⟩ : Looked G ann st₀ initial st succs xs rest
      (foundSuccessor ann { w.construction with nodeStates := states }
          { f with successors := some xs } rest x walk) := by
    cases walk with
    | cycle d y => exact h.foundCycle hw hf hleft hrep hs
    | complete s y => exact h.foundComplete hw hf hleft hrep hs
  refine ⟨w',st,succs,hfo,hin,?_⟩
  have hwe := frameWeight_of_left hf hleft
  simp only [weight,hret,hsu,hw,map_cons,sum_cons,isSome_none,Bool.false_eq_true,if_false]
  omega

end

section

variable {x : Nat} {xs : List Nat} {states : List (NodeState A)}

theorem push (h : Inv G ann st₀ initial w st succs) (hw : w.stack = f :: rest)
    (hsucc : f.successors = some (x :: xs)) (hret : w.returnValue = none)
    (hrep : Rep G.numNodes ann.new { w.construction with nodeStates := states } st)
    (hwh : st x = .white) :
    Inv G ann st₀ initial {
      construction := { w.construction with nodeStates := states }
      stack := visit ann x xs f rest
      returnValue := none } st succs := by
  have hf : f.Entered := .of_some hsucc
  have hwa := hret ▸ h.walking_cons hw
  refine { h with
      rep := hrep, walking := hwa.push hsucc hwh ann, result := nofun, stack := ?s, fresh := ?f, bottom := ?b,
      merging := ?m }
  case s =>
    rw [h.nodeStack_entered hw hf]
    simp [VisitingNodeFrame.new,h.entered_rest hw]
  case f =>
    rw [forall_mem_cons,forall_mem_cons]
    exact ⟨fun _ => rfl,fun hne => absurd rfl hne,h.fresh_tail hw⟩
  case b => simpa using h.bottom_cons hw (e := { f with successors := some xs, successorNode := x }) rfl
  case m =>
    intro L hL
    exact (hret ▸ h.merging_cons hw hL).push hsucc rfl

end

theorem settle_white (hv : st v = .white) : Rep.settle st d new v = .white := by rw [Rep.settle_of_ne (by simp [hv]),hv]

section

variable (h : Inv G ann st₀ initial w st succs) (hw : w.stack = f :: rest)

include h hw

section

variable (hsucc : f.successors = some []) (hret : w.returnValue = none)

include hsucc hret

theorem finishCycle (hm : f.minDepth < f.depth) : ∃ w', finishNode w.construction f rest = some w' ∧
      Inv G ann st₀ initial w' (Rep.settle st f.depth (.active f.minDepth)) succs ∧
      w'.stack = rest ∧ w'.returnValue.isSome := by
  have hf : f.Entered := .of_some hsucc
  have hwa := hret ▸ h.walking_cons hw
  obtain ⟨he,hr⟩ := hwa.minRoot f (.head _) hm
  have hs := h.nodeStack_entered hw hf
  have hl := h.depth_eq hw
  have hrep := h.rep.link hs (G.successors_lt _ (hwa.lt f (.head _)) _ he) hr (hl.symm ▸ hm)
  rw [hl] at hrep
  refine ⟨_,by
      rw [finishNode,hs,if_neg (by simp),if_neg hm.ne,h.setAt_node hw,dropLast_concat]
      rfl,?_,rfl,rfl⟩
  refine { h with
      rep := hrep, walking := hwa.finishCycle hsucc hm, fresh := h.fresh_tail hw, bottom := h.bottom_tail hw,
      bounded := ?b, stack := ?s, result := ?r, kept := ?k, merging := ?m }
  case b => exact fun v hv => h.bounded v fun hwh => hv (settle_white hwh)
  case s => exact (congrArg (fun l => (l.map VisitingNodeFrame.node).reverse) (h.entered_rest hw)).symm
  case r =>
    intro hre
    rw [show rest = [] from hre] at hl
    exact absurd (hl ▸ hm) (Nat.not_lt_zero _)
  case k => exact fun v s hv => settle_done (h.kept v s hv)
  case m =>
    intro L hL
    exact (hret ▸ h.merging_cons hw hL).finishCycle hwa hsucc hm

theorem finishComplete (hm : f.minDepth = f.depth) : ∃ w', finishNode w.construction f rest = some w' ∧
      Inv G ann st₀ initial w' (Rep.settle st f.depth (.done succs.length))
        (succs ++ [dedup [] (w.construction.successorsStack.drop f.successorsLen)]) ∧
      w'.stack = rest ∧ w'.returnValue.isSome := by
  have hf : f.Entered := .of_some hsucc
  have hwa := hret ▸ h.walking_cons hw
  have hs := h.nodeStack_entered hw hf
  obtain ⟨hsc,hd⟩ := h.data.createScc (dedup [] (w.construction.successorsStack.drop f.successorsLen))
  rcases hc : w.construction.sccData.createScc
    (dedup [] (w.construction.successorsStack.drop f.successorsLen)) with ⟨sccIndex,data⟩
  rw [hc] at hsc hd
  obtain rfl : sccIndex = succs.length := hsc
  refine ⟨_,by
      rw [finishNode,hs,if_neg (by simp),if_pos hm]
      simp only [hc]
      rw [h.setAt_node hw,dropLast_concat]
      rfl,?_,rfl,rfl⟩
  refine { h with
      data := hd, walking := hwa.finishComplete hsucc hm, fresh := h.fresh_tail hw,
      bottom := h.bottom_tail hw, rep := h.depth_eq hw ▸ h.rep.complete hs _ _, bounded := ?b, stack := ?s,
      indices := ?n, result := ?r, kept := ?k, merging := ?m }
  case b => exact fun v hv => h.bounded v fun hwh => hv (settle_white hwh)
  case s => exact (congrArg (fun l => (l.map VisitingNodeFrame.node).reverse) (h.entered_rest hw)).symm
  case n => simp only [map_append,map_cons,map_nil,h.indices,length_append,length_singleton,range_succ]
  case r =>
    intro hr
    have hn : f.node = initial := by
      have hb := h.bottom
      rw [hw,show rest = [] from hr] at hb
      simpa using hb
    exact ⟨_,_,rfl,hn ▸ Rep.settle_of_eq (hwa.gray f (.head _) hf)⟩
  case k => exact fun v s hv => settle_done (h.kept v s hv)
  case m =>
    intro L hL
    exact (hret ▸ h.merging_cons hw hL).finishComplete hwa hsucc hm fun s y hy => mem_range.mp
      (h.indices ▸ mem_map_of_mem (f := Prod.fst) hy)

theorem finish : Advances G ann st₀ initial st w (finishNode w.construction f rest) := by
  have hwa := h.walking_cons hw
  have hwe (w' : WalkState A) (new : Status) (hn : new ≠ .white) (hst : w'.stack = rest)
      (hs : w'.returnValue.isSome) : weight G (Rep.settle st f.depth new) w' + 1 = weight G st w := by
    simp only [weight,sum_nodeWeight_settle hn,hw,hret,hst,hs,map_cons,sum_cons,frameWeight,hsucc,length_nil,
      if_true,isSome_none,
      Bool.false_eq_true,if_false]
    omega
  rcases Nat.lt_or_eq_of_le (hwa.minLe f (.head _)) with hm | hm
  · obtain ⟨w',hsp,hin,hst,hs⟩ := h.finishCycle hw hsucc hret hm
    exact ⟨w',_,_,hsp,hin,hwe w' _ (by simp) hst hs⟩
  · obtain ⟨w',hsp,hin,hst,hs⟩ := h.finishComplete hw hsucc hret hm
    exact ⟨w',_,_,hsp,hin,hwe w' _ (by simp) hst hs⟩

end

end

theorem seen_of_returned (h : Inv G ann st₀ initial w st succs) (hw : w.stack = f :: rest)
    (hret : w.returnValue = some walk) :
    Seen st ann.new w.returnValue w.construction f.successorNode walk := by
  have hwa := h.walking_cons hw
  have hr := hwa.returned f rfl walk hret
  cases walk with
  | cycle m y => exact ⟨hr,.inl hret⟩
  | complete s y => exact ⟨hr,.inl hret⟩

theorem seen_of_inspected (hret : w.returnValue = none) (hin : Rep.Inspected w.construction ann.new (st x) (some walk)) :
    Seen st ann.new w.returnValue w.construction x walk := by
  generalize hst : st x = status at hin
  cases status with
  | white => simp [Rep.Inspected] at hin
  | active d =>
    obtain ⟨r,hr,hwa⟩ := hin
    cases hwa
    exact ⟨hst,.inr ⟨hret,r,hr,rfl⟩⟩
  | done s =>
    obtain ⟨a,ha,hwa⟩ := hin
    cases hwa
    exact ⟨hst,.inr ⟨hret,ha⟩⟩

theorem white_of_inspected (hin : Rep.Inspected w.construction ann.new (st x) none) : st x = .white := by
  generalize st x = status at hin
  cases status with
  | white => rfl
  | active d => simp [Rep.Inspected] at hin
  | done s => simp [Rep.Inspected] at hin

theorem inspect (h : Inv G ann st₀ initial w st succs) (hw : w.stack = f :: rest) (hsucc : f.successors = some (x :: xs))
    (hret : w.returnValue = none) : Advances G ann st₀ initial st w (walkStep G ann w) := by
  have hf : f.Entered := .of_some hsucc
  have hwa := h.walking_cons hw
  have hleft : leftOf G w.returnValue.isSome f = x :: xs := by simp [leftOf,hret,hsucc]
  have hlt := G.successors_lt _ (hwa.lt f (.head _)) _ (edge_of_look hwa hleft)
  obtain ⟨walk,states,hit,hrep,hin⟩ := h.rep.inspectNode hlt
  rw [walkStep,hw]
  simp only [hsucc,hret,hit,bind_eq_bind,bind_some]
  cases walk with
  | some walk => exact h.found hw hf hleft hrep (seen_of_inspected hret hin)
  | none =>
    refine ⟨_,st,succs,rfl,h.push hw hsucc hret hrep (white_of_inspected hin),?_⟩
    simp only [weight,hw,hret,map_cons,sum_cons,frameWeight,hsucc,
      VisitingNodeFrame.new,length_cons,isSome_none,Bool.false_eq_true,if_false]
    omega

theorem step (h : Inv G ann st₀ initial w st succs) (hw : w.stack = f :: rest) :
    Advances G ann st₀ initial st w (walkStep G ann w) := by
  cases hsucc : f.successors with
  | none =>
    rw [walkStep,hw]
    simp only [hsucc]
    exact h.enter hw (by simp [VisitingNodeFrame.Entered,hsucc])
  | some successors =>
    cases hret : w.returnValue with
    | some walk =>
      have hleft : leftOf G w.returnValue.isSome f = f.successorNode :: successors := by simp [leftOf,hret,hsucc]
      have hs := h.found hw (.of_some hsucc) hleft h.rep (h.seen_of_returned hw hret)
      rw [← hsucc] at hs
      rw [walkStep,hw]
      simp only [hsucc,hret]
      exact hs
    | none =>
      cases successors with
      | nil =>
        rw [walkStep,hw]
        simp only [hsucc,hret]
        exact h.finish hw hsucc hret
      | cons x xs => exact h.inspect hw hsucc hret

end Inv

end Frontend.Scc
