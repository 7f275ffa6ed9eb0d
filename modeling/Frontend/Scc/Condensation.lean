import Frontend.Scc.Machine

namespace Frontend.Scc

open List Option VisitingNodeFrame

variable {A : Type} {G : Graph} {ann : Annotations A}

section

structure Resting (G : Graph) (ann : Annotations A) (c : Construction A) (st : Nat → Status)
    (succs : List (List Nat)) : Prop where
  rep : Rep G.numNodes ann.new c st
  bounded : ∀ v, st v ≠ .white → v < G.numNodes
  nodeStack : c.nodeStack = []
  successorsStack : c.successorsStack = []
  data : DataRep c.sccData succs
  idle : ∀ v d, st v ≠ .active d
  condensed : Condensed G st succs
  indices : c.annotated.map Prod.fst = List.range succs.length
  finished : ∀ L : SemilatticeSup A, ann.IsSup L → ∀ s y, (s,y) ∈ c.annotated → Finished G ann.new st c.annotated s y

variable {c : Construction A} {st : Nat → Status} {succs : List (List Nat)} {w : WalkState A}

theorem resting_start (G : Graph) (ann : Annotations A) : Resting G ann G.construction (fun _ => .white) [] where
  rep := .start G
  bounded := by simp
  nodeStack := rfl
  successorsStack := rfl
  data := ⟨rfl,by simp⟩
  idle := by simp
  condensed := ⟨by simp,by simp,by simp,by simp,by simp,by simp⟩
  indices := rfl
  finished := by simp [Graph.construction]

theorem Resting.walking (h : Resting G ann c st succs) (hv : v < G.numNodes) (hwh : st v = .white) :
    Walking G st [.new ann v 0] (none : Option (WalkReturn A)) [] succs := by
  have he : ¬ (new ann v 0).Entered := by simp [Entered,new]
  constructor
  case depth =>
    intro i f hf
    obtain ⟨rfl,rfl⟩ : i = 0 ∧ _ = f := by simpa [getElem?_singleton] using hf
    rfl
  case entered => simp
  case lt => simpa [new] using hv
  case gray => simpa using fun hf => absurd hf he
  case fresh => simpa [new] using fun _ => hwh
  case child => simp
  case left =>
    rintro u w (⟨rfl,hw⟩ | ⟨g,hg,-⟩)
    · simpa [Graph.Edge,leftOf,new] using hw
    · simp at hg
  case path => simp
  case active => exact fun u d hu => absurd hu (h.idle u d)
  case minLe => simp [new]
  case minRoot => simp [new]
  case returned => simp
  case explored => exact fun u a _ hu => absurd hu (h.idle u a)
  case lens => simpa using fun hf => absurd hf he
  case pushed => simp
  case condensed => exact h.condensed

theorem Resting.inv (h : Resting G ann c st succs) (hv : v < G.numNodes) (hw : st v = .white) :
    Inv G ann st v ⟨c,[.new ann v 0],none⟩ st succs := by
  constructor
  case rep => exact h.rep
  case bounded => exact h.bounded
  case stack => simp [h.nodeStack,new]
  case data => exact h.data
  case walking => exact h.successorsStack ▸ h.walking hv hw
  case fresh => simp [new]
  case indices => exact h.indices
  case bottom => simp [new]
  case result => simp
  case kept => exact fun _ _ => id
  case merging =>
    intro L hL
    constructor
    case member => exact fun u a hu => absurd hu (h.idle u a)
    case reachable => exact fun u a _ _ _ hu => absurd hu (h.idle u a)
    case least => simpa [new] using fun _ hu _ => hu
    case leastReturn => simp
    case complete => simp
    case finished => exact h.finished L hL

theorem Inv.resting (h : Inv G ann st0 initial w st succs) (hw : w.stack = []) :
    Resting G ann w.construction st succs := by
  have hwa := h.walking
  rw [hw] at hwa
  have hid : ∀ v d, st v ≠ .active d := by
    intro v d hv
    obtain ⟨f,hf,-⟩ := hwa.active v d hv
    simp at hf
  constructor
  case rep => exact h.rep
  case bounded => exact h.bounded
  case nodeStack => simp [h.stack,hw]
  case successorsStack =>
    refine eq_nil_iff_forall_not_mem.mpr fun s hs => ?_
    obtain ⟨p,hp⟩ := mem_iff_getElem?.mp hs
    obtain ⟨v,a,-,hv,-⟩ := hwa.pushed p s hp
    exact hid v a hv
  case data => exact h.data
  case idle => exact hid
  case condensed => exact hwa.condensed
  case indices => exact h.indices
  case finished => exact fun L hL => (h.merging L hL).finished

end

section

variable {c : Construction A} {st : Nat → Status} {succs : List (List Nat)} {w : WalkState A}

theorem walkLoop_spec (fuel : Nat) (h : Inv G ann st0 initial w st succs) (hf : weight G st w < fuel) :
    ∃ s x c' st' succs', walkLoop G ann fuel w = some (.complete s x,c') ∧ Resting G ann c' st' succs' ∧
    st' initial = .done s ∧
      ∀ v t, st0 v = .done t → st' v = .done t := by
  induction fuel generalizing w st succs with
  | zero => omega
  | succ fuel ih =>
    cases hw : w.stack with
    | nil =>
      obtain ⟨s,x,hr,hd⟩ := h.result hw
      refine ⟨s,x,w.construction,st,succs,?_,h.resting hw,hd,h.kept⟩
      simp [walkLoop,hw,hr]
    | cons f rest =>
      obtain ⟨w',st',succs',hs,hin,hwe⟩ := h.step hw
      obtain ⟨s,x,c',st'',succs'',hl,hsp⟩ := ih hin (by omega)
      refine ⟨s,x,c',st'',succs'',?_,hsp⟩
      simp [walkLoop,hw,hs,hl]

theorem weight_lt_walkFuel (v : Nat) : weight G st (⟨c,[.new ann v 0],none⟩ : WalkState A) < G.walkFuel := by
  have hs : ∑ v ∈ Finset.range G.numNodes, nodeWeight G st v ≤
      ((range G.numNodes).map fun v => (G.successors v).length + 3).sum := by
    have hr : (range G.numNodes).toFinset = Finset.range G.numNodes := by
      ext v
      simp
    rw [← sum_toFinset _ nodup_range,hr]
    refine Finset.sum_le_sum fun v _ => ?_
    unfold nodeWeight
    split
    case isTrue => exact le_rfl
    case isFalse => exact Nat.zero_le _
  simp only [weight,Graph.walkFuel,map_cons,map_nil,sum_cons,sum_nil,
    frameWeight,new,isSome_none,Bool.false_eq_true,if_false]
  omega

theorem walkUnvisitedNode_spec (h : Resting G ann c st succs) (hv : v < G.numNodes) (hw : st v = .white) :
    ∃ s x c' st' succs', walkUnvisitedNode G ann c v = some (.complete s x,c') ∧ Resting G ann c' st' succs' ∧
    st' v = .done s ∧
      ∀ u t, st u = .done t → st' u = .done t := by
  obtain ⟨s,x,c',st',succs',hl,hr,hs⟩ := walkLoop_spec _ (h.inv hv hw) (weight_lt_walkFuel v)
  refine ⟨s,x,c',st',succs',?_,hr,hs⟩
  simp [walkUnvisitedNode,h.successorsStack,hl,hr.successorsStack]

theorem startWalkFrom_spec (h : Resting G ann c st succs) (hv : v < G.numNodes) :
    ∃ s x c' st' succs', startWalkFrom G ann c v = some (.complete s x,c') ∧ Resting G ann c' st' succs' ∧
    st' v = .done s ∧
      ∀ u t, st u = .done t → st' u = .done t := by
  obtain ⟨walk,states,hin,hre,hid⟩ := h.rep.inspectNode hv
  have hr : Resting G ann { c with nodeStates := states } st succs :=
    { h with rep := hre }
  cases hst : st v with
  | white =>
    obtain rfl : walk = none := by simpa [hst,Rep.Inspected] using hid
    obtain ⟨s,x,c',st',succs',hw,hs⟩ := walkUnvisitedNode_spec hr hv hst
    exact ⟨s,x,c',st',succs',by simp [startWalkFrom,hin,hw],hs⟩
  | active d => exact absurd hst (h.idle v d)
  | done s =>
    obtain ⟨a,-,rfl⟩ : ∃ a, (s,a) ∈ c.annotated ∧ walk = some (.complete s a) := by simpa [hst,Rep.Inspected] using hid
    exact ⟨s,a,_,st,succs,by simp [startWalkFrom,hin],hr,hst,fun _ _ => id⟩

theorem constructNodes_spec (nodes : List Nat) (h : Resting G ann c st succs) (hn : ∀ v ∈ nodes, v < G.numNodes)
    (indices : List Nat) :
    ∃ out c' st' succs', nodes.foldlM (constructNode G ann) (indices,c) = some (indices ++ out,c') ∧
      Resting G ann c' st' succs' ∧ List.Forall₂ (fun v s => st' v = .done s) nodes out ∧
      ∀ u t, st u = .done t → st' u = .done t := by
  induction nodes generalizing c st succs indices with
  | nil => exact ⟨[],c,st,succs,by simp,h,.nil,fun _ _ => id⟩
  | cons v nodes ih =>
    rw [forall_mem_cons] at hn
    obtain ⟨s,x,c1,st1,succs1,hs,hr,hv,hk⟩ := startWalkFrom_spec h hn.1
    obtain ⟨out,c',st',succs',hf,hr',ha,hk'⟩ := ih hr hn.2 (indices ++ [s])
    refine ⟨s :: out,c',st',succs',?_,hr',.cons (hk' v s hv) ha,fun u t hu => hk' u t (hk u t hu)⟩
    simp only [foldlM_cons,constructNode,hs,bind_eq_bind,bind_some]
    simpa using hf

end

namespace Sccs

section

variable (ann : Annotations A) (sccs : Sccs A) (scc : Nat)

def numSccs : Nat := sccs.sccData.sccDetails.length

def members : List Nat := (List.range sccs.sccIndices.length).filter fun v => sccs.sccIndices[v]? = some scc

def annotation : Option A := (sccs.annotated.find? fun call => call.1 = scc).map Prod.snd

def merge : Option A :=
  match sccs.members scc with
  | [] => none
  | member :: members => do
    let successors ← sccs.sccData.successors scc
    return (successors.filterMap sccs.annotation).foldl ann.updateReachable
      ((members.map ann.new).foldl ann.updateScc (ann.new member))

end

end Sccs

structure Condensation (G : Graph) (sccs : Sccs A) : Prop where
  length : sccs.sccIndices.length = G.numNodes
  lt : ∀ v s : Nat, sccs.sccIndices[v]? = some s → s < sccs.numSccs
  inhabited : ∀ s < sccs.numSccs, ∃ v : Nat, sccs.sccIndices[v]? = some s
  same : ∀ v w s t : Nat, sccs.sccIndices[v]? = some s → sccs.sccIndices[w]? = some t →
    (s = t ↔ G.Reach v w ∧ G.Reach w v)
  successors : ∀ s < sccs.numSccs, ∃ l, sccs.sccData.successors s = some l ∧ l.Nodup ∧
    (∀ t, t ∈ l ↔ t ≠ s ∧ ∃ v w : Nat, sccs.sccIndices[v]? = some s ∧ G.Edge v w ∧ sccs.sccIndices[w]? = some t) ∧
    ∀ t ∈ l, t < s
  annotatedOnce : sccs.annotated.map Prod.fst = List.range sccs.numSccs

theorem sccIndices_iff {st : Nat → Status} (ha : List.Forall₂ (fun v s => st v = .done s) (range n) indices) :
    indices[v]? = some s ↔ v < n ∧ st v = .done s := by
  obtain ⟨hl,hg⟩ := forall₂_iff_get.mp ha
  rw [length_range] at hl
  constructor
  · intro hv
    obtain ⟨hlt,rfl⟩ := List.getElem_of_getElem? hv
    exact ⟨hl ▸ hlt,by simpa using hg v (by simpa using hl ▸ hlt) hlt⟩
  · rintro ⟨hlt,hv⟩
    have hv' : st v = .done (indices[v]) := by simpa using hg v (by simpa using hlt) (hl ▸ hlt)
    rw [getElem?_eq_getElem (hl ▸ hlt),Status.done.inj (hv'.symm.trans hv)]

section

variable {c : Construction A} {st : Nat → Status} {succs : List (List Nat)} {indices : List Nat}

section

variable (h : Resting G ann c st succs) (ha : List.Forall₂ (fun v s => st v = .done s) (range G.numNodes) indices)

include h ha

theorem Resting.index_iff :
    indices[v]? = some s ↔ st v = .done s := by
  rw [sccIndices_iff ha]
  exact ⟨And.right,fun hv => ⟨h.bounded v (by simp [hv]),hv⟩⟩

theorem Resting.condensation :
    Condensation G (⟨indices,c.sccData,c.annotated⟩ : Sccs A) := by
  have hc := h.condensed
  have hn : (⟨indices,c.sccData,c.annotated⟩ : Sccs A).numSccs = succs.length := h.data.length
  constructor
  case length => simpa using ha.length_eq.symm
  case lt => exact fun v s hv => hn ▸ hc.lt v s ((h.index_iff ha).mp hv)
  case inhabited =>
    intro s hs
    obtain ⟨v,hv⟩ := hc.inhabited s (hn ▸ hs)
    exact ⟨v,(h.index_iff ha).mpr hv⟩
  case same =>
    intro v w s t hv hw
    have hv' := (h.index_iff ha).mp hv
    have hw' := (h.index_iff ha).mp hw
    constructor
    · rintro rfl
      exact ⟨hc.connected v w s hv' hw',hc.connected w v s hw' hv'⟩
    · rintro ⟨hvw,hwv⟩
      obtain ⟨t',ht',hle⟩ := hc.reach_le hv' hvw
      obtain ⟨s',hs',hle'⟩ := hc.reach_le hw' hwv
      obtain rfl := Status.done.inj (ht'.symm.trans hw')
      obtain rfl := Status.done.inj (hs'.symm.trans hv')
      exact Nat.le_antisymm hle' hle
  case successors =>
    intro s hs
    obtain ⟨l,hl⟩ : ∃ l, succs[s]? = some l := ⟨_,getElem?_eq_getElem (hn ▸ hs)⟩
    have hlt t (ht : t ∈ l) : t < s := (hc.sound s l hl t ht).1
    refine ⟨l,h.data.successors hl,hc.nodup s l hl,fun t => ⟨fun ht => ?_,?_⟩,hlt⟩
    · obtain ⟨-,v,w,hv,he,hw⟩ := hc.sound s l hl t ht
      exact ⟨Nat.ne_of_lt (hlt t ht),v,w,(h.index_iff ha).mpr hv,he,(h.index_iff ha).mpr hw⟩
    · rintro ⟨hne,v,w,hv,he,hw⟩
      obtain ⟨t',ht',hor⟩ := hc.closed v w s ((h.index_iff ha).mp hv) he
      obtain rfl := Status.done.inj (ht'.symm.trans ((h.index_iff ha).mp hw))
      rcases hor with rfl | ⟨l',hl',hm⟩
      · exact absurd rfl hne
      · obtain rfl := mem_unique hl hl'
        exact hm
  case annotatedOnce => exact hn ▸ h.indices

end

end

end Frontend.Scc
