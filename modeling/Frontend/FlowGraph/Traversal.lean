import Frontend.Library.Pointwise
import Frontend.Library.Dominance
import Frontend.FlowGraph.Model

namespace Frontend.FlowGraph

open Frontend.Library List Traversal

variable {g : ControlFlowGraph} {s s' : Traversal g.numNodes}

namespace Traversal

def Edge (s : Traversal g.numNodes) (i j : Nat) : Prop :=
  ∃ u v, s.preOrderToReal[i]? = some u ∧ s.preOrderToReal[j]? = some v ∧ v ∈ g.successors u

end Traversal

structure Traversed (g : ControlFlowGraph) (s : Traversal g.numNodes) : Prop where
  start : s.preOrderToReal[0]? = some g.startNode
  number : ∀ v j, s.realToPreOrder v = some j ↔ s.preOrderToReal[j]? = some v
  tree : PreorderTree s.parent s.preOrderToReal.length
  edge : ∀ v, 0 < v → v < s.preOrderToReal.length → s.Edge (s.parent v) v
  chain : s.stack.Pairwise fun frame below => Ancestor s.parent below.1 frame.1
  frame : ∀ frame ∈ s.stack, ∃ node, s.preOrderToReal[frame.1]? = some node ∧ ∀ v ∈ frame.2, v ∈ g.successors node
  last : ∀ frame ∈ s.stack, Ancestor s.parent frame.1 (s.preOrderToReal.length - 1)
  seen : ∀ u node v, s.preOrderToReal[u]? = some node → v ∈ g.successors node →
    (∃ j, s.realToPreOrder v = some j ∧ (u < j → Ancestor s.parent u j)) ∨ ∃ frame ∈ s.stack, frame.1 = u ∧ v ∈ frame.2

namespace Traversed

theorem frame_lt (h : Traversed g s) {frame : Nat × List g.Node} (hf : frame ∈ s.stack) :
    frame.1 < s.preOrderToReal.length := by
  obtain ⟨node,hn,-⟩ := h.frame frame hf
  exact lt_of_getElem? hn

theorem pos (h : Traversed g s) : 0 < s.preOrderToReal.length := lt_of_getElem? h.start

theorem init : Traversed g (.init g) where
  start := rfl
  number := by
    intro v j
    by_cases hv : v = g.startNode
    · subst hv
      cases j <;> simp [Traversal.init]
    · cases j <;> simp [Traversal.init,hv,Ne.symm hv]
  tree := fun v hp hv => by
    simp only [Traversal.init,length_singleton] at hv
    omega
  edge := fun v hp hv => by
    simp only [Traversal.init,length_singleton] at hv
    omega
  chain := by simp [Traversal.init]
  frame := by
    intro frame hf
    simp only [Traversal.init,mem_singleton] at hf
    subst hf
    exact ⟨g.startNode,rfl,fun v hv => hv⟩
  last := by
    intro frame hf
    simp only [Traversal.init,mem_singleton] at hf
    subst hf
    exact .refl _
  seen := by
    intro u node v hu hv
    refine .inr ⟨_,mem_singleton_self _,?_⟩
    cases u with
    | zero =>
      simp only [Traversal.init,getElem?_cons_zero,Option.some.injEq] at hu
      exact ⟨rfl,hu ▸ hv⟩
    | succ u => simp [Traversal.init] at hu

variable {idx : Nat} {iter : List g.Node} {stack : List (Nat × List g.Node)} {successor : g.Node}

theorem pop (h : Traversed g s) (hsta : s.stack = (idx,[]) :: stack) : Traversed g { s with stack := stack } where
  start := h.start
  number := h.number
  tree := h.tree
  edge := h.edge
  chain := (pairwise_cons.mp (hsta ▸ h.chain)).2
  frame := fun frame hf => h.frame frame (hsta ▸ .tail _ hf)
  last := fun frame hf => h.last frame (hsta ▸ .tail _ hf)
  seen := by
    intro u node v hu hv
    rcases h.seen u node v hu hv with hd | ⟨frame,hf,rfl,hm⟩
    · exact .inl hd
    rw [hsta] at hf
    rcases mem_cons.mp hf with rfl | hf
    · cases hm
    · exact .inr ⟨frame,hf,rfl,hm⟩

theorem skip (h : Traversed g s) (hsta : s.stack = (idx,successor :: iter) :: stack)
    (hj : s.realToPreOrder successor = some j) :
    Traversed g { s with stack := (idx,iter) :: stack } where
  start := h.start
  number := h.number
  tree := h.tree
  edge := h.edge
  chain := by
    obtain ⟨hh,ht⟩ := pairwise_cons.mp (hsta ▸ h.chain)
    exact .cons hh ht
  frame := by
    refine forall_mem_cons.mpr ⟨?_,fun frame hf => h.frame frame (hsta ▸ .tail _ hf)⟩
    obtain ⟨node,hn,hit⟩ := h.frame (idx,successor :: iter) (hsta ▸ (.head _))
    exact ⟨node,hn,fun v hv => hit v (.tail _ hv)⟩
  last := forall_mem_cons.mpr ⟨h.last (idx,successor :: iter) (hsta ▸ (.head _)),fun frame hf => h.last frame
    (hsta ▸ .tail _ hf)⟩
  seen := by
    intro u node v hu hv
    rcases h.seen u node v hu hv with hd | ⟨frame,hf,rfl,hm⟩
    · exact .inl hd
    rw [hsta] at hf
    rcases mem_cons.mp hf with rfl | hf
    · rcases mem_cons.mp hm with rfl | hm
      · refine .inl ⟨j,hj,fun hlt => ?_⟩
        have hl := h.last (idx,v :: iter) (hsta ▸ (.head _))
        have hjl := (List.getElem_of_getElem? ((h.number v j).mp hj)).1
        have hp := h.pos
        exact h.tree.interval (by omega) hl hlt.le (by omega)
      · exact .inr ⟨(idx,iter),.head _,rfl,hm⟩
    · exact .inr ⟨frame,.tail _ hf,rfl,hm⟩

section

variable (h : Traversed g s) (hsta : s.stack = (idx,successor :: iter) :: stack)
  (hnew : s.realToPreOrder successor = none)

include h hsta hnew

theorem push : Traversed g (s.push g idx iter stack successor) := by
  have hp := h.pos
  have hf := mem_cons_self (a := (idx,successor :: iter)) (l := stack)
  rw [← hsta] at hf
  have hid := h.frame_lt hf
  have hla := h.last _ hf
  obtain ⟨node,hn,hit⟩ := h.frame _ hf
  obtain ⟨hh,ht⟩ := pairwise_cons.mp (hsta ▸ h.chain)
  have ho : ∀ u v, v < s.preOrderToReal.length → Ancestor s.parent u v →
      Ancestor (Function.update s.parent s.preOrderToReal.length idx) u v := fun u v hv huv =>
    (h.tree.ancestor_update hv idx).mpr huv
  have hb : ∀ frame ∈ (idx,iter) :: stack, Ancestor (Function.update s.parent s.preOrderToReal.length idx) frame.1
        s.preOrderToReal.length := by
    exact forall_mem_cons.mpr ⟨h.tree.update_ancestor hp hid (.refl _),fun frame hf => h.tree.update_ancestor hp hid
      (hh frame hf)⟩
  have hl : (s.push g idx iter stack successor).preOrderToReal.length = s.preOrderToReal.length + 1 := by
    simp [Traversal.push]
  refine ⟨?_,fun v j => ?_,?_,fun v hv hlt => ?_,?_,fun frame hf => ?_,fun frame hf => ?_,fun u node v hu hv => ?_⟩
  · exact getElem?_concat.mpr (.inl h.start)
  · rw [show (s.push g idx iter stack successor).preOrderToReal = s.preOrderToReal ++ [successor] from rfl,
      getElem?_concat,← h.number]
    by_cases hv : v = successor
    · subst hv
      simp [push,hnew,eq_comm]
    · simp [Traversal.push,hv]
  · rw [hl]
    exact h.tree.extend hp hla
  · rcases Nat.eq_or_lt_of_le (Nat.le_of_lt_succ (hl ▸ hlt)) with rfl | hlt
    · refine ⟨node,successor,?_,getElem?_concat.mpr (.inr ⟨rfl,rfl⟩),hit _ mem_cons_self⟩
      simp only [Traversal.push,Function.update_self]
      exact getElem?_concat.mpr (.inl hn)
    · have hpa : (s.push g idx iter stack successor).parent v = s.parent v :=
        Function.update_of_ne hlt.ne _ _
      rw [hpa]
      obtain ⟨a,b,ha,hb,hm⟩ := h.edge v hv hlt
      exact ⟨a,b,getElem?_concat.mpr (.inl ha),getElem?_concat.mpr (.inl hb),hm⟩
  · refine .cons hb (.cons ?_ ?_)
    · exact fun frame hf => ho _ _ hid (hh frame hf)
    · refine ht.imp_of_mem fun hm _ hup => ho _ _ (h.frame_lt ?_) hup
      exact hsta ▸ mem_cons_of_mem _ hm
  · rcases mem_cons.mp hf with rfl | hf
    · exact ⟨successor,getElem?_concat.mpr (.inr ⟨rfl,rfl⟩),fun v hv => hv⟩
    · rcases mem_cons.mp hf with rfl | hf
      · exact ⟨node,getElem?_concat.mpr (.inl hn),fun v hv => hit v (mem_cons_of_mem _ hv)⟩
      · obtain ⟨node',hn',hi'⟩ := h.frame frame (hsta ▸ mem_cons_of_mem _ hf)
        exact ⟨node',getElem?_concat.mpr (.inl hn'),hi'⟩
  · rw [hl,Nat.add_sub_cancel]
    rcases mem_cons.mp hf with rfl | hf
    · exact .refl _
    · exact hb frame hf
  · rcases getElem?_concat.mp hu with hu | ⟨rfl,rfl⟩
    · rcases h.seen u node v hu hv with ⟨j,hj,hd⟩ | ⟨frame,hf,rfl,hm⟩
      · have hne : v ≠ successor := by
          rintro rfl
          simp [hnew] at hj
        refine .inl ⟨j,by simp [Traversal.push,hne,hj],fun hlt => ?_⟩
        exact ho _ _ (List.getElem_of_getElem? ((h.number v j).mp hj)).1 (hd hlt)
      · rw [hsta] at hf
        rcases mem_cons.mp hf with rfl | hf
        · rcases mem_cons.mp hm with rfl | hm
          · refine .inl ⟨s.preOrderToReal.length,by simp [push],fun _ => ?_⟩
            exact hb (idx,iter) mem_cons_self
          · exact .inr ⟨(idx,iter),by simp [Traversal.push],rfl,hm⟩
        · exact .inr ⟨frame,by simp [Traversal.push,hf],rfl,hm⟩
    · exact .inr ⟨(s.preOrderToReal.length,g.successors node),by simp [push],rfl,hv⟩

end

end Traversed

def ControlFlowGraph.Edge (g : ControlFlowGraph) (u v : g.Node) : Prop := v ∈ g.successors u

def ControlFlowGraph.Reachable (g : ControlFlowGraph) (v : g.Node) : Prop := ∃ p, Route g.Edge g.startNode p v

def Traversal.work (s : Traversal g.numNodes) : Nat :=
  ∑ v with s.realToPreOrder v = none, ((g.successors v).length + 1) + (s.stack.map fun frame => frame.2.length + 1).sum

theorem Traversal.work_push {iter : List g.Node} {stack : List (Nat × List g.Node)}
    (hsta : s.stack = (idx,successor :: iter) :: stack)
    (hnew : s.realToPreOrder successor = none) :
    (s.push g idx iter stack successor).work < s.work := by
  have hs : (∑ v with s.realToPreOrder v = none, ((g.successors v).length + 1)) =
      ((g.successors successor).length + 1) + ∑ v with (s.push g idx iter stack successor).realToPreOrder v = none,
          ((g.successors v).length + 1) := by
    rw [← Finset.add_sum_erase _ _ (Finset.mem_filter.mpr ⟨Finset.mem_univ successor,hnew⟩)]
    congr 2
    ext v
    rw [Finset.mem_erase,Finset.mem_filter,Finset.mem_filter]
    by_cases hv : v = successor
    · simp [push,hv]
    · simp [push,hv]
  simp only [work,hs,hsta]
  simp only [push,map_cons,sum_cons,length_cons]
  omega

theorem Traversed.step (h : Traversed g s) (hs : s.step g = some s') : Traversed g s' ∧ s'.work < s.work := by
  unfold Traversal.step at hs
  split at hs
  case h_1 => cases hs
  case h_2 idx stack hsta =>
    cases hs
    exact ⟨h.pop hsta,by simp [work,hsta]⟩
  case h_3 idx successor iter stack hsta =>
    split at hs
    case h_1 j hj =>
      cases hs
      exact ⟨h.skip hsta hj,by simp [work,hsta]⟩
    case h_2 hnew =>
      cases hs
      exact ⟨h.push hsta hnew,work_push hsta hnew⟩

theorem work_init : (init g).work ≤ numEdges g + g.numNodes := by
  have ha : numEdges g + g.numNodes = ∑ v : g.Node, ((g.successors v).length + 1) := by
    rw [Finset.sum_add_distrib,numEdges,← ofFn_eq_map,sum_ofFn]
    simp
  have hr : ((Finset.univ : Finset g.Node).filter
      fun v => (init g).realToPreOrder v = none) = Finset.univ.erase g.startNode := by
    ext v
    rw [Finset.mem_erase,Finset.mem_filter]
    by_cases hv : v = g.startNode <;> simp [init,hv]
  rw [ha,work,hr,← Finset.add_sum_erase _ _ (Finset.mem_univ g.startNode)]
  simp [init,Nat.add_comm]

theorem traverse_spec (g : ControlFlowGraph) : Traversed g (traverse g) ∧ (traverse g).stack = [] := by
  obtain ⟨hi,hd⟩ := exhaust_spec work (fun _ _ h hs => Traversed.step h hs) _ .init work_init
  refine ⟨hi,?_⟩
  change (traverse g).step g = none at hd
  unfold step at hd
  split at hd
  case h_1 h => exact h
  case h_2 => cases hd
  case h_3 => split at hd <;> cases hd

theorem traverse_tree (g : ControlFlowGraph) : DfsTree (traverse g).Edge (traverse g).parent
    (traverse g).preOrderToReal.length where
  preorder := (traverse_spec g).1.tree
  bounds := by
    rintro u v ⟨x,y,hx,hy,-⟩
    exact ⟨(lt_of_getElem? hx),(lt_of_getElem? hy)⟩
  edge := (traverse_spec g).1.edge
  forward := by
    rintro u v ⟨x,y,hx,hy,hm⟩ hlt
    obtain ⟨h,he⟩ := traverse_spec g
    rcases h.seen u x y hx hm with ⟨j,hj,hd⟩ | ⟨frame,hf,-⟩
    · obtain rfl : j = v := by
        have hv := (h.number y v).mpr hy
        exact Option.mem_unique hj hv
      exact hd hlt
    · simp [he] at hf

theorem numbered_of_edge (hu : (traverse g).preOrderToReal[i]? = some u)
    (he : g.Edge u v) : ∃ j, (traverse g).preOrderToReal[j]? = some v ∧ (traverse g).Edge i j := by
  obtain ⟨h,hem⟩ := traverse_spec g
  rcases h.seen i u v hu he with ⟨j,hj,-⟩ | ⟨frame,hf,-⟩
  · have hv := (h.number v j).mp hj
    exact ⟨j,hv,u,v,hu,hv,he⟩
  · simp [hem] at hf

theorem until_of_numbers (hu : (traverse g).preOrderToReal[i]? = some u) (h : Until g.Edge P u v) :
    ∃ j, (traverse g).preOrderToReal[j]? = some v ∧
      Until (traverse g).Edge (fun k => ∃ w, (traverse g).preOrderToReal[k]? = some w ∧ P w) i j := by
  induction h generalizing i with
  | refl => exact ⟨i,hu,.refl i⟩
  | @step u v w hP he _ ih =>
    obtain ⟨k,hk,hik⟩ := numbered_of_edge hu he
    obtain ⟨j,hj,hun⟩ := ih hk
    exact ⟨j,hj,.step ⟨u,hu,hP⟩ hik hun⟩

theorem until_to_numbers (hu : (traverse g).preOrderToReal[i]? = some u) (h : Until (traverse g).Edge P i j) :
    ∃ v, (traverse g).preOrderToReal[j]? = some v ∧
    Until g.Edge (fun w => ∃ k, (traverse g).preOrderToReal[k]? = some w ∧ P k) u v := by
  induction h generalizing u with
  | refl => exact ⟨u,hu,.refl u⟩
  | @step i k j hP he _ ih =>
    obtain ⟨x,y,hx,hy,hm⟩ := he
    obtain rfl := Option.mem_unique hu hx
    obtain ⟨v,hv,hun⟩ := ih hy
    exact ⟨v,hv,.step ⟨i,hu,hP⟩ hm hun⟩

end Frontend.FlowGraph
