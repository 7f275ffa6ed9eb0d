import Frontend.FlowGraph.Intervals
import Frontend.FlowGraph.Solver
import Frontend.FlowGraph.Traversal

namespace Frontend.FlowGraph

open Frontend.Library List Function Dominators

variable {g : ControlFlowGraph} {a b d u v x y : g.Node} {i j k : Nat}

theorem number_inj (hi : (traverse g).preOrderToReal[i]? = some v) (hj : (traverse g).preOrderToReal[j]? = some v) :
    i = j := by
  have h := (traverse_spec g).1
  exact Option.mem_unique ((h.number v i).mpr hi) ((h.number v j).mpr hj)

theorem reachable_iff_number : g.Reachable v ↔ ∃ i : Nat, (traverse g).preOrderToReal[i]? = some v := by
  have h := (traverse_spec g).1
  constructor
  · rintro ⟨p,hp⟩
    obtain ⟨i,hi,-⟩ := until_of_numbers h.start (hp.until_mem hp.end_mem)
    exact ⟨i,hi⟩
  · rintro ⟨i,hi⟩
    have hlt := lt_of_getElem? hi
    have hr := (traverse_tree g).until_of_ancestor (P := fun _ => True) hlt (h.tree.root hlt) fun _ _ _ => trivial
    obtain ⟨w,hw,hwa⟩ := until_to_numbers h.start hr
    obtain rfl := Option.mem_unique hi hw
    exact hwa.route

theorem dominates_iff_number (hi : (traverse g).preOrderToReal[i]? = some a)
    (hj : (traverse g).preOrderToReal[j]? = some b) :
    Dominates g.Edge g.startNode a b ↔ Dominates (traverse g).Edge 0 i j := by
  have h := (traverse_spec g).1
  rw [← not_iff_not,not_dominates_iff,not_dominates_iff]
  constructor
  · rintro ⟨hne,hwl⟩
    obtain ⟨k,hk,hn⟩ := until_of_numbers h.start hwl
    obtain rfl := number_inj hj hk
    refine ⟨?_,hn.mono ?_⟩
    · rintro rfl
      exact hne (Option.mem_unique hj hi)
    · rintro l ⟨w,hw,hwa⟩ rfl
      exact hwa (Option.mem_unique hw hi)
  · rintro ⟨hne,hn⟩
    obtain ⟨w,hw,hwl⟩ := until_to_numbers h.start hn
    obtain rfl := Option.mem_unique hj hw
    refine ⟨?_,hwl.mono ?_⟩
    · rintro rfl
      exact hne (number_inj hj hi)
    · rintro w ⟨l,hl,hla⟩ rfl
      exact hla (number_inj hl hi)

theorem reachable_of_dominates (hb : g.Reachable b) (h : Dominates g.Edge g.startNode a b) : g.Reachable a := by
  obtain ⟨p,hp⟩ := hb
  exact (hp.until_mem (h p hp)).route

theorem immediate_of_number (hi : (traverse g).preOrderToReal[i]? = some d)
    (hj : (traverse g).preOrderToReal[j]? = some b) (h : Immediate (traverse g).Edge 0 i j) :
    Immediate g.Edge g.startNode d b where
  ne := by
    rintro rfl
    exact h.ne (number_inj hi hj)
  dominates := (dominates_iff_number hi hj).mpr h.dominates
  closest := by
    intro a hne ha
    obtain ⟨k,hk⟩ := reachable_iff_number.mp (reachable_of_dominates (reachable_iff_number.mpr ⟨j,hj⟩) ha)
    refine (dominates_iff_number hk hi).mpr (h.closest k ?_ ((dominates_iff_number hk hj).mp ha))
    rintro rfl
    exact hne (Option.mem_unique hk hj)

theorem realDominators_spec (order : List (Fin n)) (idom : Nat → Nat) (hn : (entries.map Prod.fst).Nodup)
    (result : Fin n → Option (Fin n)) :
    (∀ v k, (v,k) ∈ entries → realDominators order idom entries result v = order[idom k]?) ∧
      ∀ v, v ∉ entries.map Prod.fst → realDominators order idom entries result v = result v := by
  induction entries generalizing result with
  | nil => exact ⟨by simp,fun _ _ => rfl⟩
  | cons entry entries ih =>
    obtain ⟨node,idx⟩ := entry
    rw [map_cons,nodup_cons] at hn
    obtain ⟨hin,ho⟩ := ih hn.2 (update result node order[idom idx]?)
    refine ⟨fun v k hm => ?_,fun v hv => ?_⟩
    · rcases mem_cons.mp hm with heq | hm
      · cases heq
        rw [realDominators,ho _ hn.1,update_self]
      · exact hin v k hm
    · rw [map_cons,mem_cons,not_or] at hv
      rw [realDominators,ho v hv.2,update_of_ne hv.1]

structure IsIdoms (g : ControlFlowGraph) (imm : g.Node → Option g.Node) : Prop where
  root : imm g.startNode = none
  unreachable : ∀ v, ¬ g.Reachable v → imm v = none
  immediate : ∀ v, g.Reachable v → v ≠ g.startNode → ∃ d, imm v = some d ∧ Immediate g.Edge g.startNode d v

def numberedPredecessors (g : ControlFlowGraph) (w : Nat) : List (Option Nat) :=
  match (traverse g).preOrderToReal[w]? with
  | some node => (g.predecessors node).map (traverse g).realToPreOrder
  | none => []

theorem mem_numberedPredecessors (hw : w < (traverse g).preOrderToReal.length) (v : Nat) :
    some v ∈ numberedPredecessors g w ↔ (traverse g).Edge v w := by
  have h := (traverse_spec g).1
  obtain ⟨node,hn⟩ : ∃ node, (traverse g).preOrderToReal[w]? = some node := ⟨_,getElem?_eq_getElem hw⟩
  simp only [numberedPredecessors,hn,mem_map,Traversal.Edge,Option.some.injEq]
  constructor
  · rintro ⟨u,hu,hv⟩
    exact ⟨u,node,(h.number u v).mp hv,rfl,(g.mirror u node).mp hu⟩
  · rintro ⟨u,x,hu,rfl,hx⟩
    exact ⟨u,(g.mirror u node).mpr hx,(h.number u v).mpr hu⟩

def solvedIdom (g : ControlFlowGraph) : Nat → Nat :=
  let last := (traverse g).preOrderToReal.length - 1
  let s := Solver.solve (numberedPredecessors g) last (.init (traverse g).parent)
  finalize s.semi s.idom last

theorem solvedIdom_spec (hp : 0 < k) (hk : k < (traverse g).preOrderToReal.length) :
    Immediate (traverse g).Edge 0 (solvedIdom g k) k := by
  have T := traverse_tree g
  have hl := Nat.sub_lt (traverse_spec g).1.pos Nat.one_pos
  have hs := solved_init.solve T (fun w hw v => mem_numberedPredecessors hw v) hl
  exact (finalize_spec (fun v hv hvm => hs.all_settled T hv hvm) hl).1 k hp (by omega)

theorem immediateDominators_spec (g : ControlFlowGraph) : IsIdoms g (immediateDominators g) := by
  have h := (traverse_spec g).1
  have hde : immediateDominators g = update (realDominators (traverse g).preOrderToReal
    (solvedIdom g) (traverse g).preOrderToReal.zipIdx fun _ => none) g.startNode none := rfl
  have hn : ((traverse g).preOrderToReal.zipIdx.map Prod.fst).Nodup := by
    rw [zipIdx_map_fst]
    refine nodup_iff_getElem?_ne_getElem?.mpr fun i j hij hj heq => ?_
    have hv := getElem?_eq_getElem hj
    exact hij.ne (number_inj (heq.trans hv) hv)
  obtain ⟨hin,ho⟩ := realDominators_spec (traverse g).preOrderToReal (solvedIdom g) hn fun _ => none
  refine ⟨by rw [hde,update_self],fun v hv => ?_,fun v hv hs => ?_⟩
  · have hs : v ≠ g.startNode := by
      rintro rfl
      exact hv (reachable_iff_number.mpr ⟨0,h.start⟩)
    rw [hde,update_of_ne hs]
    refine ho v fun hm => hv ?_
    rw [zipIdx_map_fst] at hm
    exact reachable_iff_number.mpr (getElem?_of_mem hm)
  · obtain ⟨k,hk⟩ := reachable_iff_number.mp hv
    have hlt := lt_of_getElem? hk
    have hp : 0 < k := by
      refine Nat.pos_of_ne_zero ?_
      rintro rfl
      exact hs (Option.mem_unique hk h.start)
    have him := solvedIdom_spec hp hlt
    have hle := (traverse_tree g).dominates_le hlt him.dominates
    have hd := getElem?_eq_getElem (hle.trans_lt hlt)
    refine ⟨_,?_,immediate_of_number hd hk him⟩
    rw [hde,update_of_ne hs,hin v k (mem_zipIdx_iff_getElem?.mpr hk),hd]

namespace IsIdoms

variable {imm : g.Node → Option g.Node}

theorem immediate_of_some (h : IsIdoms g imm) (hv : imm v = some d) :
    g.Reachable v ∧ v ≠ g.startNode ∧ Immediate g.Edge g.startNode d v := by
  have hr : g.Reachable v := by
    by_contra hn
    rw [h.unreachable v hn] at hv
    cases hv
  have hs : v ≠ g.startNode := by
    rintro rfl
    rw [h.root] at hv
    cases hv
  obtain ⟨d',hd',him⟩ := h.immediate v hr hs
  obtain rfl := Option.mem_unique hv hd'
  exact ⟨hr,hs,him⟩

theorem domTree (h : IsIdoms g imm) : DomTree imm g.startNode where
  root := h.root
  up := by
    intro v d hv
    obtain ⟨hr,-,him⟩ := h.immediate_of_some hv
    by_cases hd : d = g.startNode
    · exact .inl hd
    · obtain ⟨d',hd',-⟩ := h.immediate d (reachable_of_dominates hr him.dominates) hd
      exact .inr (by simp [hd'])
  ranked := by
    refine ⟨fun v => ((traverse g).realToPreOrder v).getD 0,fun v d hv => ?_⟩
    obtain ⟨hr,-,him⟩ := h.immediate_of_some hv
    obtain ⟨j,hj⟩ := reachable_iff_number.mp hr
    obtain ⟨i,hi⟩ := reachable_iff_number.mp (reachable_of_dominates hr him.dominates)
    have hn := (traverse_spec g).1.number
    simp only [(hn v j).mpr hj,(hn d i).mpr hi,Option.getD_some]
    have hle := (traverse_tree g).dominates_le (lt_of_getElem? hj) ((dominates_iff_number hi hj).mp him.dominates)
    refine Nat.lt_of_le_of_ne hle ?_
    rintro rfl
    exact him.ne (Option.mem_unique hi hj)

theorem dominates_start (h : Dominates g.Edge g.startNode a g.startNode) : a = g.startNode :=
  mem_singleton.mp (h [g.startNode] (.nil _))

theorem above_iff_dominates (h : IsIdoms g imm) (hb : g.Reachable b) :
    Above imm a b ↔ Dominates g.Edge g.startNode a b := by
  constructor
  · intro hab
    induction hab with
    | refl => exact dominates_self
    | @up b d hd _ ih =>
      obtain ⟨-,-,him⟩ := h.immediate_of_some hd
      exact (ih (reachable_of_dominates hb him.dominates)).trans him.dominates
  · intro hab
    obtain ⟨rank,hra⟩ := h.domTree.ranked
    obtain ⟨r,hr⟩ : ∃ r, rank b = r := ⟨_,rfl⟩
    induction r using Nat.strongRecOn generalizing b with
    | ind r ih =>
      by_cases heq : a = b
      · subst heq
        exact .refl a
      have hs : b ≠ g.startNode := by
        rintro rfl
        exact heq (dominates_start hab)
      obtain ⟨d,hd,him⟩ := h.immediate b hb hs
      exact .up hd (ih (rank d) (hr ▸ hra b d hd) (reachable_of_dominates hb him.dominates) (him.closest a heq hab) rfl)

end IsIdoms

theorem dominates_antisymm (hb : g.Reachable b) (hab : Dominates g.Edge g.startNode a b)
    (hba : Dominates g.Edge g.startNode b a) : a = b := by
  obtain ⟨j,hj⟩ := reachable_iff_number.mp hb
  obtain ⟨i,hi⟩ := reachable_iff_number.mp (reachable_of_dominates hb hab)
  have T := traverse_tree g
  have hij := T.dominates_le (lt_of_getElem? hj) ((dominates_iff_number hi hj).mp hab)
  have hji := T.dominates_le (lt_of_getElem? hi) ((dominates_iff_number hj hi).mp hba)
  obtain rfl := le_antisymm hij hji
  exact Option.mem_unique hi hj

theorem immediate_unique (hb : g.Reachable b) (hx : Immediate g.Edge g.startNode x b)
    (hy : Immediate g.Edge g.startNode y b) : x = y :=
  dominates_antisymm (reachable_of_dominates hb hy.dominates) (hy.closest x hx.ne hx.dominates)
    (hx.closest y hy.ne hy.dominates)

theorem small_cases (h : isSmallPathGraph g) : g.startNode.val = 0 ∧ ∀ v, v = g.startNode ∨ v.val = 1 ∧
    g.Edge g.startNode v := by
  unfold isSmallPathGraph at h
  split at h
  · cases h
  rename_i hz
  have hz := not_not.mp hz
  refine ⟨hz,fun v => ?_⟩
  have hv := v.isLt
  split at h
  case isTrue ho => exact .inl (Fin.ext (by omega))
  case isFalse =>
    split at h
    case isTrue ht =>
      by_cases hva : v.val = 0
      · exact .inl (Fin.ext (by omega))
      have hva : v.val = 1 := by omega
      obtain ⟨x,hx,hx1⟩ := any_eq_true.mp h
      have hxv : x = v := Fin.ext ((of_decide_eq_true hx1).trans hva.symm)
      exact .inr ⟨hva,hxv ▸ hx⟩
    case isFalse => cases h

theorem start_dominates : Dominates g.Edge g.startNode g.startNode b := by
  intro p hp
  cases hp <;> simp

theorem small_dominates (h : isSmallPathGraph g) : Dominates g.Edge g.startNode a b ↔ a ≤ b := by
  obtain ⟨hz,hc⟩ := small_cases h
  rcases hc b with rfl | ⟨hb,he⟩
  · constructor
    · intro hd
      exact (IsIdoms.dominates_start hd).le
    · intro hle
      obtain rfl : a = g.startNode := Fin.ext (by have := Fin.le_def.mp hle; omega)
      exact dominates_self
  rcases hc a with rfl | ⟨ha,-⟩
  · exact iff_of_true start_dominates (Fin.le_def.mpr (by omega))
  · obtain rfl : a = b := Fin.ext (ha.trans hb.symm)
    exact iff_of_true dominates_self le_rfl

theorem small_reachable (h : isSmallPathGraph g) (v : g.Node) : g.Reachable v := by
  rcases (small_cases h).2 v with rfl | ⟨-,he⟩
  · exact ⟨_,.nil _⟩
  · exact ⟨_,.cons he (.nil _)⟩

theorem small_immediate (h : isSmallPathGraph g) (hb : b ≠ g.startNode) :
    immediateDominator .path b = some g.startNode ∧ Immediate g.Edge g.startNode g.startNode b := by
  obtain ⟨hz,hc⟩ := small_cases h
  obtain ⟨hv,-⟩ := (hc b).resolve_left hb
  refine ⟨?_,hb.symm,start_dominates,fun a hne ha => ?_⟩
  · simp only [immediateDominator,hv,Nat.one_pos,if_true,Option.some.injEq]
    exact Fin.ext hz.symm
  · rcases hc a with rfl | ⟨ha',-⟩
    · exact dominates_self
    · exact absurd (Fin.ext (ha'.trans hv.symm)) hne

theorem general_timed (g : ControlFlowGraph) : ∃ D parent, Timed (immediateDominators g) g.startNode
    (dominatorsImpl g).time D parent :=
  computeAccessTime_spec (immediateDominators_spec g).domTree

theorem general_seen (v : g.Node) : ((dominatorsImpl g).time v).start ≠ 0 ↔ g.Reachable v := by
  have hid := immediateDominators_spec g
  obtain ⟨D,parent,ht⟩ := general_timed g
  rw [ht.seen v]
  constructor
  · rintro (rfl | hv)
    · exact ⟨_,.nil _⟩
    · obtain ⟨d,hd⟩ := Option.isSome_iff_exists.mp hv
      exact (hid.immediate_of_some hd).1
  · intro hv
    by_cases hs : v = g.startNode
    · exact .inl hs
    · obtain ⟨d,hd,-⟩ := hid.immediate v hv hs
      exact .inr (by simp [hd])

theorem general_dominates (hb : g.Reachable b) : Dominates g.Edge g.startNode a b ↔
    ((dominatorsImpl g).time a).start ≤ ((dominatorsImpl g).time b).start ∧
      ((dominatorsImpl g).time b).finish ≤ ((dominatorsImpl g).time a).finish := by
  have hid := immediateDominators_spec g
  obtain ⟨D,parent,ht⟩ := general_timed g
  rw [← hid.above_iff_dominates hb]
  exact ht.above_iff hid.root ((general_seen b).mpr hb)

theorem dominates_eq (hb : g.Reachable b) :
    ∃ r, (dominators g).dominates a b = some r ∧ (r = true ↔ Dominates g.Edge g.startNode a b) := by
  unfold dominators
  split
  case isTrue hs => exact ⟨_,rfl,by simp [small_dominates hs]⟩
  case isFalse => exact ⟨_,if_pos ((general_seen b).mpr hb),by simp [general_dominates hb]⟩

theorem dominators_exact (g : ControlFlowGraph) : (∀ v, (dominators g).isReachable v = true ↔ g.Reachable v) ∧
      (∀ a b, g.Reachable b → ((dominators g).dominates a b = some true ↔ Dominates g.Edge g.startNode a b) ∧
        ((dominators g).dominates a b = some false ↔ ¬ Dominates g.Edge g.startNode a b)) ∧
      (dominators g).immediateDominator g.startNode = none ∧
      ∀ b, g.Reachable b → b ≠ g.startNode → ∃ d, (dominators g).immediateDominator b = some d ∧
        Immediate g.Edge g.startNode d b ∧ ∀ d', Immediate g.Edge g.startNode d' b → d' = d := by
  have hid := immediateDominators_spec g
  refine ⟨fun v => ?_,fun a b hb => ?_,?_,fun b hb hst => ?_⟩
  · unfold dominators
    split
    case isTrue hs => simp [isReachable,small_reachable hs v]
    case isFalse => simpa [isReachable] using general_seen v
  · obtain ⟨r,hr,hif⟩ := dominates_eq (a := a) hb
    rw [hr,Option.some.injEq,Option.some.injEq,← hif]
    simp
  · unfold dominators
    split
    case isTrue hs => simp [immediateDominator,(small_cases hs).1]
    case isFalse => exact hid.root
  · unfold dominators
    split
    case isTrue hs =>
      obtain ⟨hd,him⟩ := small_immediate hs hst
      exact ⟨_,hd,him,fun d' hd' => immediate_unique hb hd' him⟩
    case isFalse =>
      obtain ⟨d,hd,him⟩ := hid.immediate b hb hst
      exact ⟨d,hd,him,fun d' hd' => immediate_unique hb hd' him⟩

-- Two arms that join, and a node without predecessors.
def diamond : ControlFlowGraph where
  numNodes := 5
  startNode := 0
  successors := ![[1,2],[3],[3],[],[3]]
  predecessors := ![[],[0],[0],[1,2,4],[]]
  mirror := by decide

theorem diamond_exact : diamond.Reachable (3 : Fin 5) ∧
    ((dominators diamond).dominates (1 : Fin 5) (3 : Fin 5) = some false ↔
      ¬ Dominates diamond.Edge diamond.startNode (1 : Fin 5) (3 : Fin 5)) ∧
    (dominators diamond).dominates (1 : Fin 5) (3 : Fin 5) = some false := by
  have hr := ((dominators_exact diamond).1 (3 : Fin 5)).mp (by decide +kernel)
  exact ⟨hr,((dominators_exact diamond).2.1 _ _ hr).2,by decide +kernel⟩

-- A node between them has an earlier sibling in the dominator tree.
def Branches (g : ControlFlowGraph) (a b : g.Node) : Prop :=
  ∃ c d x, c ≠ a ∧ Dominates g.Edge g.startNode a c ∧ Dominates g.Edge g.startNode c b ∧
    g.Reachable x ∧ Immediate g.Edge g.startNode d c ∧ Immediate g.Edge g.startNode d x ∧ x < c

theorem immediateDominators_iff : immediateDominators g x = some d ↔
    g.Reachable x ∧ x ≠ g.startNode ∧ Immediate g.Edge g.startNode d x := by
  have hid := immediateDominators_spec g
  constructor
  · exact hid.immediate_of_some
  · rintro ⟨hx,hs,him⟩
    obtain ⟨d',hd',hi'⟩ := hid.immediate x hx hs
    rw [hd',immediate_unique hx hi' him]

theorem immediate_ne_start (h : Immediate g.Edge g.startNode d x) : x ≠ g.startNode := by
  rintro rfl
  exact h.ne (IsIdoms.dominates_start h.dominates)

theorem finish_lt_iff (hb : g.Reachable b) (hab : Dominates g.Edge g.startNode a b) :
    ((dominatorsImpl g).time b).finish < ((dominatorsImpl g).time a).finish ↔ Branches g a b := by
  have hid := immediateDominators_spec g
  obtain ⟨D,parent,ht⟩ := general_timed g
  have hs := (general_seen b).mpr hb
  have ha := (hid.above_iff_dominates hb).mpr hab
  have hle := ht.finish_le hid.root hs ha
  rw [hle.lt_iff_ne,Ne,ht.finish_eq_iff hid.root hs ha]
  push Not
  constructor
  · rintro ⟨c,hac,hne,hcb,x,hx,hlt⟩
    have hc := reachable_of_dominates hb ((hid.above_iff_dominates hb).mp hcb)
    obtain ⟨d,hd,-⟩ := hac.of_ne hne.symm
    obtain ⟨-,-,him⟩ := immediateDominators_iff.mp hd
    obtain ⟨hxr,-,hi'⟩ := immediateDominators_iff.mp (hx.trans hd)
    exact ⟨c,d,x,hne,(hid.above_iff_dominates hc).mp hac,(hid.above_iff_dominates hb).mp hcb,hxr,him,hi',hlt⟩
  · rintro ⟨c,d,x,hne,hac,hcb,hxr,him,hi',hlt⟩
    have hc := reachable_of_dominates hb hcb
    refine ⟨c,(hid.above_iff_dominates hc).mpr hac,hne,(hid.above_iff_dominates hb).mpr hcb,x,?_,hlt⟩
    rw [immediateDominators_iff.mpr ⟨hc,immediate_ne_start him,him⟩,
      immediateDominators_iff.mpr ⟨hxr,immediate_ne_start hi',hi'⟩]

theorem strictlyDominates_iff (hb : g.Reachable b) : ((dominators g).strictlyDominates a b = some true ↔
        a ≠ b ∧ (dominators g).dominates a b = some true) ↔
      (isSmallPathGraph g ∨ (a ≠ b → Dominates g.Edge g.startNode a b → Branches g a b)) := by
  unfold dominators
  split
  case isTrue hsm =>
    refine iff_of_true ?_ (.inl hsm)
    simp [strictlyDominates,dominates,lt_iff_le_and_ne,and_comm]
  case isFalse hsm =>
    have hid := immediateDominators_spec g
    obtain ⟨D,parent,ht⟩ := general_timed g
    have hs := (general_seen b).mpr hb
    have hst : (general (dominatorsImpl g)).strictlyDominates a b = some true ↔
        ((dominatorsImpl g).time a).start < ((dominatorsImpl g).time b).start ∧
          ((dominatorsImpl g).time b).finish < ((dominatorsImpl g).time a).finish := by
      simp [strictlyDominates,hs]
    have hd : (general (dominatorsImpl g)).dominates a b = some true ↔ Dominates g.Edge g.startNode a b := by
      simp [dominates,hs,general_dominates hb]
    rw [hst,hd,or_iff_right hsm]
    by_cases hab : Dominates g.Edge g.startNode a b
    · by_cases hne : a = b
      · simp [hne]
      · have hsa := ht.start_lt hid.root hs ((hid.above_iff_dominates hb).mpr hab) hne
        simp [hab,hne,hsa,finish_lt_iff hb hab]
    · refine iff_of_true (iff_of_false (fun h => hab ?_) (fun h => hab h.2)) (fun _ h => absurd h hab)
      exact (general_dominates hb).mpr ⟨h.1.le,h.2.le⟩

-- The last descendant of the start shares its finish.
def straightLine : ControlFlowGraph where
  numNodes := 3
  startNode := 0
  successors := ![[1],[2],[]]
  predecessors := ![[],[0],[1]]
  mirror := by decide

theorem straightLine_not_strict : (dominators straightLine).dominates (0 : Fin 3) (2 : Fin 3) = some true ∧
      (dominators straightLine).strictlyDominates (0 : Fin 3) (2 : Fin 3) = some false := by
  decide +kernel

theorem diamond_strict : diamond.Reachable (3 : Fin 5) ∧ diamond.Reachable (1 : Fin 5) ∧
      ((dominators diamond).strictlyDominates (0 : Fin 5) (3 : Fin 5) = some true ∧
        (dominators diamond).dominates (0 : Fin 5) (3 : Fin 5) = some true ∧ Branches diamond (0 : Fin 5) (3 : Fin 5)) ∧
      (dominators diamond).strictlyDominates (0 : Fin 5) (1 : Fin 5) = some false ∧
        (dominators diamond).dominates (0 : Fin 5) (1 : Fin 5) = some true ∧
        ¬ Branches diamond (0 : Fin 5) (1 : Fin 5) := by
  have hr (b : Fin 5) (hb : b ≠ 4) : diamond.Reachable b :=
    (general_seen (g := diamond) b).mp (by revert b; decide +kernel)
  have hs : (dominators diamond).strictlyDominates (0 : Fin 5) (3 : Fin 5) = some true := by decide +kernel
  have hd : (dominators diamond).dominates (0 : Fin 5) (3 : Fin 5) = some true := by decide +kernel
  have hs' : (dominators diamond).strictlyDominates (0 : Fin 5) (1 : Fin 5) = some false := by decide +kernel
  have hd' : (dominators diamond).dominates (0 : Fin 5) (1 : Fin 5) = some true := by decide +kernel
  have h3 : (0 : Fin 5) ≠ 3 := by decide
  have h1 : (0 : Fin 5) ≠ 1 := by decide
  refine ⟨hr 3 (by decide),hr 1 (by decide),⟨hs,hd,?_⟩,hs',hd',fun hb => ?_⟩
  · have h := (strictlyDominates_iff (hr 3 (by decide))).mp (iff_of_true hs ⟨h3,hd⟩)
    exact (h.resolve_left (by decide)) h3 start_dominates
  · have h := (strictlyDominates_iff (hr 1 (by decide))).mpr (.inr fun _ _ => hb)
    cases hs'.symm.trans (h.mpr ⟨h1,hd'⟩)

end Frontend.FlowGraph
