import Mathlib.Data.List.Basic

namespace Frontend.DataStructures

open List Prod

-- `max` is the largest value of the index type `N`; making a larger one panics, as does every
-- failing assertion and every access out of bounds.
variable (max : Nat)

abbrev Edge := Nat × Nat

structure VecGraph where
  nodeStarts : List Nat
  edgeTargets : List Nat

def index (i : Nat) : Option Nat := if i ≤ max then some i else none

def pushTo (k d : Nat) (nodeStarts : List Nat) : Option (List Nat) :=
  if nodeStarts.length ≤ k then
    if nodeStarts.length ≤ max then pushTo k d (nodeStarts ++ [d]) else none
  else some nodeStarts
termination_by k + 1 - nodeStarts.length
decreasing_by
  simp only [length_append,length_singleton]
  omega

def createIndex (numNodes : Nat) (sources targets edgeTargets nodeStarts : List Nat) : Option (List Nat × List Nat) := do
  let offset := edgeTargets.length
  let edgeTargets := edgeTargets ++ targets
  let nodeStarts ← sources.zipIdx.foldlM (fun starts entry => pushTo max entry.1 (entry.2 + offset) starts) nodeStarts
  let nodeStarts ← pushTo max numNodes edgeTargets.length nodeStarts
  if nodeStarts.length = numNodes + 1 then some (edgeTargets,nodeStarts) else none

def edgeLe (key val : Edge → Nat) (e e' : Edge) : Bool := key e < key e' || key e = key e' && val e ≤ val e'

namespace VecGraph

def new (backRefs : Bool) (numNodes : Nat) (edgePairs : List Edge) : Option VecGraph := do
  let pairs := edgePairs.mergeSort (edgeLe fst snd)
  let (edgeTargets,nodeStarts) ← createIndex max numNodes (pairs.map fst) (pairs.map snd) [] []
  if backRefs then
    let pairs := pairs.mergeSort (edgeLe snd fst)
    let sources ← pairs.mapM fun e => index max (e.2 + numNodes)
    let (edgeTargets,nodeStarts) ← createIndex max (numNodes * 2) sources (pairs.map fst) edgeTargets nodeStarts.dropLast
    return ⟨nodeStarts,edgeTargets⟩
  else return ⟨nodeStarts,edgeTargets⟩

section

variable (g : VecGraph)

def numNodes (backRefs : Bool) : Nat := if backRefs then (g.nodeStarts.length - 1) / 2 else g.nodeStarts.length - 1

def numEdges (backRefs : Bool) : Nat := if backRefs then g.edgeTargets.length / 2 else g.edgeTargets.length

def edgesAt (node : Nat) : Option (List Nat) := do
  let start ← g.nodeStarts[node]?
  let stop ← g.nodeStarts[← index max (node + 1)]?
  if start ≤ stop ∧ stop ≤ g.edgeTargets.length then some ((g.edgeTargets.take stop).drop start) else none

def successors (backRefs : Bool) (source : Nat) : Option (List Nat) := if source < g.numNodes backRefs
    then g.edgesAt max source else none

def predecessors (target : Nat) : Option (List Nat) :=
  if target < g.numNodes true then do g.edgesAt max (← index max (target + g.numNodes true)) else none

end

variable {max} {k n : Nat} {es edges : List Edge} {key val : Edge → Nat}

def Row (key val : Edge → Nat) (edges : List Edge) (k : Nat) (row : Option (List Nat)) : Prop :=
  ∃ l, row = some l ∧ l.Pairwise (· ≤ ·) ∧ l.Perm ((edges.filter (key · = k)).map val)

structure Stores (max : Nat) (backRefs : Bool) (n : Nat) (edges : List Edge) (g : VecGraph) : Prop where
  nodes : g.numNodes backRefs = n
  count : g.numEdges backRefs = edges.length
  successors : ∀ k < n, Row fst snd edges k (g.successors max backRefs k)
  predecessors : backRefs = true → ∀ k < n, Row snd fst edges k (g.predecessors max k)

theorem pushTo_eq (hk : k ≤ max) (d : Nat) (starts : List Nat) :
    pushTo max k d starts = some (starts ++ replicate (k + 1 - starts.length) d) := by
  fun_induction pushTo max k d starts with
  | case1 starts hle hm ih =>
    rw [ih,show k + 1 - starts.length = k + 1 - (starts ++ [d]).length + 1 by simp; omega,replicate_succ]
    simp
  | case2 starts hle hm => omega
  | case3 starts hlt => simp [show k + 1 - starts.length = 0 by omega]

def startsOf (key : Edge → Nat) (es : List Edge) (offset k : Nat) : Nat := offset + es.countP (key · < k)

theorem countP_none (h : ∀ e ∈ es, k ≤ key e) : es.countP (key · < k) = 0 := countP_eq_zero.mpr fun e he => by
  simpa using h e he

theorem map_startsOf (h : ∀ k ∈ range' s m, ∀ e ∈ es, k ≤ key e) (offset : Nat) :
    (range' s m).map (startsOf key es offset) = replicate m offset := by
  have hs k (hk : k ∈ range' s m) : startsOf key es offset k = offset := by
    rw [startsOf,countP_none (h k hk),Nat.add_zero]
  simpa using map_eq_replicate_iff.mpr hs

-- Entry `k` counts the edges whose key is smaller; by induction on the edges still to come.
theorem fill_eq (hs : es.Pairwise fun e e' => key e ≤ key e') (hb : ∀ e ∈ es, key e ≤ n) (hn : n ≤ max)
    (offset i : Nat) (starts : List Nat) :
    (do let starts ← ((es.map key).zipIdx i).foldlM
          (fun starts entry => pushTo max entry.1 (entry.2 + offset) starts) starts
        pushTo max n (offset + (i + es.length)) starts) =
      some (starts ++ (range' starts.length (n + 1 - starts.length)).map (startsOf key es (offset + i))) := by
  induction es generalizing i starts with
  | nil => rw [map_startsOf (by simp)]; simp [pushTo_eq hn]
  | cons e es ih =>
    obtain ⟨hle,hs⟩ := pairwise_cons.mp hs
    rw [forall_mem_cons] at hb
    have hi := ih hs hb.2 (i + 1) (starts ++ replicate (key e + 1 - starts.length) (i + offset))
    simp only [map_cons,zipIdx_cons,foldlM_cons,pushTo_eq (Nat.le_trans hb.1 hn),Option.bind_eq_bind,
      Option.bind_some,length_cons,
      show i + (es.length + 1) = i + 1 + es.length by omega]
    have hz k (hk : k ∈ range' starts.length (key e + 1 - starts.length)) : ∀ e' ∈ e :: es, k ≤ key e' := by
      rw [mem_range'_1] at hk
      have hke : k ≤ key e := by omega
      exact forall_mem_cons.mpr ⟨hke,fun e' he' => Nat.le_trans hke (hle e' he')⟩
    rw [← Option.bind_eq_bind,hi,length_append,length_replicate,append_assoc,
      show n + 1 - starts.length = key e + 1 - starts.length +
      (n + 1 - (starts.length + (key e + 1 - starts.length))) by
        omega,← range'_append_1,map_append,map_startsOf hz,Nat.add_comm i]
    congr 3
    refine map_congr_left fun k hk => ?_
    rw [mem_range'_1] at hk
    simp only [startsOf,countP_cons,decide_eq_true_eq,if_pos (show key e < k by omega)]
    omega

theorem createIndex_eq (val : Edge → Nat) (hs : es.Pairwise fun e e' => key e ≤ key e') (hb : ∀ e ∈ es, key e ≤ n)
    (hn : n ≤ max)
    (targets starts : List Nat) (hl : starts.length ≤ n + 1) :
    createIndex max n (es.map key) (es.map val) targets starts = some (targets ++ es.map val,
      starts ++ (range' starts.length (n + 1 - starts.length)).map (startsOf key es targets.length)) := by
  have hf := fill_eq hs hb hn targets.length 0 starts
  simp only [createIndex,Nat.zero_add,Nat.add_zero] at hf ⊢
  rw [← bind_assoc,length_append,length_map,hf]
  simp [show starts.length + (n + 1 - starts.length) = n + 1 by omega]

-- The edges with smaller keys come first, so two counts enclose those of one key.
theorem drop_take_countP (hs : es.Pairwise fun e e' => key e ≤ key e') (hj : k + 1 = j) :
    (es.take (es.countP (key · < j))).drop (es.countP (key · < k)) = es.filter (key · = k) := by
  induction es with
  | nil => rfl
  | cons e es ih =>
    obtain ⟨hle,hs⟩ := pairwise_cons.mp hs
    have hi := ih hs
    by_cases hlt : key e < k
    · simpa [countP_cons,hlt,show key e < j by omega,Nat.ne_of_lt hlt] using hi
    have hz {i} (hj : i ≤ key e) : es.countP (key · < i) = 0 := countP_none fun e' he' => Nat.le_trans hj (hle e' he')
    rw [hz (by omega),drop_zero] at hi
    by_cases heq : key e = k
    · simpa [countP_cons,heq,hz,show k < j by omega] using hi
    · have hlj : j ≤ key e := by omega
      rw [hz hlj] at hi
      simpa [countP_cons,hlt,heq,hz hlj,hlj] using hi

def Sorted (key val : Edge → Nat) (es : List Edge) : Prop :=
  es.Pairwise fun e e' => key e < key e' ∨ key e = key e' ∧ val e ≤ val e'

theorem Sorted.keys (h : Sorted key val es) : es.Pairwise fun e e' => key e ≤ key e' := h.imp (by omega)

theorem sorted_mergeSort (key val : Edge → Nat) (es : List Edge) : Sorted key val (es.mergeSort (edgeLe key val)) := by
  have hs : (es.mergeSort (edgeLe key val)).Pairwise fun e e' => edgeLe key val e e' := pairwise_mergeSort
    (fun a b c => by simp [edgeLe]; omega) (fun a b => by simp [edgeLe]; omega) es
  exact hs.imp (by simp [edgeLe])

theorem edgesAt_spec {g : VecGraph} (pre post : List Nat) (hs : Sorted key val es) (hp : es.Perm edges)
    (hk : k + 1 ≤ max)
    (hg : g.edgeTargets = pre ++ (es.map val ++ post)) (hst : ∀ j, j = k ∨ j = k + 1 →
    g.nodeStarts[j]? = some (startsOf key es pre.length j)) :
    Row key val edges k (g.edgesAt max k) := by
  refine ⟨(es.filter (key · = k)).map val,?_,pairwise_map.mpr ((hs.filter _).imp_of_mem fun he he' hle => ?_),
    (hp.filter _).map val⟩
  · simp only [edgesAt,hst,index,if_pos hk,Option.bind_eq_bind,Option.bind_some,true_or,or_true,hg,startsOf]
    generalize hj : k + 1 = j
    have hle : es.countP (key · < k) ≤ es.countP (key · < j) := countP_mono_left fun e _ => by simp; omega
    have hl := countP_le_length (p := (key · < j)) (l := es)
    rw [if_pos ⟨by omega,by simp; omega⟩,take_length_add_append,drop_length_add_append,
      take_append_of_le_length (by simpa using hl),
      ← map_take,← map_drop,drop_take_countP hs.keys hj]
  · simp only [mem_filter,decide_eq_true_eq] at he he'
    omega

theorem mapM_index (h : ∀ e ∈ es, key e ≤ max) : es.mapM (fun e => index max (key e)) = some (es.map key) := by
  induction es with
  | nil => rfl
  | cons e es ih =>
    rw [forall_mem_cons] at h
    rw [mapM_cons,ih h.2,index,if_pos h.1]
    rfl

theorem getElem?_starts (f : Nat → Nat) (h : k < m) : ((range' s m).map f)[k]? = some (f (s + k)) := by
  simp [getElem?_range' h]

theorem new_stores_edges (backRefs : Bool) (edges : List Edge) (he : ∀ e ∈ edges, e.1 < n ∧ e.2 < n)
    (hm : (if backRefs then n * 2 else n) ≤ max) : ∃ g, new max backRefs n edges = some g ∧
    Stores max backRefs n edges g := by
  have hs := sorted_mergeSort fst snd edges
  have hp := mergeSort_perm edges (edgeLe fst snd)
  generalize hes : edges.mergeSort (edgeLe fst snd) = es at hs hp
  have hb e (hm : e ∈ es) : e.1 < n ∧ e.2 < n := he e (hp.mem_iff.mp hm)
  have hf := createIndex_eq (n := n) snd hs.keys (fun e hm => Nat.le_of_lt (hb e hm).1)
    (by cases backRefs <;> simp at hm <;> omega) [] [] (Nat.zero_le _)
  simp only [nil_append,length_nil,Nat.sub_zero] at hf
  cases backRefs with
  | false =>
    refine ⟨⟨_,_⟩,by simp only [new,hes,hf]; rfl,by simp [numNodes],
      by simp [numEdges,hp.length_eq],fun k hk => ?_,by simp⟩
    rw [successors,if_pos (by simpa [numNodes] using hk)]
    refine edgesAt_spec [] [] hs hp (Nat.le_trans hk hm) (append_nil _).symm fun j hj => ?_
    rw [getElem?_starts _ (by omega),Nat.zero_add,length_nil]
  | true =>
    replace hm : n * 2 ≤ max := hm
    have hs' : Sorted (·.2 + n) fst (es.mergeSort (edgeLe snd fst)) :=
      (sorted_mergeSort _ _ es).imp (by simp only; omega)
    have hp' := mergeSort_perm es (edgeLe snd fst)
    generalize hbs : es.mergeSort (edgeLe snd fst) = bs at hs' hp'
    have hb' e (hm : e ∈ bs) : e.2 + n ≤ n * 2 := by have := (hb e (hp'.mem_iff.mp hm)).2; omega
    have hd : ((range' 0 (n + 1)).map (startsOf fst es 0)).dropLast = (range' 0 n).map (startsOf fst es 0) := by
      rw [range'_concat,map_append]
      simp
    have hg := createIndex_eq fst hs'.keys hb' hm (es.map snd) ((range' 0 n).map (startsOf fst es 0)) (by simp; omega)
    simp only [length_map,length_range'] at hg
    have hx := mapM_index fun e he => Nat.le_trans (hb' e he) hm
    refine ⟨⟨_,_⟩,by simp only [new,hes,hf,hbs,hx,hd,hg,Option.bind_eq_bind,Option.bind_some,if_true]; rfl,?_⟩
    generalize hst : (range' 0 n).map (startsOf fst es 0) ++ (range' n (n * 2 + 1 - n)).map
      (startsOf _ bs es.length) = starts
    have hnn : (VecGraph.mk starts (es.map snd ++ bs.map fst)).numNodes true = n := by
      simp [numNodes,← hst]
      omega
    have hr j (hj : j ≤ n) : starts[j + n]? = some (startsOf (·.2 + n) bs es.length (j + n)) := by
      rw [← hst,getElem?_append_right (by simp),length_map,length_range',Nat.add_sub_cancel,
        getElem?_starts _ (by omega),Nat.add_comm]
    refine ⟨hnn,by simp [numEdges,hp.length_eq,hp'.length_eq]; omega,fun k hk => ?_,fun _ k hk => ?_⟩
    · rw [successors,hnn,if_pos hk]
      refine edgesAt_spec [] (bs.map fst) hs hp (by omega) rfl fun j hj => ?_
      rcases (by omega : j < n ∨ j = n) with hlt | rfl
      · rw [← hst,getElem?_append_left (by simpa using hlt),getElem?_starts _ hlt,Nat.zero_add,length_nil]
      -- The entry of the first back reference ends the forward ones.
      have hz := hr 0 (Nat.zero_le _)
      rw [Nat.zero_add,startsOf,countP_none fun e _ => Nat.le_add_left j e.2] at hz
      rw [hz,startsOf,countP_eq_length.mpr fun e he => by simpa using (hb e he).1,length_nil,Nat.zero_add,Nat.add_zero]
    · rw [predecessors,hnn,if_pos hk,index,if_pos (by omega)]
      suffices h : Row (·.2 + n) fst edges (k + n) (edgesAt max _ (k + n)) by simpa [Row] using h
      refine edgesAt_spec (es.map snd) [] hs' (hp'.trans hp) (by omega) (by simp) ?_
      rintro j (rfl | rfl)
      · simpa using hr k (by omega)
      · simpa [Nat.add_right_comm] using hr (k + 1) hk

theorem new_stores_edges_looped :
    ∃ g, new 4 true 2 [(1,0),(1,1),(0,1),(1,0)] = some g ∧ Stores 4 true 2 [(1,0),(1,1),(0,1),(1,0)] g :=
  new_stores_edges true _ (by decide) (by decide)

-- Both nodes are values of the index type, but the entry past the last node is not.
theorem new_two_of_two : new 1 false 2 [] = none := by
  simp [new,createIndex,pushTo]

end VecGraph

end Frontend.DataStructures
