import Frontend.Scc.Condensation

namespace Frontend.Scc

open List

variable {A : Type} {G : Graph} {ann : Annotations A}

structure IsMerge (op : A → A → A) : Prop where
  assoc : ∀ a b c, op (op a b) c = op a (op b c)
  comm : ∀ a b, op a b = op b a
  idem : ∀ a, op a a = a

structure Annotations.Lawful (ann : Annotations A) : Prop where
  scc : IsMerge ann.updateScc
  reachable : IsMerge ann.updateReachable
  interchange : ∀ a b c, ann.updateReachable (ann.updateScc a b) c = ann.updateScc a (ann.updateReachable b c)

namespace Annotations.Lawful

theorem absorb (h : ann.Lawful) (a b : A) : ann.updateReachable (ann.updateScc a b) b = ann.updateScc a b := by
  rw [h.interchange,h.reachable.idem]

theorem updateReachable_eq (h : ann.Lawful) (a b : A) : ann.updateReachable a b = ann.updateScc a b := by
  have hs : ann.updateScc (ann.updateReachable a b) (ann.updateScc a b) = ann.updateScc a b := by
    calc ann.updateScc (ann.updateReachable a b) (ann.updateScc a b)
        = ann.updateScc (ann.updateScc a b) (ann.updateReachable b a) := by rw [h.scc.comm,h.reachable.comm]
      _ = ann.updateReachable (ann.updateScc (ann.updateScc a b) b) a := by rw [h.interchange]
      _ = ann.updateReachable (ann.updateScc b a) a := by rw [h.scc.assoc,h.scc.idem,h.scc.comm]
      _ = ann.updateScc a b := by rw [h.absorb,h.scc.comm]
  have hr : ann.updateScc (ann.updateReachable a b) (ann.updateScc a b) = ann.updateReachable a b := by
    calc ann.updateScc (ann.updateReachable a b) (ann.updateScc a b)
        = ann.updateScc b (ann.updateScc a (ann.updateReachable a b)) := by rw [h.scc.comm,h.scc.comm a b,h.scc.assoc]
      _ = ann.updateScc b (ann.updateReachable a b) := by rw [← h.interchange,h.scc.idem]
      _ = ann.updateReachable a b := by rw [h.reachable.comm,← h.interchange,h.scc.idem]
  exact hr.symm.trans hs

@[reducible] def lattice (h : ann.Lawful) : SemilatticeSup A :=
  letI : Max A := ⟨ann.updateScc⟩
  SemilatticeSup.mk' h.scc.comm h.scc.assoc h.scc.idem

theorem isSup (h : ann.Lawful) : ann.IsSup h.lattice := fun a b => ⟨rfl,h.updateReachable_eq a b⟩

end Annotations.Lawful

theorem foldl_sup_le [SemilatticeSup A] (l : List A) (a u : A) : l.foldl (· ⊔ ·) a ≤ u ↔ a ≤ u ∧ ∀ x ∈ l, x ≤ u := by
  induction l generalizing a with
  | nil => simp
  | cons x l ih => rw [foldl_cons,ih,sup_le_iff,forall_mem_cons,and_assoc]

section

variable {c : Construction A} {st : Nat → Status} {succs : List (List Nat)} {indices : List Nat}

theorem Resting.annotation_eq (h : Resting G ann c st succs) :
    Sccs.annotation (⟨indices,c.sccData,c.annotated⟩ : Sccs A) s = some y ↔ (s,y) ∈ c.annotated := by
  have hn := h.indices ▸ nodup_range
  constructor
  · intro hy
    obtain ⟨call,hf,rfl⟩ := Option.map_eq_some_iff.mp hy
    obtain rfl : call.1 = s := by simpa using find?_some hf
    exact mem_of_find?_eq_some hf
  · intro hy
    cases hf : c.annotated.find? fun call => call.1 = s with
    | none => simpa using find?_eq_none.mp hf _ hy
    | some call =>
      have hc : call.1 = s := by simpa using find?_some hf
      have heq := inj_on_of_nodup_map hn (mem_of_find?_eq_some hf) hy hc
      unfold Sccs.annotation
      simp [hf,heq]

theorem Resting.merge_eq (h : Resting G ann c st succs) (hla : ann.Lawful)
    (ha : List.Forall₂ (fun v s => st v = .done s) (range G.numNodes) indices)
    (hy : (s,y) ∈ c.annotated) :
    (⟨indices,c.sccData,c.annotated⟩ : Sccs A).merge ann s = some y := by
  have hc := h.condensed
  have hs : s < succs.length := by
    have hme : s ∈ c.annotated.map Prod.fst := mem_map_of_mem hy
    rw [h.indices] at hme
    exact mem_range.mp hme
  obtain ⟨l,hl⟩ : ∃ l, succs[s]? = some l := ⟨_,getElem?_eq_getElem hs⟩
  have hmb v : v ∈ (⟨indices,c.sccData,c.annotated⟩ : Sccs A).members s ↔ st v = .done s := by
    rw [Sccs.members,mem_filter,mem_range,decide_eq_true_iff,h.index_iff ha]
    exact ⟨And.right,fun hv => ⟨Library.lt_of_getElem? ((h.index_iff ha).mpr hv),hv⟩⟩
  rw [Sccs.merge]
  cases hmes : (⟨indices,c.sccData,c.annotated⟩ : Sccs A).members s with
  | nil =>
    obtain ⟨v,hv⟩ := hc.inhabited s hs
    simp [hmes,← hmb] at hv
  | cons m ms =>
    rw [hmes] at hmb
    simp only [h.data.successors hl,Option.bind_eq_bind,Option.bind_some,Option.pure_def,Option.some.injEq]
    let _ := hla.lattice
    have hsc : ann.updateScc = (· ⊔ ·) := rfl
    have hr : ann.updateReachable = (· ⊔ ·) := funext fun a => funext fun b => (hla.isSup a b).2
    rw [hsc,hr]
    obtain ⟨h1,h2,h3⟩ := h.finished hla.lattice hla.isSup s y hy
    refine eq_of_forall_ge_iff fun u => ?_
    rw [foldl_sup_le,foldl_sup_le]
    constructor
    · rintro ⟨⟨hm,hms⟩,hzs⟩
      refine h3 u (fun v hv => ?_) fun v w t z hv he hw hne hz => ?_
      · rcases mem_cons.mp ((hmb v).mpr hv) with rfl | hv
        · exact hm
        · exact hms _ (mem_map_of_mem hv)
      · refine hzs z (mem_filterMap.mpr ⟨t,?_,h.annotation_eq.mpr hz⟩)
        obtain ⟨t',ht',hor⟩ := hc.closed v w s hv he
        obtain rfl := Status.done.inj (ht'.symm.trans hw)
        rcases hor with rfl | ⟨l',hl',hme⟩
        · exact absurd rfl hne
        · obtain rfl := Option.mem_unique hl hl'
          exact hme
    · intro hyu
      refine ⟨⟨?_,fun x hx => ?_⟩,fun z hz => ?_⟩
      · exact (h1 m ((hmb m).mp (.head _))).trans hyu
      · obtain ⟨v,hv,rfl⟩ := mem_map.mp hx
        exact (h1 v ((hmb v).mp (.tail _ hv))).trans hyu
      · obtain ⟨t,ht,hz⟩ := mem_filterMap.mp hz
        obtain ⟨hlt,v,w,hv,he,hw⟩ := hc.sound s l hl t ht
        exact (h2 v w t z hv he hw hlt.ne (h.annotation_eq.mp hz)).trans hyu

end

theorem newWithAnnotation_condensation (G : Graph) (ann : Annotations A) :
    ∃ sccs, newWithAnnotation G ann = some sccs ∧ Condensation G sccs ∧
      (ann.Lawful → ∀ s y, (s,y) ∈ sccs.annotated → sccs.merge ann s = some y) := by
  obtain ⟨out,c,st,succs,hf,hr,ha,-⟩ := constructNodes_spec (range G.numNodes) (resting_start G ann)
    (fun v hv => mem_range.mp hv) []
  refine ⟨⟨out,c.sccData,c.annotated⟩,?_,hr.condensation ha,fun hl s y hy => hr.merge_eq hl ha hy⟩
  unfold newWithAnnotation
  simp [hf]

def Graph.ofAdjacency (adjacency : List (List Nat)) : Graph where
  numNodes := adjacency.length
  successors v := (adjacency[v]?.getD []).filter (· < adjacency.length)
  successors_lt v _ w hw := by simpa using (mem_filter.mp hw).2

def maxAnnotations : Annotations Nat := ⟨id,max,max⟩

def minMaxAnnotations : Annotations Nat := ⟨id,min,max⟩

theorem isMerge_max : IsMerge (max : Nat → Nat → Nat) := ⟨max_assoc,max_comm,max_self⟩

theorem newWithAnnotation_condensation_max : ∃ sccs,
    newWithAnnotation (.ofAdjacency [[1,2],[0],[2]]) maxAnnotations = some sccs ∧
      Condensation (.ofAdjacency [[1,2],[0],[2]]) sccs ∧ sccs.annotated = [(0,2),(1,2)] ∧
      sccs.merge maxAnnotations 1 = some 2 := by
  obtain ⟨sccs,hn,hc,hm⟩ := newWithAnnotation_condensation (.ofAdjacency [[1,2],[0],[2]]) maxAnnotations
  have hca : Sccs.annotated <$> newWithAnnotation (.ofAdjacency [[1,2],[0],[2]]) maxAnnotations =
    some [(0,2),(1,2)] := by decide +kernel
  have hc' : sccs.annotated = [(0,2),(1,2)] := by simpa [hn] using hca
  exact ⟨sccs,hn,hc,hc',hm ⟨isMerge_max,isMerge_max,max_assoc⟩ 1 2 (by simp [hc'])⟩

theorem minMax_depends_on_order : IsMerge minMaxAnnotations.updateScc ∧ IsMerge minMaxAnnotations.updateReachable ∧
      (∀ v w, (Graph.ofAdjacency [[1,2],[0],[]]).Edge v w ↔ (Graph.ofAdjacency [[2,1],[0],[]]).Edge v w) ∧
      (fun sccs => (sccs.sccIndices,sccs.annotated,sccs.merge minMaxAnnotations 1)) <$>
        newWithAnnotation (.ofAdjacency [[1,2],[0],[]]) minMaxAnnotations = some ([1,1,0],[(0,2),(1,2)],some 2) ∧
      (fun sccs => (sccs.sccIndices,sccs.annotated,sccs.merge minMaxAnnotations 1)) <$>
        newWithAnnotation (.ofAdjacency [[2,1],[0],[]]) minMaxAnnotations = some ([1,1,0],[(0,2),(1,0)],some 2) := by
  refine ⟨⟨min_assoc,min_comm,min_self⟩,isMerge_max,fun v w => ?_,by decide +kernel,by decide +kernel⟩
  have ha (v : Nat) : (Graph.ofAdjacency [[1,2],[0],[]]).successors v =
      ((Graph.ofAdjacency [[2,1],[0],[]]).successors v).reverse := by
    match v with
    | 0 | 1 | 2 => rfl
    | v + 3 => rfl
  rw [Graph.Edge,Graph.Edge,ha,mem_reverse]

end Frontend.Scc
