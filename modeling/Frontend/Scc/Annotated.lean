import Frontend.Scc.WalkFinish

namespace Frontend.Scc

open List Function Walking

variable {A : Type} [SemilatticeSup A] {G : Graph} {own : Nat → A} {st : Nat → Status}
  {f f' : VisitingNodeFrame A} {rest fs : List (VisitingNodeFrame A)}
  {ret : Option (WalkReturn A)} {ss : List Nat} {succs : List (List Nat)} {ann : List (Nat × A)}

structure Bounds (G : Graph) (own : Nat → A) (st : Nat → Status) (ann : List (Nat × A)) (m d : Nat) (u : A) : Prop where
  member : ∀ v a, st v = .active a → m ≤ a → a ≤ d → own v ≤ u
  reachable : ∀ v a w s y, st v = .active a → m ≤ a → a ≤ d → G.Edge v w → st w = .done s → (s,y) ∈ ann → y ≤ u

theorem Bounds.of_le (h : Bounds G own st' ann m' d' u)
    (hk : ∀ v a, st v = .active a → m ≤ a → a ≤ d → ∃ a', st' v = .active a' ∧ m' ≤ a' ∧ a' ≤ d')
    (hdo : ∀ w s, st w = .done s → st' w = .done s) : Bounds G own st ann m d u := by
  refine ⟨fun v a hv hm hd => ?_,fun v a w s y hv hm hd he hw hy => ?_⟩
  · obtain ⟨a',hv',hm',hd'⟩ := hk v a hv hm hd
    exact h.member v a' hv' hm' hd'
  · obtain ⟨a',hv',hm',hd'⟩ := hk v a hv hm hd
    exact h.reachable v a' w s y hv' hm' hd' he (hdo w s hw) hy

section

variable (G : Graph) (own : Nat → A) (st : Nat → Status) (fs : List (VisitingNodeFrame A))
  (ret : Option (WalkReturn A)) (ann : List (Nat × A))

def Merged (a : Nat) (y : A) : Prop :=
  (∃ f ∈ fs, f.minDepth ≤ a ∧ a ≤ f.depth ∧ y ≤ f.annotation) ∨ ∃ m x, ret = some (.cycle m x) ∧ m ≤ a ∧ y ≤ x

structure Finished (s : Nat) (y : A) : Prop where
  member : ∀ v, st v = .done s → own v ≤ y
  reachable : ∀ v w t z, st v = .done s → G.Edge v w → st w = .done t → t ≠ s → (t,z) ∈ ann → z ≤ y
  least : ∀ u, (∀ v, st v = .done s → own v ≤ u) →
    (∀ v w t z, st v = .done s → G.Edge v w → st w = .done t → t ≠ s → (t,z) ∈ ann → z ≤ u) → y ≤ u

structure Merging : Prop where
  member : ∀ v a, st v = .active a → Merged fs ret a (own v)
  reachable : ∀ v a w s y, st v = .active a → Explored G fs ret v w → st w = .done s → (s,y) ∈ ann → Merged fs ret a y
  least : ∀ f ∈ fs, ∀ u, own f.node ≤ u → Bounds G own st ann f.minDepth f.depth u → f.annotation ≤ u
  leastReturn : ∀ m x, ret = some (.cycle m x) → ∀ f ∈ fs.head?, ∀ u, Bounds G own st ann m f.depth u → x ≤ u
  complete : ∀ s x, ret = some (.complete s x) → (s,x) ∈ ann
  finished : ∀ s y, (s,y) ∈ ann → Finished G own st ann s y

end

namespace Merging

theorem enter (h : Merging G own st (f :: rest) none ann) (hw : Walking G st (f :: rest) none ss succs)
    (hf : ¬ f.Entered)
    (ho : f.annotation = own f.node) :
    Merging G own (update st f.node (.active f.depth)) (f.opened G ss.length :: rest) none ann := by
  obtain ⟨hwh,-⟩ := hw.fresh f (.head _) hf
  have hk v s : st v = s → s ≠ .white → update st f.node (.active f.depth) v = s := update_of_status hwh
  have hme a y (hm : Merged (f :: rest) none a y) : Merged (f.opened G ss.length :: rest) none a y := by
    simpa [Merged] using hm
  have hn : f.successors = none := by simpa [VisitingNodeFrame.Entered] using hf
  constructor
  case member =>
    intro v a hv
    by_cases hne : v = f.node
    · subst hne
      obtain rfl : f.depth = a := by simpa using hv
      exact .inl ⟨_,.head _,hw.minLe f (.head _),le_rfl,le_of_eq ho.symm⟩
    · exact hme _ _ (h.member v a (of_update hv hne))
  case reachable =>
    intro v a w s y hv hex hws hy
    by_cases hne : v = f.node
    · subst hne
      have hmm : w ∈ G.successors f.node := hex.1
      exact absurd (.inl ⟨rfl,by simpa [leftOf] using hmm⟩) hex.2
    · refine hme _ _ (h.reachable v a w s y (of_update hv hne) ⟨hex.1,fun hp => hex.2 ?_⟩ (done_of_update hws) hy)
      simpa [Pending,leftOf,hn] using hp
  case least =>
    rw [forall_mem_cons]
    refine ⟨fun u hu _ => ho ▸ hu,fun g hg u hu hbo => ?_⟩
    refine h.least g (.tail _ hg) u hu (hbo.of_le (fun v a hv hm hd => ?_) fun w s hs => hk _ _ hs (by simp))
    exact ⟨a,hk _ _ hv (by simp),hm,hd⟩
  case leastReturn => simp
  case complete => simp
  case finished =>
    intro s y hy
    obtain ⟨h1,h2,h3⟩ := h.finished s y hy
    refine ⟨fun v hv => h1 v (done_of_update hv),fun v w t z hv he hwt => h2 v w t z (done_of_update hv)
      he (done_of_update hwt),fun u hu hu' => h3 u (fun v hv => hu v (hk _ _ hv (by simp)))
      fun v w t z hv he hwt => hu' v w t z (hk _ _ hv (by simp)) he (hk _ _ hwt (by simp))⟩

section

variable {w : Nat} {xs : List Nat}

theorem look (h : Merging G own st (f :: rest) ret ann) (hw : Walking G st (f :: rest) ret ss succs)
    (hleft : leftOf G ret.isSome f = w :: xs) (hs : SameTop f f')
    (hsu : f'.successors = some xs) (hmi : f'.minDepth ≤ f.minDepth)
    (han : f'.annotation = f.annotation ⊔ x)
    (hre : ∀ m y, ret = some (.cycle m y) → f'.minDepth ≤ m ∧ y ≤ x)
    (hx : ∀ u, own f.node ≤ u → Bounds G own st ann f'.minDepth f.depth u → x ≤ u)
    (hn : ∀ s y, st w = .done s → (s,y) ∈ ann → y ≤ x) (hf : f.Entered) :
    Merging G own st (f' :: rest) none ann := by
  have hle := han ▸ le_sup_left
  have hme : ∀ a y, a ≤ f.depth → Merged (f :: rest) ret a y → Merged (f' :: rest) none a y := by
    rintro a y ha (⟨g,hg,hga,hgm,hy⟩ | ⟨m',y',hr,hm,hy⟩)
    · rcases mem_cons.mp hg with rfl | hg
      · exact .inl ⟨f',.head _,hmi.trans hga,hs.depth ▸ hgm,hy.trans hle⟩
      · exact .inl ⟨g,.tail _ hg,hga,hgm,hy⟩
    · obtain ⟨hm',hy'⟩ := hre m' y' hr
      exact .inl ⟨f',.head _,hm'.trans hm,hs.depth ▸ ha,hy.trans (hy'.trans (han ▸ le_sup_right))⟩
  constructor
  case member => exact fun v a hv => hme _ _ (active_le hw hv) (h.member v a hv)
  case reachable =>
    intro v a u s y hv he hus hy
    rcases explored_of_look hleft hs hsu he with he | ⟨rfl,rfl⟩
    · exact hme _ _ (active_le hw hv) (h.reachable v a u s y hv he hus hy)
    obtain rfl : f.depth = a :=
      Status.active.inj ((hw.gray f (.head _) hf).symm.trans hv)
    refine .inl ⟨f',.head _,?_,Nat.le_of_eq hs.depth.symm,?_⟩
    · exact hmi.trans (hw.minLe f (.head _))
    · exact (hn s y hus hy).trans (han ▸ le_sup_right)
  case least =>
    rw [forall_mem_cons,hs.node,hs.depth,han]
    refine ⟨fun u hu hb => sup_le ?_ (hx u hu hb),(forall_mem_cons.mp h.least).2⟩
    refine h.least f (.head _) u hu (hb.of_le (fun v a hv hm hd => ?_) fun _ _ => id)
    exact ⟨a,hv,hmi.trans hm,hd⟩
  case leastReturn => simp
  case complete => simp
  case finished => exact h.finished

end

theorem push (h : Merging G own st (f :: rest) none ann) (hs : f.successors = some (w :: xs))
    (ho : own = annotations.new) :
    Merging G own st (visit annotations w xs f rest) none ann := by
  subst ho
  have hm : ∀ a y, Merged (f :: rest) none a y → Merged (visit annotations w xs f rest) none a y := by
    rintro a y (⟨g,hg,hga,hgm,hy⟩ | ⟨m',x,hr,-⟩)
    · rcases mem_cons.mp hg with rfl | hg
      · exact .inl ⟨_,.tail _ (.head _),hga,hgm,hy⟩
      · exact .inl ⟨g,.tail _ (.tail _ hg),hga,hgm,hy⟩
    · simp at hr
  constructor
  case member => exact fun v a hv => hm _ _ (h.member v a hv)
  case reachable =>
    intro v a u s y hv he hus hy
    refine hm _ _ (h.reachable v a u s y hv ⟨he.1,fun hp => he.2 ?_⟩ hus hy)
    rcases hp with ⟨hv,hu⟩ | ⟨g,hg,hv,hu⟩
    · exact .inr ⟨_,.head _,hv,by simpa [leftOf,hs] using hu⟩
    · exact .inr ⟨g,.tail _ hg,hv,hu⟩
  case least =>
    rw [forall_mem_cons,forall_mem_cons]
    exact ⟨fun u hu _ => hu,forall_mem_cons.mp h.least⟩
  case leastReturn => simp
  case complete => simp
  case finished => exact h.finished

section

variable (h : Merging G own st (f :: rest) none ann) (hw : Walking G st (f :: rest) none ss succs)
  (hleft : f.successors = some [])

include h hw hleft

theorem finishCycle (hlt : f.minDepth < f.depth) : Merging G own (Rep.settle st f.depth (.active f.minDepth)) rest
      (some (.cycle f.minDepth f.annotation)) ann := by
  have hf : f.Entered := .of_some hleft
  have hdo v s : Rep.settle st f.depth (.active f.minDepth) v = .done s ↔ st v = .done s := by
    refine ⟨fun hv => ?_,fun hv => settle_done hv⟩
    rcases settle_cases hv with ⟨-,hn⟩ | ⟨-,ho⟩
    · simp at hn
    · exact ho
  have hme v a' y (hv : Rep.settle st f.depth (.active f.minDepth) v = .active a')
    (ho : ∀ a, st v = .active a → Merged (f :: rest) none a y) :
      Merged rest (some (.cycle f.minDepth f.annotation)) a' y := by
    rcases settle_cases hv with ⟨hva,hn⟩ | ⟨hne,hva⟩
    · obtain rfl := Status.active.inj hn
      rcases ho _ hva with ⟨g,hg,-,hgd,hy⟩ | ⟨m,x,hr,-⟩
      · obtain rfl := eq_head_of_depth hw hg hgd
        exact .inr ⟨_,_,rfl,le_rfl,hy⟩
      · simp at hr
    rcases ho _ hva with ⟨g,hg,hgm,hgd,hy⟩ | ⟨m,x,hr,-⟩
    · rcases mem_cons.mp hg with rfl | hg
      · exact .inr ⟨_,_,rfl,hgm,hy⟩
      · exact .inl ⟨g,hg,hgm,hgd,hy⟩
    · simp at hr
  constructor
  case member => exact fun v a' hv => hme v a' _ hv fun a ha => h.member v a ha
  case reachable =>
    intro v a' w s y hv he hws hy
    refine hme v a' y hv fun a ha => ?_
    exact h.reachable v a w s y ha (explored_finish rfl hleft he) ((hdo w s).mp hws) hy
  case least =>
    intro g hg u hu hb
    refine h.least g (.tail _ hg) u hu (hb.of_le (fun v a hv hm hd => ?_) fun w s hs => (hdo w s).mpr hs)
    have hgl := depth_tail hw hg
    exact ⟨a,settle_active hv (Nat.ne_of_lt (hd.trans_lt hgl)),hm,hd⟩
  case leastReturn =>
    intro m x hr g hg u hb
    obtain ⟨rfl,rfl⟩ := WalkReturn.cycle.inj (Option.some.inj hr)
    have hgd : f.depth ≤ g.depth + 1 := by
      have hd := hw.depth 1 g (by rw [getElem?_cons_succ,← head?_eq_getElem?]; exact hg)
      have hd' := depth_head hw
      simp only [length_cons] at hd
      omega
    have hmo v a (hv : st v = .active a) (hm : f.minDepth ≤ a) (hd : a ≤ f.depth) :
        ∃ a', Rep.settle st f.depth (.active f.minDepth) v = .active a' ∧ f.minDepth ≤ a' ∧ a' ≤ g.depth := by
      by_cases ha : a = f.depth
      · subst ha
        exact ⟨f.minDepth,Rep.settle_of_eq hv,le_rfl,by omega⟩
      · exact ⟨a,settle_active hv ha,hm,by omega⟩
    refine h.least f (.head _) u ?_ (hb.of_le hmo fun w s hs => (hdo w s).mpr hs)
    obtain ⟨a',ha',hm,hd⟩ := hmo f.node f.depth (hw.gray f (.head _) hf) hlt.le le_rfl
    exact hb.member f.node a' ha' hm hd
  case complete => simp
  case finished =>
    intro s y hy
    obtain ⟨h1,h2,h3⟩ := h.finished s y hy
    exact ⟨by simpa only [hdo] using h1,by simpa only [hdo] using h2,by simpa only [hdo] using h3⟩

theorem finishComplete (hro : f.minDepth = f.depth) (hlt : ∀ s y, (s,y) ∈ ann → s < succs.length) :
    Merging G own (Rep.settle st f.depth (.done succs.length)) rest
      (some (.complete succs.length f.annotation)) (ann ++ [(succs.length, f.annotation)]) := by
  have hf : f.Entered := .of_some hleft
  have han s y (hy : (s,y) ∈ ann ++ [(succs.length, f.annotation)]) (hs : s ≠ succs.length) : (s,y) ∈ ann := by
    rcases mem_append.mp hy with hy | hy
    · exact hy
    · exact absurd (Prod.mk.inj (mem_singleton.mp hy)).1 hs
  have hme : ∀ a y, a < f.depth → Merged (f :: rest) none a y →
      Merged rest (some (.complete succs.length f.annotation)) a y := by
    rintro a y ha (⟨g,hg,hgm,hgd,hy⟩ | ⟨m,x,hr,-⟩)
    · rcases mem_cons.mp hg with rfl | hg
      · omega
      · exact .inl ⟨g,hg,hgm,hgd,hy⟩
    · simp at hr
  have hto : ∀ y, Merged (f :: rest) none f.depth y → y ≤ f.annotation := by
    rintro y (⟨g,hg,-,hgd,hy⟩ | ⟨m,x,hr,-⟩)
    · obtain rfl := eq_head_of_depth hw hg hgd
      exact hy
    · simp at hr
  constructor
  case member =>
    intro v a hv
    obtain ⟨ho,ha⟩ := hw.settled_active hv
    exact hme _ _ ha (h.member v a ho)
  case reachable =>
    intro v a w s y hv he' hws hy
    obtain ⟨ho,ha⟩ := hw.settled_active hv
    have hex := explored_finish rfl hleft he'
    rcases settled_done hws with ⟨hwa,rfl⟩ | hws
    · -- an edge into the component being closed cannot come from below it
      rcases hw.explored v a w ho hex with ⟨b,hb,hbl⟩ | ⟨t,p,ht,-⟩
      · obtain rfl := Status.active.inj (hb.symm.trans hwa)
        have hmi := known_top hw (hbl.1 ha.le)
        omega
      · exact absurd (ht.symm.trans hwa) (by simp)
    · exact hme _ _ ha (h.reachable v a w s y ho hex hws (han s y hy (hw.done_ne hws)))
  case least =>
    intro g hg u hu hbo
    refine h.least g (.tail _ hg) u hu ⟨fun v a hv hm hd => ?_,fun v a w s y hv hm hd he hws hy => ?_⟩
    · have hgl := depth_tail hw hg
      exact hbo.member v a (settle_active hv (by omega)) hm hd
    · have hgl := depth_tail hw hg
      exact hbo.reachable v a w s y (settle_active hv (by omega)) hm hd he (settle_done hws) (mem_append_left _ hy)
  case leastReturn => simp
  case complete =>
    intro s x hr
    obtain ⟨rfl,rfl⟩ := WalkReturn.complete.inj (Option.some.inj hr)
    simp
  case finished =>
    intro s y hy
    by_cases hs : s = succs.length
    · subst hs
      obtain rfl : y = f.annotation := by
        rcases mem_append.mp hy with hy | hy
        · exact absurd (hlt _ _ hy) (Nat.lt_irrefl _)
        · exact (Prod.mk.inj (mem_singleton.mp hy)).2
      have hmb v (hv : Rep.settle st f.depth (.done succs.length) v = .done succs.length) : st v = .active f.depth := by
        rcases settled_done hv with ⟨hva,-⟩ | hvs
        · exact hva
        · exact absurd rfl (hw.done_ne hvs)
      refine ⟨fun v hv => hto _ (h.member v _ (hmb v hv)),fun v w t z hv he hwt ht hz => ?_,fun u hu hu' => ?_⟩
      · rcases settled_done hwt with ⟨-,rfl⟩ | hwt
        · exact absurd rfl ht
        · have hva := hmb v hv
          exact hto _ (h.reachable v _ w t z hva (hw.explored_top hleft hva he) hwt (han t z hz ht))
      · have hgr := hw.gray f (.head _) hf
        refine h.least f (.head _) u (hu _ (Rep.settle_of_eq hgr)) ⟨fun v a hv hm hd => ?_,
          fun v a w t z hv hm hd he hwt hz => ?_⟩
        · obtain rfl : a = f.depth := by omega
          exact hu v (Rep.settle_of_eq hv)
        · obtain rfl : a = f.depth := by omega
          exact hu' v w t z (Rep.settle_of_eq hv) he (settle_done hwt) (hw.done_ne hwt) (mem_append_left _ hz)
    · have ho := han s y hy hs
      obtain ⟨h1,h2,h3⟩ := h.finished s y ho
      have hmb v (hv : Rep.settle st f.depth (.done succs.length) v = .done s) : st v = .done s := by
        rcases settled_done hv with ⟨-,rfl⟩ | hvs
        · exact absurd rfl hs
        · exact hvs
      refine ⟨fun v hv => h1 v (hmb v hv),fun v w t z hv he hwt ht hz => ?_,fun u hu hu' => ?_⟩
      · have hvs := hmb v hv
        obtain ⟨t',ht',-⟩ := hw.condensed.closed v w s hvs he
        obtain rfl : t' = t := Status.done.inj ((settle_done ht').symm.trans hwt)
        exact h2 v w t' z hvs he ht' ht (han t' z hz (hw.done_ne ht'))
      · refine h3 u (fun v hv => hu v (settle_done hv)) fun v w t z hv he hwt ht hz => ?_
        exact hu' v w t z (settle_done hv) he (settle_done hwt) ht (mem_append_left _ hz)

end

end Merging

end Frontend.Scc
