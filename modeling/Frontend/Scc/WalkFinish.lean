import Frontend.Scc.WalkSteps

namespace Frontend.Scc

open Library Relation List

variable {A : Type} {G : Graph} {st : Nat → Status} {f : VisitingNodeFrame A}
  {rest : List (VisitingNodeFrame A)} {ss : List Nat} {succs : List (List Nat)}

theorem mem_dedup : x ∈ dedup seen l ↔ x ∈ l ∧ x ∉ seen := by
  induction l generalizing seen with
  | nil => simp [dedup]
  | cons y l ih =>
    rw [dedup]
    split
    case isTrue hy =>
      rw [ih,mem_cons]
      constructor
      · exact fun ⟨hx,hs⟩ => ⟨.inr hx,hs⟩
      · rintro ⟨rfl | hx,hs⟩
        · exact absurd hy hs
        · exact ⟨hx,hs⟩
    case isFalse hy =>
      rw [mem_cons,ih,mem_cons,mem_cons]
      by_cases hxy : x = y
      · subst hxy
        simp [hy]
      · simp [hxy]

theorem nodup_dedup (seen l : List Nat) : (dedup seen l).Nodup := by
  induction l generalizing seen with
  | nil => exact nodup_nil
  | cons y l ih =>
    rw [dedup]
    split
    · exact ih seen
    · refine nodup_cons.mpr ⟨fun hy => ?_,ih _⟩
      exact (mem_dedup.mp hy).2 (.head _)

namespace Walking

section

variable {v d : Nat} {new : Status}

theorem explored_finish (hr' : ret'.isSome) (hleft : f.successors = some []) (h : Explored G rest ret' v u) :
    Explored G (f :: rest) none v u := by
  refine ⟨h.1,fun hp => h.2 ?_⟩
  rcases hp with ⟨-,hu⟩ | ⟨g,hg,hv,hu⟩
  · simp [leftOf,hleft] at hu
  cases rest with
  | nil => simp at hg
  | cons h' rest =>
    rcases mem_cons.mp hg with rfl | hg
    · exact .inl ⟨hv,by rwa [hr']⟩
    · exact .inr ⟨g,hg,hv,hu⟩

theorem pop (h : Walking G st (f :: rest) none ss succs) (hr' : ret'.isSome) (hleft : f.successors = some [])
    (hk : ∀ v d, d < f.depth → st v = .active d → st' v = .active d)
    (ha : ∀ v d, st' v = .active d → ∃ f ∈ rest, f.Entered ∧ f.depth = d ∧ G.Reach v f.node ∧ G.Reach f.node v)
    (hrt : ∀ walk ∈ ret', match walk with
      | .cycle m _ => st' f.node = .active m
      | .complete s _ => st' f.node = .done s)
    (hex : ∀ v a w, st' v = .active a → Explored G (f :: rest) none v w →
      (∃ b, st' w = .active b ∧ Block rest ret' a b) ∨
        ∃ s p : Nat, st' w = .done s ∧ ss'[p]? = some s ∧ Pushed rest ret' p a)
    (hl : ∀ g ∈ rest, g.Entered → g.successorsLen ≤ ss'.length)
    (hpu : ∀ (p s : Nat), ss'[p]? = some s → ∃ v a w, st' v = .active a ∧ G.Edge v w ∧ st' w = .done s ∧
      Pushed rest ret' p a)
    (hc : Condensed G st' succs') : Walking G st' rest ret' ss' succs' := by
  have hen := h.entered
  constructor
  case depth =>
    intro i g hg
    have hd := h.depth (i + 1) g (by simpa using hg)
    simp only [length_cons] at hd
    omega
  case entered => exact fun g hg => hen g (mem_of_mem_tail hg)
  case lt => exact fun g hg => h.lt g (.tail _ hg)
  case gray =>
    intro g hg he
    exact hk _ _ (depth_tail h hg) (h.gray g (.tail _ hg) he)
  case fresh => exact fun g hg hne => absurd (hen g hg) hne
  case child =>
    intro i g g' hg hg'
    exact h.child (i + 1) g g' (by simpa using hg) (by simpa using hg')
  case left =>
    intro v u hp
    cases rest with
    | nil => exact hp.elim
    | cons h' rest =>
      rcases hp with ⟨hv,hu⟩ | ⟨g,hg,hv,hu⟩
      · exact h.left v u (.inr ⟨h',.head _,hv,by rwa [hr'] at hu⟩)
      · exact h.left v u (.inr ⟨g,.tail _ hg,hv,hu⟩)
  case path => exact (pairwise_cons.mp h.path).2
  case active => exact ha
  case minLe => exact fun g hg => h.minLe g (.tail _ hg)
  case minRoot =>
    intro g hg hlt
    obtain ⟨hed,hr⟩ := h.minRoot g (.tail _ hg) hlt
    exact ⟨hed,hk _ _ (Nat.lt_trans hlt (depth_tail h hg)) hr⟩
  case returned =>
    intro g hg walk hw
    have hch : g.successorNode = f.node := by
      refine h.child 0 f g rfl ?_
      rw [getElem?_cons_succ,← head?_eq_getElem?]
      exact hg
    rw [hch]
    exact hrt walk hw
  case explored => exact fun v a w hv hep => hex v a w hv (explored_finish hr' hleft hep)
  case lens =>
    intro g hg he
    refine ⟨hl g hg he,fun g' hg' he' hd => ?_⟩
    exact (h.lens g (.tail _ hg) he).2 g' (.tail _ hg') he' hd
  case pushed => exact hpu
  case condensed => exact hc

theorem settle_cases (h : Rep.settle st d new v = s) : st v = .active d ∧ new = s ∨ st v ≠ .active d ∧ st v = s := by
  by_cases hv : st v = .active d
  · exact .inl ⟨hv,by rwa [Rep.settle_of_eq hv] at h⟩
  · exact .inr ⟨hv,by rwa [Rep.settle_of_ne hv] at h⟩

theorem settle_done (h : st v = .done s) : Rep.settle st d new v = .done s := by rw [Rep.settle_of_ne (by simp [h]),h]

theorem settle_active (h : st v = .active a) (ha : a ≠ d) : Rep.settle st d new v = .active a := by
  rw [Rep.settle_of_ne (by simp [h,ha]),h]

theorem settled_done (h : Rep.settle st d (.done n) v = .done s) : st v = .active d ∧ s = n ∨ st v = .done s := by
  rcases settle_cases h with ⟨ho,hn⟩ | ⟨-,ho⟩
  · exact .inl ⟨ho,(Status.done.inj hn).symm⟩
  · exact .inr ho

section

variable (h : Walking G st (f :: rest) none ss succs)

include h

theorem settled_active (hv : Rep.settle st f.depth (.done n) v = .active a) : st v = .active a ∧ a < f.depth := by
  rcases settle_cases hv with ⟨-,hn⟩ | ⟨hne,ho⟩
  · simp at hn
  · exact ⟨ho,Nat.lt_of_le_of_ne (active_le h ho) fun heq => hne (heq ▸ ho)⟩

theorem done_ne (hv : st v = .done s) : s ≠ succs.length := Nat.ne_of_lt (h.condensed.lt v s hv)

variable (hleft : f.successors = some [])

include hleft

theorem explored_top (hv : st v = .active f.depth) (he : G.Edge v w) : Explored G (f :: rest) none v w := by
  refine ⟨he,?_⟩
  rintro (⟨-,hu⟩ | ⟨g,hg,rfl,-⟩)
  · simp [leftOf,hleft] at hu
  · have hgr := h.gray g (.tail _ hg) (h.entered g hg)
    exact absurd (Status.active.inj (hgr.symm.trans hv)) (Nat.ne_of_lt (depth_tail h hg))

theorem finishCycle (hlt : f.minDepth < f.depth) :
    Walking G (Rep.settle st f.depth (.active f.minDepth)) rest (some (.cycle f.minDepth x)) ss succs := by
  have hf : f.Entered := .of_some hleft
  obtain ⟨hed,hro⟩ := h.minRoot f (.head _) hlt
  obtain ⟨g0,hg0,he0,hd0,hto0,hf0⟩ := mem_tail_of_active h hro (Nat.ne_of_lt hlt)
  have hk : ∀ a m, Known (f :: rest) none a m → Known rest (some (.cycle f.minDepth x)) a m := by
    rintro a m (⟨g,hg,hga,hgm⟩ | ⟨m',x,hr,-⟩)
    · rcases mem_cons.mp hg with rfl | hg
      · exact .inr ⟨g.minDepth,x,rfl,hgm⟩
      · exact .inl ⟨g,hg,hga,hgm⟩
    · simp at hr
  have hre a m (hm : f.minDepth ≤ m) : Known rest (some (.cycle f.minDepth x)) a m := .inr ⟨f.minDepth,x,rfl,hm⟩
  have hmo v a' (hv : Rep.settle st f.depth (.active f.minDepth) v = .active a') : ∃ a,
      st v = .active a ∧ (a = f.depth ∧ a' = f.minDepth ∨ a < f.depth ∧ a' = a) := by
    rcases settle_cases hv with ⟨ho,hn⟩ | ⟨hne,ho⟩
    · exact ⟨f.depth,ho,.inl ⟨rfl,(Status.active.inj hn).symm⟩⟩
    · refine ⟨a',ho,.inr ⟨?_,rfl⟩⟩
      exact Nat.lt_of_le_of_ne (active_le h ho) fun heq => hne (heq ▸ ho)
  have hps : ∀ p a a', (a = f.depth ∧ a' = f.minDepth ∨ a < f.depth ∧ a' = a) →
      Pushed (f :: rest) none p a → Pushed rest (some (.cycle f.minDepth x)) p a' := by
    intro p a a' hor hpu g hg he
    obtain ⟨h1,h2⟩ := hpu g (.tail _ hg) he
    rcases hor with ⟨rfl,rfl⟩ | ⟨-,rfl⟩
    · exact ⟨fun hd => h1 (Nat.le_of_lt (depth_tail h hg)),fun _ => hre _ _ (Nat.le_refl _)⟩
    · exact ⟨h1,fun hl => hk _ _ (h2 hl)⟩
  refine h.pop rfl hleft ?_ ?_ ?_ ?_ ?_ ?_ ?_
  · exact fun v d hd hv => settle_active hv (Nat.ne_of_lt hd)
  · intro v d hv
    obtain ⟨a,ha,⟨rfl,rfl⟩ | ⟨hlt',rfl⟩⟩ := hmo v d hv
    · obtain ⟨g,hg,-,hgd,hto,hfr⟩ := h.active v f.depth ha
      obtain rfl := eq_head_of_depth h hg (Nat.le_of_eq hgd.symm)
      refine ⟨g0,hg0,he0,hd0,?_,?_⟩
      · exact (hto.tail hed).trans hto0
      · exact ((pairwise_cons.mp h.path).1 g0 hg0).trans hfr
    · exact mem_tail_of_active h ha (Nat.ne_of_lt hlt')
  · rintro walk hwa
    cases hwa
    exact Rep.settle_of_eq (h.gray f (.head _) hf)
  · intro v a' w hv hex
    obtain ⟨a,ha,hor⟩ := hmo v a' hv
    rcases h.explored v a w ha hex with ⟨b,hb,hbl⟩ | ⟨s,p,hs,hp,hpu⟩
    · left
      have hbe := active_le h hb
      by_cases hbd : b = f.depth
      · subst hbd
        refine ⟨f.minDepth,Rep.settle_of_eq hb,?_⟩
        rcases hor with ⟨rfl,rfl⟩ | ⟨hlt',rfl⟩
        · exact ⟨fun _ => hre _ _ (Nat.le_refl _),fun _ => hre _ _ (Nat.le_refl _)⟩
        · have hmi := known_top h (hbl.1 (Nat.le_of_lt hlt'))
          exact ⟨fun _ => hre _ _ hmi,fun _ => hre _ _ (Nat.le_refl _)⟩
      · refine ⟨b,settle_active hb hbd,?_⟩
        rcases hor with ⟨rfl,rfl⟩ | ⟨hlt',rfl⟩
        · have hmi := known_top h (hbl.2 hbe)
          exact ⟨fun _ => hre _ _ (Nat.le_refl _),fun _ => hre _ _ hmi⟩
        · exact ⟨fun hab => hk _ _ (hbl.1 hab),fun hba => hk _ _ (hbl.2 hba)⟩
    · exact .inr ⟨s,p,settle_done hs,hp,hps p a a' hor hpu⟩
  · exact fun g hg he => (h.lens g (.tail _ hg) he).1
  · intro p s hp
    obtain ⟨v,a,w,hv,he',hw,hpu⟩ := h.pushed p s hp
    by_cases ha : a = f.depth
    · subst ha
      exact ⟨v,f.minDepth,w,Rep.settle_of_eq hv,he',settle_done hw,hps p _ _ (.inl ⟨rfl,rfl⟩) hpu⟩
    · exact ⟨v,a,w,settle_active hv ha,he',settle_done hw,
        hps p _ _ (.inr ⟨Nat.lt_of_le_of_ne (active_le h hv) ha,rfl⟩) hpu⟩
  · refine h.condensed.congr fun v s => ⟨fun hv => ?_,settle_done⟩
    rcases settle_cases hv with ⟨-,hn⟩ | ⟨-,ho⟩
    · simp at hn
    · exact ho

theorem closed_top (hr : f.minDepth = f.depth) (hv : st v = .active f.depth) (he : G.Edge v w) :
    st w = .active f.depth ∨ ∃ t, st w = .done t ∧ t ∈ ss.drop f.successorsLen := by
  have hf : f.Entered := .of_some hleft
  rcases h.explored v _ w hv (h.explored_top hleft hv he) with ⟨b,hb,hbo⟩ | ⟨t,p,ht,hp,hpu⟩
  · left
    have hbl := active_le h hb
    have hm := known_top h (hbo.2 hbl)
    obtain rfl : b = f.depth := Nat.le_antisymm hbl (hr ▸ hm)
    exact hb
  · right
    have hl := (hpu f (.head _) hf).1 (Nat.le_refl _)
    refine ⟨t,ht,mem_iff_getElem?.mpr ⟨p - f.successorsLen,?_⟩⟩
    rw [getElem?_drop,Nat.add_sub_cancel' hl,hp]

theorem condensed_complete (hr : f.minDepth = f.depth) : Condensed G (Rep.settle st f.depth (.done succs.length))
      (succs ++ [dedup [] (ss.drop f.successorsLen)]) := by
  have hf : f.Entered := .of_some hleft
  have hc := h.condensed
  have ho : ∀ (s : Nat) (l : List Nat), succs[s]? = some l →
    (succs ++ [dedup [] (ss.drop f.successorsLen)])[s]? = some l :=
    fun _ _ hl => getElem?_concat.mpr (.inl hl)
  have hn : (succs ++ [dedup [] (ss.drop f.successorsLen)])[succs.length]? =
    some (dedup [] (ss.drop f.successorsLen)) := by simp
  have hmb v (hv : st v = .active f.depth) : G.Reach v f.node ∧ G.Reach f.node v := by
    obtain ⟨g,hg,-,hgd,hre⟩ := h.active v _ hv
    obtain rfl := eq_head_of_depth h hg (Nat.le_of_eq hgd.symm)
    exact hre
  constructor
  · intro v s hv
    rw [length_append]
    rcases settled_done hv with ⟨-,rfl⟩ | hs
    · exact Nat.lt_succ_self _
    · exact Nat.lt_succ_of_lt (hc.lt v s hs)
  · intro s hs
    rcases Nat.lt_succ_iff_lt_or_eq.mp (by simpa using hs) with hlt | rfl
    · obtain ⟨v,hv⟩ := hc.inhabited s hlt
      exact ⟨v,settle_done hv⟩
    · exact ⟨f.node,Rep.settle_of_eq (h.gray f (.head _) hf)⟩
  · intro v w s hv he
    rcases settled_done hv with ⟨hva,rfl⟩ | hs
    · rcases closed_top h hleft hr hva he with hwa | ⟨t,ht,hm⟩
      · exact ⟨succs.length,Rep.settle_of_eq hwa,.inl rfl⟩
      · exact ⟨t,settle_done ht,.inr ⟨_,hn,mem_dedup.mpr ⟨hm,by simp⟩⟩⟩
    · obtain ⟨t,ht,hor⟩ := hc.closed v w s hs he
      exact ⟨t,settle_done ht,hor.imp_right fun ⟨l,hl,hm⟩ => ⟨l,ho s l hl,hm⟩⟩
  · intro v w s hv hw
    rcases settled_done hv with ⟨hva,rfl⟩ | hvs
    · rcases settled_done hw with ⟨hwa,-⟩ | hws
      · exact (hmb v hva).1.trans (hmb w hwa).2
      · exact absurd rfl (h.done_ne hws)
    · rcases settled_done hw with ⟨-,rfl⟩ | hws
      · exact absurd rfl (h.done_ne hvs)
      · exact hc.connected v w s hvs hws
  · intro s l hl
    rcases getElem?_concat.mp hl with hl | ⟨-,rfl⟩
    · exact hc.nodup s l hl
    · exact nodup_dedup ..
  · intro s l hl t ht
    rcases getElem?_concat.mp hl with hl | ⟨rfl,rfl⟩
    · obtain ⟨hlt,v,w,hv,he,hw⟩ := hc.sound s l hl t ht
      exact ⟨hlt,v,w,settle_done hv,he,settle_done hw⟩
    obtain ⟨q,hq⟩ := mem_iff_getElem?.mp (mem_dedup.mp ht).1
    rw [getElem?_drop] at hq
    obtain ⟨v,a,w,hv,he,hw,hp⟩ := h.pushed _ t hq
    have hk := (hp f (.head _) hf).2 (Nat.le_add_right ..)
    obtain rfl : a = f.depth := Nat.le_antisymm (active_le h hv) (hr ▸ known_top h hk)
    exact ⟨hc.lt w t hw,v,w,Rep.settle_of_eq hv,he,settle_done hw⟩

theorem finishComplete (hro : f.minDepth = f.depth) :
    Walking G (Rep.settle st f.depth (.done succs.length)) rest (some (.complete succs.length x))
      (ss.take f.successorsLen) (succs ++ [dedup [] (ss.drop f.successorsLen)]) := by
  have hf : f.Entered := .of_some hleft
  have hkn : ∀ a m, m < f.depth → Known (f :: rest) none a m → Known rest (some (.complete succs.length x)) a m := by
    rintro a m hm (⟨g,hg,hga,hgm⟩ | ⟨m',x,hr,-⟩)
    · rcases mem_cons.mp hg with rfl | hg
      · exact absurd hm (Nat.not_lt.mpr (hro ▸ hgm))
      · exact .inl ⟨g,hg,hga,hgm⟩
    · simp at hr
  have hps p a (ha : a < f.depth) (hpu : Pushed (f :: rest) none p a) :
      p < f.successorsLen ∧ Pushed rest (some (.complete succs.length x)) p a := by
    refine ⟨?_,fun g hg he => ?_⟩
    · by_contra hge
      have hk := (hpu f (.head _) hf).2 (Nat.not_lt.mp hge)
      exact absurd ha (Nat.not_lt.mpr (hro ▸ known_top h hk))
    · obtain ⟨h1,h2⟩ := hpu g (.tail _ hg) he
      exact ⟨h1,fun hl => hkn _ _ ha (h2 hl)⟩
  refine h.pop rfl hleft ?_ ?_ ?_ ?_ ?_ ?_ ?_
  · exact fun v d hd hv => settle_active hv (Nat.ne_of_lt hd)
  · intro v d hv
    obtain ⟨ho,hlt⟩ := h.settled_active hv
    exact mem_tail_of_active h ho (Nat.ne_of_lt hlt)
  · rintro walk hwa
    cases hwa
    exact Rep.settle_of_eq (h.gray f (.head _) hf)
  · intro v a w hv hex
    obtain ⟨ho,hlt⟩ := h.settled_active hv
    rcases h.explored v a w ho hex with ⟨b,hb,hbl⟩ | ⟨s,p,hs,hp,hpu⟩
    · left
      have hbt : b < f.depth := by
        refine Nat.lt_of_le_of_ne (active_le h hb) ?_
        rintro rfl
        have hmi := known_top h (hbl.1 (Nat.le_of_lt hlt))
        omega
      exact ⟨b,settle_active hb (Nat.ne_of_lt hbt),fun hab => hkn _ _ hlt (hbl.1 hab),fun hba => hkn _ _ hbt (hbl.2 hba)⟩
    · obtain ⟨hp',hpu'⟩ := hps p a hlt hpu
      exact .inr ⟨s,p,settle_done hs,by rw [getElem?_take_of_lt hp',hp],hpu'⟩
  · intro g hg he
    obtain ⟨hle,hmo⟩ := h.lens g (.tail _ hg) he
    rw [length_take]
    exact Nat.le_min.mpr ⟨hmo f (.head _) hf (Nat.le_of_lt (depth_tail h hg)),hle⟩
  · intro p s hp
    have hp' : p < f.successorsLen := by
      have hlt := lt_of_getElem? hp
      rw [length_take] at hlt
      omega
    rw [getElem?_take_of_lt hp'] at hp
    obtain ⟨v,a,w,hv,hed,hw,hpu⟩ := h.pushed p s hp
    have halt : a < f.depth := by
      refine Nat.lt_of_le_of_ne (active_le h hv) ?_
      rintro rfl
      have hle := (hpu f (.head _) hf).1 (Nat.le_refl _)
      omega
    exact ⟨v,a,w,settle_active hv (Nat.ne_of_lt halt),hed,settle_done hw,(hps p a halt hpu).2⟩
  · exact h.condensed_complete hleft hro

end

end

end Walking

end Frontend.Scc
