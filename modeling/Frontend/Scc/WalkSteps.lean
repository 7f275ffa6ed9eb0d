import Frontend.Scc.Walking

namespace Frontend.Scc

open Library Relation List Function

variable {A : Type} {G : Graph} {st : Nat → Status} {f f' : VisitingNodeFrame A}
  {rest fs : List (VisitingNodeFrame A)} {ret : Option (WalkReturn A)} {ss : List Nat}
  {succs : List (List Nat)}

namespace Walking

structure SameTop (f f' : VisitingNodeFrame A) : Prop where
  node : f'.node = f.node
  depth : f'.depth = f.depth

theorem depth_replace (hsame : SameTop f f') (h : ∀ (i : Nat) (g : VisitingNodeFrame A), (f :: rest)[i]? = some g →
      g.depth + i + 1 = (f :: rest).length) :
    ∀ (i : Nat) (g : VisitingNodeFrame A), (f' :: rest)[i]? = some g → g.depth + i + 1 = (f' :: rest).length := by
  intro i g hg
  cases i with
  | zero =>
    cases hg
    rw [hsame.depth]
    simpa using h 0 f rfl
  | succ i => simpa using h (i + 1) g (by simpa using hg)

theorem child_replace (hsame : SameTop f f') (h : ∀ (i : Nat) (g g' : VisitingNodeFrame A), (f :: rest)[i]? = some g →
      (f :: rest)[i + 1]? = some g' → g'.successorNode = g.node) :
    ∀ (i : Nat) (g g' : VisitingNodeFrame A), (f' :: rest)[i]? = some g → (f' :: rest)[i + 1]? = some g' →
    g'.successorNode = g.node := by
  intro i g g' hg hg'
  cases i with
  | zero =>
    cases hg
    rw [hsame.node]
    exact h 0 f g' rfl (by simpa using hg')
  | succ i => exact h (i + 1) g g' (by simpa using hg) (by simpa using hg')

theorem path_replace (hsame : SameTop f f') (h : (f :: rest).Pairwise fun f g => G.Reach g.node f.node) :
    (f' :: rest).Pairwise fun f g => G.Reach g.node f.node := by
  rw [pairwise_cons] at h ⊢
  exact ⟨fun g hg => hsame.node ▸ h.1 g hg,h.2⟩

theorem known_replace (hsame : SameTop f f') (hmi : f'.minDepth ≤ f.minDepth) (ha : a ≤ f.depth)
    (hre : ∀ m' x, ret = some (.cycle m' x) → f'.minDepth ≤ m')
    (h : Known (f :: rest) ret a m) : Known (f' :: rest) ret' a m := by
  rcases h with ⟨g,hg,hga,hgm⟩ | ⟨m',x,hr,hm⟩
  · rcases mem_cons.mp hg with rfl | hg
    · exact .inl ⟨f',.head _,hsame.depth ▸ hga,Nat.le_trans hmi hgm⟩
    · exact .inl ⟨g,.tail _ hg,hga,hgm⟩
  · exact .inl ⟨f',.head _,hsame.depth ▸ ha,Nat.le_trans (hre m' x hr) hm⟩

theorem of_update (hv : update st x new v = s) (hne : v ≠ x) : st v = s := by rwa [update_of_ne hne] at hv

theorem update_of_status (hwh : st x = .white) (hv : st v = s) (hs : s ≠ .white) : update st x new v = s := by
  have hne : v ≠ x := by
    rintro rfl
    exact hs (hv.symm.trans hwh)
  rw [update_of_ne hne,hv]

theorem done_of_update (hv : update st x (.active d) v = .done s) : st v = .done s := by
  refine of_update hv ?_
  rintro rfl
  simp at hv

theorem enter (h : Walking G st (f :: rest) none ss succs) (hf : ¬ f.Entered) :
    Walking G (update st f.node (.active f.depth))
      (f.opened G ss.length :: rest) none ss succs := by
  obtain ⟨hwh,-⟩ := h.fresh f (.head _) hf
  have hsame : SameTop f (f.opened G ss.length) := ⟨rfl,rfl⟩
  have hn : f.successors = none := by simpa [VisitingNodeFrame.Entered] using hf
  have hk v s : st v = s → s ≠ .white → update st f.node (.active f.depth) v = s := update_of_status hwh
  have hpe v w : Pending G (f.opened G ss.length :: rest) none v w ↔ Pending G (f :: rest) none v w := by
    simp [Pending,leftOf,hn]
  have hkn a m (hk : Known (f :: rest) none a m) : Known (f.opened G ss.length :: rest) none a m := by
    simpa [Known] using hk
  have hac v d (hv : st v = .active d) : ∃ g ∈ rest, g.Entered ∧ g.depth = d ∧ G.Reach v g.node ∧ G.Reach g.node v := by
    obtain ⟨g,hg,he,hre⟩ := h.active v d hv
    rcases mem_cons.mp hg with rfl | hg
    · exact absurd he hf
    · exact ⟨g,hg,he,hre⟩
  have hps : ∀ v p a, st v = .active a → p < ss.length → Pushed (f :: rest) none p a →
      Pushed (f.opened G ss.length :: rest) none p a := by
    intro v p a hv hp hpu
    obtain ⟨g',hg',-,rfl,-⟩ := hac v a hv
    refine forall_mem_cons.mpr ⟨fun _ => ⟨fun hd => ?_,fun hl => ?_⟩,fun g hg he => ?_⟩
    · exact absurd (depth_tail h hg') (Nat.not_lt.mpr hd)
    · exact absurd hp (Nat.not_lt.mpr hl)
    · exact (hpu g (.tail _ hg) he).imp_right fun h2 hl => hkn _ _ (h2 hl)
  constructor
  case depth => exact depth_replace hsame h.depth
  case entered => exact h.entered
  case lt => exact forall_mem_cons.mpr (forall_mem_cons.mp h.lt)
  case gray => exact forall_mem_cons.mpr ⟨fun _ => update_self ..,fun g hg he => hk _ _
    (h.gray g (.tail _ hg) he) (by simp)⟩
  case fresh => exact forall_mem_cons.mpr ⟨fun he => absurd rfl he,fun g hg he => absurd (h.entered g hg) he⟩
  case child => exact child_replace hsame h.child
  case left => exact fun v w hp => h.left v w ((hpe v w).mp hp)
  case path => exact path_replace hsame h.path
  case active =>
    intro v d hv
    by_cases hne : v = f.node
    · subst hne
      obtain rfl : f.depth = d := by simpa using hv
      exact ⟨_,.head _,rfl,rfl,.refl,.refl⟩
    · obtain ⟨g,hg,hre⟩ := hac v d (of_update hv hne)
      exact ⟨g,.tail _ hg,hre⟩
  case minLe => exact forall_mem_cons.mpr (forall_mem_cons.mp h.minLe)
  case minRoot =>
    have hro : ∀ g ∈ f :: rest, g.minDepth < g.depth → G.Edge g.node g.minCycleRoot ∧
        update st f.node (.active f.depth) g.minCycleRoot = .active g.minDepth :=
      fun g hg hlt => (h.minRoot g hg hlt).imp_right fun hro => hk _ _ hro (by simp)
    exact forall_mem_cons.mpr (forall_mem_cons.mp hro)
  case returned => simp
  case explored =>
    intro v a w hv hex
    by_cases hne : v = f.node
    · subst hne
      have hme : w ∈ G.successors f.node := hex.1
      exact absurd (.inl ⟨rfl,by simpa [leftOf] using hme⟩) hex.2
    · have hva := of_update hv hne
      rcases h.explored v a w hva ⟨hex.1,fun hp => hex.2 ((hpe v w).mpr hp)⟩ with ⟨b,hb,hbl⟩ | ⟨s,p,hs,hp,hpu⟩
      · exact .inl ⟨b,hk _ _ hb (by simp),fun hab => hkn _ _ (hbl.1 hab),fun hba => hkn _ _ (hbl.2 hba)⟩
      · exact .inr ⟨s,p,hk _ _ hs (by simp),hp,hps v p a hva (lt_of_getElem? hp) hpu⟩
  case lens =>
    simp only [forall_mem_cons]
    refine ⟨fun _ => ⟨Nat.le_refl _,fun _ _ => Nat.le_refl _,fun g hg _ hd => ?_⟩,fun g hg he => ?_⟩
    · exact absurd (depth_tail h hg) (Nat.not_lt.mpr hd)
    · obtain ⟨hle,hm⟩ := h.lens g (.tail _ hg) he
      exact ⟨hle,fun _ _ => hle,(forall_mem_cons.mp hm).2⟩
  case pushed =>
    intro p s hp
    obtain ⟨v,a,w,hv,hed,hw,hpu⟩ := h.pushed p s hp
    exact ⟨v,a,w,hk _ _ hv (by simp),hed,hk _ _ hw (by simp),hps v p a hv (lt_of_getElem? hp) hpu⟩
  case condensed => exact h.condensed.congr fun v s => ⟨done_of_update,fun hv => hk _ _ hv (by simp)⟩

section

variable {w : Nat} {xs : List Nat}

section

variable (hleft : leftOf G ret.isSome f = w :: xs) (hsame : SameTop f f') (hsucc : f'.successors = some xs)

include hleft hsame hsucc

theorem pending_of_look (h : Pending G (f' :: rest) none v u) : Pending G (f :: rest) ret v u := by
  rcases h with ⟨hv,hu⟩ | hr
  · refine .inl ⟨hsame.node ▸ hv,?_⟩
    rw [hleft]
    exact mem_cons_of_mem _ (by simpa [leftOf,hsucc] using hu)
  · exact .inr hr

theorem explored_of_look (h : Explored G (f' :: rest) none v u) : Explored G (f :: rest) ret v u ∨
    v = f.node ∧ u = w := by
  by_cases hp : Pending G (f :: rest) ret v u
  · rcases hp with ⟨rfl,hu⟩ | hr
    · rw [hleft] at hu
      rcases mem_cons.mp hu with rfl | hu
      · exact .inr ⟨rfl,rfl⟩
      · exact absurd (.inl ⟨hsame.node,by simpa [leftOf,hsucc] using hu⟩) h.2
    · exact absurd (.inr hr) h.2
  · exact .inl ⟨h.1,hp⟩

end

section

variable (h : Walking G st (f :: rest) ret ss succs)

include h

theorem edge_of_look (hleft : leftOf G ret.isSome f = w :: xs) : G.Edge f.node w :=
  h.left f.node w (.inl ⟨rfl,by simp [hleft]⟩)

theorem pushed_replace (hf : f.Entered) (hsame : SameTop f f') (hle : f'.successorsLen = f.successorsLen)
    (hk : ∀ a m, a ≤ f.depth → Known (f :: rest) ret a m → Known (f' :: rest) none a m)
    (hp : Pushed (f :: rest) ret p a) : Pushed (f' :: rest) none p a := by
  refine forall_mem_cons.mpr ⟨fun _ => ?_,fun g hg he => ?_⟩
  · rw [hsame.depth,hle]
    exact (hp f (.head _) hf).imp_right fun h2 hl => hk _ _ (Nat.le_refl _) (h2 hl)
  · exact (hp g (.tail _ hg) he).imp_right fun h2 hl => hk _ _ (Nat.le_of_lt (depth_tail h hg)) (h2 hl)

theorem look (hf : f.Entered) (hleft : leftOf G ret.isSome f = w :: xs) (hsame : SameTop f f')
    (hsucc : f'.successors = some xs) (hl : f'.successorsLen = f.successorsLen)
    (hgr : ss.length ≤ ss'.length) (hmi : f'.minDepth ≤ f.minDepth)
    (hr : f'.minDepth < f'.depth → G.Edge f'.node f'.minCycleRoot ∧ st f'.minCycleRoot = .active f'.minDepth)
    (hk : ∀ a m, a ≤ f.depth → Known (f :: rest) ret a m → Known (f' :: rest) none a m)
    (ho : ∀ p t : Nat, ss[p]? = some t → ss'[p]? = some t)
    (hpu : ∀ p t : Nat, ss'[p]? = some t → ss[p]? = some t ∨ st w = .done t ∧ Pushed (f' :: rest) none p f.depth)
    (hnew : (∃ b, st w = .active b ∧ Block (f' :: rest) none f.depth b) ∨
      ∃ s p : Nat, st w = .done s ∧ ss'[p]? = some s ∧ Pushed (f' :: rest) none p f.depth) :
    Walking G st (f' :: rest) none ss' succs := by
  have hf' : f'.Entered := .of_some hsucc
  constructor
  case depth => exact depth_replace hsame h.depth
  case entered => exact h.entered
  case lt =>
    rw [forall_mem_cons,hsame.node]
    exact forall_mem_cons.mp h.lt
  case gray =>
    rw [forall_mem_cons,hsame.node,hsame.depth]
    exact ⟨fun _ => h.gray f (.head _) hf,(forall_mem_cons.mp h.gray).2⟩
  case fresh =>
    rw [forall_mem_cons]
    exact ⟨fun hne => absurd hf' hne,fun g hg hne => absurd (h.entered g hg) hne⟩
  case child => exact child_replace hsame h.child
  case left => exact fun v u hp => h.left v u (pending_of_look hleft hsame hsucc hp)
  case path => exact path_replace hsame h.path
  case active =>
    intro v d hv
    obtain ⟨g,hg,he,hd,hre⟩ := h.active v d hv
    rcases mem_cons.mp hg with rfl | hg
    · refine ⟨f',.head _,hf',hsame.depth.trans hd,?_⟩
      rw [hsame.node]
      exact hre
    · exact ⟨g,.tail _ hg,he,hd,hre⟩
  case minLe =>
    rw [forall_mem_cons,hsame.depth]
    exact ⟨Nat.le_trans hmi (h.minLe f (.head _)),(forall_mem_cons.mp h.minLe).2⟩
  case minRoot =>
    rw [forall_mem_cons]
    exact ⟨hr,(forall_mem_cons.mp h.minRoot).2⟩
  case returned => simp
  case explored =>
    intro v a u hv he
    rcases explored_of_look hleft hsame hsucc he with he | ⟨rfl,rfl⟩
    · rcases h.explored v a u hv he with ⟨b,hb,hbl⟩ | ⟨t,p,hs,hp,hpu⟩
      · exact .inl ⟨b,hb,fun hab => hk _ _ (active_le h hb) (hbl.1 hab),fun hba => hk _ _ (active_le h hv) (hbl.2 hba)⟩
      · exact .inr ⟨t,p,hs,ho p t hp,pushed_replace h hf hsame hl hk hpu⟩
    · obtain rfl : f.depth = a := Status.active.inj ((h.gray f (.head _) hf).symm.trans hv)
      exact hnew
  case lens =>
    obtain ⟨hle,hm⟩ := h.lens f (.head _) hf
    simp only [forall_mem_cons,hl,hsame.depth]
    refine ⟨fun _ => ⟨Nat.le_trans hle hgr,fun _ _ => Nat.le_refl _,(forall_mem_cons.mp hm).2⟩,fun g hg he => ?_⟩
    obtain ⟨hle',hm'⟩ := h.lens g (.tail _ hg) he
    exact ⟨Nat.le_trans hle' hgr,fun _ => hm' f (.head _) hf,(forall_mem_cons.mp hm').2⟩
  case pushed =>
    intro p t hp
    rcases hpu p t hp with hp | ⟨hw,hp⟩
    · obtain ⟨v,a,u,hv,hed,hu,hpu⟩ := h.pushed p t hp
      exact ⟨v,a,u,hv,hed,hu,pushed_replace h hf hsame hl hk hpu⟩
    · exact ⟨f.node,f.depth,w,h.gray f (.head _) hf,edge_of_look h hleft,hw,hp⟩
  case condensed => exact h.condensed

theorem lookCycle (hf : f.Entered) (hleft : leftOf G ret.isSome f = w :: xs)
    (hw : st w = .active d) (hre : ∀ m x, ret = some (.cycle m x) → d ≤ m) (hsame : SameTop f f')
    (hsucc : f'.successors = some xs) (hl : f'.successorsLen = f.successorsLen)
    (hm : f'.minDepth = min f.minDepth d)
    (hro : f'.minCycleRoot = if d < f.minDepth then w else f.minCycleRoot) :
    Walking G st (f' :: rest) none ss succs := by
  have hle := hm ▸ Nat.min_le_left ..
  have hld := hm ▸ Nat.min_le_right ..
  have hk : ∀ a m, a ≤ f.depth → Known (f :: rest) ret a m → Known (f' :: rest) none a m :=
    fun a m ha => known_replace hsame hle ha fun m' x hr => Nat.le_trans hld (hre m' x hr)
  refine h.look hf hleft hsame hsucc hl (Nat.le_refl _) hle (fun hlt => ?_) hk (fun _ _ hp => hp) (fun _ _ hp => .inl hp)
    (.inl ⟨d,hw,fun hab => ?_,fun _ => .inl ⟨f',.head _,Nat.le_of_eq hsame.depth.symm,hld⟩⟩)
  · rw [hro,hsame.node]
    split
    case isTrue hlt' =>
      refine ⟨edge_of_look h hleft,?_⟩
      rw [hw,hm,Nat.min_eq_right (Nat.le_of_lt hlt')]
    case isFalse hge =>
      have hke : f'.minDepth = f.minDepth := by rw [hm,Nat.min_eq_left (Nat.not_lt.mp hge)]
      rw [hke]
      exact h.minRoot f (.head _) (by rw [← hke,← hsame.depth]; exact hlt)
  · obtain rfl := Nat.le_antisymm hab (active_le h hw)
    exact .inl ⟨f',.head _,Nat.le_of_eq hsame.depth.symm,hld⟩

theorem lookComplete (hf : f.Entered) (hleft : leftOf G ret.isSome f = w :: xs)
    (hw : st w = .done s) (hre : ∀ m x, ret ≠ some (.cycle m x)) (hsame : SameTop f f')
    (hsucc : f'.successors = some xs) (hl : f'.successorsLen = f.successorsLen)
    (hm : f'.minDepth = f.minDepth) (hro : f'.minCycleRoot = f.minCycleRoot) :
    Walking G st (f' :: rest) none (ss ++ [s]) succs := by
  have hk : ∀ a m, a ≤ f.depth → Known (f :: rest) ret a m → Known (f' :: rest) none a m :=
    fun a m ha => known_replace hsame (Nat.le_of_eq hm) ha fun m' x hr => absurd hr (hre m' x)
  have hn : Pushed (f' :: rest) none ss.length f.depth := by
    intro g hg hen
    rcases mem_cons.mp hg with rfl | hg
    · refine ⟨fun _ => ?_,fun _ => ?_⟩
      · rw [hl]
        exact (h.lens f (.head _) hf).1
      · refine .inl ⟨g,.head _,Nat.le_refl _,?_⟩
        rw [hm]
        exact h.minLe f (.head _)
    · have hg' : g ∈ f :: rest := .tail _ hg
      refine ⟨fun _ => (h.lens g hg' hen).1,fun _ => ?_⟩
      refine hk _ _ (Nat.le_of_lt (depth_tail h hg)) ?_
      exact .self h hg' (Nat.le_of_lt (depth_tail h hg))
  refine h.look hf hleft hsame hsucc hl (by simp) (Nat.le_of_eq hm) (fun hlt => ?_) hk
    (fun _ _ hp => getElem?_concat.mpr (.inl hp))
    (fun p t hp => (getElem?_concat.mp hp).imp_right ?_) (.inr ⟨s,ss.length,hw,by simp,hn⟩)
  · rw [hro,hsame.node,hm]
    exact h.minRoot f (.head _) (by rw [← hm,← hsame.depth]; exact hlt)
  · rintro ⟨rfl,rfl⟩
    exact ⟨hw,hn⟩

end

end

theorem push (h : Walking G st (f :: rest) none ss succs)
    (hsucc : f.successors = some (w :: xs)) (hw : st w = .white) (ann : Annotations A) :
    Walking G st (visit ann w xs f rest) none ss succs := by
  have hf : f.Entered := .of_some hsucc
  have hn : ¬ (VisitingNodeFrame.new ann w (f.depth + 1)).Entered := by
    simp [VisitingNodeFrame.Entered,VisitingNodeFrame.new]
  have hf' : ({ f with successors := some xs, successorNode := w } : VisitingNodeFrame A).Entered := rfl
  have hed := h.left f.node w (.inl ⟨rfl,by simp [leftOf,hsucc]⟩)
  have hpe : ∀ v u, Pending G (f :: rest) none v u → Pending G (visit ann w xs f rest) none v u := by
    rintro v u (⟨hv,hu⟩ | ⟨g,hg,hv,hu⟩)
    · exact .inr ⟨_,(.head _),hv,by simpa [leftOf,hsucc] using hu⟩
    · exact .inr ⟨g,.tail _ hg,hv,hu⟩
  have hk : ∀ a m, Known (f :: rest) none a m → Known (visit ann w xs f rest) none a m := by
    rintro a m (⟨g,hg,hga,hgm⟩ | ⟨m',x,hr,-⟩)
    · rcases mem_cons.mp hg with rfl | hg
      · exact .inl ⟨_,.tail _ (.head _),hga,hgm⟩
      · exact .inl ⟨g,.tail _ (.tail _ hg),hga,hgm⟩
    · simp at hr
  have hps p a (hpu : Pushed (f :: rest) none p a) : Pushed (visit ann w xs f rest) none p a := by
    simp only [Pushed,forall_mem_cons]
    refine ⟨fun he => absurd he hn,fun _ => ?_,fun g hg he => ?_⟩
    · obtain ⟨h1,h2⟩ := hpu f (.head _) hf
      exact ⟨h1,fun hl => hk _ _ (h2 hl)⟩
    · obtain ⟨h1,h2⟩ := hpu g (.tail _ hg) he
      exact ⟨h1,fun hl => hk _ _ (h2 hl)⟩
  constructor
  case depth =>
    intro i g hg
    rcases i with _ | _ | i
    · cases hg
      simp [VisitingNodeFrame.new,depth_head h]
    · cases hg
      simp [depth_head h]
    · have hd := h.depth (i + 1) g (by simpa using hg)
      simp only [length_cons] at hd ⊢
      omega
  case entered =>
    rw [tail_cons,forall_mem_cons]
    exact ⟨hf',h.entered⟩
  case lt =>
    have hlt := forall_mem_cons.mp h.lt
    rw [forall_mem_cons,forall_mem_cons]
    exact ⟨G.successors_lt _ hlt.1 _ hed,hlt.1,hlt.2⟩
  case gray =>
    have hgr := forall_mem_cons.mp h.gray
    rw [forall_mem_cons,forall_mem_cons]
    exact ⟨fun he => absurd he hn,fun _ => hgr.1 hf,hgr.2⟩
  case fresh =>
    rw [forall_mem_cons,forall_mem_cons]
    exact ⟨fun _ => ⟨hw,rfl⟩,fun hne => absurd hf' hne,fun g hg hne => absurd (h.entered g hg) hne⟩
  case child =>
    intro i g g' hg hg'
    rcases i with _ | _ | i
    · cases hg
      obtain rfl : _ = g' := by simpa using hg'
      rfl
    · cases hg
      exact h.child 0 f g' rfl (by simpa using hg')
    · exact h.child (i + 1) g g' (by simpa using hg) (by simpa using hg')
  case left =>
    rintro v u (⟨rfl,hu⟩ | ⟨g,hg,hv,hu⟩)
    · simpa [leftOf,VisitingNodeFrame.new,Graph.Edge] using hu
    · rcases mem_cons.mp hg with rfl | hg
      · exact h.left v u (.inl ⟨hv,by simpa [leftOf,hsucc] using hu⟩)
      · exact h.left v u (.inr ⟨g,hg,hv,hu⟩)
  case path =>
    have hpa := pairwise_cons.mp h.path
    rw [pairwise_cons,forall_mem_cons,pairwise_cons]
    exact ⟨⟨.single hed,fun g hg => (hpa.1 g hg).tail hed⟩,hpa⟩
  case active =>
    intro v d hv
    obtain ⟨g,hg,he,hd,hre⟩ := h.active v d hv
    rcases mem_cons.mp hg with rfl | hg
    · exact ⟨_,.tail _ (.head _),hf',hd,hre⟩
    · exact ⟨g,.tail _ (.tail _ hg),he,hd,hre⟩
  case minLe =>
    rw [forall_mem_cons,forall_mem_cons]
    exact ⟨Nat.le_refl _,forall_mem_cons.mp h.minLe⟩
  case minRoot =>
    rw [forall_mem_cons,forall_mem_cons]
    exact ⟨fun hlt => absurd hlt (Nat.lt_irrefl _),forall_mem_cons.mp h.minRoot⟩
  case returned => simp
  case explored =>
    intro v a u hv hex
    rcases h.explored v a u hv ⟨hex.1,fun hp => hex.2 (hpe v u hp)⟩ with
      ⟨b,hb,hbl⟩ | ⟨s,p,hs,hp,hpu⟩
    · exact .inl ⟨b,hb,fun hab => hk _ _ (hbl.1 hab),fun hba => hk _ _ (hbl.2 hba)⟩
    · exact .inr ⟨s,p,hs,hp,hps p a hpu⟩
  case lens =>
    have hln := h.lens
    simp only [forall_mem_cons] at hln ⊢
    refine ⟨fun he => absurd he hn,fun _ => ?_,fun g hg he => ?_⟩
    · obtain ⟨hle,hm⟩ := hln.1 hf
      exact ⟨hle,fun he => absurd he hn,fun _ _ => Nat.le_refl _,hm.2⟩
    · obtain ⟨hle,hm⟩ := hln.2 g hg he
      exact ⟨hle,fun he => absurd he hn,fun _ => hm.1 hf,hm.2⟩
  case pushed =>
    intro p s hp
    obtain ⟨v,a,u,hv,hed,hu,hpu⟩ := h.pushed p s hp
    exact ⟨v,a,u,hv,hed,hu,hps p a hpu⟩
  case condensed => exact h.condensed

end Walking

end Frontend.Scc
