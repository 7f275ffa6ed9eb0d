import Frontend.FlowGraph.Forest

namespace Frontend.FlowGraph

open Frontend.Library List Function

variable {E : Nat → Nat → Prop} {parent : Nat → Nat} {m u v w b : Nat} {s s' : Solver}

section

variable (E : Nat → Nat → Prop) (parent : Nat → Nat)

def Settled (semi idom : Nat → Nat) (v : Nat) : Prop :=
  idom v = semi v ∧ Immediate E 0 (semi v) v ∨ semi v < idom v ∧ idom v < v ∧ ∀ d, Immediate E 0 d (idom v) →
    Immediate E 0 d v

structure Solved (m w b : Nat) (s : Solver) : Prop where
  linked : ∀ v, v < m → (isProcessed v s.lastlinked ↔ w < v)
  forest : Linked parent s.semi m s.lastlinked s.forest
  semi : ∀ v, w < v → v < m → Semidominator E (s.semi v) v
  fresh : ∀ v, v ≤ w → s.semi v = v ∧ s.idom v = 0
  bucket : ∀ i, ∀ v ∈ s.bucket i, w < v ∧ v < m ∧ s.semi v = i
  settled : ∀ v, w < v → v < m → v ∈ s.bucket (s.semi v) ∧ s.semi v ≤ b ∧ s.idom v = 0 ∨ Settled E s.semi s.idom v

structure Drained (m w : Nat) (vs : List Nat) (s s' : Solver) : Prop where
  forest : Linked parent s.semi m s.lastlinked s'.forest
  semi : s'.semi = s.semi
  bucket : s'.bucket = s.bucket
  lastlinked : s'.lastlinked = s.lastlinked
  rest : ∀ v, v ∉ vs → s'.idom v = s.idom v
  found : ∀ v ∈ vs, ∃ y, isProcessed y s.lastlinked ∧ Ancestor parent y v ∧
    (∀ u, Ancestor parent u v → isProcessed u s.lastlinked → s.semi y ≤ s.semi u) ∧
    s'.idom v = if s.semi y < w then y else w

end

theorem drain_spec (ht : PreorderTree parent m) (hvs : ∀ v ∈ vs, v < m ∧ isProcessed v s.lastlinked)
    (h : Linked parent s.semi m s.lastlinked s.forest) :
    Drained parent m w vs s (s.drainBucket w vs) := by
  induction vs generalizing s with
  | nil => exact ⟨h,rfl,rfl,rfl,fun _ _ => rfl,by simp⟩
  | cons v vs ih =>
    obtain ⟨hv,hpv⟩ := hvs v (.head _)
    obtain ⟨hli,-,ha,hle⟩ := h.eval ht hv
    obtain ⟨hf,hs,hb,hl,hr,hfo⟩ := ih (s := { s with
        forest := (eval s.forest s.lastlinked s.semi v).1
        idom := update s.idom v (if s.semi (eval s.forest s.lastlinked s.semi v).2 < w then
            (eval s.forest s.lastlinked s.semi v).2 else w) })
      (fun x hx => hvs x (.tail _ hx)) hli
    refine ⟨hf,hs,hb,hl,fun x hx => ?_,fun x hx => ?_⟩
    · rw [mem_cons,not_or] at hx
      exact (hr x hx.2).trans (update_of_ne hx.1 _ _)
    · by_cases hm : x ∈ vs
      · exact hfo x hm
      · obtain rfl := (mem_cons.mp hx).resolve_right hm
        refine ⟨_,(ha hpv).1,(ha hpv).2,hle,(hr x hm).trans ?_⟩
        exact update_self _ _ _

theorem Drained.settled (T : DfsTree E parent m) (h : Solved E parent m w b s)
    (hd : Drained parent m w (s.bucket w) s s') (hv : v ∈ s.bucket w) :
    Settled E s.semi s'.idom v := by
  obtain ⟨hwv,hvm,hsv⟩ := h.bucket w v hv
  obtain ⟨y,hpy,hyv,hl,hid⟩ := hd.found v hv
  have hp : 0 < v := by omega
  have hym : y < m := Nat.lt_of_le_of_lt (T.preorder.le hvm hyv) hvm
  have hs := h.semi v hwv hvm
  have hh : ∀ u, w < u → Ancestor parent u v → ∀ x, Hop E (fun z => u < z) x u → s.semi y ≤ x := by
    intro u hwu huv x hx
    have hum : u < m := Nat.lt_of_le_of_lt (T.preorder.le hvm huv) hvm
    exact (hl u huv ((h.linked u hum).mpr hwu)).trans ((h.semi u hwu hum).least x hx)
  by_cases hlt : s.semi y < w
  · rw [if_pos hlt] at hid
    have hwy := (h.linked y hym).mp hpy
    have hne : y ≠ v := by
      rintro rfl
      omega
    refine .inr ⟨by omega,hid ▸ Nat.lt_of_le_of_ne (T.preorder.le hvm hyv) hne,fun d hd => ?_⟩
    rw [hid] at hd
    rw [← hsv] at hh hwy
    exact T.immediate_relative hvm hs hwy hyv (h.semi y (by omega) hym) hh hd
  · rw [if_neg hlt] at hid
    refine .inl ⟨hid.trans hsv.symm,T.immediate_semi hp hvm hs fun u hu huv x hx => ?_⟩
    rw [hsv] at hu ⊢
    exact (Nat.le_of_not_lt hlt).trans (hh u hu huv x hx)

theorem Linked.congr (h : Linked parent semi m lastlinked f)
    (hs : ∀ v, isProcessed v lastlinked → semi' v = semi v) :
    Linked parent semi' m lastlinked f := by
  refine ⟨h.root,h.unlinked,h.above,h.label,fun v u hv hpv huv hlt => ?_⟩
  obtain ⟨hpu,hle⟩ := h.between v u hv hpv huv hlt
  obtain ⟨hl,hlo⟩ := h.label v hv hpv
  rw [hs _ hpu,hs _ (h.between v _ hv hpv hl hlo).1]
  exact ⟨hpu,hle⟩

structure Scanned (parent : Nat → Nat) (m w : Nat) (vs : List (Option Nat)) (s s' : Solver) : Prop where
  forest : Linked parent s'.semi m s.lastlinked s'.forest
  bucket : s'.bucket = s.bucket
  lastlinked : s'.lastlinked = s.lastlinked
  idom : s'.idom = s.idom
  rest : ∀ v, v ≠ w → s'.semi v = s.semi v
  mono : s'.semi w ≤ s.semi w
  edges : ∀ v, some v ∈ vs → v < w → s'.semi w ≤ v
  above : ∀ v u, some v ∈ vs → w < u → Ancestor parent u v → s'.semi w ≤ s.semi u
  found : s'.semi w = s.semi w ∨ ∃ v, some v ∈ vs ∧
    (s'.semi w = v ∨ ∃ u, w < u ∧ Ancestor parent u v ∧ s.semi u = s'.semi w)

section

variable (ht : PreorderTree parent m) (hw : w < m)

include ht hw

theorem scan_one (hl : ∀ v, v < m → (isProcessed v s.lastlinked ↔ w < v)) (hf : ∀ v, v < w → s.semi v = v) (hv : v < m)
    (h : Linked parent s.semi m s.lastlinked s.forest) :
    Scanned parent m w [some v] s { s with
      forest := (eval s.forest s.lastlinked s.semi v).1
      semi := update s.semi w (min (s.semi w) (s.semi (eval s.forest s.lastlinked s.semi v).2)) } := by
  obtain ⟨hfo,hun,ha,hla⟩ := h.eval ht hv
  generalize (eval s.forest s.lastlinked s.semi v).1 = forest at *
  generalize (eval s.forest s.lastlinked s.semi v).2 = x at *
  have hr y (hy : y ≠ w) : update s.semi w (min (s.semi w) (s.semi x)) y = s.semi y := update_of_ne hy _ _
  refine ⟨hfo.congr fun y hy => hr y ?_,rfl,rfl,rfl,hr,by simp,fun v' hv' hlt => ?_,fun v' u hv' hwu huv => ?_,?_⟩
  · rintro rfl
    exact absurd ((hl y hw).mp hy) (lt_irrefl y)
  · obtain rfl : v' = v := by simpa using hv'
    have hx := hun fun hp => absurd ((hl v' hv).mp hp) hlt.not_gt
    simp [hx,hf v' hlt]
  · obtain rfl : v' = v := by simpa using hv'
    have hum : u < m := Nat.lt_of_le_of_lt (ht.le hv huv) hv
    simpa using .inr (hla u huv ((hl u hum).mpr hwu))
  · simp only [update_self]
    rcases Nat.le_total (s.semi w) (s.semi x) with hle | hle
    · exact .inl (min_eq_left hle)
    rw [min_eq_right hle]
    rcases Nat.lt_trichotomy v w with hlt | rfl | hgt
    · have hx := hun fun hp => absurd ((hl v hv).mp hp) hlt.not_gt
      exact .inr ⟨v,by simp,.inl (hx.symm ▸ hf v hlt)⟩
    · have hx := hun fun hp => absurd ((hl v hv).mp hp) (lt_irrefl v)
      exact .inl (by rw [hx])
    · obtain ⟨hpx,hxv⟩ := ha ((hl v hv).mpr hgt)
      have hxm : x < m := Nat.lt_of_le_of_lt (ht.le hv hxv) hv
      exact .inr ⟨v,by simp,.inr ⟨x,(hl x hxm).mp hpx,hxv,rfl⟩⟩

omit ht hw in
theorem Scanned.cons (h : Scanned parent m w [some v] s s1) (h' : Scanned parent m w vs s1 s') :
    Scanned parent m w (some v :: vs) s s' where
  forest := h.lastlinked ▸ h'.forest
  bucket := h'.bucket.trans h.bucket
  lastlinked := h'.lastlinked.trans h.lastlinked
  idom := h'.idom.trans h.idom
  rest := fun x hx => (h'.rest x hx).trans (h.rest x hx)
  mono := h'.mono.trans h.mono
  edges := by
    intro x hx hlt
    rcases mem_cons.mp hx with hx | hx
    · exact h'.mono.trans (h.edges x (by simp [hx]) hlt)
    · exact h'.edges x hx hlt
  above := by
    intro x u hx hwu hux
    rcases mem_cons.mp hx with hx | hx
    · exact h'.mono.trans (h.above x u (by simp [hx]) hwu hux)
    · exact (h'.above x u hx hwu hux).trans (h.rest u hwu.ne').le
  found := by
    rcases h'.found with heq | ⟨x,hx,hf⟩
    · rcases h.found with heq' | ⟨x,hx,hf⟩
      · exact .inl (heq.trans heq')
      · exact .inr ⟨x,mem_cons.mpr (.inl (by simpa using hx)),by rwa [heq]⟩
    · refine .inr ⟨x,.tail _ hx,hf.imp_right ?_⟩
      rintro ⟨u,hwu,hux,hsu⟩
      exact ⟨u,hwu,hux,(h.rest u hwu.ne').symm.trans hsu⟩

theorem scan_spec (hl : ∀ v, v < m → (isProcessed v s.lastlinked ↔ w < v))
    (hf : ∀ v, v < w → s.semi v = v) (hvs : ∀ v, some v ∈ vs → v < m)
    (h : Linked parent s.semi m s.lastlinked s.forest) :
    Scanned parent m w vs s (s.scanPredecessors w vs) := by
  induction vs generalizing s with
  | nil => exact ⟨h,rfl,rfl,rfl,fun _ _ => rfl,le_refl _,by simp,by simp,.inl rfl⟩
  | cons v vs ih =>
    cases v with
    | none =>
      obtain ⟨hfo,hb,hla,hid,hr,hm,he,ha,hfu⟩ := ih hl hf (fun v hv => hvs v (.tail _ hv)) h
      refine ⟨hfo,hb,hla,hid,hr,hm,fun v hv => he v (by simpa using hv),fun v u hv => ha v u (by simpa using hv),
        hfu.imp_right ?_⟩
      rintro ⟨v,hv,hv'⟩
      exact ⟨v,.tail _ hv,hv'⟩
    | some v =>
      have ho := scan_one ht hw hl hf (hvs v (.head _)) h
      refine ho.cons (ih hl (fun x hx => ?_) (fun x hx => hvs x (.tail _ hx)) ho.forest)
      exact (ho.rest x hx.ne).trans (hf x hx)

end

theorem Scanned.semidominator (T : DfsTree E parent m) (h : Solved E parent m w b s) (hp : 0 < w)
    (hw : w < m) (hvs : ∀ v, some v ∈ vs ↔ E v w)
    (hs : Scanned parent m w vs s s') : Semidominator E (s'.semi w) w := by
  have hpa := hs.edges _ ((hvs _).mpr (T.edge w hp hw)) (T.preorder.parent_lt hp hw)
  have hlt := T.preorder.parent_lt hp hw
  refine T.semi_of_min hp hw h.semi (fun v hv => hs.edges v ((hvs v).mpr hv))
    (fun v u hv => hs.above v u ((hvs v).mpr hv)) ?_
  rcases hs.found with heq | ⟨v,hv,heq | ⟨u,hwu,huv,hsu⟩⟩
  · have hf := (h.fresh w (le_refl w)).1
    omega
  · exact .inl (heq ▸ (hvs v).mp hv)
  · exact .inr ⟨v,u,(hvs v).mp hv,hwu,huv,hsu⟩

theorem Linked.link (ht : PreorderTree parent m) (hl : ∀ v, v < m → (isProcessed v lastlinked ↔ w < v)) (hpo : 0 < w)
    (hw : w < m) (h : Linked parent semi m lastlinked f) :
    Linked parent semi m (some w) f := by
  have ho : ∀ v, v < m → v ≠ w → isProcessed v (some w) → isProcessed v lastlinked :=
    fun v hv hne hp => (hl v hv).mpr (lt_of_le_of_ne (isProcessed_some.mp hp) hne.symm)
  have hun := h.unlinked w hw fun hp => absurd ((hl w hw).mp hp) (lt_irrefl w)
  have hlt := ht.parent_lt hpo hw
  refine ⟨fun hp => absurd (isProcessed_some.mp hp) (Nat.not_le.mpr hpo),fun v hv hn => ?_,
    fun v hv hp => ?_,fun v hv hp => ?_,fun v u hv hp huv hlu => ?_⟩
  · refine h.unlinked v hv fun hp => hn (isProcessed_some.mpr ((hl v hv).mp hp).le)
  · by_cases hvw : v = w
    · subst hvw
      rw [hun.1]
      exact ⟨.of_parent hpo,hlt⟩
    · exact h.above v hv (ho v hv hvw hp)
  · by_cases hvw : v = w
    · subst hvw
      rw [hun.1,hun.2]
      exact ⟨.refl v,hlt⟩
    · exact h.label v hv (ho v hv hvw hp)
  · by_cases hvw : v = w
    · subst hvw
      rw [hun.1] at hlu
      have huv' : u = v := by
        by_contra hne
        have hle := ht.le (hlt.trans hv) (huv.parent_of_ne hne).2
        omega
      subst huv'
      exact ⟨hp,by rw [hun.2]⟩
    · obtain ⟨hpu,hle⟩ := h.between v u hv (ho v hv hvw hp) huv hlu
      have hum : u < m := Nat.lt_of_le_of_lt (ht.le hv huv) hv
      exact ⟨isProcessed_some.mpr ((hl u hum).mp hpu).le,hle⟩

theorem immediate_parent (T : DfsTree E parent m) (hp : 0 < w) (hw : w < m)
    (h : Semidominator E (parent w) w) : Immediate E 0 (parent w) w := by
  refine T.immediate_semi hp hw h fun u hu huw x hx => ?_
  have hne : u = w := by
    by_contra hne
    have hle := T.preorder.le ((T.preorder.parent_lt hp hw).trans hw) (huw.parent_of_ne hne).2
    omega
  exact h.least x (hne ▸ hx)

section

variable {predecessors : Nat → List (Option Nat)}

theorem Settled.congr (h : Settled E semi idom v)
    (hs : semi' v = semi v) (hid : idom' v = idom v) : Settled E semi' idom' v := by
  unfold Settled
  rw [hs,hid]
  exact h

theorem Solved.drain (T : DfsTree E parent m) (h : Solved E parent m (w + 1) (w + 1) s) :
    Solved E parent m (w + 1) w (s.drainBucket (w + 1) (s.bucket (w + 1))) := by
  have hb v (hv : v ∈ s.bucket (w + 1)) : v < m ∧ isProcessed v s.lastlinked :=
    have hv := h.bucket _ v hv
    ⟨hv.2.1,(h.linked v hv.2.1).mpr hv.1⟩
  have hd : Drained parent m (w + 1) (s.bucket (w + 1)) s _ := drain_spec T.preorder hb h.forest
  generalize s.drainBucket (w + 1) (s.bucket (w + 1)) = s' at hd
  refine ⟨fun v hv => ?_,?_,fun v hwv hv => ?_,fun v hv => ?_,fun i v hv => ?_,fun v hwv hv => ?_⟩
  · exact hd.lastlinked.symm ▸ h.linked v hv
  · exact hd.lastlinked.symm ▸ hd.semi.symm ▸ hd.forest
  · exact hd.semi.symm ▸ h.semi v hwv hv
  · rw [hd.semi,hd.rest v fun hm => absurd hv (h.bucket _ v hm).1.not_ge]
    exact h.fresh v hv
  · rw [hd.bucket] at hv
    exact hd.semi.symm ▸ h.bucket i v hv
  · rw [hd.semi,hd.bucket]
    by_cases hm : v ∈ s.bucket (w + 1)
    · exact .inr (hd.settled T h hm)
    have hid := hd.rest v hm
    rcases h.settled v hwv hv with ⟨hin,hle,hz⟩ | hs
    · have hne : s.semi v ≠ w + 1 := fun heq => hm (heq ▸ hin)
      exact .inl ⟨hin,by omega,hid.trans hz⟩
    · exact .inr (hs.congr rfl hid)

theorem Solved.link (T : DfsTree E parent m) (hw : w + 1 < m) (h : Solved E parent m (w + 1) w s)
    (hsc : Scanned parent m (w + 1) vs s s')
    (hse : Semidominator E (s'.semi (w + 1)) (w + 1)) :
    Solved E parent m w w (s'.link (w + 1)) := by
  have hpo : 0 < w + 1 := by omega
  have hl := h.linked
  have hpa : s'.forest.ancestor (w + 1) = parent (w + 1) :=
    (hsc.forest.unlinked (w + 1) hw fun hp => absurd ((hl _ hw).mp hp) (lt_irrefl _)).1
  have ho v (hv : w < v) (hne : v ≠ w + 1) : w + 1 < v := by omega
  have hls := T.semi_lt hpo hw hse
  have hn : ∀ i, w + 1 ∉ s.bucket i := fun i hm => absurd (h.bucket i _ hm).1 (lt_irrefl _)
  have hf := hsc.forest.link T.preorder hl hpo hw
  have hsm v (hv : w < v) (hvm : v < m) : Semidominator E (s'.semi v) v := by
    by_cases hne : v = w + 1
    · exact hne ▸ hse
    · exact (hsc.rest v hne).symm ▸ h.semi v (ho v hv hne) hvm
  have hfr v (hv : v ≤ w) : s'.semi v = v ∧ s'.idom v = 0 := by
    rw [hsc.rest v (by omega),hsc.idom]
    exact h.fresh v (by omega)
  have hb i v (hv : v ∈ s'.bucket i) : w < v ∧ v < m ∧ s'.semi v = i := by
    rw [hsc.bucket] at hv
    obtain ⟨hwv,hvm,hsv⟩ := h.bucket i v hv
    exact ⟨by omega,hvm,(hsc.rest v (by omega)).trans hsv⟩
  have hst v (hv : w < v) (hvm : v < m) (hne : v ≠ w + 1) : v ∈ s'.bucket (s'.semi v) ∧ s'.semi v ≤ w ∧ s'.idom v = 0 ∨
        Settled E s'.semi s'.idom v := by
    rw [hsc.bucket,hsc.idom,hsc.rest v hne]
    refine (h.settled v (ho v hv hne) hvm).imp_right fun hs => ?_
    exact hs.congr (hsc.rest v hne) rfl
  unfold Solver.link
  simp only [hpa]
  split
  case isTrue hne =>
    refine ⟨fun v _ => isProcessed_some,hf,hsm,hfr,fun i v hv => ?_,fun v hv hvm => ?_⟩
    · simp only [update_apply] at hv
      split at hv
      case isTrue hi =>
        subst hi
        rcases mem_append.mp hv with hv | hv
        · exact hb _ v hv
        · obtain rfl := mem_singleton.mp hv
          exact ⟨by omega,hw,rfl⟩
      case isFalse => exact hb i v hv
    · by_cases hvw : v = w + 1
      · subst hvw
        refine .inl ⟨by simp,Nat.le_of_lt_succ hls,?_⟩
        simp only [hsc.idom]
        exact (h.fresh (w + 1) (le_refl _)).2
      · refine (hst v hv hvm hvw).imp_left fun ⟨hm,hle,hid⟩ => ⟨?_,hle,hid⟩
        simp only [update_apply]
        split
        case isTrue hi => exact mem_append_left _ (hi ▸ hm)
        case isFalse => exact hm
  case isFalse heq =>
    have heq := not_not.mp heq
    refine ⟨fun v _ => isProcessed_some,hf,hsm,fun v hv => ?_,hb,fun v hv hvm => ?_⟩
    · change s'.semi v = v ∧ update s'.idom (w + 1) (parent (w + 1)) v = 0
      rw [update_of_ne (by omega)]
      exact hfr v hv
    · by_cases hvw : v = w + 1
      · subst hvw
        refine .inr (.inl ⟨by simp [heq],?_⟩)
        rw [← heq]
        exact immediate_parent T hpo hw (heq ▸ hse)
      · change v ∈ s'.bucket (s'.semi v) ∧ s'.semi v ≤ w ∧ update s'.idom (w + 1) (parent (w + 1)) v = 0 ∨ _
        rw [update_of_ne hvw]
        exact (hst v hv hvm hvw).imp_right fun hs => hs.congr rfl (update_of_ne hvw _ _)

theorem Solved.process (T : DfsTree E parent m) (hp : ∀ w, w < m → ∀ v, some v ∈ predecessors w ↔ E v w) (hw : w + 1 < m)
    (h : Solved E parent m (w + 1) (w + 1) s) :
    Solved E parent m w w (s.process predecessors (w + 1)) := by
  have hd := h.drain T
  unfold Solver.process
  simp only
  generalize s.drainBucket (w + 1) (s.bucket (w + 1)) = s1 at hd
  have hsa : update s1.semi (w + 1) (w + 1) = s1.semi := by
    rw [update_eq_self_iff]
    exact (hd.fresh (w + 1) (le_refl _)).1.symm
  rw [hsa]
  have hs := scan_spec T.preorder hw hd.linked (fun v hv => (hd.fresh v hv.le).1)
    (fun v hv => (T.bounds v _ ((hp _ hw v).mp hv)).1) hd.forest
  exact hd.link T hw hs (hs.semidominator T hd (by omega) hw (hp _ hw))

theorem Solved.solve (T : DfsTree E parent m) (hp : ∀ w, w < m → ∀ v, some v ∈ predecessors w ↔ E v w) (hw : w < m)
    (h : Solved E parent m w w s) : Solved E parent m 0 0 (Solver.solve predecessors w s) := by
  induction w generalizing s with
  | zero => exact h
  | succ w ih => exact ih (by omega) (h.process T hp hw)

theorem solved_init : Solved E parent m (m - 1) (m - 1) (.init parent) where
  linked := fun v hv => by
    simp only [Solver.init,isProcessed,Option.any_none,Bool.false_eq_true,false_iff]
    omega
  forest := ⟨by simp [Solver.init,isProcessed],fun _ _ _ => ⟨rfl,rfl⟩,
    by simp [Solver.init,isProcessed],by simp [Solver.init,isProcessed],
    by simp [Solver.init,isProcessed]⟩
  semi := fun v hv hvm => by omega
  fresh := fun v _ => ⟨rfl,rfl⟩
  bucket := by simp [Solver.init]
  settled := fun v hv hvm => by omega

theorem Solved.all_settled (T : DfsTree E parent m) (h : Solved E parent m 0 0 s) (hp : 0 < v)
    (hv : v < m) : Settled E s.semi s.idom v := by
  rcases h.settled v hp hv with ⟨-,hz,hid⟩ | hse
  · have hs := h.semi v hp hv
    obtain hz := Nat.le_zero.mp hz
    refine .inl ⟨hid.trans hz.symm,T.immediate_semi hp hv hs fun _ _ _ _ _ => ?_⟩
    exact hz ▸ Nat.zero_le _
  · exact hse

theorem finalize_spec (h : ∀ v, 0 < v → v < m → Settled E semi idom v) (hw : w < m) :
    (∀ v, 0 < v → v ≤ w → Immediate E 0 (finalize semi idom w v) v) ∧ ∀ v, w < v → finalize semi idom w v = idom v := by
  induction w with
  | zero => exact ⟨fun v hp hle => by omega,fun _ _ => rfl⟩
  | succ w ih =>
    obtain ⟨hd,hr⟩ := ih (by omega)
    have hs := hr (w + 1) (by omega)
    simp only [finalize,hs]
    split
    case isTrue hne =>
      refine ⟨fun v hp hle => ?_,fun v hv => ?_⟩
      · rcases Nat.eq_or_lt_of_le hle with rfl | hlt
        · rw [update_self]
          rcases h (w + 1) hp hw with ⟨heq,-⟩ | ⟨hl,hh,hs'⟩
          · exact absurd heq hne
          · exact hs' _ (hd (idom (w + 1)) (by omega) (by omega))
        · rw [update_of_ne hlt.ne]
          exact hd v hp (by omega)
      · rw [update_of_ne hv.ne']
        exact hr v (by omega)
    case isFalse heq =>
      refine ⟨fun v hp hle => ?_,fun v hv => hr v (by omega)⟩
      rcases Nat.eq_or_lt_of_le hle with rfl | hlt
      · rw [hs]
        rcases h (w + 1) hp hw with ⟨heq',him⟩ | ⟨hl,-,-⟩
        · exact heq' ▸ him
        · omega
      · exact hd v hp (by omega)

end

end Frontend.FlowGraph
