import Frontend.Span.HygieneContexts

namespace Frontend.Hygiene

open HygieneData Library List

variable {d d' : HygieneData} {L L' : List (List Mark)} {c g : Nat} {l : List Mark} {e : ExpnId}

theorem SameExpns.isDescendantOfLoop (hs : SameExpns d d') (fuel : Nat) (e a : ExpnId) :
    d'.isDescendantOfLoop fuel e a = d.isDescendantOfLoop fuel e a := by
  induction fuel generalizing e with
  | zero => rfl
  | succ fuel ih => simp only [HygieneData.isDescendantOfLoop,expnData,hs.expnData?_eq,ih]

theorem SameExpns.isDescendantOf (hs : SameExpns d d') (fuel : Nat) (e a : ExpnId) :
    d'.isDescendantOf fuel e a = d.isDescendantOf fuel e a := by
  simp only [HygieneData.isDescendantOf,hs.isDescendantOfLoop]

def outerOf (l : List Mark) : ExpnId := (l.getLast?.map Prod.fst).getD ExpnId.root

theorem Inv.outerExpn_eq (hI : Inv [] d L) (hc : L[c]? = some l) : d.outerExpn c = .ok (outerOf l) := by
  rcases eq_nil_or_concat l with rfl | ⟨k,m,rfl⟩
  · obtain rfl := (hI.eq_zero_iff hc).mpr rfl
    obtain ⟨x,hx⟩ := hI.data_of_marks hc
    simp [outerExpn,ctxtData,hx,orPanic,(hI.rooted hx).2,outerOf,pure,Except.pure]
  · rw [concat_eq_append] at hc
    obtain ⟨x,hx,rfl,-⟩ := hI.last_mark hc
    simp [outerExpn,ctxtData,hx,orPanic,outerOf,pure,Except.pure]

theorem Inv.removeMark_eq (hI : Inv [] d L) (hc : L[c]? = some (l ++ [m])) (hp : L[p]? = some l) :
    d.removeMark c = .ok (m,p) := by
  obtain ⟨x,hx,rfl,hl⟩ := hI.last_mark hc
  obtain rfl := hI.injective hp hl
  simp [removeMark,outerMark,parentCtxt,ctxtData,hx,orPanic,pure,Except.pure]

theorem Inv.marks_of_ok (hI : Inv [] d L) (h : d.ctxtData c = .ok x) : ∃ l, L[c]? = some l := by
  refine hI.marks_of_lt ?_
  by_contra hn
  simp [ctxtData,getElem?_eq_none (Nat.not_lt.mp hn),orPanic] at h

structure Extends (d : HygieneData) (L : List (List Mark)) (d' : HygieneData) (L' : List (List Mark)) : Prop where
  inv : Inv [] d' L'
  old : L <+: L'
  expns : SameExpns d d'

theorem Inv.globLoop_of_globMarks (hI : Inv [] d L) (hg : L[g]? = some l) (h : d.globMarks fuel g e acc = .ok ms) :
    ∃ k rest, l = k ++ rest ∧ ms = acc ++ rest.reverse ∧ ∀ d' L', Extends d L d' L' →
    ∀ (l0 : List Mark) (b c : Nat) scope,
      L'[b]? = some l0 → L'[c]? = some (l0 ++ rest) →
        d'.globLoop fuel g e c scope = .ok (some ((rest.head?.map Prod.fst).or scope,b)) := by
  induction fuel generalizing g l acc with
  | zero => cases h
  | succ fuel ih =>
    rw [globMarks,hI.outerExpn_eq hg,ok_bind] at h
    obtain ⟨stop,hst,hn⟩ := ok_of_bind h
    cases stop with
    | true =>
      cases hn
      refine ⟨l,[],by simp,by simp,fun d' L' hE l0 b c scope hb hc => ?_⟩
      rw [append_nil] at hc
      obtain rfl := hE.inv.injective hb hc
      rw [globLoop,hE.inv.outerExpn_eq (getElem?_of_isPrefix hE.old hg),ok_bind,hE.expns.isDescendantOf,hst]
      rfl
    | false =>
      rcases eq_nil_or_concat l with rfl | ⟨k,m,rfl⟩
      · cases hst.symm.trans (isDescendantOf_root _)
      rw [concat_eq_append] at hg ⊢
      obtain ⟨p,-,hp⟩ := hI.closed hg
      simp only [Bool.false_eq_true,if_false,hI.removeMark_eq hg hp,ok_bind] at hn
      obtain ⟨k',rest,rfl,hms,hlo⟩ := ih hp hn
      refine ⟨k',rest ++ [m],by simp,by simp [hms],fun d' L' hE l0 b c scope hb hc => ?_⟩
      rw [← append_assoc] at hc
      obtain ⟨q,-,hq⟩ := hE.inv.closed hc
      have hg' := getElem?_of_isPrefix hE.old hg
      rw [concat_eq_append] at hst
      rw [globLoop,hE.inv.outerExpn_eq hg',ok_bind,hE.expns.isDescendantOf,hst]
      simp only [ok_bind,Bool.false_eq_true,if_false,hE.inv.removeMark_eq hg' (getElem?_of_isPrefix hE.old hp),
        hE.inv.removeMark_eq hc hq,ne_eq,not_true_eq_false]
      rw [hlo d' L' hE l0 b q _ hb hq]
      cases rest <;> simp

theorem Inv.extends_applyMarks (hI : Inv [] d L) (hc : L[c]? = some l) (hms : ∀ m ∈ ms, isOpaqueMark m)
    (h : d.applyMarks c ms = .ok (c',d')) : ∃ L', Extends d L d' L' ∧ L'[c']? = some (l ++ ms) := by
  induction ms generalizing d L c l with
  | nil =>
    cases h
    exact ⟨L,⟨hI,prefix_rfl,rfl,rfl⟩,by simpa using hc⟩
  | cons m ms ih =>
    rw [applyMarks] at h
    obtain ⟨⟨c1,d1⟩,hm,h⟩ := ok_of_bind h
    have ho : m.2 = .Opaque := by simpa [isOpaqueMark] using hms m (.head _)
    rw [applyMark,if_pos ho] at hm
    split at hm
    · cases hm
    rename_i he
    rcases hI.allocCtxt_spec hc he m.2 with hr | ⟨c2,d2,L2,hr,hI2,hL,hc2,hs⟩
    · cases hr.symm.trans hm
    · cases hr.symm.trans hm
      obtain ⟨L',hE,hc'⟩ := ih hI2 hc2 (fun m' hm' => hms m' (.tail _ hm')) h
      exact ⟨L',⟨hE.inv,hL.trans hE.old,hs.trans hE.expns⟩,by simpa using hc'⟩

theorem adjustLoop_scope (h : d.adjustLoop fuel c e (some s) = .ok r) : r.1.isSome := by
  induction fuel generalizing c s with
  | zero => cases h
  | succ fuel ih =>
    rw [adjustLoop] at h
    obtain ⟨o,-,h⟩ := ok_of_bind h
    obtain ⟨stop,-,h⟩ := ok_of_bind h
    cases stop with
    | true =>
      cases h
      rfl
    | false =>
      obtain ⟨x,-,h⟩ := ok_of_bind h
      exact ih h

theorem Inv.adjust_extends (hI : Inv [] d L) (h : d.adjust fuel c e = .ok (none,b)) :
    b = c ∧ (∃ l, L[c]? = some l) ∧ ∀ d' L', Extends d L d' L' → d'.adjust fuel c e = .ok (none,c) := by
  rcases fuel with _ | fuel
  · cases h
  rw [adjust,adjustLoop] at h
  obtain ⟨o,ho,h⟩ := ok_of_bind h
  obtain ⟨x,hx,-⟩ := ok_of_bind ho
  obtain ⟨l,hl⟩ := hI.marks_of_ok hx
  obtain rfl : o = outerOf l := Except.ok.inj (ho.symm.trans (hI.outerExpn_eq hl))
  obtain ⟨stop,hst,h⟩ := ok_of_bind h
  cases stop with
  | true =>
    cases h
    refine ⟨rfl,⟨l,hl⟩,fun d' L' hE => ?_⟩
    rw [adjust,adjustLoop,hE.inv.outerExpn_eq (getElem?_of_isPrefix hE.old hl),ok_bind,hE.expns.isDescendantOf,hst]
    rfl
  | false =>
    obtain ⟨x,-,h⟩ := ok_of_bind h
    exact absurd (adjustLoop_scope h) (by simp)

theorem Inv.normalize_extends (hI : Inv [] d L) (h : d.normalizeToMacros20 g = .ok o) :
    (∃ l : List Mark, L[o]? = some (l.filter isOpaqueMark)) ∧ ∀ d' L', Extends d L d' L' →
    d'.normalizeToMacros20 g = .ok o := by
  obtain ⟨x,hx,h⟩ := ok_of_bind h
  cases h
  obtain ⟨l,hl⟩ := hI.marks_of_ok hx
  obtain ⟨y,hy,ho,-⟩ := hI.normalizes hl
  obtain rfl := Except.ok.inj (hx.symm.trans hy)
  refine ⟨⟨l,ho⟩,fun d' L' hE => ?_⟩
  obtain ⟨z,hz,ho',-⟩ := hE.inv.normalizes (getElem?_of_isPrefix hE.old hl)
  rw [normalizeToMacros20,hz,hE.inv.injective (getElem?_of_isPrefix hE.old ho) ho']
  rfl

theorem globAdjust_undoes_reverseGlobAdjust (h : Reached anyRegistration d) (fuel : Nat) (c g : SyntaxContext)
    (e : ExpnId) {scope : Option ExpnId}
    {c' : SyntaxContext} (hr : d.reverseGlobAdjust fuel c e g = .ok (some (scope,c'),d')) :
    d'.globAdjust fuel c' e g = .ok (some (scope,c)) := by
  obtain ⟨⟨L,hI⟩,-⟩ := h.wellFormed
  obtain ⟨⟨removed,b⟩,ha,hn⟩ := ok_of_bind hr
  cases removed with
  | some s => cases hn
  | none =>
    obtain ⟨rfl,⟨l,hl⟩,hadj⟩ := hI.adjust_extends ha
    obtain ⟨o,ho,hm⟩ := ok_of_bind hn
    obtain ⟨⟨lg,hlg⟩,hno⟩ := hI.normalize_extends ho
    obtain ⟨ms,hms,ha'⟩ := ok_of_bind hm
    obtain ⟨k,rest,hk,rfl,hlo⟩ := hI.globLoop_of_globMarks hlg hms
    obtain ⟨⟨c1,d1⟩,hap,heq⟩ := ok_of_bind ha'
    cases heq
    rw [nil_append,reverse_reverse] at hap
    have hop m (hm : m ∈ rest) : isOpaqueMark m := by
      exact (mem_filter.mp (hk ▸ mem_append_right k hm)).2
    obtain ⟨L',hE,hc'⟩ := hI.extends_applyMarks hl hop hap
    rw [globAdjust,hno d' L' hE,ok_bind,hlo d' L' hE l b c' none (getElem?_of_isPrefix hE.old hl) hc',ok_bind]
    simp only [hadj d' L' hE,ok_bind]
    simp [pure,Except.pure]

theorem macroCall_glob_restored : ∃ d d', Reached anyRegistration d ∧
    d.reverseGlobAdjust 3 0 ExpnId.root 1 = .ok (some (some ⟨0,1⟩,1),d') ∧
      d'.globAdjust 3 1 ExpnId.root 1 = .ok (some (some ⟨0,1⟩,0)) := by
  obtain ⟨c,d,hd,d',hr⟩ : ∃ c d, macroCall.applyMark 0 ⟨0,1⟩ .Opaque = .ok (c,d) ∧
      ∃ d', d.reverseGlobAdjust 3 0 ExpnId.root 1 = .ok (some (some ⟨0,1⟩,1),d') := ⟨_,_,rfl,_,rfl⟩
  have hm := macroCall_reached.tail (.applyMark (by decide) hd)
  exact ⟨d,d',hm,hr,globAdjust_undoes_reverseGlobAdjust hm 3 0 1 ExpnId.root hr⟩

end Frontend.Hygiene
