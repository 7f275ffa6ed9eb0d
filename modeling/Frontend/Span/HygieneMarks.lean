import Frontend.Library.Pointwise
import Frontend.Span.Hygiene

namespace Frontend.Hygiene

open Library HygieneData List Option

def isOpaqueMark (m : Mark) : Bool := m.2 = .Opaque
def isNonTransparentMark (m : Mark) : Bool := m.2 ≠ .Transparent

structure Inv (H : List Nat) (d : HygieneData) (L : List (List Mark)) : Prop where
  length_eq : L.length = d.syntaxContextData.length
  root_marks : L[0]? = some []
  root_filled : 0 ∉ H
  injective : ∀ {i j : Nat} {l}, L[i]? = some l → L[j]? = some l → i = j
  closed : ∀ {c : Nat} {l m}, L[c]? = some (l ++ [m]) → ∃ p < c, L[p]? = some l
  nonroot : ∀ {c : Nat} {l m}, L[c]? = some l → m ∈ l → m.1 ≠ ExpnId.root
  mapped : ∀ {p e t c}, e ≠ ExpnId.root → d.syntaxContextMap (p,e,t) = some c → ∃ l, L[p]? = some l ∧
    L[c]? = some (l ++ [(e,t)])
  covered : ∀ {p c : Nat} {e t l}, L[p]? = some l → L[c]? = some (l ++ [(e,t)]) → d.syntaxContextMap (p,e,t) = some c
  named : ∀ {c : Nat} {x}, c ∉ H → d.syntaxContextData[c]? = some x → x.dollarCrateName ≠ symDummy
  filled : ∀ {c : Nat} {x}, c ∉ H → c ≠ 0 → d.syntaxContextData[c]? = some x →
    ∃ l, L[x.parent]? = some l ∧ L[c]? = some (l ++ [(x.outerExpn,x.outerTransparency)])
  normalized : ∀ {c : Nat} {x l}, c ∉ H → d.syntaxContextData[c]? = some x → L[c]? = some l →
    L[x.opaqueCtxt]? = some (l.filter isOpaqueMark) ∧
    L[x.opaqueAndSemiOpaque]? = some (l.filter isNonTransparentMark)
  rooted : ∀ {x}, d.syntaxContextData[0]? = some x → x.parent = 0 ∧ x.outerExpn = ExpnId.root

variable {α : Type} {a b : α} {i : Nat}

theorem getElem?_snoc_self (L : List α) (a : α) : (L ++ [a])[L.length]? = some a := by simp

theorem getElem?_snoc_old (h : L[i]? = some b) : (L ++ [a])[i]? = some b := getElem?_concat.mpr (.inl h)

theorem getElem?_singleton_cases (h : [a][i]? = some b) : i = 0 ∧ b = a := by
  rcases i with _ | i <;> simp at h
  exact ⟨rfl,h.symm⟩

theorem Inv.new : Inv [] new [[]] where
  length_eq := rfl
  root_marks := rfl
  root_filled := by simp
  injective hi hj := by rw [(getElem?_singleton_cases hi).1,(getElem?_singleton_cases hj).1]
  closed hc := by simpa using (getElem?_singleton_cases hc).2
  nonroot hc hm := by rw [(getElem?_singleton_cases hc).2] at hm; simp at hm
  mapped he h := by
    simp [HygieneData.new,SyntaxContextData.key,SyntaxContextData.root] at h
    exact absurd h.1.2.1 he
  covered _ hc := by simpa using (getElem?_singleton_cases hc).2
  named _ hx := by rw [(getElem?_singleton_cases hx).2]; decide
  filled _ h0 hx := absurd (getElem?_singleton_cases hx).1 h0
  normalized _ hx hl := by
    rw [(getElem?_singleton_cases hx).2,(getElem?_singleton_cases hl).2]
    simp [SyntaxContextData.root]
  rooted hx := by rw [(getElem?_singleton_cases hx).2]; exact ⟨rfl,rfl⟩

section

variable {H : List Nat} {d : HygieneData} {L : List (List Mark)}
variable {c p : Nat} {l lp : List Mark} {e : ExpnId} {t : Transparency}

theorem Inv.lt (hI : Inv H d L) (hc : L[c]? = some l) : c < d.syntaxContextData.length := by
  rw [← hI.length_eq]; exact lt_of_getElem? hc

theorem Inv.marks_of_lt (hI : Inv H d L) (hc : c < d.syntaxContextData.length) : ∃ l, L[c]? = some l := by
  rw [← hI.length_eq] at hc
  exact ⟨_,getElem?_eq_getElem hc⟩

theorem Inv.data_of_marks (hI : Inv H d L) (hc : L[c]? = some l) : ∃ x, d.syntaxContextData[c]? = some x :=
  ⟨_,getElem?_eq_getElem (hI.lt hc)⟩

theorem Inv.reserve (hI : Inv H d L) (hp : L[p]? = some lp) (he : e ≠ ExpnId.root)
    (hm : d.syntaxContextMap (p,e,t) = none) :
    Inv (d.syntaxContextData.length :: H) (d.reserve (p,e,t)) (L ++ [lp ++ [(e,t)]]) := by
  have hn : ∀ i : Nat, L[i]? ≠ some (lp ++ [(e,t)]) := by
    intro i hi
    rw [hI.covered hp hi] at hm
    simp at hm
  have hle := hI.length_eq
  have hold {i : Nat} {x} (hi : i ∉ d.syntaxContextData.length :: H)
    (hx : (d.reserve (p,e,t)).syntaxContextData[i]? = some x) :
      i ∉ H ∧ d.syntaxContextData[i]? = some x := by
    rw [mem_cons,not_or] at hi
    exact ⟨hi.2,(getElem?_concat.mp hx).resolve_right fun h => hi.1 h.1⟩
  constructor
  case length_eq => simp [HygieneData.reserve,hle]
  case root_marks => exact getElem?_snoc_old hI.root_marks
  case root_filled =>
    have := hI.lt hI.root_marks
    simp only [mem_cons,not_or]
    exact ⟨by omega,hI.root_filled⟩
  case injective =>
    intro i j l hi hj
    rcases getElem?_concat.mp hi with hi | ⟨hi,rfl⟩ <;>
      rcases getElem?_concat.mp hj with hj | ⟨hj,hl⟩
    · exact hI.injective hi hj
    · exact absurd (hl ▸ hi) (hn i)
    · exact absurd hj (hn j)
    · omega
  case closed =>
    intro c l m hc
    rcases getElem?_concat.mp hc with hc | ⟨hc,heq⟩
    · obtain ⟨q,hq,hl⟩ := hI.closed hc
      exact ⟨q,hq,getElem?_snoc_old hl⟩
    · obtain ⟨rfl,_⟩ := append_inj' heq rfl
      have := hI.lt hp
      exact ⟨p,by omega,getElem?_snoc_old hp⟩
  case nonroot =>
    intro c l m hc hml
    rcases getElem?_concat.mp hc with hc | ⟨_,rfl⟩
    · exact hI.nonroot hc hml
    · rcases mem_append.mp hml with h | h
      · exact hI.nonroot hp h
      · simp at h; subst h; exact he
  case mapped =>
    intro p' e' t' c he' hma
    simp only [HygieneData.reserve,Function.update_apply] at hma
    split at hma
    · rename_i heq
      simp only [Prod.mk.injEq] at heq
      obtain ⟨rfl,rfl,rfl⟩ := heq
      simp only [some.injEq] at hma
      subst hma
      exact ⟨lp,getElem?_snoc_old hp,by rw [← hle]; exact getElem?_snoc_self _ _⟩
    · obtain ⟨l,h1,h2⟩ := hI.mapped he' hma
      exact ⟨l,getElem?_snoc_old h1,getElem?_snoc_old h2⟩
  case covered =>
    intro p' c e' t' l h1 h2
    simp only [HygieneData.reserve,Function.update_apply]
    rcases getElem?_concat.mp h2 with h2 | ⟨hc,heq⟩
    · rcases getElem?_concat.mp h1 with h1 | ⟨_,rfl⟩
      · have hk := hI.covered h1 h2
        rw [if_neg,hk]
        intro hke
        rw [hke,hm] at hk
        simp at hk
      · obtain ⟨q,_,hq⟩ := hI.closed h2
        exact absurd hq (hn q)
    · obtain ⟨rfl,hs⟩ := append_inj' heq rfl
      simp only [cons.injEq,Prod.mk.injEq,and_true] at hs
      obtain ⟨rfl,rfl⟩ := hs
      rcases getElem?_concat.mp h1 with h1 | ⟨_,h1⟩
      · obtain rfl := hI.injective h1 hp
        simp [hc,hle]
      · simp at h1
  case named =>
    intro c x hc hx
    obtain ⟨hc,hx⟩ := hold hc hx
    exact hI.named hc hx
  case filled =>
    intro c x hc h0 hx
    obtain ⟨hc,hx⟩ := hold hc hx
    obtain ⟨l,h1,h2⟩ := hI.filled hc h0 hx
    exact ⟨l,getElem?_snoc_old h1,getElem?_snoc_old h2⟩
  case normalized =>
    intro c x l hc hx hl
    obtain ⟨hc,hx⟩ := hold hc hx
    have hlt := lt_of_getElem? hx
    obtain ⟨h1,h2⟩ := hI.normalized hc hx ((getElem?_concat.mp hl).resolve_right (by omega))
    exact ⟨getElem?_snoc_old h1,getElem?_snoc_old h2⟩
  case rooted =>
    intro x hx
    have hlt := hI.lt hI.root_marks
    exact hI.rooted ((getElem?_concat.mp hx).resolve_right (by omega))

theorem Inv.fill (hI : Inv (c :: H) d L) (hx : x.dollarCrateName ≠ symDummy)
    (hp : L[x.parent]? = some lp) (hc : L[c]? = some (lp ++ [(x.outerExpn,x.outerTransparency)]))
    (ho : L[x.opaqueCtxt]? = some ((lp ++ [(x.outerExpn,x.outerTransparency)]).filter isOpaqueMark))
    (hos : L[x.opaqueAndSemiOpaque]? = some ((lp ++ [(x.outerExpn,x.outerTransparency)]).filter isNonTransparentMark)) :
    Inv H (d.fill c x) L := by
  have hlt := hI.lt hc
  have hg {i : Nat} {y} (hy : (d.fill c x).syntaxContextData[i]? = some y) : i = c ∧ y = x ∨ i ≠ c ∧
      d.syntaxContextData[i]? = some y := by
    simp only [HygieneData.fill,getElem?_set] at hy
    split at hy
    · rename_i h
      simp only [some.injEq] at hy
      exact .inl ⟨h.symm,hy.symm⟩
    · rename_i h
      exact .inr ⟨fun h' => h h'.symm,hy⟩
  have hne {i : Nat} (h1 : i ≠ c) (h2 : i ∉ H) : i ∉ c :: H := by
    simp [h1,h2]
  constructor
  case length_eq => simp [HygieneData.fill,hI.length_eq]
  case root_marks => exact hI.root_marks
  case root_filled => exact fun h => hI.root_filled (.tail _ h)
  case injective => exact hI.injective
  case closed => exact hI.closed
  case nonroot => exact hI.nonroot
  case mapped => exact hI.mapped
  case covered => exact hI.covered
  case named =>
    intro i y hi hy
    rcases hg hy with ⟨_,rfl⟩ | ⟨h,hy⟩
    · exact hx
    · exact hI.named (hne h hi) hy
  case filled =>
    intro i y hi h0 hy
    rcases hg hy with ⟨rfl,rfl⟩ | ⟨h,hy⟩
    · exact ⟨lp,hp,hc⟩
    · exact hI.filled (hne h hi) h0 hy
  case normalized =>
    intro i y l hi hy hl
    rcases hg hy with ⟨rfl,rfl⟩ | ⟨h,hy⟩
    · obtain rfl : l = _ := mem_unique hl hc
      exact ⟨ho,hos⟩
    · exact hI.normalized (hne h hi) hy hl
  case rooted =>
    intro y hy
    rcases hg hy with ⟨h,_⟩ | ⟨_,hy⟩
    · exact absurd (h ▸ (.head _)) hI.root_filled
    · exact hI.rooted hy

theorem Inv.length_le (hI : Inv H d L) (hc : L[c]? = some l) : l.length ≤ c := by
  induction l using reverseRecOn generalizing c with
  | nil => simp
  | append_singleton l m ih =>
    obtain ⟨q,hq,hl⟩ := hI.closed hc
    have := ih hl
    simp only [length_append,length_singleton]
    omega

theorem getElem?_of_isPrefix {L L' : List α} {a : α} (h : L <+: L') (hi : L[i]? = some a) : L'[i]? = some a := by
  obtain ⟨M,rfl⟩ := h
  rw [getElem?_append_left (lt_of_getElem? hi)]
  exact hi

def Pending (H : List Nat) (L : List (List Mark)) (lp : List Mark) (m : Mark) : Prop :=
  ∀ h ∈ H, ∃ lh, L[h]? = some lh ∧ (lh = lp ++ [m] ∨ lp.length + 1 < lh.length)

def SameExpns (d d' : HygieneData) : Prop := d'.localExpnData = d.localExpnData ∧ d'.foreignExpnData = d.foreignExpnData

def Allocates (H : List Nat) (d : HygieneData) (L : List (List Mark)) (l : List Mark)
    (r : Result (SyntaxContext × HygieneData)) : Prop :=
  r = .error .ctxtOverflow ∨ ∃ c d' L', r = .ok (c,d') ∧ Inv H d' L' ∧ L <+: L' ∧ L'[c]? = some l ∧ SameExpns d d'

theorem SameExpns.trans (h : SameExpns d1 d2) (h' : SameExpns d2 d3) : SameExpns d1 d3 := ⟨h'.1.trans h.1,h'.2.trans h.2⟩

theorem Pending.mono {L' : List (List Mark)} (h : Pending H L lp m) (hL : L <+: L') : Pending H L' lp m := by
  intro i hi
  obtain ⟨lh,h1,h2⟩ := h i hi
  exact ⟨lh,getElem?_of_isPrefix hL h1,h2⟩

theorem filter_eq_or_lt (f : α → Bool) (l : List α) : l.filter f = l ∨ (l.filter f).length < l.length := by
  rcases (length_filter_le f l).eq_or_lt with h | h
  · exact .inl (filter_sublist.eq_of_length h)
  · exact .inr h

theorem Pending.filter (h : ∀ i ∈ H, ∃ lh, L[i]? = some lh ∧ lp.length + 1 < lh.length)
    (hc : L[c]? = some (lp ++ [m])) : Pending (c :: H) L (lp.filter f) m := by
  have hle := length_filter_le f lp
  intro i hi
  rcases mem_cons.mp hi with rfl | hi
  · refine ⟨_,hc,?_⟩
    rcases filter_eq_or_lt f lp with hf | hlt
    · exact .inl (by rw [hf])
    · exact .inr (by simpa using hlt)
  · obtain ⟨lh,h1,h2⟩ := h i hi
    exact ⟨lh,h1,.inr (by omega)⟩

theorem Inv.longer_of_uncached (hI : Inv H d L) (hp : L[p]? = some lp)
    (hpe : Pending H L lp (e,t)) (hm : d.syntaxContextMap (p,e,t) = none) :
    ∀ i ∈ H, ∃ lh, L[i]? = some lh ∧ lp.length + 1 < lh.length := by
  intro i hi
  obtain ⟨lh,h1,rfl | h2⟩ := hpe i hi
  · rw [hI.covered hp h1] at hm
    simp at hm
  · exact ⟨lh,h1,h2⟩

def Fueled (fuel : Nat) (d : HygieneData) (p : SyntaxContext) (lp : List Mark) (e : ExpnId) (t : Transparency) : Prop :=
  (d.syntaxContextMap (p,e,t)).isSome ∧ 1 ≤ fuel ∨ lp.length + 2 ≤ fuel

theorem Inv.fueled_filter (hI : Inv H d L) (hq : L[q]? = some (lp.filter f)) (hc : L[c]? = some (lp ++ [(e,t)]))
    (hf : lp.length + 2 ≤ fuel + 1) : Fueled fuel d q (lp.filter f) e t := by
  rcases filter_eq_or_lt f lp with heq | hlt
  · rw [heq] at hq
    exact .inl ⟨by simp [hI.covered hq hc],by omega⟩
  · exact .inr (by omega)

theorem allocCtxtFuel_spec (fuel : Nat) : ∀ {H : List Nat} {d : HygieneData}
    {L : List (List Mark)} {p : Nat} {lp : List Mark} {e : ExpnId} {t : Transparency},
    Inv H d L → L[p]? = some lp → e ≠ ExpnId.root → Pending H L lp (e,t) →
    Fueled fuel d p lp e t →
    Allocates H d L (lp ++ [(e,t)]) (allocCtxtFuel fuel d p e t) := by
  induction fuel with
  | zero =>
    intro H d L p lp e t _ _ _ _ hf
    rcases hf with ⟨_,hf⟩ | hf <;> omega
  | succ fuel ih =>
    intro H d L p lp e t hI hp he hpe hf
    unfold allocCtxtFuel
    cases hm : d.syntaxContextMap (p,e,t) with
    | some c =>
      obtain ⟨l,h1,h2⟩ := hI.mapped he hm
      obtain rfl : l = lp := mem_unique h1 hp
      exact .inr ⟨c,d,L,rfl,hI,prefix_rfl,h2,rfl,rfl⟩
    | none =>
      have hf : lp.length + 2 ≤ fuel + 1 := by
        rcases hf with ⟨h,_⟩ | h
        · simp [hm] at h
        · exact h
      have hl := hI.longer_of_uncached hp hpe hm
      have hI1 := hI.reserve hp he hm
      set c := d.syntaxContextData.length with hc
      set d1 := d.reserve (p,e,t) with hd1
      set L1 := L ++ [lp ++ [(e,t)]] with hL1
      have hLL1 : L <+: L1 := prefix_append _ _
      have hc1 : L1[c]? = some (lp ++ [(e,t)]) := by
        rw [hc,← hI.length_eq]
        exact getElem?_snoc_self _ _
      have hl1 i (hi : i ∈ H) : ∃ lh, L1[i]? = some lh ∧ lp.length + 1 < lh.length := by
        obtain ⟨lh,h1,h2⟩ := hl i hi
        exact ⟨lh,getElem?_of_isPrefix hLL1 h1,h2⟩
      have hp1 := getElem?_of_isPrefix hLL1 hp
      have hpH : p ∉ c :: H := by
        intro hme
        rcases mem_cons.mp hme with rfl | hme
        · have := hI.lt hp
          omega
        · obtain ⟨lh,h1,h2⟩ := hl p hme
          obtain rfl : lh = lp := mem_unique h1 hp
          omega
      obtain ⟨x,hx⟩ := hI1.data_of_marks hp1
      obtain ⟨ho,hos⟩ := hI1.normalized hpH hx hp1
      have hna := hI1.named hpH hx
      have hn : ∀ {d2 : HygieneData} {L2 : List (List Mark)} {q : Nat} {f : Mark → Bool},
          Inv (c :: H) d2 L2 → L1 <+: L2 → L2[q]? = some (lp.filter f) →
          Allocates (c :: H) d2 L2 (lp.filter f ++ [(e,t)]) (allocCtxtFuel fuel d2 q e t) := by
        intro d2 L2 q f hI2 hL hq
        have hc2 := getElem?_of_isPrefix hL hc1
        exact ih hI2 hq he ((Pending.filter hl1 hc1).mono hL) (hI2.fueled_filter hq hc2 hf)
      have hfi : ∀ {d2 : HygieneData} {L2 : List (List Mark)} {o os : Nat}, Inv (c :: H) d2 L2 → L1 <+: L2 →
        SameExpns d d2 →
          L2[o]? = some ((lp ++ [(e,t)]).filter isOpaqueMark) →
          L2[os]? = some ((lp ++ [(e,t)]).filter isNonTransparentMark) →
          Allocates H d L (lp ++ [(e,t)]) (.ok (c,d2.fill c ⟨e,t,p,o,os,kwDollarCrate⟩)) := by
        intro d2 L2 o os hI2 hL hd ho hos
        exact .inr ⟨_,_,L2,rfl,hI2.fill (by simp only; decide) (getElem?_of_isPrefix hL hp1)
          (getElem?_of_isPrefix hL hc1) ho hos,
          hLL1.trans hL,getElem?_of_isPrefix hL hc1,hd⟩
      have hd : SameExpns d d1 := ⟨rfl,rfl⟩
      by_cases hov : c < 2 ^ 32
      swap
      · left
        simp only [fromUsize,hov,if_false,bind,Except.bind]
      have hpd : d1.ctxtData p = .ok x := by simp [ctxtData,hx,orPanic]
      simp only [fromUsize,hov,if_true,bind,Except.bind,hpd,hna,if_false,pure,Except.pure]
      cases t with
      | Transparent =>
        exact hfi hI1 prefix_rfl hd (by simpa [isOpaqueMark] using ho) (by simpa [isNonTransparentMark] using hos)
      | SemiOpaque =>
        rcases hn hI1 prefix_rfl hos with her | ⟨os,d2,L2,hr,hI2,hL,h,hd'⟩
        · simp only [her]
          exact .inl rfl
        · simp only [hr]
          exact hfi hI2 hL (hd.trans hd') (by simpa [isOpaqueMark] using getElem?_of_isPrefix hL ho)
            (by simpa [isNonTransparentMark] using h)
      | Opaque =>
        rcases hn hI1 prefix_rfl ho with her | ⟨o,d2,L2,hr,hI2,hL,h,hd'⟩
        · simp only [her]
          exact .inl rfl
        simp only [hr]
        rcases hn hI2 hL (getElem?_of_isPrefix hL hos) with
          her | ⟨os,d3,L3,hr',hI3,hL',h',hd''⟩
        · simp only [her]
          exact .inl rfl
        · simp only [hr']
          exact hfi hI3 (hL.trans hL') ((hd.trans hd').trans hd'')
            (by simpa [isOpaqueMark] using getElem?_of_isPrefix hL' h)
            (by simpa [isNonTransparentMark] using h')

end

end Frontend.Hygiene
