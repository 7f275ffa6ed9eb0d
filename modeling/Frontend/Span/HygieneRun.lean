import Frontend.Library.Outcome
import Frontend.Span.HygieneMarks

namespace Frontend.Hygiene

open HygieneData Library List ExpnId

variable {d d' : HygieneData} {L : List (List Mark)} {c p : Nat} {l : List Mark}
variable {e : ExpnId} {t : Transparency}

theorem Inv.eq_zero_iff (hI : Inv H d L) (hc : L[c]? = some l) : c = 0 ↔ l = [] := by
  constructor
  · rintro rfl
    exact Option.mem_unique hc hI.root_marks
  · rintro rfl
    exact hI.injective hc hI.root_marks

theorem Inv.last_mark (hI : Inv [] d L) (hc : L[c]? = some (l ++ [m])) :
    ∃ x, d.syntaxContextData[c]? = some x ∧ (x.outerExpn,x.outerTransparency) = m ∧ L[x.parent]? = some l := by
  obtain ⟨x,hx⟩ := hI.data_of_marks hc
  have h0 : c ≠ 0 := by simp [hI.eq_zero_iff hc]
  obtain ⟨l',h1,h2⟩ := hI.filled (by simp) h0 hx
  obtain ⟨rfl,hm⟩ := append_inj' (Option.mem_unique h2 hc) rfl
  exact ⟨x,hx,by simpa using hm,h1⟩

theorem Inv.marksLoop_eq (hI : Inv [] d L) (hc : L[c]? = some l) (hf : l.length < fuel) (acc : List Mark) :
    d.marksLoop fuel c acc = .ok (l ++ acc.reverse) := by
  induction l using reverseRecOn generalizing c fuel acc with
  | nil =>
    obtain ⟨fuel,rfl⟩ := Nat.exists_eq_succ_of_ne_zero (by omega : fuel ≠ 0)
    simp [marksLoop,(hI.eq_zero_iff hc).mpr rfl]
  | append_singleton l m ih =>
    obtain ⟨fuel,rfl⟩ := Nat.exists_eq_succ_of_ne_zero (by omega : fuel ≠ 0)
    obtain ⟨x,hx,hm,hp⟩ := hI.last_mark hc
    have h0 : c ≠ 0 := by simp [hI.eq_zero_iff hc]
    simp only [length_append,length_singleton] at hf
    simp [marksLoop,h0,outerMark,parentCtxt,ctxtData,hx,orPanic,hm,ih hp (by omega : l.length < fuel)]

theorem Inv.marks_eq (hI : Inv [] d L) (hc : L[c]? = some l) : d.marks c = .ok l := by
  have h1 := hI.length_le hc
  have h2 := hI.lt hc
  simpa [marks] using hI.marksLoop_eq hc (by omega : l.length < d.syntaxContextData.length + 1) []

theorem Inv.parent_lt (hI : Inv [] d L) (h0 : c ≠ 0) (hx : d.syntaxContextData[c]? = some x) : x.parent < c := by
  obtain ⟨l,h1,h2⟩ := hI.filled (by simp) h0 hx
  obtain ⟨q,hq,hl⟩ := hI.closed h2
  exact hI.injective h1 hl ▸ hq

def HygieneData.size (d : HygieneData) : Nat := d.syntaxContextData.length

def WellFormed (d : HygieneData) : Prop := (∃ L, Inv [] d L) ∧ ∀ e x, d.expnData? e = some x → x.callSite < d.size

def benign (p : Panic) : Prop := p ≠ .dummyParent ∧ p ≠ .diverged

def Grows (d : HygieneData) (r : SyntaxContext × HygieneData) : Prop :=
  WellFormed r.2 ∧ r.1 < r.2.size ∧ d.size ≤ r.2.size ∧ SameExpns d r.2

theorem SameExpns.expnData?_eq (h : SameExpns d d') (e : ExpnId) : d'.expnData? e = d.expnData? e := by
  simp only [expnData?,h.1,h.2]

theorem Inv.allocCtxt_spec (hI : Inv [] d L) (hp : L[p]? = some l) (he : e ≠ root) (t : Transparency) :
    Allocates [] d L (l ++ [(e,t)]) (d.allocCtxt p e t) := by
  have hle := hI.length_le hp
  have hlt := hI.lt hp
  exact allocCtxtFuel_spec _ hI hp he (by simp [Pending]) (.inr (by omega))

theorem allocCtxt_outcome (hd : WellFormed d) (hp : p < d.size) (he : e ≠ root)
    (t : Transparency) : Outcome benign (Grows d) (d.allocCtxt p e t) := by
  obtain ⟨⟨L,hI⟩,hcs⟩ := hd
  obtain ⟨lp,hlp⟩ := hI.marks_of_lt hp
  rcases hI.allocCtxt_spec hlp he t with her | ⟨c,d',L',hr,hI',hL,hc,hs⟩
  · simp [her,benign]
  have hsi : d.size ≤ d'.size := by
    simpa [size,← hI.length_eq,← hI'.length_eq] using hL.length_le
  rw [hr]
  refine ⟨⟨⟨L',hI'⟩,?_⟩,hI'.lt hc,hsi,hs⟩
  intro e x hx
  rw [hs.expnData?_eq] at hx
  exact (hcs e x hx).trans_le hsi

theorem Grows.trans (h : Grows d r) (h' : Grows r.2 r') : Grows d r' :=
  ⟨h'.1,h'.2.1,h.2.2.1.trans h'.2.2.1,h.2.2.2.trans h'.2.2.2⟩

theorem allocMarks_outcome (hd : WellFormed d) (hp : p < d.size)
    (hms : ∀ m ∈ ms, m.1 ≠ root) : Outcome benign (Grows d) (d.allocMarks p ms) := by
  induction ms generalizing d p with
  | nil => exact ⟨hd,hp,le_rfl,rfl,rfl⟩
  | cons m ms ih =>
    refine (allocCtxt_outcome hd hp (hms m (by simp)) m.2).bind fun r hr => ?_
    exact (ih hr.1 hr.2.1 fun m' hm' => hms m' (by simp [hm'])).imp fun _ h => hr.trans h

theorem normalize_outcome (hd : WellFormed d) (hc : c < d.size) : Outcome benign (· < d.size) (d.normalizeToMacros20 c) ∧
      Outcome benign (· < d.size) (d.normalizeToMacroRules c) := by
  obtain ⟨⟨L,hI⟩,_⟩ := hd
  obtain ⟨l,hl⟩ := hI.marks_of_lt hc
  obtain ⟨x,hx⟩ := hI.data_of_marks hl
  obtain ⟨ho,hos⟩ := hI.normalized (by simp) hx hl
  simp only [normalizeToMacros20,normalizeToMacroRules,ctxtData,hx,orPanic]
  exact ⟨hI.lt ho,hI.lt hos⟩

theorem marks_outcome (hd : WellFormed d) (hc : c < d.size) :
    Outcome benign (fun ms => ∀ m ∈ ms, m.1 ≠ root) (d.marks c) := by
  obtain ⟨⟨L,hI⟩,_⟩ := hd
  obtain ⟨l,hl⟩ := hI.marks_of_lt hc
  rw [hI.marks_eq hl]
  exact fun m hm => hI.nonroot hl hm

theorem applyMark_outcome (hd : WellFormed d) (hc : c < d.size) (e : ExpnId) (t : Transparency) :
    Outcome benign (Grows d) (d.applyMark c e t) := by
  unfold applyMark
  split
  · simp [benign]
  rename_i he
  split
  · exact allocCtxt_outcome hd hc he t
  have hda : Outcome benign (fun x : ExpnData => x.callSite < d.size) (d.expnData e) := by
    unfold expnData
    cases hx : d.expnData? e with
    | none => simp [orPanic,benign]
    | some x => exact hd.2 e x hx
  refine hda.bind fun x hx => ?_
  have hca : Outcome benign (· < d.size) (d.normalizeCallSite t x.callSite) := by
    unfold normalizeCallSite
    split
    · exact (normalize_outcome hd hx).1
    · exact (normalize_outcome hd hx).2
  refine hca.bind fun cs hcs => ?_
  split
  · exact allocCtxt_outcome hd hc he t
  · refine (marks_outcome hd hc).bind fun ms hms => ?_
    refine (allocMarks_outcome hd hcs hms).bind fun r hr => ?_
    exact (allocCtxt_outcome hr.1 hr.2.1 he t).imp fun _ h => hr.trans h

inductive Grounded (d : HygieneData) : ExpnId → Prop
  | root : Grounded d root
  | unregistered {e : ExpnId} : d.expnData? e = none → Grounded d e
  | child {e : ExpnId} {x : ExpnData} : d.expnData? e = some x → Grounded d x.parent → Grounded d e

def Settles (d : HygieneData) (e : ExpnId) (n : Nat) : Prop := ∀ fuel ≥ n, ∀ a, Outcome benign (fun _ => True)
    (d.isDescendantOf fuel e a)

theorem Grounded.loop_settles (h : Grounded d e) :
    ∃ n, ∀ fuel ≥ n, ∀ a, Outcome benign (fun _ => True) (d.isDescendantOfLoop fuel e a) := by
  induction h with
  | root =>
    refine ⟨1,fun fuel hf a => ?_⟩
    obtain ⟨fuel,rfl⟩ := Nat.exists_eq_succ_of_ne_zero (by omega : fuel ≠ 0)
    unfold isDescendantOfLoop
    split <;> simp
  | unregistered h =>
    refine ⟨1,fun fuel hf a => ?_⟩
    obtain ⟨fuel,rfl⟩ := Nat.exists_eq_succ_of_ne_zero (by omega : fuel ≠ 0)
    unfold isDescendantOfLoop
    split
    · simp
    · split
      · simp
      · simp [expnData,h,orPanic,benign]
  | child h _ ih =>
    obtain ⟨n,hn⟩ := ih
    refine ⟨n + 1,fun fuel hf a => ?_⟩
    obtain ⟨fuel,rfl⟩ := Nat.exists_eq_succ_of_ne_zero (by omega : fuel ≠ 0)
    unfold isDescendantOfLoop
    split
    · simp
    · split
      · simp
      · simpa [expnData,h,orPanic] using hn fuel (by omega) a

theorem Grounded.settles (h : Grounded d e) : ∃ n, Settles d e n := by
  obtain ⟨n,hn⟩ := h.loop_settles
  refine ⟨n,fun fuel hf a => ?_⟩
  unfold isDescendantOf
  split
  · simp
  · split
    · simp
    · exact hn fuel hf a

theorem isDescendantOf_root (fuel : Nat) : d.isDescendantOf fuel e root = .ok true := by simp [isDescendantOf]

theorem Inv.context_cases (hI : Inv [] d L) (hc : c < d.size) : ∃ x, d.ctxtData c = .ok x ∧ (c = 0 ∧ x.outerExpn = root ∨
      c ≠ 0 ∧ c > x.parent ∧ x.outerExpn ≠ root) := by
  obtain ⟨l,hl⟩ := hI.marks_of_lt hc
  obtain ⟨x,hx⟩ := hI.data_of_marks hl
  refine ⟨x,by simp [ctxtData,hx,orPanic],?_⟩
  by_cases h0 : c = 0
  · subst h0
    exact .inl ⟨rfl,(hI.rooted hx).2⟩
  · obtain ⟨l',_,h2⟩ := hI.filled (by simp) h0 hx
    exact .inr ⟨h0,hI.parent_lt h0 hx,hI.nonroot h2 (mem_append_right _ (mem_singleton.mpr rfl))⟩

theorem adjustLoop_outcome (hd : WellFormed d) (he : Settles d e n) (hc : c < d.size) (hf : n + c < fuel) :
    Outcome benign (fun r => r.2 < d.size) (d.adjustLoop fuel c e scope) := by
  obtain ⟨⟨L,hI⟩,_⟩ := hd
  induction fuel generalizing c scope with
  | zero => omega
  | succ fuel ih =>
    obtain ⟨x,hx,hca⟩ := hI.context_cases hc
    simp only [adjustLoop,outerExpn,removeMark,outerMark,parentCtxt,hx,ok_bind,pure,Except.pure]
    rcases hca with ⟨rfl,hr⟩ | ⟨_,hlt,_⟩
    · simpa [hr,isDescendantOf_root] using hc
    refine (he (fuel + 1) (by omega) x.outerExpn).bind fun b _ => ?_
    cases b with
    | true => simpa using hc
    | false => simpa using ih (hlt.trans hc) (by omega)

theorem globLoop_outcome (hd : WellFormed d) (he : Settles d e n) (hg : g < d.size) (hc : c < d.size)
    (hf : n + g < fuel) :
    Outcome benign (fun r => ∀ s ∈ r, s.2 < d.size) (d.globLoop fuel g e c scope) := by
  obtain ⟨⟨L,hI⟩,_⟩ := hd
  induction fuel generalizing g c scope with
  | zero => omega
  | succ fuel ih =>
    obtain ⟨x,hx,hca⟩ := hI.context_cases hg
    obtain ⟨y,hy,hc'⟩ := hI.context_cases hc
    simp only [globLoop,outerExpn,removeMark,outerMark,parentCtxt,hx,hy,ok_bind,pure,Except.pure]
    rcases hca with ⟨rfl,hr⟩ | ⟨_,hlt,hne⟩
    · simpa [hr,isDescendantOf_root] using hc
    refine (he (fuel + 1) (by omega) x.outerExpn).bind fun b _ => ?_
    cases b with
    | true => simpa using hc
    | false =>
      by_cases hm : y.outerExpn = x.outerExpn
      · have hy' : y.parent < d.size := by
          rcases hc' with ⟨_,hr⟩ | ⟨_,h,_⟩
          · exact absurd (hm ▸ hr) hne
          · exact h.trans hc
        simpa [hm] using ih (hlt.trans hg) hy' (by omega)
      · simp [hm]

theorem globMarks_outcome (hd : WellFormed d) (he : Settles d e n) (hg : g < d.size) (hf : n + g < fuel) :
    Outcome benign (fun _ => True) (d.globMarks fuel g e ms) := by
  obtain ⟨⟨L,hI⟩,_⟩ := hd
  induction fuel generalizing g ms with
  | zero => omega
  | succ fuel ih =>
    obtain ⟨x,hx,hc⟩ := hI.context_cases hg
    simp only [globMarks,outerExpn,removeMark,outerMark,parentCtxt,hx,ok_bind,pure,Except.pure]
    rcases hc with ⟨rfl,hr⟩ | ⟨_,hlt,_⟩
    · simp [hr,isDescendantOf_root]
    refine (he (fuel + 1) (by omega) x.outerExpn).bind fun b _ => ?_
    cases b with
    | true => simp
    | false => simpa using ih (hlt.trans hg) (by omega)

theorem applyMarks_outcome (hd : WellFormed d) (hc : c < d.size) : Outcome benign (Grows d) (d.applyMarks c ms) := by
  induction ms generalizing d c with
  | nil => exact ⟨hd,hc,le_rfl,rfl,rfl⟩
  | cons m ms ih =>
    refine (applyMark_outcome hd hc m.1 m.2).bind fun r hr => ?_
    exact (ih hr.1 hr.2.1).imp fun _ h => hr.trans h

end Frontend.Hygiene
