import Frontend.Span.HygieneRun

namespace Frontend.Hygiene

open HygieneData Library List

variable {d d' : HygieneData} {L : List (List Mark)} {c g : Nat} {l : List Mark}
variable {e : ExpnId} {t : Transparency}

abbrev Registration := HygieneData → ExpnId → ExpnData → Prop

inductive Step (ok : Registration) : HygieneData → HygieneData → Prop
  | freshEmpty (d : HygieneData) : Step ok d d.freshEmpty.2
  | fresh {d : HygieneData} {x : ExpnData} : x.callSite < d.size → ok d d.freshEmpty.1 x → Step ok d (d.fresh x).2
  | setExpnData {d d' : HygieneData} {i : Nat} {x : ExpnData} :
      x.callSite < d.size → ok d ⟨localCrate,i⟩ x → d.setExpnData i x = .ok d' → Step ok d d'
  | registerExpnId {d : HygieneData} {e : ExpnId} {x : ExpnData} :
      x.callSite < d.size → ok d e x → e.krate ≠ localCrate → Step ok d (d.registerExpnId e x)
  | allocCtxt {d d' : HygieneData} {c c' : SyntaxContext} {e : ExpnId} {t : Transparency} :
      c < d.size → e ≠ ExpnId.root → d.allocCtxt c e t = .ok (c',d') → Step ok d d'
  | applyMark {d d' : HygieneData} {c c' : SyntaxContext} {e : ExpnId} {t : Transparency} :
      c < d.size → d.applyMark c e t = .ok (c',d') → Step ok d d'

def anyRegistration : Registration := fun _ _ _ => True

def parentFirst : Registration := fun d e x => d.expnData? e = none ∧ (d.expnData? x.parent).isSome

def Registers (d d' : HygieneData) (e : ExpnId) (x : ExpnData) : Prop :=
  d'.syntaxContextData = d.syntaxContextData ∧ d'.syntaxContextMap = d.syntaxContextMap ∧
    ∀ e', d'.expnData? e' = if e' = e then some x else d.expnData? e'

theorem Inv.of_contexts_eq (hI : Inv H d L) (hc : d'.syntaxContextData = d.syntaxContextData)
    (hm : d'.syntaxContextMap = d.syntaxContextMap) : Inv H d' L := by
  cases d with
  | mk le fe cs cm =>
    cases d' with
    | mk le' fe' cs' cm' =>
      subst hc hm
      exact ⟨hI.length_eq,hI.root_marks,hI.root_filled,hI.injective,hI.closed,hI.nonroot,
        hI.mapped,hI.covered,hI.named,hI.filled,hI.normalized,hI.rooted⟩

theorem expnData?_local (i : Nat) : d.expnData? ⟨localCrate,i⟩ = (d.localExpnData[i]?).join := by
  simp [expnData?,ExpnId.asLocal]

theorem expnData?_foreign (he : e.krate ≠ localCrate) : d.expnData? e = d.foreignExpnData e := by
  simp [expnData?,ExpnId.asLocal,he]

theorem ExpnId.local_or_foreign (e : ExpnId) : (∃ i, e = ⟨localCrate,i⟩) ∨ e.krate ≠ localCrate := by
  by_cases h : e.krate = localCrate
  · exact .inl ⟨e.localId,by rw [← h]⟩
  · exact .inr h

theorem freshEmpty_expnData? (e : ExpnId) : d.freshEmpty.2.expnData? e = d.expnData? e := by
  rcases e.local_or_foreign with ⟨i,rfl⟩ | he
  · simp only [expnData?_local,freshEmpty,getElem?_append]
    split
    · rfl
    · rename_i h
      rw [getElem?_eq_none (by omega : d.localExpnData.length ≤ i)]
      cases hi : i - d.localExpnData.length <;> simp
  · simp [expnData?_foreign he,freshEmpty]

theorem registers_fresh (x : ExpnData) : Registers d (d.fresh x).2 d.freshEmpty.1 x := by
  refine ⟨rfl,rfl,fun e => ?_⟩
  rcases e.local_or_foreign with ⟨i,rfl⟩ | he
  · simp only [expnData?_local,fresh,freshEmpty,ExpnId.mk.injEq,true_and]
    by_cases hi : i = d.localExpnData.length
    · subst hi
      simp
    rw [if_neg hi,getElem?_append]
    split
    · rfl
    · rename_i h
      rw [getElem?_eq_none (by omega : d.localExpnData.length ≤ i),getElem?_eq_none (by simp; omega)]
  · have hne : e ≠ d.freshEmpty.1 := fun h => he (by rw [h]; rfl)
    simp only [expnData?_foreign he,fresh,if_neg hne]

theorem registers_setExpnData (h : d.setExpnData i x = .ok d') : Registers d d' ⟨localCrate,i⟩ x := by
  unfold setExpnData at h
  split at h
  · cases h
  · cases h
  · rename_i hi
    cases h
    refine ⟨rfl,rfl,fun e => ?_⟩
    have hlt := lt_of_getElem? hi
    rcases e.local_or_foreign with ⟨j,rfl⟩ | he
    · simp only [expnData?_local,getElem?_set,ExpnId.mk.injEq,true_and]
      by_cases hj : j = i
      · subst hj
        simp [hlt]
      · simp [hj,Ne.symm hj]
    · have hne : e ≠ ⟨localCrate,i⟩ := fun h => he (by rw [h])
      simp only [expnData?_foreign he,if_neg hne]

theorem registers_registerExpnId (he : e.krate ≠ localCrate) : Registers d (d.registerExpnId e x) e x := by
  refine ⟨rfl,rfl,fun e' => ?_⟩
  rcases e'.local_or_foreign with ⟨j,rfl⟩ | he'
  · have hne : (⟨localCrate,j⟩ : ExpnId) ≠ e := fun h => he (by rw [← h])
    simp only [expnData?_local,registerExpnId,if_neg hne]
  · simp only [expnData?_foreign he',registerExpnId,Function.update_apply]

theorem Step.cases (hd : WellFormed d) (h : Step ok d d') :
    (d'.syntaxContextData = d.syntaxContextData ∧ d'.syntaxContextMap = d.syntaxContextMap ∧
    ∀ e, d'.expnData? e = d.expnData? e) ∨
    (∃ e x, x.callSite < d.size ∧ ok d e x ∧ Registers d d' e x) ∨ ∃ c, Grows d (c,d') := by
  cases h with
  | freshEmpty => exact .inl ⟨rfl,rfl,freshEmpty_expnData?⟩
  | fresh hx hok => exact .inr (.inl ⟨_,_,hx,hok,registers_fresh _⟩)
  | setExpnData hx hok h => exact .inr (.inl ⟨_,_,hx,hok,registers_setExpnData h⟩)
  | registerExpnId hx hok he => exact .inr (.inl ⟨_,_,hx,hok,registers_registerExpnId he⟩)
  | allocCtxt hc he h => exact .inr (.inr ⟨_,(allocCtxt_outcome hd hc he _).of_ok h⟩)
  | applyMark hc h => exact .inr (.inr ⟨_,(applyMark_outcome hd hc _ _).of_ok h⟩)

theorem WellFormed.new : WellFormed new := by
  refine ⟨⟨_,Inv.new⟩,fun e x hx => ?_⟩
  rcases e.local_or_foreign with ⟨i,rfl⟩ | he
  · rw [expnData?_local] at hx
    cases i with
    | zero => simp [HygieneData.new] at hx; subst hx; decide
    | succ i => simp [HygieneData.new] at hx
  · rw [expnData?_foreign he] at hx
    simp [HygieneData.new] at hx

theorem Step.wellFormed (hd : WellFormed d) (h : Step ok d d') : WellFormed d' := by
  rcases h.cases hd with ⟨hc,hm,he⟩ | ⟨e,x,hx,_,hc,hm,he⟩ | ⟨c,hg⟩
  · obtain ⟨⟨L,hI⟩,hcs⟩ := hd
    refine ⟨⟨L,hI.of_contexts_eq hc hm⟩,fun e' y hy => ?_⟩
    rw [he] at hy
    simpa [size,hc] using hcs e' y hy
  · obtain ⟨⟨L,hI⟩,hcs⟩ := hd
    refine ⟨⟨L,hI.of_contexts_eq hc hm⟩,fun e' y hy => ?_⟩
    rw [he] at hy
    split at hy
    · cases hy
      simpa [size,hc] using hx
    · simpa [size,hc] using hcs e' y hy
  · exact hg.1

def Reached (ok : Registration) : HygieneData → Prop := Reachable (· = HygieneData.new) (Step ok)

theorem Reached.wellFormed (h : Reached ok d) : WellFormed d :=
  h.invariant (fun _ h0 => h0 ▸ WellFormed.new) fun _ _ hI hs => hs.wellFormed hI

inductive Chain (d : HygieneData) : ExpnId → Prop
  | root : Chain d ExpnId.root
  | child {e : ExpnId} {x : ExpnData} : d.expnData? e = some x → Chain d x.parent → Chain d e

theorem Chain.mono (h : Chain d e) (hd : ∀ e x, d.expnData? e = some x → d'.expnData? e = some x) : Chain d' e := by
  induction h with
  | root => exact .root
  | child hx _ ih => exact .child (hd _ _ hx) ih

theorem Chain.grounded (h : Chain d e) : Grounded d e := by
  induction h with
  | root => exact .root
  | child hx _ ih => exact .child hx ih

def Chained (d : HygieneData) : Prop := ∀ e x, d.expnData? e = some x → Chain d e

theorem Chained.new : Chained new := by
  intro e x hx
  rcases e.local_or_foreign with ⟨i,rfl⟩ | he
  · rw [expnData?_local] at hx
    cases i with
    | zero => exact .root
    | succ i => simp [HygieneData.new] at hx
  · rw [expnData?_foreign he] at hx
    simp [HygieneData.new] at hx

theorem Step.chained (hd : WellFormed d) (hch : Chained d) (h : Step parentFirst d d') : Chained d' := by
  rcases h.cases hd with ⟨_,_,he⟩ | ⟨e,x,_,⟨hn,hp⟩,_,_,he⟩ | ⟨c,hg⟩
  · intro e' y hy
    rw [he] at hy
    exact (hch e' y hy).mono fun e x hx => (he e).trans hx
  · have hm e' y (hy : d.expnData? e' = some y) : d'.expnData? e' = some y := by
      rw [he,if_neg,hy]
      rintro rfl
      simp [hn] at hy
    intro e' y hy
    rw [he] at hy
    split at hy
    · rename_i heq
      subst heq
      cases hy
      obtain ⟨z,hz⟩ := Option.isSome_iff_exists.mp hp
      exact .child (by rw [he,if_pos rfl]) ((hch _ z hz).mono hm)
    · exact (hch e' y hy).mono hm
  · intro e' y hy
    rw [hg.2.2.2.expnData?_eq] at hy
    exact (hch e' y hy).mono fun e x hx => (hg.2.2.2.expnData?_eq e).trans hx

theorem Reached.chained (h : Reached parentFirst d) : Chained d := by
  apply And.right (a := WellFormed d)
  refine h.invariant (I := fun d => WellFormed d ∧ Chained d) ?_ ?_
  · rintro _ rfl
    exact ⟨WellFormed.new,Chained.new⟩
  · rintro d d' ⟨hd,hch⟩ hs
    exact ⟨hs.wellFormed hd,hs.chained hd hch⟩

section

variable (hd : WellFormed d) (he : Settles d e n) (hc : c < d.size) (hg : g < d.size) (hf : n + d.size < fuel)

include hd he hc hg hf

theorem globAdjust_outcome :
    Outcome benign (fun _ => True) (d.globAdjust fuel c e g) := by
  refine (normalize_outcome hd hg).1.bind fun g' hg' => ?_
  refine (globLoop_outcome hd he hg' hc (by omega)).bind fun r hr => ?_
  cases r with
  | none => simp
  | some r =>
    have hlt := hr r rfl
    refine (adjustLoop_outcome hd he hlt (by omega)).bind fun s _ => ?_
    dsimp only
    split <;> simp

theorem reverseGlobAdjust_outcome :
    Outcome benign (fun _ => True) (d.reverseGlobAdjust fuel c e g) := by
  refine (adjustLoop_outcome hd he hc (by omega)).bind fun r hr => ?_
  dsimp only
  split
  · simp
  · refine (normalize_outcome hd hg).1.bind fun g' hg' => ?_
    refine (globMarks_outcome hd he hg' (by omega)).bind fun ms _ => ?_
    exact (applyMarks_outcome hd hr).bind fun s _ => trivial

end

def Halts (d : HygieneData) (e : ExpnId) (fuel : Nat) (c g : SyntaxContext) : Prop :=
  d.adjust fuel c e ≠ .error .diverged ∧ d.globAdjust fuel c e g ≠ .error .diverged ∧
    d.reverseGlobAdjust fuel c e g ≠ .error .diverged

theorem halts_of_grounded (hd : WellFormed d) (he : Grounded d e) :
    ∃ n, ∀ fuel ≥ n, ∀ c g, c < d.size → g < d.size → Halts d e fuel c g := by
  obtain ⟨n,hn⟩ := he.settles
  refine ⟨n + d.size + 1,fun fuel hf c g hc hg => ?_⟩
  have h1 : Outcome benign (fun r => r.2 < d.size) (d.adjust fuel c e) := adjustLoop_outcome hd hn hc (by omega)
  have h2 := globAdjust_outcome hd hn hc hg (by omega : n + d.size < fuel)
  have h3 := reverseGlobAdjust_outcome hd hn hc hg (by omega : n + d.size < fuel)
  exact ⟨fun h => (h1.error_of h).2 rfl,fun h => (h2.error_of h).2 rfl,fun h => (h3.error_of h).2 rfl⟩

theorem WellFormed.marks_injective (hd : WellFormed d) (hc : c < d.size) (hc' : c' < d.size) :
    d.marks c = d.marks c' ↔ c = c' := by
  obtain ⟨⟨L,hI⟩,_⟩ := hd
  obtain ⟨l,hl⟩ := hI.marks_of_lt hc
  obtain ⟨l',hl'⟩ := hI.marks_of_lt hc'
  rw [hI.marks_eq hl,hI.marks_eq hl',Except.ok.injEq]
  constructor
  · rintro rfl
    exact hI.injective hl hl'
  · rintro rfl
    exact Option.mem_unique hl hl'

def NormalizesTo (d : HygieneData) (c : SyntaxContext) (l : List Mark) : Prop :=
  ∃ o os, d.normalizeToMacros20 c = .ok o ∧ d.marks o = .ok (l.filter isOpaqueMark) ∧ d.normalizeToMacros20 o = .ok o ∧
    d.normalizeToMacroRules c = .ok os ∧ d.marks os = .ok (l.filter isNonTransparentMark) ∧
    d.normalizeToMacroRules os = .ok os

theorem Inv.normalizes (hI : Inv [] d L) (hl : L[c]? = some l) :
    ∃ x, d.ctxtData c = .ok x ∧ L[x.opaqueCtxt]? = some (l.filter isOpaqueMark) ∧
      L[x.opaqueAndSemiOpaque]? = some (l.filter isNonTransparentMark) := by
  obtain ⟨x,hx⟩ := hI.data_of_marks hl
  exact ⟨x,by simp [ctxtData,hx,orPanic],hI.normalized (by simp) hx hl⟩

theorem WellFormed.normalizesTo (hd : WellFormed d) (hc : c < d.size) : ∃ l, d.marks c = .ok l ∧ NormalizesTo d c l := by
  obtain ⟨⟨L,hI⟩,_⟩ := hd
  obtain ⟨l,hl⟩ := hI.marks_of_lt hc
  obtain ⟨x,hx,ho,hos⟩ := hI.normalizes hl
  obtain ⟨y,hy,hoo,_⟩ := hI.normalizes ho
  obtain ⟨z,hz,_,hosos⟩ := hI.normalizes hos
  rw [filter_filter] at hoo hosos
  simp only [Bool.and_self] at hoo hosos
  have hyo := hI.injective hoo ho
  have hzo := hI.injective hosos hos
  refine ⟨l,hI.marks_eq hl,x.opaqueCtxt,x.opaqueAndSemiOpaque,?_,hI.marks_eq ho,?_,?_,hI.marks_eq hos,?_⟩
  · simp [normalizeToMacros20,hx,pure,Except.pure]
  · simp [normalizeToMacros20,hy,hyo,pure,Except.pure]
  · simp [normalizeToMacroRules,hx,pure,Except.pure]
  · simp [normalizeToMacroRules,hz,hzo,pure,Except.pure]

theorem WellFormed.parent_lt (hd : WellFormed d) (h0 : c ≠ 0) (hx : d.ctxtData c = .ok x) : x.parent < c := by
  obtain ⟨⟨L,hI⟩,_⟩ := hd
  refine hI.parent_lt h0 ?_
  cases h : d.syntaxContextData[c]? with
  | none => simp [ctxtData,h,orPanic] at hx
  | some y => simpa [ctxtData,h,orPanic] using hx

theorem WellFormed.name_ne_dummy (hd : WellFormed d) (hx : d.ctxtData c = .ok x) : x.dollarCrateName ≠ symDummy := by
  obtain ⟨⟨L,hI⟩,_⟩ := hd
  cases h : d.syntaxContextData[c]? with
  | none => simp [ctxtData,h,orPanic] at hx
  | some y =>
    simp only [ctxtData,h,orPanic,Except.ok.injEq] at hx
    exact hx ▸ hI.named (by simp) h

theorem reached_contexts_hash_consed (h : Reached anyRegistration d) :
    (∀ c c', c < d.size → c' < d.size → (d.marks c = d.marks c' ↔ c = c')) ∧
    (∀ c x, c ≠ 0 → d.ctxtData c = .ok x → x.parent < c) ∧
    (∀ e, Grounded d e → ∃ n, ∀ fuel ≥ n, ∀ c g, c < d.size → g < d.size → Halts d e fuel c g) ∧
    (Reached parentFirst d → ∀ e x, d.expnData? e = some x → Grounded d e) ∧
    (∀ c, c < d.size → ∃ l, d.marks c = .ok l ∧ NormalizesTo d c l) ∧
    (∀ c x, d.ctxtData c = .ok x → x.dollarCrateName ≠ symDummy) ∧
    ∀ c e t, c < d.size → d.applyMark c e t ≠ .error .dummyParent ∧ d.applyMark c e t ≠ .error .diverged := by
  have hd := h.wellFormed
  refine ⟨fun c c' hc hc' => hd.marks_injective hc hc',fun c x h0 hx => hd.parent_lt h0 hx,
    fun e he => halts_of_grounded hd he,fun hr e x hx => (hr.chained e x hx).grounded,
    fun c hc => hd.normalizesTo hc,fun c x hx => hd.name_ne_dummy hx,fun c e t hc => ?_⟩
  have hb := applyMark_outcome hd hc e t
  exact ⟨fun he => (hb.error_of he).1 rfl,fun he => (hb.error_of he).2 rfl⟩

def macroCall : HygieneData := (HygieneData.new.fresh ⟨.root,0⟩).2

theorem macroCall_reached : Reached anyRegistration macroCall := ⟨new,rfl,.single (.fresh (by decide) trivial)⟩

-- A macro call, a second one inside its expansion, and marks of the three transparencies.
theorem nested_calls_hash_consed : ∃ d, Reached anyRegistration d ∧ Reached parentFirst d ∧ d.size = 4 ∧
      (∀ c c', c < d.size → c' < d.size → (d.marks c = d.marks c' ↔ c = c')) ∧
      (∃ n, ∀ fuel ≥ n, ∀ c g, c < d.size → g < d.size → Halts d ⟨0,2⟩ fuel c g) ∧
      ∀ c, c < d.size → ∃ l, d.marks c = .ok l ∧ NormalizesTo d c l := by
  obtain ⟨c₁,d₁,c₂,d₂,c₃,d₃,h₁,h₂,h₃,hc₂,hs₁,hn,hp,hs₃,hx⟩ : ∃ c₁ d₁ c₂ d₂ c₃ d₃,
      macroCall.applyMark 0 ⟨0,1⟩ .SemiOpaque = .ok (c₁,d₁) ∧ (d₁.fresh ⟨⟨0,1⟩,1⟩).2.applyMark 0 ⟨0,2⟩ .Opaque =
        .ok (c₂,d₂) ∧
      d₂.applyMark c₂ ⟨0,1⟩ .Transparent = .ok (c₃,d₃) ∧ c₂ < d₂.size ∧ d₁.size = 2 ∧
        d₁.expnData? d₁.freshEmpty.1 = none ∧
      (d₁.expnData? ⟨0,1⟩).isSome ∧ d₃.size = 4 ∧ d₃.expnData? ⟨0,2⟩ = some ⟨⟨0,1⟩,1⟩ :=
    ⟨_,_,_,_,_,_,rfl,rfl,rfl,by decide,rfl,rfl,rfl,rfl,rfl⟩
  have hru (ok : Registration) (h0 : Reached ok macroCall) (hok : ok d₁ d₁.freshEmpty.1 ⟨⟨0,1⟩,1⟩) : Reached ok d₃ := by
    have hs : Step ok d₁ (d₁.fresh ⟨⟨0,1⟩,1⟩).2 := .fresh (by show 1 < d₁.size; omega) hok
    have hl : 0 < (d₁.fresh ⟨⟨0,1⟩,1⟩).2.size := by show 0 < d₁.size; omega
    exact (((h0.tail (.applyMark (by decide) h₁)).tail hs).tail (.applyMark hl h₂)).tail (.applyMark hc₂ h₃)
  have hr := hru anyRegistration macroCall_reached trivial
  have hpf := hru parentFirst ⟨new,rfl,.single (.fresh (by decide) ⟨rfl,rfl⟩)⟩ ⟨hn,hp⟩
  obtain ⟨hi,_,hh,hg,hno,_⟩ := reached_contexts_hash_consed hr
  exact ⟨d₃,hr,hpf,hs₃,hi,hh _ (hg hpf _ _ hx),hno⟩

end Frontend.Hygiene
