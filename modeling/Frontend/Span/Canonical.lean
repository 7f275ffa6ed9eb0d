import Mathlib.Data.Nat.Bitwise
import Mathlib.Tactic
import Frontend.Library.Run
import Frontend.Span.Encoding

namespace Frontend.SpanEncoding

open Library List Option SpanEncoding.Span SpanInterner

variable {I J : SpanInterner} {sp sp' : Span} {d d' : SpanData}
variable {lo hi c i : UInt32} {p : Option UInt32}

theorem toUInt16_toUInt32 {x : UInt32} (h : x ≤ 0x7FFE) : x.toUInt16.toUInt32 = x := by
  apply UInt32.toNat_inj.mp
  rw [UInt32.le_iff_toNat_le] at h
  simp at h ⊢
  omega

theorem toNat_toUInt16 {x : UInt32} (h : x ≤ 0x7FFE) : x.toUInt16.toNat ≤ 0x7FFE := by
  rw [UInt32.le_iff_toNat_le] at h
  simp at h ⊢
  omega

variable {x len ctxt : UInt16} {a b : UInt32}

theorem and_parentTag_iff (x : UInt16) : x &&& parentTag = 0 ↔ x.toNat.testBit 15 = false := by
  rw [← UInt16.toNat_inj,UInt16.toNat_and,Nat.and_comm]
  have := Nat.two_pow_and x.toNat 15
  cases h : x.toNat.testBit 15 <;> simp [parentTag,h] at this ⊢ <;> omega

theorem toNat_clear (x : UInt16) : (x &&& ~~~parentTag).toNat = x.toNat % 2 ^ 15 := by
  rw [UInt16.toNat_and]
  exact Nat.and_two_pow_sub_one_eq_mod x.toNat 15

section

variable (h : x.toNat ≤ 0x7FFE)

include h

theorem ne_marker : x ≠ baseLenInternedMarker := by
  rintro rfl
  revert h
  decide

theorem toNat_parentTag_or : (parentTag ||| x).toNat = 0x8000 + x.toNat := by
  rw [UInt16.toNat_or]
  have := Nat.two_pow_add_eq_or_of_lt (by omega : x.toNat < 2 ^ 15) 1
  simpa [parentTag] using this.symm

theorem tagged_ne_marker : parentTag ||| x ≠ baseLenInternedMarker := by
  intro he
  have := toNat_parentTag_or h
  rw [he] at this
  simp [baseLenInternedMarker] at this
  omega

theorem tagged_and_parentTag : (parentTag ||| x) &&& parentTag ≠ 0 := by
  rw [Ne,and_parentTag_iff,toNat_parentTag_or h,Nat.testBit_eq_decide_div_mod_eq]
  simp
  omega

theorem clear_parentTag : x &&& ~~~parentTag = x := by
  apply UInt16.toNat_inj.mp
  rw [toNat_clear]
  omega

theorem tagged_clear : (parentTag ||| x) &&& ~~~parentTag = x := by
  apply UInt16.toNat_inj.mp
  rw [toNat_clear,toNat_parentTag_or h]
  omega

end

def Inline (lo hi c : UInt32) (p : Option UInt32) : Prop :=
  hi - lo ≤ maxLen ∧ c ≤ maxCtxt ∧ (p = none ∨ c = 0 ∧ ∃ q, p = some q ∧ q ≤ maxCtxt)

inductive Encodes (I : SpanInterner) : Span → SpanData → Prop
  | inlineCtxt {lo hi c : UInt32} : lo ≤ hi → hi - lo ≤ maxLen → c ≤ maxCtxt →
      Encodes I (inlineCtxtSpan lo (hi - lo).toUInt16 c.toUInt16) ⟨lo,hi,c,none⟩
  | inlineParent {lo hi q : UInt32} : lo ≤ hi → hi - lo ≤ maxLen → q ≤ maxCtxt →
      Encodes I (inlineParentSpan lo (hi - lo).toUInt16 q.toUInt16) ⟨lo,hi,0,some q⟩
  | partiallyInterned {lo hi c i : UInt32} {p : Option UInt32} : lo ≤ hi → ¬Inline lo hi c p →
      c ≤ maxCtxt → I.get i = some ⟨lo,hi,0xFFFFFFFF,p⟩ →
      Encodes I (partiallyInternedSpan i c.toUInt16) ⟨lo,hi,c,p⟩
  | interned {lo hi c i : UInt32} {p : Option UInt32} : lo ≤ hi → ¬c ≤ maxCtxt →
      I.get i = some ⟨lo,hi,c,p⟩ → Encodes I (internedSpan i) ⟨lo,hi,c,p⟩

theorem Encodes.sorted (h : Encodes I sp d) : d.lo ≤ d.hi := by cases h <;> assumption

theorem SpanInterner.get_mono (hIJ : I <+: J) (h : I.get i = some d) : J.get i = some d := by
  obtain ⟨K,rfl⟩ := hIJ
  unfold get at h ⊢
  rw [List.getElem?_append_left (List.getElem_of_getElem? h).1]
  exact h

theorem Encodes.mono (h : Encodes I sp d) (hIJ : I <+: J) : Encodes J sp d := by
  cases h with
  | inlineCtxt h1 h2 h3 => exact .inlineCtxt h1 h2 h3
  | inlineParent h1 h2 h3 => exact .inlineParent h1 h2 h3
  | partiallyInterned h1 h2 h3 h4 => exact .partiallyInterned h1 h2 h3 (get_mono hIJ h4)
  | interned h1 h2 h3 => exact .interned h1 h2 (get_mono hIJ h3)

theorem dataUntracked_mono (hIJ : I <+: J) (h : sp.dataUntracked I = some d) : sp.dataUntracked J = some d := by
  unfold dataUntracked at h ⊢
  cases hk : sp.kind with
  | InlineCtxt lo len ctxt => simpa [hk] using h
  | InlineParent lo lenWithTag parent => simpa [hk] using h
  | PartiallyInterned index ctxt =>
    simp only [hk,map_eq_some_iff] at h ⊢
    obtain ⟨data,hd,h⟩ := h
    exact ⟨data,get_mono hIJ hd,h⟩
  | Interned index =>
    simp only [hk] at h ⊢
    exact get_mono hIJ h

theorem kind_inlineCtxt (h : a ≤ maxLen) : (inlineCtxtSpan lo a.toUInt16 ctxt).kind =
    .InlineCtxt lo a.toUInt16 ctxt := by
  have h := toNat_toUInt16 h
  simp [kind,inlineCtxtSpan,ne_marker h,(and_parentTag_iff _).mpr
    (Nat.testBit_lt_two_pow (Nat.lt_succ_of_le h |>.trans (by decide)))]

theorem kind_inlineParent (h : a ≤ maxLen) : (inlineParentSpan lo a.toUInt16 q).kind = .InlineParent lo
    (parentTag ||| a.toUInt16) q := by
  have h := toNat_toUInt16 h
  simp [kind,inlineParentSpan,tagged_ne_marker h,tagged_and_parentTag h]

@[simp] theorem kind_partiallyInterned (h : c ≤ maxCtxt) :
    (partiallyInternedSpan i c.toUInt16).kind = .PartiallyInterned i c.toUInt16 := by
  have hne : c.toUInt16 ≠ ctxtInternedMarker := ne_marker (toNat_toUInt16 h)
  simp [kind,partiallyInternedSpan,hne]

@[simp] theorem kind_interned : (internedSpan i).kind = .Interned i := by simp [kind,internedSpan]

theorem inlineCtxtData_eq (hl : hi - lo ≤ maxLen) (hc : c ≤ maxCtxt) :
    inlineCtxtData lo (hi - lo).toUInt16 c.toUInt16 = ⟨lo,hi,c,none⟩ := by
  unfold inlineCtxtData
  rw [toUInt16_toUInt32 hl,toUInt16_toUInt32 hc,UInt32.add_comm,UInt32.sub_add_cancel]

theorem inlineParentData_eq {q : UInt32} (hl : hi - lo ≤ maxLen) (hq : q ≤ maxCtxt) :
    inlineParentData lo (parentTag ||| (hi - lo).toUInt16) q.toUInt16 = ⟨lo,hi,0,some q⟩ := by
  unfold inlineParentData
  rw [tagged_clear (toNat_toUInt16 hl),toUInt16_toUInt32 hl,toUInt16_toUInt32 hq,UInt32.add_comm,UInt32.sub_add_cancel]

theorem Encodes.dataUntracked (h : Encodes I sp d) : sp.dataUntracked I = some d := by
  cases h with
  | inlineCtxt _ hl hc => simp only [dataUntracked,kind_inlineCtxt hl,inlineCtxtData_eq hl hc]
  | inlineParent _ hl hq => simp only [dataUntracked,kind_inlineParent hl,inlineParentData_eq hl hq]
  | partiallyInterned _ _ hc hg => simp [dataUntracked,hc,hg,toUInt16_toUInt32 hc]
  | interned _ _ hg => simp [dataUntracked,hg]

theorem SpanInterner.intern_of_get (hI : I.Nodup) (h : I.get i = some d) : I.intern d = (i,I) := by
  unfold get at h
  obtain ⟨hlt,hg⟩ := List.getElem_of_getElem? h
  have hm : d ∈ I := hg ▸ List.getElem_mem hlt
  have hid : I.idxOf d = i.toNat := by
    rw [← hg]
    exact hI.idxOf_getElem _ hlt
  simp [intern,hm,hid]

theorem SpanInterner.intern_spec (hI : I.Nodup) (hl : (I.intern d).2.length ≤ 2 ^ 32) :
    (I.intern d).2.Nodup ∧ I <+: (I.intern d).2 ∧ (I.intern d).2.get (I.intern d).1 = some d := by
  unfold intern at hl ⊢
  split
  · rename_i hm
    have hlt := idxOf_lt_length_iff.mpr hm
    rw [if_pos hm] at hl
    refine ⟨hI,prefix_rfl,?_⟩
    dsimp only at hl
    have ho : (UInt32.ofNat (I.idxOf d)).toNat = I.idxOf d := UInt32.toNat_ofNat_of_lt' (by simp [UInt32.size]; omega)
    simp only [get,ho,getElem?_eq_getElem hlt,getElem_idxOf]
  · rename_i hm
    rw [if_neg hm] at hl
    simp only [length_append,length_singleton] at hl
    have ho : (UInt32.ofNat I.length).toNat = I.length := UInt32.toNat_ofNat_of_lt' (by simp [UInt32.size]; omega)
    refine ⟨?_,prefix_append _ _,?_⟩
    · rw [nodup_append]
      refine ⟨hI,by simp,fun a ha b hb => ?_⟩
      rw [mem_singleton.mp hb]
      exact fun h => hm (h ▸ ha)
    · simp [get,ho]

def sortedData (lo hi c : UInt32) (p : Option UInt32) : SpanData := ⟨min lo hi,max lo hi,c,p⟩

theorem zero_le_maxCtxt : (0 : UInt32) ≤ maxCtxt := by decide

theorem newSorted_inlineCtxt (hl : hi - lo ≤ maxLen) (hc : c ≤ maxCtxt) :
    newSorted lo hi c none I = (inlineCtxtSpan lo (hi - lo).toUInt16 c.toUInt16,I) := by
  simp only [newSorted,hl,hc,and_self,if_true]

theorem newSorted_inlineParent (hl : hi - lo ≤ maxLen) (hq : q ≤ maxCtxt) :
    newSorted lo hi 0 (some q) I = (inlineParentSpan lo (hi - lo).toUInt16 q.toUInt16,I) := by
  simp only [newSorted,hl,hq,zero_le_maxCtxt,and_self,if_true]

theorem newSorted_interned (h : ¬Inline lo hi c p) : newSorted lo hi c p I =
      if c ≤ maxCtxt then
        (partiallyInternedSpan (I.intern ⟨lo,hi,0xFFFFFFFF,p⟩).1 c.toUInt16,(I.intern ⟨lo,hi,0xFFFFFFFF,p⟩).2)
      else (internedSpan (I.intern ⟨lo,hi,c,p⟩).1,(I.intern ⟨lo,hi,c,p⟩).2) := by
  unfold newSorted
  unfold Inline at h
  dsimp only
  split
  · rename_i hin
    rcases p with _ | q
    · exact absurd ⟨hin.1,hin.2,.inl rfl⟩ h
    dsimp only
    rw [if_neg]
    rintro ⟨h0,hq⟩
    exact h ⟨hin.1,hin.2,.inr ⟨h0,q,rfl,hq⟩⟩
  · rfl

theorem Inline.cases (h : Inline lo hi c p) : hi - lo ≤ maxLen ∧
    (c ≤ maxCtxt ∧ p = none ∨ c = 0 ∧ ∃ q, p = some q ∧ q ≤ maxCtxt) := by
  obtain ⟨h1,h2,h3 | h3⟩ := h
  · exact ⟨h1,.inl ⟨h2,h3⟩⟩
  · exact ⟨h1,.inr h3⟩

theorem newSorted_spec (hI : I.Nodup) (hle : lo ≤ hi) (hl : (newSorted lo hi c p I).2.length ≤ 2 ^ 32) :
    (newSorted lo hi c p I).2.Nodup ∧ I <+: (newSorted lo hi c p I).2 ∧
      Encodes (newSorted lo hi c p I).2 (newSorted lo hi c p I).1 ⟨lo,hi,c,p⟩ := by
  by_cases hin : Inline lo hi c p
  · obtain ⟨hl',⟨hc,rfl⟩ | ⟨rfl,q,rfl,hq⟩⟩ := hin.cases
    · rw [newSorted_inlineCtxt hl' hc]
      exact ⟨hI,prefix_rfl,.inlineCtxt hle hl' hc⟩
    · rw [newSorted_inlineParent hl' hq]
      exact ⟨hI,prefix_rfl,.inlineParent hle hl' hq⟩
  · rw [newSorted_interned hin] at hl ⊢
    split
    · rename_i hc
      rw [if_pos hc] at hl
      obtain ⟨h1,h2,h3⟩ := intern_spec hI hl
      exact ⟨h1,h2,.partiallyInterned hle hin hc h3⟩
    · rename_i hc
      rw [if_neg hc] at hl
      obtain ⟨h1,h2,h3⟩ := intern_spec hI hl
      exact ⟨h1,h2,.interned hle hc h3⟩

theorem Encodes.newSorted_eq (hI : I.Nodup) (h : Encodes I sp d) : newSorted d.lo d.hi d.ctxt d.parent I = (sp,I) := by
  cases h with
  | inlineCtxt _ hl hc => exact newSorted_inlineCtxt hl hc
  | inlineParent _ hl hq => exact newSorted_inlineParent hl hq
  | partiallyInterned _ hin hc hg => rw [newSorted_interned hin,if_pos hc,intern_of_get hI hg]
  | interned _ hc hg => rw [newSorted_interned fun h => hc h.2.1,if_neg hc,intern_of_get hI hg]

theorem new_of_le (h : lo ≤ hi) : new lo hi c p I = newSorted lo hi c p I := by
  unfold new
  rw [if_neg (UInt32.not_lt.mpr h)]

theorem new_eq_newSorted : new lo hi c p I = newSorted (min lo hi) (max lo hi) c p I := by
  have hm : min lo hi = if lo ≤ hi then lo else hi := rfl
  have hx : max lo hi = if lo ≤ hi then hi else lo := rfl
  by_cases h : lo ≤ hi
  · rw [new_of_le h,hm,hx,if_pos h,if_pos h]
  · rw [hm,hx,if_neg h,if_neg h]
    exact if_pos (UInt32.not_le.mp h)

theorem le_max (a b : UInt32) : a ≤ max a b := by
  have hx : max a b = if a ≤ b then b else a := rfl
  rw [hx]
  split
  · assumption
  · exact UInt32.le_refl a

theorem new_spec (hI : I.Nodup) (hl : (new lo hi c p I).2.length ≤ 2 ^ 32) :
    (new lo hi c p I).2.Nodup ∧ I <+: (new lo hi c p I).2 ∧
      Encodes (new lo hi c p I).2 (new lo hi c p I).1 (sortedData lo hi c p) := by
  rw [new_eq_newSorted] at hl ⊢
  exact newSorted_spec hI (UInt32.le_trans Std.min_le_left (le_max _ _)) hl

theorem Encodes.new_eq (hI : I.Nodup) (h : Encodes I sp d) : new d.lo d.hi d.ctxt d.parent I = (sp,I) := by
  rw [new_of_le h.sorted,h.newSorted_eq hI]

theorem Encodes.eq_iff (hI : I.Nodup) (h : Encodes I sp d) (h' : Encodes I sp' d') : sp = sp' ↔ d = d' := by
  constructor
  · rintro rfl
    exact mem_unique h.dataUntracked h'.dataUntracked
  · rintro rfl
    exact congrArg Prod.fst ((h.new_eq hI).symm.trans (h'.new_eq hI))

section

variable (h : Encodes I sp d)

include h

theorem Encodes.inlineCtxt_eq : (sp.inlineCtxt = .ok d.ctxt ∧ d.ctxt ≤ maxCtxt) ∨
      ∃ i, sp.inlineCtxt = .error i ∧ I.get i = some d ∧ ¬d.ctxt ≤ maxCtxt := by
  cases h with
  | inlineCtxt _ hl hc => exact .inl ⟨by simp only [Span.inlineCtxt,kind_inlineCtxt hl,toUInt16_toUInt32 hc],hc⟩
  | inlineParent _ hl hq => exact .inl ⟨by simp only [Span.inlineCtxt,kind_inlineParent hl],zero_le_maxCtxt⟩
  | partiallyInterned _ _ hc _ => simp [Span.inlineCtxt,hc,toUInt16_toUInt32 hc]
  | interned _ hc hg => simp [Span.inlineCtxt,hc,hg]

theorem Encodes.ctxt_eq : sp.ctxt I = some d.ctxt := by
  unfold ctxt
  rcases h.inlineCtxt_eq with ⟨he,_⟩ | ⟨i,he,hg,_⟩
  · simp [he]
  · simp [he,hg]

theorem Encodes.eqCtxt_eq (h' : Encodes I sp' d') : sp.eqCtxt sp' I = some (decide (d.ctxt = d'.ctxt)) := by
  unfold eqCtxt
  rcases h.inlineCtxt_eq with ⟨he,hc⟩ | ⟨i,he,hg,hc⟩ <;>
    rcases h'.inlineCtxt_eq with ⟨he',hc'⟩ | ⟨i',he',hg',hc'⟩
  · simp [he,he']
  · have hne : d.ctxt ≠ d'.ctxt := fun heq => hc' (heq ▸ hc)
    simp [he,he',hne]
  · have hne : d.ctxt ≠ d'.ctxt := fun heq => hc (heq ▸ hc')
    simp [he,he',hne]
  · simp [he,he',hg,hg']

theorem Encodes.parent_eq : sp.parent I = some d.parent := by
  cases h with
  | inlineCtxt _ hl hc => simp only [parent,kind_inlineCtxt hl]
  | inlineParent _ hl hq => simp only [parent,kind_inlineParent hl,toUInt16_toUInt32 hq]
  | partiallyInterned _ _ hc hg => simp [parent,hc,hg]
  | interned _ _ hg => simp [parent,hg]

theorem Encodes.fromExpansion_eq : sp.fromExpansion = decide (d.ctxt ≠ 0) := by
  cases h with
  | inlineCtxt _ hl hc => simp only [fromExpansion,kind_inlineCtxt hl,toUInt16_toUInt32 hc]
  | inlineParent _ hl hq => simp only [fromExpansion,kind_inlineParent hl]
  | partiallyInterned _ _ hc _ => simp [fromExpansion,hc,toUInt16_toUInt32 hc]
  | interned _ hc _ =>
    rw [fromExpansion,kind_interned]
    refine (decide_eq_true ?_).symm
    rintro rfl
    exact hc zero_le_maxCtxt

end

theorem len_zero_iff (hl : hi - lo ≤ maxLen) : (hi - lo).toUInt16.toUInt32 = 0 ↔ hi = lo := by
  rw [toUInt16_toUInt32 hl]
  constructor
  · intro h
    have := UInt32.sub_add_cancel hi lo
    rw [h,UInt32.zero_add] at this
    exact this.symm
  · rintro rfl
    exact UInt32.sub_self _

theorem dummy_inline (hl : hi - lo ≤ maxLen) : (decide (lo = 0) && decide ((hi - lo).toUInt16.toUInt32 = 0)) =
      (decide (lo = 0) && decide (hi = 0)) := by
  by_cases h0 : lo = 0
  · subst h0
    simp only [len_zero_iff hl]
  · simp [h0]

theorem isDummy_inlined (hl : hi - lo ≤ maxLen) (hm : sp.lenWithTagOrMarker ≠ baseLenInternedMarker)
    (hlo : sp.loOrIndex = lo)
    (hc : sp.lenWithTagOrMarker &&& ~~~parentTag = (hi - lo).toUInt16) :
    sp.isDummy I = some (decide (lo = 0) && decide (hi = 0)) := by
  rw [← dummy_inline hl,isDummy,if_pos hm,hc,hlo]

theorem Encodes.isDummy_eq (h : Encodes I sp d) : sp.isDummy I = some d.isDummy := by
  unfold SpanData.isDummy
  cases h with
  | inlineCtxt _ hl hc =>
    exact isDummy_inlined hl (ne_marker (toNat_toUInt16 hl)) rfl (clear_parentTag (toNat_toUInt16 hl))
  | inlineParent _ hl hq =>
    exact isDummy_inlined hl (tagged_ne_marker (toNat_toUInt16 hl)) rfl (tagged_clear (toNat_toUInt16 hl))
  | partiallyInterned _ _ hc hg => simp [isDummy,partiallyInternedSpan,hg]
  | interned _ _ hg => simp [isDummy,internedSpan,hg]

theorem Encodes.mapCtxt_eq (h : Encodes I sp d) (f : UInt32 → UInt32) :
    sp.mapCtxt f I = some (new d.lo d.hi (f d.ctxt) d.parent I) := by
  unfold mapCtxt dataWithCtxt
  cases h with
  | inlineCtxt hle hl hc =>
    rw [kind_inlineCtxt hl]
    simp only [toUInt16_toUInt32 hc,inlineCtxtData_eq hl hc]
    split
    · rename_i hf
      rw [new_of_le hle,newSorted_inlineCtxt hl hf]
    · rfl
  | inlineParent _ hl hq =>
    rw [kind_inlineParent hl]
    simp only [inlineParentData_eq hl hq]
  | partiallyInterned _ _ hc hg => simp [hc,hg,toUInt16_toUInt32 hc]
  | interned _ _ hg => simp [hg]

theorem toUInt16_eq_zero (hc : c ≤ maxCtxt) : c.toUInt16 = 0 ↔ c = 0 := by
  constructor
  · intro h
    rw [← toUInt16_toUInt32 hc,h]
    rfl
  · rintro rfl
    rfl

theorem Encodes.withParent_eq (hI : I.Nodup) (h : Encodes I sp d) (p : Option UInt32) :
    sp.withParent p I = some (new d.lo d.hi d.ctxt p I) := by
  unfold withParent dataWithParent
  cases h with
  | inlineCtxt hle hl hc =>
    rw [kind_inlineCtxt hl]
    cases p with
    | none => exact congrArg some ((Encodes.inlineCtxt hle hl hc).new_eq hI).symm
    | some q =>
      simp only [toUInt16_eq_zero hc,inlineCtxtData_eq hl hc]
      split
      · rename_i h0
        obtain ⟨rfl,hq⟩ := h0
        rw [new_of_le hle,newSorted_inlineParent hl hq]
      · rfl
  | inlineParent _ hl hq =>
    rw [kind_inlineParent hl]
    simp only [inlineParentData_eq hl hq]
  | partiallyInterned _ _ hc hg => simp [hc,hg,toUInt16_toUInt32 hc]
  | interned _ _ hg => simp [hg]

theorem Encodes.of_untagged (h : Encodes I sp d) (ht : sp.lenWithTagOrMarker &&& parentTag = 0) :
    d.parent = none ∧ d.hi - d.lo ≤ maxLen ∧ d.ctxt ≤ maxCtxt ∧
    sp = inlineCtxtSpan d.lo (d.hi - d.lo).toUInt16 d.ctxt.toUInt16 := by
  cases h with
  | inlineCtxt _ hl hc => exact ⟨rfl,hl,hc,rfl⟩
  | inlineParent _ hl hq => exact absurd ht (tagged_and_parentTag (toNat_toUInt16 hl))
  | partiallyInterned => exact absurd ht (by simp only [partiallyInternedSpan]; decide)
  | interned => exact absurd ht (by simp only [internedSpan]; decide)

theorem Encodes.toSameInlineCtxt_eq {r : Span × SpanInterner} (h : Encodes I sp d)
    (h' : Encodes I sp' d') (hr : sp.toSameInlineCtxt sp' I = some r) :
    d.ctxt = d'.ctxt ∧ d.parent = none ∧ d'.parent = none ∧ r = new (min d.lo d'.lo) (max d.hi d'.hi) d.ctxt none I := by
  unfold toSameInlineCtxt at hr
  split at hr
  · cases hr
  rename_i hco
  simp only [not_or,not_not] at hco
  obtain ⟨hta,hct⟩ := hco
  simp only [and_parentTag_iff,UInt16.toNat_or,Nat.testBit_or,Bool.or_eq_false_iff] at hta
  obtain ⟨hp,hl,hc,rfl⟩ := h.of_untagged ((and_parentTag_iff _).mpr hta.1)
  obtain ⟨hp',hl',hc',rfl⟩ := h'.of_untagged ((and_parentTag_iff _).mpr hta.2)
  have heq : d.ctxt = d'.ctxt := by
    rw [← toUInt16_toUInt32 hc,show d.ctxt.toUInt16 = d'.ctxt.toUInt16 from hct,toUInt16_toUInt32 hc']
  have hhi {e : SpanData} (he : e.hi - e.lo ≤ maxLen) : e.lo + (e.hi - e.lo).toUInt16.toUInt32 = e.hi := by
    rw [toUInt16_toUInt32 he,UInt32.add_comm,UInt32.sub_add_cancel]
  have hle : min d.lo d'.lo ≤ max d.hi d'.hi :=
    UInt32.le_trans Std.min_le_left (UInt32.le_trans h.sorted (le_max _ _))
  refine ⟨heq,hp,hp',?_⟩
  simp only [inlineCtxtSpan,hhi hl,hhi hl',toUInt16_toUInt32 hc] at hr
  split at hr
  · rename_i hs
    rw [new_of_le hle,newSorted_inlineCtxt hs hc]
    exact (some.inj hr).symm
  · exact (some.inj hr).symm

theorem Encodes.toEnd_eq (h : Encodes I sp d) (h' : Encodes I sp' d') (metavars : Span → Option Span)
    (callsiteCtxt : SpanData → UInt32) :
    sp.toEnd metavars callsiteCtxt sp' I = sp.toGeneral metavars callsiteCtxt sp' I := by
  unfold toEnd
  cases hr : sp.toSameInlineCtxt sp' I with
  | none => rfl
  | some r =>
    obtain ⟨hc,hp,hp',rfl⟩ := h.toSameInlineCtxt_eq h' hr
    simp [toGeneral,prepareToCombine,h.dataUntracked,h'.dataUntracked,hc,hp,hp',commonParent]

end Frontend.SpanEncoding
