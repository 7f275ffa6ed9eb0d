import Frontend.Abi.Eligibility
import Frontend.Abi.Stitch
import Frontend.Library.Pointwise

namespace Frontend.Abi.Coroutine

open Library List

section

variable (dl : TargetDataLayout) (localLayouts : List LayoutData) (e : Eligibility) (variantFields : List (List Nat))
  (pre : LayoutData)

def ownLocals (fields : List Nat) : List Nat := fields.filter (isAssigned e)

def ownOffsets (fields : List Nat) : List Nat :=
  match univariant dl (layoutsOf localLayouts (ownLocals e fields)) .default (.prefixed pre.size pre.align) with
  | .ok layout =>
    match layout.fields with
    | .arbitrary offsets _ => offsets
    | _ => []
  | .error _ => []

def ownOffset (l : Nat) : Nat :=
  match e.assignments l with
  | .assigned v =>
    let fields := variantFields.getD v []
    offsetAt (ownOffsets dl localLayouts e pre fields) ((ownLocals e fields).idxOf l)
  | _ => 0

def localOffset (split : Split) : Nat → Nat := placeOf e split (ownOffset dl localLayouts e variantFields pre)

variable {dl localLayouts e variantFields pre} {conflicts : Nat → Nat → Bool} {outer : List LayoutData}
  {offsets order : List Nat}

structure Prepared (dl : TargetDataLayout) (localLayouts : List LayoutData) (e : Eligibility)
    (variantFields : List (List Nat)) (conflicts : Nat → Nat → Bool) (outer : List LayoutData)
    (offsets order : List Nat) (pre : LayoutData) : Prop where
  bounded : ∀ fields ∈ variantFields, ∀ l ∈ fields, l < localLayouts.length
  eligible : Eligible localLayouts.length variantFields conflicts e
  numbered : ∀ l, l < localLayouts.length → e.ineligible l = true →
    e.assignments l = .ineligible (some ((ineligibleLocals localLayouts.length e).idxOf l))
  prefixed : StructLayout dl (outer ++ layoutsOf localLayouts (ineligibleLocals localLayouts.length e)) none
    .alwaysSized offsets order pre

variable {n : Nat}

theorem ineligibleLocals_lt : ∀ l ∈ ineligibleLocals n e, l < n := fun _ hl => (mem_ineligibleLocals.mp hl).1

theorem own_mem (hl : l ∈ fields) (ha : e.assignments l = .assigned v) :
    l ∈ ownLocals e fields := mem_filter.mpr ⟨hl,isAssigned_iff.mpr ⟨v,ha⟩⟩

theorem getD_inj {values : List Nat} (hperm : values.Perm (range n)) (hi : i < n)
    (hj : j < n) (heq : values.getD i 0 = values.getD j 0) : i = j := by
  have hl : values.length = n := by rw [hperm.length_eq,length_range]
  rw [getD_eq_getElem _ _ (by omega),getD_eq_getElem _ _ (by omega)] at heq
  exact (List.Nodup.getElem_inj_iff (hperm.nodup_iff.mpr nodup_range)).mp heq

theorem getD_lt {values : List Nat} (hperm : values.Perm (range n)) (hi : i < n) : values.getD i 0 < n := by
  have hl : values.length = n := by rw [hperm.length_eq,length_range]
  rw [getD_eq_getElem _ _ (by omega)]
  exact mem_range.mp (hperm.mem_iff.mp (getElem_mem _))

namespace Prepared

variable (h : Prepared dl localLayouts e variantFields conflicts outer offsets order pre)

abbrev split (_ : Prepared dl localLayouts e variantFields conflicts outer offsets order pre) : Split :=
  splitPrefix outer.length offsets order

abbrev promoted (_ : Prepared dl localLayouts e variantFields conflicts outer offsets order pre) : List Nat :=
  ineligibleLocals localLayouts.length e

abbrev offset : Nat → Nat := localOffset dl localLayouts e variantFields pre h.split

abbrev slot (fields memoryIndex : List Nat) : Nat → Nat :=
  slotOf e h.split fun l => memoryIndex.getD ((ownLocals e fields).idxOf l) 0

abbrev variant (v : Nat) (fields : List Nat) : LayoutResult (VariantLayout × Align) :=
  variantLayout dl localLayouts e h.split pre.size pre.align v fields

abbrev Own (_ : Prepared dl localLayouts e variantFields conflicts outer offsets order pre) (fields own : List Nat)
    (layout : LayoutData) : Prop :=
  StructLayout dl (layoutsOf localLayouts (ownLocals e fields)) none (.prefixed pre.size pre.align)
    (ownOffsets dl localLayouts e pre fields) own layout

def Laid (fields : List Nat) (p : VariantLayout × Align) : Prop :=
  ∃ layout own combined, h.Own fields own layout ∧ p = (fromLayout layout (fields.map h.offset) combined,layout.align) ∧
    (fields.Nodup → combined.Perm (range fields.length))

include h

theorem promotedOffsets_length : h.split.promotedOffsets.length = h.promoted.length := by
  rw [split,splitPrefix,length_drop,h.prefixed.length,length_append,layoutsOf_length ineligibleLocals_lt,
    Nat.add_sub_cancel_left]

theorem promotedMemoryIndex_perm : h.split.promotedMemoryIndex.Perm (range h.promoted.length) := by
  have hperm := h.prefixed.permutation
  rw [length_append,layoutsOf_length ineligibleLocals_lt] at hperm
  exact invertBijectiveMapping_perm (promoted_perm hperm)

theorem promotedMemoryIndex_length : h.split.promotedMemoryIndex.length = h.promoted.length := by
  rw [h.promotedMemoryIndex_perm.length_eq,length_range]

variable {v : Nat} {fields : List Nat}

section

variable (hv : variantFields[v]? = some fields)

include hv

theorem cases (hl : l ∈ fields) : e.assignments l = .assigned v ∨
      (l ∈ h.promoted ∧ e.assignments l = .ineligible (some (h.promoted.idxOf l))) := by
  have hlt := h.bounded fields (mem_of_getElem? hv) l hl
  cases ha : e.assignments l with
  | unassigned => exact absurd ha (h.eligible.listed v fields l hv hl)
  | assigned w =>
    obtain rfl := h.eligible.only l w v fields ha hv hl
    exact .inl rfl
  | ineligible f =>
    have hin := (h.eligible.ineligible l hlt).mpr ⟨f,ha⟩
    exact .inr ⟨mem_ineligibleLocals.mpr ⟨hlt,hin⟩,ha.symm.trans (h.numbered l hlt hin)⟩

theorem ownLocals_lt : ∀ l ∈ ownLocals e fields, l < localLayouts.length := fun l hl =>
  h.bounded fields (mem_of_getElem? hv) l (mem_of_mem_filter hl)

theorem ownLocals_nodup : (ownLocals e fields).Nodup := by
  rw [nodup_iff_count_le_one]
  intro l
  by_cases hl : isAssigned e l = true
  · obtain ⟨w,hw⟩ := isAssigned_iff.mp hl
    exact (filter_sublist.count_le l).trans (h.eligible.once l w v fields hw hv)
  · rw [ownLocals,count_eq_zero.mpr fun hm => hl (mem_filter.mp hm).2]
    exact Nat.zero_le 1

theorem variantOnly_own : variantOnly e v fields = .ok (ownLocals e fields) :=
  variantOnly_eq (fun l hl => h.eligible.listed v fields l hv hl) fun l hl w hw =>
    (h.eligible.only l w v fields hw hv hl).symm

end

section

variable {v : Nat} {fields memoryIndex : List Nat} (hv : variantFields[v]? = some fields)
include hv

theorem slot_cases (m : List Nat) {l : Nat} (hl : l ∈ fields) :
    (l ∈ ownLocals e fields ∧ h.slot fields m l = h.promoted.length + m.getD ((ownLocals e fields).idxOf l) 0) ∨
      (l ∈ h.promoted ∧ h.slot fields m l = h.split.promotedMemoryIndex.getD (h.promoted.idxOf l) 0 ∧
        h.slot fields m l < h.promoted.length) := by
  rcases h.cases hv hl with ha | ⟨hm,ha⟩
  · refine .inl ⟨own_mem hl ha,?_⟩
    simp [slotOf,ha,h.promotedMemoryIndex_length]
  have hs : h.slot fields m l = h.split.promotedMemoryIndex.getD (h.promoted.idxOf l) 0 := by
    simp [slotOf,ha]
  refine .inr ⟨hm,hs,?_⟩
  rw [hs]
  exact getD_lt h.promotedMemoryIndex_perm (idxOf_lt_length_iff.mpr hm)

variable (hperm : memoryIndex.Perm (List.range (ownLocals e fields).length))
include hperm

theorem slot_lt {l : Nat} (hl : l ∈ fields) : h.slot fields memoryIndex l < h.promoted.length +
    (ownLocals e fields).length := by
  rcases h.slot_cases hv memoryIndex hl with ⟨hm,hs⟩ | ⟨-,-,hs⟩
  · rw [hs]
    have := getD_lt hperm (idxOf_lt_length_iff.mpr hm)
    omega
  · omega

theorem slot_inj {a b : Nat} (ha : a ∈ fields) (hb : b ∈ fields)
    (heq : h.slot fields memoryIndex a = h.slot fields memoryIndex b) : a = b := by
  rcases h.slot_cases hv memoryIndex ha with ⟨hm,hs⟩ | ⟨hm,hs,hlt⟩ <;>
    rcases h.slot_cases hv memoryIndex hb with ⟨hm',hs'⟩ | ⟨hm',hs',hlt'⟩
  · rw [hs,hs',Nat.add_left_cancel_iff] at heq
    exact (idxOf_inj hm).mp (getD_inj hperm (idxOf_lt_length_iff.mpr hm) (idxOf_lt_length_iff.mpr hm') heq)
  · omega
  · omega
  · rw [hs,hs'] at heq
    exact (idxOf_inj hm).mp (getD_inj h.promotedMemoryIndex_perm (idxOf_lt_length_iff.mpr hm)
      (idxOf_lt_length_iff.mpr hm') heq)

theorem combined_perm (hn : fields.Nodup) (N : Nat) (hN : N = h.promoted.length + (ownLocals e fields).length) :
    ((scatter (replicate N N) (indexed (fields.map (h.slot fields memoryIndex)) 0)).filter (· ≠ N)).Perm
    (range fields.length) := by
  subst hN
  have hs := hn.map_on fun a ha b hb heq => h.slot_inj hv hperm ha hb heq
  have hlt k (hk : k ∈ fields.map (h.slot fields memoryIndex)) :
      k < h.promoted.length + (ownLocals e fields).length := by
    obtain ⟨l,hl,rfl⟩ := mem_map.mp hk
    exact h.slot_lt hv hperm hl
  have hf := (subperm_of_subset hs fun k hk => mem_range.mpr (hlt k hk)).length_le
  rw [length_range] at hf
  simpa using scatter_filter_perm hs hlt hf

end

theorem variantLayout_gives (hv : variantFields[v]? = some fields) : Gives (h.Laid fields) (h.variant v fields) := by
  have hln := layoutsOf_length (h.ownLocals_lt hv)
  have hpr : ∀ size align, StructKind.prefixed pre.size pre.align = .prefixed size align → size < dl.objSizeBound := by
    rintro size align ⟨⟩
    exact h.prefixed.sizeBound
  rw [variant,variantLayout,h.variantOnly_own hv]
  simp only
  split
  · rename_i he
    exact (univariant_gives hpr).error_of he
  rename_i layout hr
  obtain ⟨own,ownOrder,hla⟩ := (univariant_gives hpr).of_ok hr
  have ho : ownOffsets dl localLayouts e pre fields = own := by simp only [ownOffsets,hr,hla.shape]
  have hperm : (invertBijectiveMapping ownOrder).Perm (range (ownLocals e fields).length) :=
    invertBijectiveMapping_perm (hln ▸ hla.permutation)
  have hm : (invertBijectiveMapping ownOrder).length = (ownLocals e fields).length := by
    rw [hperm.length_eq,length_range]
  have hp : fields.map (placeOf e h.split fun l => offsetAt own ((ownLocals e fields).idxOf l)) =
      fields.map h.offset := by
    refine map_congr_left fun l hl => ?_
    rcases h.cases hv hl with ha | ⟨-,ha⟩
    · simp [localOffset,placeOf,ownOffset,ha,getD_eq_getElem?_getD,hv,ho]
    · simp [localOffset,placeOf,ha]
  have hf l (hl : l ∈ fields) : (∃ v, e.assignments l = .assigned v) ∨ ∃ f, e.assignments l = .ineligible (some f) ∧
      f < h.split.promotedOffsets.length ∧ f < h.split.promotedMemoryIndex.length := by
    rcases h.cases hv hl with ha | ⟨hme,ha⟩
    · exact .inl ⟨v,ha⟩
    · have hlt := idxOf_lt_length_iff.mpr hme
      exact .inr ⟨_,ha,by rwa [h.promotedOffsets_length],by rwa [h.promotedMemoryIndex_length]⟩
  have hs := stitch_eq (i := 0) (fun l => offsetAt own ((ownLocals e fields).idxOf l))
    (fun l => (invertBijectiveMapping ownOrder).getD ((ownLocals e fields).idxOf l) 0) hf
  have hz := zip_eq_map (h.ownLocals_nodup hv) (hla.length.trans hln) hm
  rw [← ownLocals,← hz,hp] at hs
  simp only [hla.shape,hs]
  exact ⟨layout,ownOrder,_,by rwa [Own,ho],rfl,fun hn => h.combined_perm hv hperm hn
    (h.split.promotedMemoryIndex.length + (invertBijectiveMapping ownOrder).length)
      (by rw [h.promotedMemoryIndex_length,hm])⟩

theorem variantLayouts_gives {fields : List (List Nat)} (hf : ∀ k : Nat, fields[k]? = variantFields[i + k]?) :
    Gives (Each (fun _ => h.Laid) i fields) (variantLayouts dl localLayouts e h.split pre.size pre.align i fields) := by
  induction fields generalizing i with
  | nil => exact .nil i
  | cons f fields ih =>
    have hi : variantFields[i]? = some f := (hf 0).symm
    have hr := ih (i := i + 1) fun k => by
      have := hf (k + 1)
      rwa [getElem?_cons_succ,Nat.add_comm k 1,← Nat.add_assoc] at this
    rw [variantLayouts]
    split
    · rename_i he
      exact (h.variantLayout_gives hi).error_of he
    rename_i p hp
    exact (hr.imp fun rest hr => .cons ((h.variantLayout_gives hi).of_ok hp) hr).map

section

variable (hvar : ∀ (v : Nat) (fields : List Nat), variantFields[v]? = some fields → ∃ layout own,
  h.Own fields own layout)
include hvar

variable {v : Nat} {fields : List Nat}

theorem place_cases (hv : variantFields[v]? = some fields) (hl : l ∈ fields) :
    (e.assignments l = .assigned v ∧ l ∈ ownLocals e fields ∧
      h.offset l = offsetAt (ownOffsets dl localLayouts e pre fields) ((ownLocals e fields).idxOf l) ∧
      ((layoutsOf localLayouts (ownLocals e fields))[(ownLocals e fields).idxOf l]? = localLayouts[l]?) ∧
      pre.size ≤ h.offset l) ∨
    (e.ineligible l = true ∧ l ∈ h.promoted ∧ h.offset l = offsetAt offsets (outer.length + h.promoted.idxOf l) ∧
      (outer ++ layoutsOf localLayouts h.promoted)[outer.length + h.promoted.idxOf l]? = localLayouts[l]?) := by
  rcases h.cases hv hl with ha | ⟨hm,ha⟩
  · obtain ⟨layout,own,hla⟩ := hvar v fields hv
    have ho := own_mem hl ha
    have hof : h.offset l = offsetAt (ownOffsets dl localLayouts e pre fields) ((ownLocals e fields).idxOf l) := by
      simp [localOffset,placeOf,ownOffset,ha,getD_eq_getElem?_getD,hv]
    have hf := layoutsOf_idxOf (h.ownLocals_lt hv) ho
    have hlt := h.bounded fields (mem_of_getElem? hv) l hl
    refine .inl ⟨ha,ho,hof,hf,?_⟩
    rw [hof]
    exact hla.after _ localLayouts[l] _ _ (hf.trans (getElem?_eq_getElem hlt)) rfl
  · refine .inr ⟨(mem_ineligibleLocals.mp hm).2,hm,
      by simp [localOffset,placeOf,ha,offsetAt,splitPrefix,getD_eq_getElem?_getD],?_⟩
    rw [getElem?_append_right (Nat.le_add_right _ _),Nat.add_sub_cancel_left]
    exact layoutsOf_idxOf ineligibleLocals_lt hm

theorem conflict_apart {w a b : Nat} (hv : variantFields[v]? = some fields) (ha : a ∈ fields)
    (hw : variantFields[w]? = some fields')
    (hb : b ∈ fields') (hne : a ≠ b) (hc : conflicts a b = true)
    (hf : localLayouts[a]? = some f) (hg : localLayouts[b]? = some g) :
    h.offset a + f.size ≤ h.offset b ∨ h.offset b + g.size ≤ h.offset a := by
  have ha' := h.bounded fields (mem_of_getElem? hv) a ha
  have hb' := h.bounded fields' (mem_of_getElem? hw) b hb
  have hp := h.prefixed
  rcases h.place_cases hvar hv ha with ⟨has,how,ho,hfl,hle⟩ | ⟨hin,hm,ho,hfl⟩ <;>
    rcases h.place_cases hvar hw hb with ⟨has',how',ho',hf',hle'⟩ | ⟨hi',hm',ho',hf'⟩
  · have hn : ∀ l u, l < localLayouts.length → e.assignments l = .assigned u → e.ineligible l ≠ true := by
      intro l u hl hu hin
      obtain ⟨f,hf⟩ := (h.eligible.ineligible l hl).mp hin
      cases hu.symm.trans hf
    have hs : e.assignments a = e.assignments b := by
      rcases h.eligible.settled a b ha' hb' hc with h | h | h
      · exact absurd h (hn a v ha' has)
      · exact absurd h (hn b w hb' has')
      · exact h
    rw [has,has'] at hs
    cases hs
    obtain rfl := Option.mem_unique hv hw
    obtain ⟨layout,own,hla⟩ := hvar v fields hv
    rw [ho,ho']
    exact hla.disjoint _ _ f g (hfl.trans hf) (hf'.trans hg) fun heq => hne ((idxOf_inj how).mp heq)
  · refine .inr ?_
    rw [ho']
    exact (hp.inside _ g (hf'.trans hg)).trans hle
  · refine .inl ?_
    rw [ho]
    exact (hp.inside _ f (hfl.trans hf)).trans hle'
  · rw [ho,ho']
    exact hp.disjoint _ _ f g (hfl.trans hf) (hf'.trans hg) fun heq => hne ((idxOf_inj hm).mp (Nat.add_left_cancel heq))

theorem outer_apart (hv : variantFields[v]? = some fields) (hl : l ∈ fields) (hf : localLayouts[l]? = some f)
    (hg : outer[i]? = some g) :
    h.offset l + f.size ≤ offsetAt offsets i ∨ offsetAt offsets i + g.size ≤ h.offset l := by
  have hi := lt_of_getElem? hg
  have ho : (outer ++ layoutsOf localLayouts h.promoted)[i]? = some g := by rwa [getElem?_append_left hi]
  rcases h.place_cases hvar hv hl with ⟨-,-,hof,hfl,hle⟩ | ⟨-,hm,hof,hfl⟩
  · exact .inr ((h.prefixed.inside i g ho).trans hle)
  · rw [hof]
    exact h.prefixed.disjoint _ _ f g (hfl.trans hf) ho (by omega)

end

end Prepared

end

structure CoroutineLayout (localLayouts outer : List LayoutData) (variantFields : List (List Nat))
    (conflicts : Nat → Nat → Bool) (outerOffsets : List Nat) (offset : Nat → Nat) (variants : List VariantLayout) :
    Prop where
  length : variants.length = variantFields.length
  offsets : ∀ (v : Nat) (fields : List Nat) (variant : VariantLayout), variantFields[v]? = some fields →
    variants[v]? = some variant → variant.fieldOffsets = fields.map offset
  order : ∀ (v : Nat) (fields : List Nat) (variant : VariantLayout), variantFields[v]? = some fields →
    variants[v]? = some variant → fields.Nodup → variant.fieldsInMemoryOrder.Perm (List.range fields.length)
  conflict : ∀ (a b : Nat) (f g : LayoutData), a ∈ variantFields.flatten → b ∈ variantFields.flatten → a ≠ b →
    conflicts a b = true → localLayouts[a]? = some f → localLayouts[b]? = some g →
    offset a + f.size ≤ offset b ∨ offset b + g.size ≤ offset a
  outside : ∀ (l i : Nat) (f g : LayoutData), l ∈ variantFields.flatten → localLayouts[l]? = some f →
    outer[i]? = some g → offset l + f.size ≤ offsetAt outerOffsets i ∨ offsetAt outerOffsets i + g.size ≤ offset l

variable {variantFields : List (List Nat)}

theorem exists_variant (hl : l ∈ variantFields.flatten) :
    ∃ (v : Nat) (fields : List Nat), variantFields[v]? = some fields ∧ l ∈ fields := by
  obtain ⟨fields,hm,hl⟩ := mem_flatten.mp hl
  obtain ⟨v,hv,hg⟩ := getElem_of_mem hm
  exact ⟨v,fields,List.getElem?_eq_some_iff.mpr ⟨hv,hg⟩,hl⟩

theorem Prepared.layout {conflicts : Nat → Nat → Bool} {offsets order : List Nat} {pre : LayoutData}
    (h : Prepared dl localLayouts e variantFields conflicts outer offsets order pre)
    (he : Each (fun _ => h.Laid) 0 variantFields variants) :
    CoroutineLayout localLayouts outer variantFields conflicts h.split.outerOffsets h.offset
    (variants.map Prod.fst) := by
  have hc (v : Nat) (fields : List Nat) (hv : variantFields[v]? = some fields) :
    ∃ layout own combined, h.Own fields own layout ∧
      (variants.map Prod.fst)[v]? = some (fromLayout layout (fields.map h.offset) combined) ∧
      (fields.Nodup → combined.Perm (range fields.length)) := by
    obtain ⟨p,hp,layout,own,combined,hla,rfl,hperm⟩ := he.get hv
    exact ⟨layout,own,combined,hla,by rw [getElem?_map,hp]; rfl,hperm⟩
  have hvar (v : Nat) (fields : List Nat) (hv : variantFields[v]? = some fields) :
      ∃ layout own, h.Own fields own layout := by
    obtain ⟨layout,own,-,hla,-,-⟩ := hc v fields hv
    exact ⟨layout,own,hla⟩
  refine ⟨by rw [length_map,he.length_eq],fun v fields variant hv hvr => ?_,
    fun v fields variant hv hvr hn => ?_,fun a b f g ha hb hne hco hf hg => ?_,
    fun l i f g hl hf hg => ?_⟩
  · obtain ⟨layout,own,combined,-,hm,-⟩ := hc v fields hv
    cases hm.symm.trans hvr
    rfl
  · obtain ⟨layout,own,combined,-,hm,hperm⟩ := hc v fields hv
    cases hm.symm.trans hvr
    exact hperm hn
  · obtain ⟨v,fields,hv,ha⟩ := exists_variant ha
    obtain ⟨w,fields',hw,hb⟩ := exists_variant hb
    exact h.conflict_apart hvar hv ha hw hb hne hco hf hg
  · obtain ⟨v,fields,hv,hl⟩ := exists_variant hl
    have hi := lt_of_getElem? hg
    have ho : offsetAt h.split.outerOffsets i = offsetAt offsets i := by
      simp only [splitPrefix,offsetAt,getD_eq_getElem?_getD,getElem?_take_of_lt hi]
    rw [ho]
    exact h.outer_apart hvar hv hl hf hg

theorem Prepared.of_run (hb : ¬ (variantFields.any fun fields => fields.any fun l => decide
    (localLayouts.length ≤ l)) = true)
    (h : StructLayout dl (prefixLayouts ++ tagLayout :: layoutsOf localLayouts (ineligibleLocals localLayouts.length
      (coroutineSavedLocalEligibility localLayouts.length variantFields conflicts))) none .alwaysSized
      offsets order pre) :
    Prepared dl localLayouts (coroutineSavedLocalEligibility localLayouts.length variantFields conflicts) variantFields
      conflicts (prefixLayouts ++ [tagLayout]) offsets order pre := by
  refine ⟨fun fields hf l hl => ?_,eligibility_spec _ _ _,fun l hl hin => eligibility_numbered hl hin,?_⟩
  · by_contra hlt
    refine hb (any_eq_true.mpr ⟨fields,hf,any_eq_true.mpr ⟨l,hl,?_⟩⟩)
    exact decide_eq_true (Nat.le_of_not_lt hlt)
  · rw [append_assoc]
    exact h

theorem coroutine_layout_sound (dl : TargetDataLayout) (localLayouts prefixLayouts : List LayoutData)
    (variantFields : List (List Nat)) (conflicts : Nat → Nat → Bool) (tagToLayout : Scalar → LayoutData) :
    layout dl localLayouts prefixLayouts variantFields conflicts tagToLayout ≠ .error .unreachable ∧
      ∀ coroutine, layout dl localLayouts prefixLayouts variantFields conflicts tagToLayout = .ok coroutine →
        ∃ tag outerOffsets outerOrder offset variants, coroutine.fields = .arbitrary outerOffsets outerOrder ∧
          coroutine.variants = .multiple tag .direct prefixLayouts.length variants ∧
          CoroutineLayout localLayouts (prefixLayouts ++ [tagToLayout tag]) variantFields conflicts outerOffsets
          offset variants := by
  refine Gives.sound ?_
  have hpr : ∀ size align, StructKind.alwaysSized = .prefixed size align → size < dl.objSizeBound := nofun
  rw [layout]
  split
  · simp
  rename_i hb
  simp only
  split
  · rename_i he
    exact (univariant_gives hpr).error_of he
  rename_i pre hp
  obtain ⟨offsets,order,hl⟩ := (univariant_gives hpr).of_ok hp
  have h := Prepared.of_run hb hl
  have hr := h.variantLayouts_gives (i := 0) fun k => by rw [Nat.zero_add]
  rw [Prepared.split,length_append,length_singleton] at hr
  simp only [hl.shape]
  split
  · rename_i he
    exact hr.error_of he
  rename_i variants hv
  have hs := h.layout (hr.of_ok hv)
  rw [Prepared.split,length_append,length_singleton] at hs
  exact ⟨_,_,_,_,_,rfl,rfl,hs⟩

-- Two suspension points that share a `u32`; a `u8` lives only at the first and a `u32` only at the second.
def sharedLocals : List LayoutData :=
  [scalar x86 (.initialized (.int .i8 false) (.full 1)),scalar x86 (.initialized (.int .i32 false) (.full 4)),
    scalar x86 (.initialized (.int .i32 false) (.full 4))]

def sharedConflicts (a b : Nat) : Bool := (a,b) ∈ [(0,1),(1,0),(1,2),(2,1)]

theorem sharedLocals_sound : ∃ coroutine tag outerOffsets outerOrder offset variants,
    layout x86 sharedLocals [] [[],[0,1],[2,1]] sharedConflicts (scalar x86) = .ok coroutine ∧
      coroutine.fields = .arbitrary outerOffsets outerOrder ∧
      coroutine.variants = .multiple tag .direct 0 variants ∧
      CoroutineLayout sharedLocals [scalar x86 tag] [[],[0,1],[2,1]] sharedConflicts outerOffsets offset variants ∧
      variants.map VariantLayout.fieldOffsets = [[],[8,0],[8,0]] := by
  obtain ⟨coroutine,hr,hof⟩ : ∃ coroutine, layout x86 sharedLocals [] [[],[0,1],[2,1]] sharedConflicts
    (scalar x86) = .ok coroutine ∧
        ∀ tag variants, coroutine.variants = .multiple tag .direct 0 variants →
          variants.map VariantLayout.fieldOffsets = [[],[8,0],[8,0]] := by
    refine ⟨_,rfl,fun tag variants h => ?_⟩
    obtain ⟨-,-,-,rfl⟩ := Variants.multiple.inj h
    decide
  obtain ⟨tag,outerOffsets,outerOrder,offset,variants,hf,hvar,hs⟩ :=
    (coroutine_layout_sound x86 sharedLocals [] [[],[0,1],[2,1]] sharedConflicts (scalar x86)).2 coroutine hr
  exact ⟨coroutine,tag,outerOffsets,outerOrder,offset,variants,hr,hf,hvar,hs,hof tag variants hvar⟩

theorem repeated_local_drops_field : ∃ coroutine tag variants variant,
    layout x86 (sharedLocals.take 1) [] [[0,0]] (fun _ _ => false) (scalar x86) = .ok coroutine ∧
      coroutine.variants = .multiple tag .direct 0 variants ∧ variants[0]? = some variant ∧
      variant.fieldsInMemoryOrder = [] ∧ ¬ variant.fieldsInMemoryOrder.Perm (List.range 2) :=
  ⟨_,_,_,_,rfl,rfl,rfl,by decide,by decide⟩

end Frontend.Abi.Coroutine
