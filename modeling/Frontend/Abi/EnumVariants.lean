import Frontend.Abi.Enum
import Frontend.Abi.ReserveSound
import Frontend.Abi.StructSound
import Frontend.Library.Pointwise

namespace Frontend.Abi.Enum

open Library List

variable {dl : TargetDataLayout} {repr : ReprOptions} {kind : StructKind} {fields : List LayoutData}
  {variants : List (List LayoutData)} {structs : List (LayoutData × VariantLayout)} {offsets order : List Nat}
  {layout : LayoutData} {size delta i : Nat}

section

variable (fields : List LayoutData) (offsets : List Nat)

structure VariantSound (size : Nat) : Prop where
  length : offsets.length = fields.length
  inside : ∀ (i : Nat) (f : LayoutData), fields[i]? = some f → f.size ≠ 0 → offsetAt offsets i + f.size ≤ size
  aligned : ∀ (i : Nat) (f : LayoutData), fields[i]? = some f → f.size ≠ 0 → f.align.bytes ∣ offsetAt offsets i
  disjoint : ∀ (i j : Nat) (f g : LayoutData), fields[i]? = some f → fields[j]? = some g → i ≠ j → f.size ≠ 0 →
    g.size ≠ 0 → offsetAt offsets i + f.size ≤ offsetAt offsets j ∨ offsetAt offsets j + g.size ≤ offsetAt offsets i

def ApartFrom (tagOffset tagSize : Nat) : Prop :=
  ∀ (i : Nat) (f : LayoutData), fields[i]? = some f → f.size ≠ 0 →
    offsetAt offsets i + f.size ≤ tagOffset ∨ tagOffset + tagSize ≤ offsetAt offsets i

end

theorem lt_length (h : fields[i]? = some f) : i < fields.length := lt_of_getElem? h

theorem offsetAt_shift (hi : i < offsets.length) :
    offsetAt (offsets.map (· + delta)) i = offsetAt offsets i + delta := by
  simp [offsetAt,hi]

theorem VariantSound.of_struct (h : StructLayout dl fields none kind offsets order layout)
    (hd : layout.align.bytes ∣ delta) (hfi : layout.size + delta ≤ size) :
    VariantSound fields (offsets.map (· + delta)) size := by
  have ho : ∀ (i : Nat) (f : LayoutData), fields[i]? = some f →
      offsetAt (offsets.map (· + delta)) i = offsetAt offsets i + delta := fun i f hf =>
    offsetAt_shift (h.length ▸ lt_length hf)
  refine ⟨by rw [length_map,h.length],fun i f hf _ => ?_,fun i f hf _ => ?_,fun i j f g hf hg hne _ _ => ?_⟩
  · have := h.inside i f hf
    rw [ho i f hf]
    omega
  · rw [ho i f hf]
    exact Nat.dvd_add (h.aligned i f hf) ((h.aligns i f hf).trans hd)
  · rw [ho i f hf,ho j g hg]
    rcases h.disjoint i j f g hf hg hne with hlt | hlt
    · exact .inl (by omega)
    · exact .inr (by omega)

theorem VariantSound.of_struct_zero (h : StructLayout dl fields none kind offsets order layout)
    (hf : layout.size ≤ size) : VariantSound fields offsets size := by
  simpa using VariantSound.of_struct h (Nat.dvd_zero _) hf

def IsStruct (dl : TargetDataLayout) (kind : StructKind) (fields : List LayoutData)
    (p : LayoutData × VariantLayout) : Prop :=
  ∃ offsets order, StructLayout dl fields none kind offsets order p.1 ∧
    p.2 = ⟨p.1.size,p.1.backendRepr,offsets,order,p.1.largestNiche,p.1.uninhabited⟩

theorem variantStructs_each (hp : repr.pack = none) (hpr : ∀ size align, kind = .prefixed size align →
    size < dl.objSizeBound)
    (h : variantStructs dl repr kind variants = .ok structs) (i : Nat) :
    Each (fun _ fields p => IsStruct dl kind fields p) i variants structs := by
  induction variants generalizing structs i with
  | nil =>
    cases h
    exact .nil i
  | cons fields variants ih =>
    rw [variantStructs] at h
    split at h
    · cases h
    rename_i st hst
    obtain ⟨offsets,order,hl⟩ := (univariant_gives hpr).of_ok hst
    rw [hp] at hl
    have hf : VariantLayout.fromLayout st = .ok ⟨st.size,st.backendRepr,offsets,order,st.largestNiche,
        st.uninhabited⟩ := by
      rw [VariantLayout.fromLayout,hl.shape]
    rw [hf] at h
    obtain ⟨rest,hr,rfl⟩ := ok_of_map h
    exact .cons ⟨offsets,order,hl,rfl⟩ (ih hr (i + 1))

theorem nicheVariants_spec (h : nicheVariants variants largest = some (first,last)) :
    ∀ i < variants.length, needsDisc variants largest i = true → first ≤ i ∧ i ≤ last := by
  unfold nicheVariants at h
  simp only at h
  split at h
  case h_2 => cases h
  rename_i hf hl
  cases h
  refine fun i hi hn => ⟨?_,?_⟩
  · rcases (find_first pairwise_lt_range hf).2.2 i (mem_range.mpr hi) hn with rfl | hlt
    · exact le_rfl
    · exact hlt.le
  · rcases (find_first (pairwise_reverse.mpr pairwise_lt_range) hl).2.2 i
      (mem_reverse.mpr (mem_range.mpr hi)) hn with rfl | hlt
    · exact le_rfl
    · exact hlt.le

section

variable {nicheOffset nicheSize largest : Nat} {align : Align} {variant variant' : VariantLayout}
  {layouts : List VariantLayout}

theorem add_ok (h : Size.add a b = .ok c) : c = a + b := by
  rw [Size.add] at h
  split at h <;> cases h
  rfl

theorem shiftOffsets_eq (h : shiftOffsets delta offsets = .ok shifted) : shifted = offsets.map (· + delta) := by
  induction offsets generalizing shifted with
  | nil =>
    cases h
    rfl
  | cons offset offsets ih =>
    rw [shiftOffsets] at h
    split at h
    · cases h
    rename_i last hl
    obtain ⟨rest,hr,rfl⟩ := ok_of_map h
    rw [add_ok hl,ih hr]
    rfl

theorem fitVariants_each (h : fitVariants nicheOffset nicheSize size largest i structs = .ok (some layouts)) :
    Each (fun i p variant => if i = largest then variant = p.2
      else fitVariant nicheOffset nicheSize size p.1.align p.2 = .ok (some variant)) i structs layouts := by
  induction structs generalizing layouts i with
  | nil =>
    cases h
    exact .nil i
  | cons p structs ih =>
    rw [fitVariants] at h
    split at h
    · cases h
    · cases h
    rename_i variant hv
    obtain ⟨_ | rest,hr,hm⟩ := ok_of_map h
    · cases hm
    cases hm
    refine .cons ?_ (ih hr)
    split at hv
    case isTrue hi =>
      cases hv
      rw [if_pos hi]
    case isFalse hi =>
      rw [if_neg hi]
      exact hv

theorem niche_inside (hwf : ∀ f ∈ fields, ∀ n, f.largestNiche = some n → n.offset + n.value.size dl ≤ f.size)
    (h : StructLayout dl fields none kind offsets order layout) (hn : layout.largestNiche = some n) :
    n.offset + n.value.size dl ≤ layout.size ∧ ∃ (j : Nat) (f : LayoutData) (fn : Niche), fields[j]? = some f ∧
      f.largestNiche = some fn ∧ n = { fn with offset := fn.offset + offsetAt offsets j } := by
  obtain ⟨i,f,fn,hf,hfn,rfl,hin⟩ := h.niche n hn
  have hs := h.inside i f hf
  obtain ⟨-,he⟩ := hin (hwf f (mem_of_getElem? hf) fn hfn)
  exact ⟨he.trans hs,i,f,fn,hf,hfn,rfl⟩

theorem fitted_sound (hs : StructLayout dl fields none .alwaysSized offsets order layout)
    (hv : variant.fieldOffsets = offsets) (hsi : variant.size = layout.size)
    (hn : nicheOffset + nicheSize ≤ size) (hb : size < 2 ^ 63)
    (h : fitVariant nicheOffset nicheSize size layout.align variant = .ok (some variant')) :
    VariantSound fields variant'.fieldOffsets size ∧ ApartFrom fields variant'.fieldOffsets nicheOffset nicheSize := by
  unfold fitVariant at h
  simp only at h
  split at h
  · cases h
    simp only [hv]
    refine ⟨.of_struct_zero hs (by omega),fun i f hf _ => .inl ?_⟩
    have := hs.inside i f hf
    omega
  split at h
  · cases h
  rename_i nicheEnd he
  obtain rfl := add_ok he
  split at h
  · cases h
  rename_i last hl
  obtain rfl := add_ok hl
  split at h
  · cases h
  split at h
  · cases h
  rename_i shifted hsh
  cases h
  obtain ⟨hle,hd,-⟩ := Size.alignTo_spec layout.align (s := nicheOffset + nicheSize) (by omega)
  simp only [shiftOffsets_eq hsh,hv]
  refine ⟨.of_struct hs hd (by omega),fun i f hf _ => .inr ?_⟩
  rw [offsetAt_shift (hs.length ▸ lt_length hf)]
  omega

end

section

variable {old new : Nat} {patched : List Nat} {layouts patchedLayouts : List VariantLayout}

theorem patchOffsets_eq (h : patchOffsets old new offsets = .ok patched) :
    patched = offsets.map fun offset => if offset = old then new else offset := by
  induction offsets generalizing patched with
  | nil =>
    cases h
    rfl
  | cons offset offsets ih =>
    rw [patchOffsets] at h
    split at h
    · cases h
    obtain ⟨rest,hr,rfl⟩ := ok_of_map h
    rw [ih hr]
    rfl

theorem patchVariants_each (h : patchVariants old new layouts = .ok patchedLayouts) (i : Nat) :
    Each (fun _ variant patched => patched.fieldOffsets =
      variant.fieldOffsets.map fun offset => if offset = old then new else offset) i layouts patchedLayouts := by
  induction layouts generalizing patchedLayouts i with
  | nil =>
    cases h
    exact .nil i
  | cons variant layouts ih =>
    rw [patchVariants] at h
    split at h
    · cases h
    rename_i patched hp
    obtain ⟨rest,hr,rfl⟩ := ok_of_map h
    exact .cons (patchOffsets_eq hp) (ih hr (i + 1))

theorem offsetAt_patch (hi : i < offsets.length) (hne : offsetAt offsets i ≠ old) :
    offsetAt (offsets.map fun offset => if offset = old then new else offset) i = offsetAt offsets i := by
  simp only [offsetAt,getD_eq_getElem?_getD,getElem?_eq_getElem hi,Option.getD_some,ne_eq] at hne
  simp [offsetAt,hi,hne]

theorem not_is1zst {f : LayoutData} (h : f.size ≠ 0) : f.is1zst = false := by simp [LayoutData.is1zst,h]

theorem firstAlign_spec (hst : StructLayout dl fields none kind offsets order layout)
    (ho : variant.fieldsInMemoryOrder = order)
    (hf : fields[i]? = some f) (hs : f.size ≠ 0) : ∃ (j : Nat) (g : LayoutData), fields[j]? = some g ∧
      firstAlign fields variant = some g.align ∧ offsetAt offsets j ≤ offsetAt offsets i := by
  have hi : i ∈ order := hst.permutation.mem_iff.mpr (mem_range.mpr (lt_length hf))
  have ha : ∀ (k : Nat) (g : LayoutData), fields[k]? = some g →
      (fields[k]?.any fun f => !f.is1zst) = !g.is1zst := fun k g hg => by rw [hg]; rfl
  rw [firstAlign,ho,find?_filterMap]
  cases hfi : order.find? fun k => fields[k]?.any fun f => !f.is1zst with
  | none =>
    have := find?_eq_none.mp hfi i hi
    rw [ha i f hf,not_is1zst hs] at this
    exact absurd rfl this
  | some j =>
    obtain ⟨-,hj,hfr⟩ := find_first hst.ascending hfi
    have hlt := mem_range.mp (hst.permutation.mem_iff.mp hj)
    refine ⟨j,fields[j],getElem?_eq_getElem hlt,?_,?_⟩
    · rw [Option.bind_some,getElem?_eq_getElem hlt]
      rfl
    · rcases hfr i hi (by rw [ha i f hf,not_is1zst hs]; rfl) with rfl | hle
      · exact le_rfl
      · exact hle

end

end Frontend.Abi.Enum
