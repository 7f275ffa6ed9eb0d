import Frontend.Abi.EnumVariants

namespace Frontend.Abi

open List

def LayoutData.NicheWellFormed (dl : TargetDataLayout) (f : LayoutData) : Prop :=
  ∀ n, f.largestNiche = some n → n.offset + n.value.size dl ≤ f.size ∧ n.validRange.WellFormed (n.value.size dl)

namespace Enum

open Library

variable {dl : TargetDataLayout} {repr : ReprOptions} {variants : List (List LayoutData)} {layout : LayoutData}
  {discriminants : List (Nat × Nat)} {discrRangeOfRepr : Int → Nat → Integer × Bool}

def TagEncoding.untagged : TagEncoding → Option Nat
  | .direct => none
  | .niche untagged _ _ => some untagged

def tagValue (tagSize first start i : Nat) : Nat := (start + (i - first)) % 2 ^ Size.bits tagSize

section

variable (dl : TargetDataLayout) (variants : List (List LayoutData)) (discriminants : List (Nat × Nat))
  (layout : LayoutData)

def NicheTags (layouts : List VariantLayout) (tag : Scalar)
    (tagOffset untagged first last start : Nat) : Prop :=
  ∃ (fields : List LayoutData) (variant : VariantLayout) (j : Nat) (f : LayoutData) (n : Niche),
    variants[untagged]? = some fields ∧ layouts[untagged]? = some variant ∧ fields[j]? = some f ∧
    f.largestNiche = some n ∧ tagOffset = n.offset + offsetAt variant.fieldOffsets j ∧ tag.primitive = n.value ∧
    (∀ i < variants.length, i ≠ untagged → absent (variants.getD i []) = false → first ≤ i ∧ i ≤ last) ∧
    (∀ i j, first ≤ i → i ≤ last → first ≤ j → j ≤ last →
      tagValue (tag.size dl) first start i = tagValue (tag.size dl) first start j → i = j) ∧
    ∀ i, first ≤ i → i ≤ last → n.validRange.contains (tagValue (tag.size dl) first start i) = false ∧
      (tag.validRange dl).contains (tagValue (tag.size dl) first start i) = true

structure EnumLayout (tag : Scalar) (encoding : TagEncoding) (tagOffset : Nat) (layouts : List VariantLayout) :
    Prop where
  shape : layout.variants = .multiple tag encoding 0 layouts
  tagField : layout.fields = .arbitrary [tagOffset] [0]
  length : layouts.length = variants.length
  fields : ∀ (i : Nat) (fields : List LayoutData) (variant : VariantLayout), variants[i]? = some fields →
    layouts[i]? = some variant → VariantSound fields variant.fieldOffsets layout.size ∧
      (TagEncoding.untagged encoding ≠ some i → ApartFrom fields variant.fieldOffsets tagOffset (tag.size dl))
  niche : ∀ untagged first last start, encoding = .niche untagged (first,last) start →
    NicheTags dl variants layouts tag tagOffset untagged first last start
  direct : encoding = .direct → ∀ i d fields, (i,d) ∈ discriminants → variants[i]? = some fields →
    (∀ f ∈ fields, f.uninhabited = false) → (tag.validRange dl).contains (Size.truncate (tag.size dl) d) = true

def Decodable : Prop :=
  ∃ tag encoding tagOffset layouts, EnumLayout dl variants discriminants layout tag encoding tagOffset layouts

end

section

variable {structs : List (LayoutData × VariantLayout)} {combined : Combined} {largest first last start : Nat}
  {largestStruct : LayoutData} {niche : Niche} {tag : Scalar}

theorem fillNiche_sound {largestVariant : VariantLayout} (hwf : ∀ fields ∈ variants, ∀ f ∈ fields, f.NicheWellFormed dl)
    (hs : Each (fun _ fields p => IsStruct dl .alwaysSized fields p) 0 variants structs)
    (hla : structs[largest]? = some (largestStruct,largestVariant)) (hni : largestStruct.largestNiche = some niche)
    (hnv : nicheVariants variants largest = some (first,last))
    (hre : niche.reserve dl (last - first + 1) = .ok (some (start,tag))) :
    Outcome (fun _ => True) (∀ layout ∈ ·, Decodable dl variants discriminants layout)
      (fillNiche dl combined structs largest largestStruct (first,last) niche start tag) := by
  have hin := lt_of_getElem? hla
  have hin' := hs.length_eq ▸ hin
  have hv := getElem?_eq_getElem hin'
  have hm := mem_of_getElem? hv
  obtain ⟨p,hg,offsets,order,hst,hk⟩ := hs.get hv
  obtain rfl := Option.mem_unique hg hla
  simp only at hst hk
  obtain ⟨his,j,f,fn,hf,hfn,hfl⟩ := niche_inside (fun f hf n hn => (hwf _ hm f hf n hn).1) hst hni
  have hb := hst.sizeBound
  have ho := dl.objSizeBound_le
  obtain ⟨hle,-,hlt⟩ := Size.alignTo_spec combined.align (s := largestStruct.size) (by omega)
  have hal := combined.align.bytes_le
  have hsi : Size.alignTo largestStruct.size combined.align < 2 ^ 63 := by omega
  have hnie := his.trans hle
  have hva : fn.value = niche.value := by rw [hfl]
  have hra : fn.validRange = niche.validRange := by rw [hfl]
  have hw : niche.validRange.WellFormed (niche.value.size dl) := by
    have := (hwf _ hm f (mem_of_getElem? hf) fn hfn).2
    rwa [hva,hra] at this
  rcases Niche.reserve_cases hw (last - first + 1) with ⟨-,hr⟩ | ⟨-,hr⟩ | ⟨-,hc,_,range,hr,
    hrs⟩ <;> cases hre.symm.trans hr
  have hp := Nat.two_pow_pos (Size.bits (niche.value.size dl))
  replace hc := (niche.available_gap hw ▸ hc).trans_lt (gap_lt hp)
  unfold fillNiche
  simp only
  split
  · trivial
  · simp
  rename_i layouts hfit
  rintro _ ⟨⟩
  have hft := fitVariants_each hfit
  refine ⟨_,.niche largest (first,last) start,_,layouts,rfl,rfl,(hs.length_eq.trans hft.length_eq).symm,?_,?_,nofun⟩
  · intro i fields variant hfe hv'
    obtain ⟨p,hp,offsets',order',hs',hk'⟩ := hs.get hfe
    obtain ⟨variant'',hg',hr⟩ := hft.get hp
    obtain rfl := Option.mem_unique hg' hv'
    rw [Nat.zero_add] at hr
    split at hr
    case isTrue hi =>
      subst hi
      obtain rfl := Option.mem_unique hp hla
      refine ⟨?_,fun hne => absurd rfl hne⟩
      rw [hr,hk']
      exact .of_struct_zero hs' hle
    case isFalse hi =>
      obtain ⟨hso,ha⟩ := fitted_sound hs' (by rw [hk']) (by rw [hk']) hnie hsi hr
      exact ⟨hso,fun _ => ha⟩
  · rintro _ _ _ _ heq
    cases heq
    obtain ⟨variant,hly,hr⟩ := hft.get hla
    rw [Nat.zero_add,if_pos rfl] at hr
    refine ⟨_,variant,j,f,fn,hv,hly,hf,hfn,?_,hva.symm,fun i hi hne hab => ?_,fun i j hi hi' hj hj' heq => ?_,
      fun i hi hi' => ?_⟩
    · rw [hr,hk,hfl]
    · have hnee : needsDisc variants largest i = true := by
        rw [needsDisc,hab,decide_eq_true hne]
        rfl
      exact nicheVariants_spec hnv i hi hnee
    · have := add_mod_inj (s := start) (i := i - first) (j := j - first) (m := 2 ^ Size.bits (niche.value.size dl))
        (by omega) (by omega) heq
      omega
    · rw [hra]
      exact ⟨hrs.outside _ (by omega),(hrs.exact _ (Nat.mod_lt _ hp)).mpr (.inr ⟨i - first,by omega,rfl⟩)⟩

theorem calculateNicheFillingLayout_sound (discriminants : List (Nat × Nat)) (hp : repr.pack = none)
    (hwf : ∀ fields ∈ variants, ∀ f ∈ fields, f.NicheWellFormed dl) :
    Outcome (fun _ => True) (∀ layout ∈ ·, Decodable dl variants discriminants layout)
    (calculateNicheFillingLayout dl repr variants) := by
  rw [calculateNicheFillingLayout]
  split
  · simp
  split
  · split <;> simp
  rename_i structs hs
  split
  · simp
  split
  · trivial
  rename_i hv
  rw [reserveNiche]
  split
  · trivial
  rename_i hla
  split
  · simp
  rename_i niche hn
  cases hr : niche.reserve dl _ with
  | error err => trivial
  | ok reserved =>
    rcases reserved with _ | ⟨start,tag⟩
    · simp [Except.bind]
    · exact fillNiche_sound hwf (variantStructs_each hp (fun size align heq => by cases heq) hs 0) hla hn hv hr

end

section

variable {minIty ity : Integer} {structs : List (LayoutData × VariantLayout)} {layouts : List VariantLayout}

theorem Integer.size_lt (i : Integer) : i.size < dl.objSizeBound := by
  have : 2 ^ 15 ≤ dl.objSizeBound := by
    unfold TargetDataLayout.objSizeBound
    split <;> decide
  have : i.size ≤ 16 := by cases i <;> decide
  omega

theorem Integer.size_pos (i : Integer) : 0 < i.size := by cases i <;> decide

theorem tagInteger_cases (dl : TargetDataLayout) (repr : ReprOptions) (minIty : Integer) (startAlign : Align) :
    tagInteger dl repr minIty startAlign = minIty ∨
    (minIty < tagInteger dl repr minIty startAlign ∧
    startAlign.bytes = (tagInteger dl repr minIty startAlign).size) := by
  unfold tagInteger
  simp only
  split
  case isTrue => exact .inl (if_pos le_rfl)
  case isFalse =>
    cases ha : Integer.forAlign dl startAlign with
    | none => exact .inl (if_pos le_rfl)
    | some ity =>
      rw [Option.getD_some]
      split
      case isTrue => exact .inl rfl
      case isFalse hlt =>
        have := find?_some ha
        exact .inr ⟨not_le.mp hlt,(of_decide_eq_true this).2⟩

variable {i : Nat} {fields : List LayoutData} {variant : VariantLayout} {offsets : List Nat}

theorem offset_ge {prefixAlign align : Align}
    (hs : StructLayout dl fields none (.prefixed minIty.size prefixAlign) offsets order st)
    (ho : variant.fieldsInMemoryOrder = order)
    (ha : ∀ a, firstAlign fields variant = some a → align ≤ a) (hf : fields[i]? = some f)
    (hsi : f.size ≠ 0) : align.bytes ≤ offsetAt offsets i := by
  obtain ⟨j,g,hg,hfi,hle⟩ := firstAlign_spec hs ho hf hsi
  have haf := hs.after j g _ _ hg rfl
  have hp := (Integer.size_pos minIty).trans_le haf
  have hd := hs.aligned j g hg
  calc align.bytes ≤ g.align.bytes := Nat.le_of_dvd g.align.bytes_pos (Align.bytes_dvd (ha _ hfi))
    _ ≤ offsetAt offsets j := Nat.le_of_dvd hp hd
    _ ≤ offsetAt offsets i := hle

theorem VariantSound.patch (h : VariantSound fields offsets size)
    (hne : ∀ (i : Nat) (f : LayoutData), fields[i]? = some f → f.size ≠ 0 → offsetAt offsets i ≠ old) :
    VariantSound fields (offsets.map fun offset => if offset = old then new else offset) size := by
  have hk : ∀ (i : Nat) (f : LayoutData), fields[i]? = some f → f.size ≠ 0 →
      offsetAt (offsets.map fun offset => if offset = old then new else offset) i = offsetAt offsets i :=
    fun i f hf hs => offsetAt_patch (h.length ▸ lt_length hf) (hne i f hf hs)
  refine ⟨by rw [length_map,h.length],fun i f hf hs => ?_,fun i f hf hs => ?_,fun i j f g hf hg hij hs hs' => ?_⟩
  · rw [hk i f hf hs]
    exact h.inside i f hf hs
  · rw [hk i f hf hs]
    exact h.aligned i f hf hs
  · rw [hk i f hf hs,hk j g hg hs']
    exact h.disjoint i j f g hf hg hij hs hs'

theorem enlargeTag_each {startAlign : Align} (h : enlargeTag minIty (tagInteger dl repr minIty startAlign)
    (structs.map Prod.snd) = .ok layouts) :
    Each (fun _ (p : LayoutData × VariantLayout) (variant : VariantLayout) =>
      let ity := tagInteger dl repr minIty startAlign
      (ity = minIty ∧ variant.fieldOffsets = p.2.fieldOffsets) ∨
        (minIty < ity ∧ startAlign.bytes = ity.size ∧ variant.fieldOffsets =
          p.2.fieldOffsets.map fun offset => if offset = minIty.size then ity.size else offset)) 0 structs layouts := by
  have hm := Each.of_map Prod.snd structs 0
  rw [enlargeTag] at h
  split at h
  case isTrue heq =>
    cases h
    refine hm.mono fun _ p variant hv => .inl ⟨heq,by rw [hv]⟩
  case isFalse hne =>
    have hc := (tagInteger_cases dl repr minIty startAlign).resolve_left hne
    refine (hm.comp (patchVariants_each h 0)).mono fun _ p variant ⟨variant',hv',hp⟩ => .inr ?_
    rw [hv'] at hp
    exact ⟨hc.1,hc.2,hp⟩

theorem tagged_variant {prefixAlign startAlign : Align}
    (hs : StructLayout dl fields none (.prefixed minIty.size prefixAlign) offsets order st)
    (ha : ∀ (i : Nat) (f : LayoutData), fields[i]? = some f → f.size ≠ 0 → startAlign.bytes ≤ offsetAt offsets i)
    (hsi : st.size ≤ size)
    (h : (ity = minIty ∧ variant.fieldOffsets = offsets) ∨ (minIty < ity ∧ startAlign.bytes = ity.size ∧
      variant.fieldOffsets = offsets.map fun offset => if offset = minIty.size then ity.size else offset)) :
    VariantSound fields variant.fieldOffsets size ∧ ApartFrom fields variant.fieldOffsets 0 ity.size := by
  have hso := VariantSound.of_struct_zero hs hsi
  rcases h with ⟨rfl,ho⟩ | ⟨hlt,hb,ho⟩
  · rw [ho]
    refine ⟨hso,fun i f hf _ => .inr ?_⟩
    rw [Nat.zero_add]
    exact hs.after i f _ _ hf rfl
  · have hlt' : minIty.size < ity.size := hlt
    have hne (i : Nat) (f : LayoutData) (hf : fields[i]? = some f) (hf' : f.size ≠ 0) :
        offsetAt offsets i ≠ minIty.size := by
      have := ha i f hf hf'
      omega
    rw [ho]
    refine ⟨hso.patch hne,fun i f hf hf' => .inr ?_⟩
    rw [offsetAt_patch (hs.length ▸ lt_length hf) (hne i f hf hf'),Nat.zero_add,← hb]
    exact ha i f hf hf'

theorem adjustVariant_fieldOffsets (abi : BackendRepr) (size : Nat) (variant : VariantLayout) :
    (adjustVariant abi size variant).fieldOffsets = variant.fieldOffsets := by
  unfold adjustVariant
  split
  · split <;> rfl
  · split <;> rfl
  · rfl

theorem mem_necessaryDiscriminants (repr : ReprOptions) (hm : (i,d) ∈ discriminants)
    (hfi : variants[i]? = some fields) (hin : ∀ f ∈ fields, f.uninhabited = false) :
    d ∈ necessaryDiscriminants repr variants discriminants := by
  refine mem_map.mpr ⟨(i,d),mem_filter.mpr ⟨hm,?_⟩,rfl⟩
  have ha : ((variants.getD i []).all fun f => !f.uninhabited) = true := by
    rw [getD_eq_getElem?_getD,hfi,Option.getD_some,all_eq_true]
    intro f hf
    rw [hin f hf]
    rfl
  rw [ha,Bool.or_true]

theorem taggedLayout_sound (hpa : repr.pack = none) :
    Outcome (fun _ => True) (Decodable dl variants discriminants)
    (taggedLayout dl repr variants discriminants discrRangeOfRepr) := by
  unfold taggedLayout
  simp only
  split
  · trivial
  generalize discrRangeOfRepr _ _ = d
  obtain ⟨minIty,signed⟩ := d
  split
  · trivial
  split
  · trivial
  rename_i structs hst
  split
  · trivial
  split
  · trivial
  split
  · trivial
  rename_i layouts hl
  split
  · trivial
  rename_i range hr
  split
  · trivial
  have he := variantStructs_each hpa (fun size align heq => by
    cases heq
    exact Integer.size_lt minIty) hst 0
  have hpt := enlargeTag_each hl
  have hb size (hm : size ∈ structs.map fun s => s.1.size) : size < 2 ^ 61 := by
    obtain ⟨p,hp,rfl⟩ := mem_map.mp hm
    obtain ⟨i,hi,hg⟩ := getElem_of_mem hp
    have hi' := he.length_eq ▸ hi
    obtain ⟨q,hq,offsets,order,hs,-⟩ := he.get (getElem?_eq_getElem hi')
    obtain rfl := Option.mem_unique (getElem?_eq_getElem hi) hq |>.symm.trans hg
    exact hs.sizeBound.trans_le dl.objSizeBound_le
  have hma := foldl_max_lt (structs.map fun s => s.1.size) 0 (2 ^ 61) (by decide) hb
  obtain ⟨hle,-,-⟩ := Size.alignTo_spec (combine dl repr (structs.map Prod.fst)).align
    (s := (structs.map fun s => s.1.size).foldl max 0) (by omega)
  refine ⟨_,.direct,0,_,rfl,rfl,?_,fun i fields variant hi hv => ?_,nofun,fun _ i d fields hm hi hin => ?_⟩
  · rw [length_map,← hpt.length_eq,he.length_eq]
  · obtain ⟨p,hp,offsets,order,hs,hk⟩ := he.get hi
    obtain ⟨variant',hv',hre⟩ := hpt.get hp
    rw [getElem?_map,hv',Option.map_some] at hv
    cases hv
    have hke : p.2.fieldOffsets = offsets := by rw [hk]
    have hko : p.2.fieldsInMemoryOrder = order := by rw [hk]
    rw [hke] at hre
    have hft : p.1.size ≤ _ := ((le_foldl_max _ 0).2 _ (mem_map.mpr ⟨p,mem_of_getElem? hp,rfl⟩)).trans hle
    have hg : (structs.map Prod.snd)[i]? = some p.2 := by rw [getElem?_map,hp]; rfl
    rw [adjustVariant_fieldOffsets]
    obtain ⟨hso,hap⟩ := tagged_variant hs (fun j f hf hf' => offset_ge hs hko
      (fun a ha => (foldl_min_le _ _).2 a (mem_filterMap.mpr ⟨(_,p.2),mem_of_getElem? (i := i)
      (by rw [getElem?_zip_eq_some]; exact ⟨hi,hg⟩),ha⟩)) hf hf') hft hre
    exact ⟨hso,fun _ => hap⟩
  · have hm := mem_map_of_mem (f := Size.truncate
      (tagInteger dl repr minIty (startAlign variants (structs.map Prod.snd))).size)
      (mem_necessaryDiscriminants repr hm hi hin)
    obtain ⟨r,rfl,hc⟩ := WrappingRange.smallestRangeContaining_contains hr _ hm
    exact hc

end

theorem enum_layout_decodable (dl : TargetDataLayout) (repr : ReprOptions) (variants : List (List LayoutData))
    (discrRangeOfRepr : Int → Nat → Integer × Bool) (discriminants : List (Nat × Nat)) (layout : LayoutData)
    (hwf : ∀ fields ∈ variants, ∀ f ∈ fields, f.NicheWellFormed dl)
    (h : layoutOfEnum dl repr variants discrRangeOfRepr discriminants = .ok layout) :
    ∃ tag encoding tagOffset layouts, EnumLayout dl variants discriminants layout tag encoding tagOffset layouts := by
  unfold layoutOfEnum at h
  split at h
  · cases h
  rename_i hpa
  have hp : repr.pack = none := by
    rwa [ReprOptions.packed,Bool.not_eq_true,Option.isSome_eq_false_iff,Option.isNone_iff_eq_none] at hpa
  split at h
  · cases h
  rename_i niche hn
  split at h
  · cases h
  rename_i tagged ht
  have hs := (taggedLayout_sound hp).of_ok ht
  cases niche with
  | none =>
    cases h
    exact hs
  | some niche =>
    have hs' := (calculateNicheFillingLayout_sound discriminants hp hwf).of_ok hn niche rfl
    rw [Option.elim_some,bestLayout] at h
    split at h
    · cases h
      exact hs'
    split at h
    · cases h
      exact hs'
    · cases h
      exact hs

def boolField : LayoutData := scalar x86 (.initialized (.int .i8 false) ⟨0,1⟩)

def byteField : LayoutData := scalar x86 (.initialized (.int .i8 false) ⟨0,255⟩)

theorem boolField_niche : boolField.NicheWellFormed x86 := by
  intro n hn
  obtain rfl : n = ⟨0,.int .i8 false,⟨0,1⟩⟩ := Option.mem_unique hn rfl
  exact ⟨by decide,by decide,by decide⟩

theorem byteField_niche : byteField.NicheWellFormed x86 := by
  intro n hn
  have hno : byteField.largestNiche = none := by decide
  cases hno.symm.trans hn

-- The tags of two variants with a field each in the niche of the third one's `bool`.
def nichedVariants : List (List LayoutData) := [[byteField],[byteField],[boolField,byteField]]

theorem niched_variants_decodable : ∃ layout tag encoding tagOffset layouts,
    layoutOfEnum x86 .default nichedVariants (fun _ _ => (.i8,true)) [(0,0),(1,1),(2,2)] = .ok layout ∧
      layout.size = 2 ∧ encoding = .niche 2 (0,1) 2 ∧ layouts.map VariantLayout.fieldOffsets = [[1],[1],[0,1]] ∧
      EnumLayout x86 nichedVariants [(0,0),(1,1),(2,2)] layout tag encoding tagOffset layouts := by
  obtain ⟨layout,hl,hs,tag,layouts,hv,hf⟩ : ∃ layout,
      layoutOfEnum x86 .default nichedVariants (fun _ _ => (.i8,true)) [(0,0),(1,1),(2,2)] = .ok layout ∧
        layout.size = 2 ∧ ∃ tag layouts, layout.variants = .multiple tag (.niche 2 (0,1) 2) 0 layouts ∧
          layouts.map VariantLayout.fieldOffsets = [[1],[1],[0,1]] :=
    ⟨_,rfl,by decide,_,_,rfl,by decide⟩
  have hwf : ∀ fields ∈ nichedVariants, ∀ f ∈ fields, f.NicheWellFormed x86 := by
    have hb := boolField_niche
    have hy := byteField_niche
    simp [nichedVariants,hb,hy]
  obtain ⟨tag',encoding,tagOffset,layouts',hso⟩ :=
    enum_layout_decodable x86 .default nichedVariants (fun _ _ => (.i8,true)) [(0,0),(1,1),(2,2)] layout hwf hl
  obtain ⟨rfl,rfl,-,rfl⟩ := Variants.multiple.inj (hso.shape.symm.trans hv)
  exact ⟨layout,_,_,tagOffset,_,hl,hs,rfl,hf,hso⟩

end Enum

end Frontend.Abi
