import Frontend.Abi.Univariant
import Frontend.Library.Outcome
import Frontend.Library.Packing

namespace Frontend.Abi

open Library List Size

theorem Align.bytes_pos (a : Align) : 0 < a.bytes := Nat.two_pow_pos _

theorem Align.bytes_le (a : Align) : a.bytes ≤ 2 ^ 29 := Nat.pow_le_pow_right (by decide) (by have := a.pow2.isLt; omega)

theorem Align.bytes_dvd {a b : Align} (h : a ≤ b) : a.bytes ∣ b.bytes := Nat.pow_dvd_pow 2 h

theorem Size.alignTo_eq (a : Align) (h : s < 2 ^ 63) :
    alignTo s a = s + (a.bytes - 1) - (s + (a.bytes - 1)) % a.bytes := by
  have hk : a.pow2.val < 64 := by have := a.pow2.isLt; omega
  have hb := a.bytes_le
  have hp := a.bytes_pos
  have hm : (BitVec.twoPow 64 a.pow2.val - 1#64).toNat = a.bytes - 1 := toNat_twoPow_sub_one hk
  have hs : (BitVec.ofNat 64 s).toNat = s := by rw [BitVec.toNat_ofNat,Nat.mod_eq_of_lt (by omega)]
  have hsu : (BitVec.ofNat 64 s + (BitVec.twoPow 64 a.pow2.val - 1#64)).toNat = s + (a.bytes - 1) := by
    rw [BitVec.toNat_add,hs,hm,Nat.mod_eq_of_lt (by omega)]
  rw [alignTo,toNat_and_not_pred hk,hsu]
  rfl

theorem Size.alignTo_spec (a : Align) (h : s < 2 ^ 63) :
    s ≤ alignTo s a ∧ a.bytes ∣ alignTo s a ∧ alignTo s a < s + a.bytes := by
  rw [alignTo_eq a h]
  have hp := a.bytes_pos
  have hm := Nat.mod_lt (s + (a.bytes - 1)) hp
  refine ⟨by omega,Nat.dvd_sub_mod _,by omega⟩

theorem TargetDataLayout.objSizeBound_le (dl : TargetDataLayout) : dl.objSizeBound ≤ 2 ^ 61 := by
  unfold objSizeBound
  split <;> decide

theorem inMemoryOrder_perm (dl : TargetDataLayout) (bias : NicheBias) (fields : List LayoutData) (repr : ReprOptions)
    (kind : StructKind) : (inMemoryOrder dl bias fields repr kind).Perm (range fields.length) := by
  simp only [inMemoryOrder]
  split
  · exact ((perm_insertionSort _ _).append_right _).trans (by rw [take_append_drop])
  · exact .refl _

section

variable {dl : TargetDataLayout} {pack : Option Align} {kind : StructKind} {bias : NicheBias}
  {fields : List LayoutData} {s s' : Placing} {i : Nat} {f : LayoutData} {order : List Nat}

section

variable (pack : Option Align) (fields : List LayoutData) (offsets order : List Nat)

def sizeAt (i : Nat) : Nat := fields[i]?.elim 0 LayoutData.size

def alignAt (i : Nat) : Nat :=
  fields[i]?.elim 1 fun f => (packedAlign pack f.align).bytes

def offsetAt (i : Nat) : Nat := offsets.getD i 0

def NicheOf (n : Niche) : Prop :=
  ∃ i ∈ order, ∃ f fn, fields[i]? = some f ∧ f.largestNiche = some fn ∧
    n = { fn with offset := fn.offset + offsetAt offsets i }

end

-- The computation never takes a branch that the source marks unreachable.
abbrev Gives (P : A → Prop) (r : LayoutResult A) : Prop := Outcome (· ≠ .unreachable) P r

theorem Gives.sound (h : Gives P r) : r ≠ .error .unreachable ∧ ∀ a, r = .ok a → P a :=
  ⟨fun hr => h.error_of hr rfl,fun _ => h.of_ok⟩

theorem takeNiche_gives (offset : Nat) (s : Placing) : Gives (fun s' => s'.align = s.align ∧ s'.offsets = s.offsets ∧
      (s'.largestNiche = s.largestNiche ∨
        ∃ fn, f.largestNiche = some fn ∧ s'.largestNiche = some { fn with offset := fn.offset + offset }))
    (takeNiche dl bias f offset s) := by
  unfold takeNiche
  split
  · exact ⟨rfl,rfl,.inl rfl⟩
  rename_i fn hfn
  split
  · split
    · exact ⟨rfl,rfl,.inr ⟨fn,hfn,rfl⟩⟩
    · simp
  · exact ⟨rfl,rfl,.inl rfl⟩

theorem placeField_gives (s : Placing) (i : Nat) : Gives (fun s' => ∃ f, fields[i]? = some f ∧
    s'.offsets = s.offsets.set i (alignTo s.offset (packedAlign pack f.align)) ∧
    s'.offset = alignTo s.offset (packedAlign pack f.align) + f.size ∧ s'.offset < dl.objSizeBound ∧
    s'.align = max s.align (packedAlign pack f.align) ∧
    (s'.largestNiche = s.largestNiche ∨ ∃ fn, f.largestNiche = some fn ∧ s'.largestNiche =
      some { fn with offset := fn.offset + alignTo s.offset (packedAlign pack f.align) }))
    (placeField dl pack kind bias fields s i) := by
  unfold placeField
  split
  · simp
  rename_i f hf
  split
  · simp
  split
  · simp
  simp only
  split
  · rename_i he
    exact (takeNiche_gives _ _).error_of he
  rename_i s1 hn
  obtain ⟨hal,ho,hl⟩ := (takeNiche_gives _ _).of_ok hn
  split
  · simp
  rename_i offset ha
  unfold checkedAdd at ha
  obtain ⟨hlt,⟨⟩⟩ := Option.ite_none_right_eq_some.mp ha
  exact ⟨f,hf,ho,rfl,hlt,hal,hl⟩

structure Placed (dl : TargetDataLayout) (pack : Option Align) (fields : List LayoutData) (order : List Nat)
    (s s' : Placing) : Prop where
  packed : Packed (sizeAt fields) (alignAt pack fields) (offsetAt s'.offsets) s.offset s'.offset order
  others : ∀ i ∉ order, offsetAt s'.offsets i = offsetAt s.offsets i
  length : s'.offsets.length = s.offsets.length
  align : s.align ≤ s'.align
  aligns : ∀ i ∈ order, alignAt pack fields i ∣ s'.align.bytes
  bound : s.offset < 2 ^ 62 → s'.offset < 2 ^ 62
  niche : s'.largestNiche = s.largestNiche ∨ ∃ n, s'.largestNiche = some n ∧ NicheOf fields s'.offsets order n

theorem placeFields_gives (hno : order.Nodup) (hlt : ∀ i ∈ order, i < s.offsets.length) (hst : s.offset < 2 ^ 62) :
    Gives (Placed dl pack fields order s) (placeFields dl pack kind bias fields order s) := by
  induction order generalizing s with
  | nil => exact ⟨.nil le_rfl,fun _ _ => rfl,rfl,le_rfl,nofun,id,.inl rfl⟩
  | cons i order ih =>
    rw [placeFields]
    split
    · rename_i he
      exact (placeField_gives _ _).error_of he
    rename_i s1 hfi
    obtain ⟨f,hf,ho,hos,hb,ha,hla⟩ := (placeField_gives _ _).of_ok hfi
    obtain ⟨hi,hno⟩ := nodup_cons.mp hno
    obtain ⟨hle,hd,hls⟩ := alignTo_spec (packedAlign pack f.align) (s := s.offset) (by omega)
    have hob := dl.objSizeBound_le
    have hl : s1.offsets.length = s.offsets.length := by rw [ho,length_set]
    refine (ih hno (fun j hj => hl ▸ hlt j (.tail _ hj)) (by omega)).imp fun s' hr => ?_
    have hp : offsetAt s'.offsets i = alignTo s.offset (packedAlign pack f.align) := by
      rw [hr.others i hi,offsetAt,ho,getD_eq_getElem?_getD,getElem?_set_self (hlt i (.head _)),Option.getD_some]
    have hs : sizeAt fields i = f.size := by rw [sizeAt,hf]; rfl
    have hal : alignAt pack fields i = (packedAlign pack f.align).bytes := by rw [alignAt,hf]; rfl
    refine ⟨.cons ?_ ?_ ?_,fun j hj => ?_,hr.length.trans hl,?_,fun j hj => ?_,fun _ => ?_,?_⟩
    · rw [hal,hp]
      exact hd
    · rw [hp]
      exact hle
    · rw [hp,hs,← hos]
      exact hr.packed
    · rw [mem_cons,not_or] at hj
      rw [hr.others j hj.2,offsetAt,offsetAt,ho,getD_eq_getElem?_getD,getD_eq_getElem?_getD,
        getElem?_set_ne (Ne.symm hj.1)]
    · exact (ha ▸ le_max_left _ _ : s.align ≤ s1.align).trans hr.align
    · rcases mem_cons.mp hj with rfl | hj
      · rw [hal]
        exact Align.bytes_dvd ((ha ▸ le_max_right _ _ : _ ≤ s1.align).trans hr.align)
      · exact hr.aligns j hj
    · exact hr.bound (by omega)
    · rcases hr.niche with hk | ⟨n,hn,j,hj,hof⟩
      · rcases hla with hol | ⟨fn,hfn,hne⟩
        · exact .inl (hk.trans hol)
        · exact .inr ⟨_,hk.trans hne,i,.head _,f,fn,hf,hfn,by rw [hp]⟩
      · exact .inr ⟨n,hn,j,.tail _ hj,hof⟩

theorem startPlacing_cases (dl : TargetDataLayout) (kind : StructKind) (fields : List LayoutData) (repr : ReprOptions)
    (hp : ∀ size align, kind = .prefixed size align → size < dl.objSizeBound) :
    (startPlacing dl kind fields repr).offsets = replicate fields.length 0 ∧
      (startPlacing dl kind fields repr).largestNiche = none ∧ (startPlacing dl kind fields repr).offset < 2 ^ 62 ∧
      ∀ size align, kind = .prefixed size align → size ≤ (startPlacing dl kind fields repr).offset := by
  cases kind with
  | alwaysSized => exact ⟨rfl,rfl,by simp [startPlacing],nofun⟩
  | maybeUnsized => exact ⟨rfl,rfl,by simp [startPlacing],nofun⟩
  | prefixed size align =>
    have hs := hp size align rfl
    have ho := dl.objSizeBound_le
    have hb := (packedAlign repr.pack align).bytes_le
    obtain ⟨hle,-,hlt⟩ := alignTo_spec (packedAlign repr.pack align) (s := size) (by omega)
    refine ⟨rfl,rfl,by simp only [startPlacing]; omega,?_⟩
    rintro size' align' heq
    cases heq
    exact hle

end

structure StructLayout (dl : TargetDataLayout) (fields : List LayoutData) (pack : Option Align) (kind : StructKind)
    (offsets : List Nat) (order : List Nat) (layout : LayoutData) : Prop where
  shape : layout.fields = .arbitrary offsets order
  length : offsets.length = fields.length
  permutation : order.Perm (List.range fields.length)
  ascending : order.Pairwise fun i j => offsetAt offsets i ≤ offsetAt offsets j
  disjoint : ∀ (i j : Nat) (f g : LayoutData), fields[i]? = some f → fields[j]? = some g → i ≠ j →
    offsetAt offsets i + f.size ≤ offsetAt offsets j ∨ offsetAt offsets j + g.size ≤ offsetAt offsets i
  after : ∀ (i : Nat) (f : LayoutData) size align, fields[i]? = some f → kind = .prefixed size align →
    size ≤ offsetAt offsets i
  inside : ∀ (i : Nat) (f : LayoutData), fields[i]? = some f → offsetAt offsets i + f.size ≤ layout.size
  aligned : ∀ (i : Nat) (f : LayoutData), fields[i]? = some f → (packedAlign pack f.align).bytes ∣ offsetAt offsets i
  aligns : ∀ (i : Nat) (f : LayoutData), fields[i]? = some f → (packedAlign pack f.align).bytes ∣ layout.align.bytes
  sizeAligned : layout.align.bytes ∣ layout.size
  sizeBound : layout.size < dl.objSizeBound
  niche : ∀ n, layout.largestNiche = some n → ∃ i f fn, fields[i]? = some f ∧ f.largestNiche = some fn ∧
    n = { fn with offset := fn.offset + offsetAt offsets i } ∧
    (fn.offset + fn.value.size dl ≤ f.size → offsetAt offsets i ≤ n.offset ∧
      n.offset + n.value.size dl ≤ offsetAt offsets i + f.size)

variable {dl : TargetDataLayout} {fields : List LayoutData} {repr : ReprOptions} {kind : StructKind}
  {layout : LayoutData}

theorem pairAbi_gives (a b : Scalar) (aOffset bOffset : Nat) (align : Align) (size : Nat) :
    Gives (fun _ => True) (pairAbi dl a b aOffset bOffset align size) := by
  unfold pairAbi
  simp only
  split
  · split <;> simp
  · simp

theorem structAbi_gives (offsets : List Nat) (align : Align) (size : Nat) (sized : Bool) :
    Gives (fun _ => True) (structAbi dl fields repr offsets align size sized) := by
  unfold structAbi
  split
  · split
    · split <;> simp
    · split
      · simp only
        split <;> exact (pairAbi_gives ..).map
      · simp
    · simp
  · simp

section

variable (hpr : ∀ size align, kind = .prefixed size align → size < dl.objSizeBound)
include hpr

theorem univariantBiased_gives (bias : NicheBias) :
    Gives (fun layout => ∃ offsets order, StructLayout dl fields repr.pack kind offsets order layout)
    (univariantBiased dl fields repr kind bias) := by
  obtain ⟨ho,hno,hst,haf⟩ := startPlacing_cases dl kind fields repr hpr
  have hp := inMemoryOrder_perm dl bias fields repr kind
  have hm i : i ∈ inMemoryOrder dl bias fields repr kind ↔ i < fields.length := by rw [hp.mem_iff,mem_range]
  have hn := hp.nodup_iff.mpr nodup_range
  have hlt i (hi : i ∈ inMemoryOrder dl bias fields repr kind) :
      i < (startPlacing dl kind fields repr).offsets.length := by
    rw [ho,length_replicate]
    exact (hm i).mp hi
  unfold univariantBiased
  split
  · simp
  simp only
  split
  · rename_i he
    exact (placeFields_gives hn hlt hst).error_of he
  rename_i s hs
  have hpl := (placeFields_gives hn hlt hst).of_ok hs
  split
  · simp
  rename_i hb
  split
  · rename_i he
    exact (structAbi_gives ..).error_of he
  have hpa := hpl.packed
  have he := hpl.bound hst
  have hal : s.align ≤ repr.align.elim s.align (max s.align) := by
    cases repr.align with
    | none => exact le_rfl
    | some a => exact le_max_left _ _
  obtain ⟨hle,hd,-⟩ := alignTo_spec (repr.align.elim s.align (max s.align)) (s := s.offset) (by omega)
  have hin i f (hf : fields[i]? = some f) : i ∈ inMemoryOrder dl bias fields repr kind :=
    (hm i).mpr (List.getElem_of_getElem? hf).1
  have hsa : ∀ i f, fields[i]? = some f → sizeAt fields i = f.size := fun i f hf => by rw [sizeAt,hf]; rfl
  have ha : ∀ i f, fields[i]? = some f →
      alignAt repr.pack fields i = (packedAlign repr.pack f.align).bytes := fun i f hf => by rw [alignAt,hf]; rfl
  refine ⟨s.offsets,inMemoryOrder dl bias fields repr kind,rfl,?_,hp,hpa.ordered.imp fun hij =>
    (Nat.le_add_right _ _).trans hij,
    fun i j f g hf hg hne => ?_,fun i f size align hf hk => ?_,fun i f hf => ?_,fun i f hf => ?_,
    fun i f hf => ?_,hd,not_le.mp hb,fun n hn => ?_⟩
  · rw [hpl.length,ho,length_replicate]
  · rw [← hsa i f hf,← hsa j g hg]
    exact hpa.apart (hin i f hf) (hin j g hg) hne
  · exact (haf size align hk).trans (hpa.lower i (hin i f hf))
  · rw [← hsa i f hf]
    exact (hpa.upper i (hin i f hf)).trans hle
  · rw [← ha i f hf]
    exact hpa.aligned i (hin i f hf)
  · rw [← ha i f hf]
    exact (hpl.aligns i (hin i f hf)).trans (Align.bytes_dvd hal)
  · replace hn : s.largestNiche = some n := hn
    rcases hpl.niche with hke | ⟨n',hn',i,hi,f,fn,hf,hfn,rfl⟩
    · rw [hke,hno] at hn
      cases hn
    obtain rfl := Option.mem_unique hn' hn
    refine ⟨i,f,fn,hf,hfn,rfl,fun hin => ⟨Nat.le_add_left _ _,?_⟩⟩
    simp only
    omega

theorem univariant_gives : Gives (fun layout => ∃ offsets order,
    StructLayout dl fields repr.pack kind offsets order layout)
    (univariant dl fields repr kind) := by
  unfold univariant
  split
  · rename_i he
    exact (univariantBiased_gives hpr _).error_of he
  rename_i start hs
  have hs := (univariantBiased_gives hpr _).of_ok hs
  split
  · exact hs
  simp only
  split
  · split
    · simp
    rename_i alt ha
    split
    · simp
    split
    · exact (univariantBiased_gives hpr _).of_ok ha
    · exact hs
  · exact hs

end

theorem struct_layout_sound (dl : TargetDataLayout) (fields : List LayoutData) (repr : ReprOptions)
    (kind : StructKind) (bias : NicheBias) (layout : LayoutData)
    (hpre : ∀ size align, kind = .prefixed size align → size < dl.objSizeBound)
    (h : univariantBiased dl fields repr kind bias = .ok layout) :
    ∃ offsets order, StructLayout dl fields repr.pack kind offsets order layout :=
  (univariantBiased_gives hpre bias).of_ok h

def x86 : TargetDataLayout where
  i8Align := ⟨0⟩
  i16Align := ⟨1⟩
  i32Align := ⟨2⟩
  i64Align := ⟨3⟩
  i128Align := ⟨4⟩
  f16Align := ⟨1⟩
  f32Align := ⟨2⟩
  f64Align := ⟨3⟩
  f128Align := ⟨4⟩
  aggregateAlign := ⟨0⟩
  defaultAddressSpace := 0
  pointerSpecIn _ := ⟨.bits64,⟨3⟩,.bits64⟩

def taggedFields : List LayoutData :=
  [scalar x86 (.initialized (.int .i8 false) ⟨0,1⟩),scalar x86 (.initialized (.int .i32 false) (.full 4)),
    scalar x86 (.initialized (.int .i8 false) (.full 1))]

theorem taggedFields_sound : ∃ layout offsets order, univariantBiased x86 taggedFields .default
    (.prefixed 1 .one) .start = .ok layout ∧
      StructLayout x86 taggedFields none (.prefixed 1 .one) offsets order layout ∧
      offsets = [2,4,1] ∧ order = [2,0,1] ∧ layout.size = 8 := by
  obtain ⟨layout,hl,hsh,hs⟩ : ∃ layout, univariantBiased x86 taggedFields .default
    (.prefixed 1 .one) .start = .ok layout ∧
        layout.fields = .arbitrary [2,4,1] [2,0,1] ∧ layout.size = 8 := ⟨_,rfl,by decide,by decide⟩
  obtain ⟨offsets,order,hso⟩ := struct_layout_sound x86 taggedFields .default (.prefixed 1 .one) .start layout
    (fun size align heq => by cases heq; decide) hl
  obtain ⟨rfl,rfl⟩ := FieldsShape.arbitrary.inj (hso.shape.symm.trans hsh)
  exact ⟨layout,_,_,hl,hso,rfl,rfl,hs⟩

end Frontend.Abi
