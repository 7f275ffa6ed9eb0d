import Frontend.Arena.Dropless

namespace Frontend.Arena

open Library List Option BitVec Layout

variable {t : Target} {layout : Layout t} {arena arena' : DroplessArena t} {address base : Usize t}
  {bases : List (Usize t)}

theorem Target.wordLog_lt (t : Target) : t.wordLog < t.bits := by cases t <;> decide

theorem Target.bits_bounds (t : Target) :
    2 ^ t.bits = 2 * 2 ^ (t.bits - 1) ∧ 2 ^ 22 + 2 ^ t.wordLog ≤ 2 ^ (t.bits - 1) ∧ 0 < 2 ^ t.wordLog := by
  cases t <;> decide

variable {k : Nat} {val : Usize t}

theorem toNat_pow (h : k < t.bits) : (twoPow t.bits k).toNat = 2 ^ k := by
  rw [toNat_twoPow]
  exact Nat.mod_eq_of_lt (Nat.pow_lt_pow_right (by decide) h)

theorem toNat_alignDown (h : k < t.bits) (val : Usize t) :
    (alignDown val (twoPow t.bits k)).toNat = val.toNat - val.toNat % 2 ^ k :=
  toNat_and_not_pred h val

section

variable (h : k < t.bits) (hfits : val.toNat + 2 ^ k ≤ 2 ^ t.bits)

include h hfits

theorem toNat_add_sub_one : (val + twoPow t.bits k - 1#t.bits).toNat = val.toNat + 2 ^ k - 1 := by
  have hp : 0 < 2 ^ k := Nat.two_pow_pos k
  have ha : val + twoPow t.bits k - 1#t.bits = val + (twoPow t.bits k - 1#t.bits) := by
    rw [BitVec.sub_eq_add_neg,BitVec.sub_eq_add_neg,BitVec.add_assoc]
  rw [ha,toNat_add,toNat_twoPow_sub_one h,Nat.mod_eq_of_lt (by omega)]
  omega

theorem toNat_alignUp : (alignUp val (twoPow t.bits k)).toNat = val.toNat +
    2 ^ k - 1 - (val.toNat + 2 ^ k - 1) % 2 ^ k := by
  rw [alignUp,toNat_and_not_pred h,toNat_add_sub_one h hfits]

theorem alignUp_spec : val.toNat ≤ (alignUp val (twoPow t.bits k)).toNat ∧
      2 ^ k ∣ (alignUp val (twoPow t.bits k)).toNat := by
  rw [toNat_alignUp h hfits]
  have hm := Nat.mod_lt (val.toNat + 2 ^ k - 1) (Nat.two_pow_pos k)
  exact ⟨by omega,Nat.dvd_sub_mod _⟩

end

theorem Layout.bytes_spec (layout : Layout t) : layout.size.toNat ≤ (alignUp layout.size (droplessAlignment t)).toNat ∧
      2 ^ t.wordLog ∣ (alignUp layout.size (droplessAlignment t)).toNat := by
  have hs := layout.size_le
  have hb := t.bits_bounds
  have ha : 0 < 2 ^ layout.alignLog := Nat.two_pow_pos _
  exact alignUp_spec t.wordLog_lt (by omega)

theorem word_dvd_alignDown (h : 2 ^ t.wordLog ∣ n) : 2 ^ t.wordLog ∣ n - n % 2 ^ k := by
  rcases Nat.le_total k t.wordLog with hk | hk
  · have hd : 2 ^ k ∣ n := (Nat.pow_dvd_pow 2 hk).trans h
    rw [Nat.mod_eq_zero_of_dvd hd]
    exact h
  · exact (Nat.pow_dvd_pow 2 hk).trans (Nat.dvd_sub_mod n)

theorem Layout.size_pos (hs : layout.size ≠ 0#t.bits) : 0 < layout.size.toNat := by
  rw [Nat.pos_iff_ne_zero]
  exact fun h => hs (eq_of_toNat_eq (by simpa using h))

namespace DroplessArena

structure Bumped (arena : DroplessArena t) (layout : Layout t) (address : Usize t) : Prop where
  start_le : arena.start.toNat ≤ address.toNat
  le_stop : address.toNat + layout.size.toNat ≤ arena.stop.toNat
  aligned : 2 ^ layout.alignLog ∣ address.toNat
  word : 2 ^ t.wordLog ∣ address.toNat

theorem bump_spec (hw : 2 ^ t.wordLog ∣ arena.stop.toNat) (h : arena.bump layout = some address) :
    Bumped arena layout address := by
  unfold bump at h
  dsimp only at h
  split at h
  · rename_i hle
    split at h
    · rename_i hs
      cases h
      obtain ⟨hsi,hb⟩ := layout.bytes_spec
      have hsu := toNat_sub_of_le hle
      have ha := toNat_alignDown layout.align_lt (arena.stop - alignUp layout.size (droplessAlignment t))
      rw [hsu] at ha
      have hle' := le_def.1 hle
      refine ⟨le_def.1 hs,?_,?_,?_⟩
      · rw [align,ha]
        omega
      · rw [align,ha]
        exact Nat.dvd_sub_mod _
      · rw [align,ha]
        exact word_dvd_alignDown (Nat.dvd_sub hw hb)
    · cases h
  · cases h

theorem toNat_maxUsize (a b : Usize t) : (maxUsize a b).toNat = max a.toNat b.toNat := by
  unfold maxUsize
  split
  · rename_i h
    exact (max_eq_right (le_def.1 h)).symm
  · rename_i h
    exact (max_eq_left (Nat.le_of_lt (Nat.not_le.mp (mt le_def.2 h)))).symm

theorem toNat_additional (layout : Layout t) :
    (layout.size + maxUsize (droplessAlignment t) layout.align - 1#t.bits).toNat =
      layout.size.toNat + max (2 ^ t.wordLog) (2 ^ layout.alignLog) - 1 := by
  have hl := layout.size_le
  have hb := t.bits_bounds
  have hw := toNat_pow t.wordLog_lt
  have ha := toNat_pow layout.align_lt
  unfold maxUsize
  split
  · rename_i hle
    have hle' := le_def.1 hle
    rw [droplessAlignment,hw,align,ha] at hle'
    rw [align,toNat_add_sub_one layout.align_lt (by omega),max_eq_right hle']
  · rename_i hle
    have hle' := mt le_def.2 hle
    rw [droplessAlignment,hw,align,ha] at hle'
    rw [droplessAlignment,toNat_add_sub_one t.wordLog_lt (by omega),max_eq_left (by omega)]

theorem toNat_doubled (len : Usize t) : (minUsize len (hugePage t / 2#t.bits) * 2#t.bits).toNat = 2 * min len.toNat
    (2 ^ 20) := by
  have hh : (hugePage t / 2#t.bits).toNat = 2 ^ 20 := by cases t <;> decide
  have ht : (2#t.bits).toNat = 2 := by cases t <;> decide
  have hb := t.bits_bounds
  have hm : (minUsize len (hugePage t / 2#t.bits)).toNat = min len.toNat (2 ^ 20) := by
    rw [← hh]
    unfold minUsize
    split
    · rename_i h
      exact (min_eq_left (le_def.1 h)).symm
    · rename_i h
      exact (min_eq_right (Nat.le_of_lt (Nat.not_le.mp (mt le_def.2 h)))).symm
  rw [toNat_mul,ht,hm,Nat.mul_comm,Nat.mod_eq_of_lt (by omega)]

-- The length the last chunk asks of the next one.
def doubledLen (arena : DroplessArena t) : Nat :=
  match arena.chunks.getLast? with
  | some lastChunk => 2 * min lastChunk.len.toNat (2 ^ 20)
  | none => 2 ^ 12

def paddedSize (layout : Layout t) : Nat := layout.size.toNat + max (2 ^ t.wordLog) (2 ^ layout.alignLog) - 1

theorem toNat_newCap (arena : DroplessArena t) (layout : Layout t) : (arena.newCap layout).toNat =
      max (paddedSize layout) arena.doubledLen + 2 ^ 12 - 1 - (max (paddedSize layout) arena.doubledLen + 2 ^ 12 - 1)
      % 2 ^ 12 := by
  have hm : max (2 ^ t.wordLog) (2 ^ layout.alignLog) ≤ 2 ^ t.wordLog + 2 ^ layout.alignLog :=
    max_le (Nat.le_add_right ..) (Nat.le_add_left ..)
  have hl := layout.size_le
  have hb := t.bits_bounds
  have hp : 12 < t.bits := by cases t <;> decide
  have hc (doubled : Usize t) (hd : doubled.toNat = arena.doubledLen) (hd' : arena.doubledLen ≤ 2 ^ 21) :
      (alignUp (maxUsize (layout.size + maxUsize (droplessAlignment t) layout.align - 1#t.bits) doubled)
        (page t)).toNat =
        max (paddedSize layout) arena.doubledLen +
            2 ^ 12 - 1 - (max (paddedSize layout) arena.doubledLen + 2 ^ 12 - 1) % 2 ^ 12 := by
    have hx := toNat_maxUsize (layout.size + maxUsize (droplessAlignment t) layout.align - 1#t.bits) doubled
    rw [toNat_additional,hd,← paddedSize] at hx
    have hpad : paddedSize layout ≤ 2 ^ (t.bits - 1) + 2 ^ t.wordLog := by
      rw [paddedSize]
      omega
    have hxle : max (paddedSize layout) arena.doubledLen ≤ 2 ^ (t.bits - 1) + 2 ^ t.wordLog := max_le hpad (by omega)
    rw [page,toNat_alignUp hp (by omega),hx]
  unfold newCap doubledLen at *
  dsimp only
  cases h : arena.chunks.getLast? with
  | some lastChunk =>
    simp only [h] at hc ⊢
    exact hc _ (toNat_doubled _) (by omega)
  | none =>
    simp only [h] at hc ⊢
    exact hc _ (toNat_pow hp) (by decide)

theorem newCap_spec (arena : DroplessArena t) (layout : Layout t) : paddedSize layout ≤ (arena.newCap layout).toNat ∧
      arena.doubledLen ≤ (arena.newCap layout).toNat ∧
      (arena.newCap layout).toNat < max (paddedSize layout) arena.doubledLen + 2 ^ 12 ∧
      2 ^ 12 ∣ (arena.newCap layout).toNat := by
  rw [toNat_newCap]
  refine ⟨by omega,by omega,by omega,Nat.dvd_sub_mod _⟩

theorem toNat_stop_grow (h : base.toNat + (arena.newCap layout).toNat < 2 ^ t.bits) :
    (arena.grow layout base).stop.toNat =
      base.toNat + (arena.newCap layout).toNat - base.toNat % 2 ^ t.wordLog := by
  have hd : 2 ^ t.wordLog ∣ (arena.newCap layout).toNat := (Nat.pow_dvd_pow 2 (by cases t <;> decide)).trans
    (newCap_spec arena layout).2.2.2
  have hs := toNat_alignDown t.wordLog_lt (base + arena.newCap layout)
  rw [toNat_add,Nat.mod_eq_of_lt h,Nat.add_mod,Nat.mod_eq_zero_of_dvd hd,Nat.add_zero,Nat.mod_mod] at hs
  exact hs

end DroplessArena

def Separate (a b c d : Nat) : Prop := b ≤ c ∨ d ≤ a

structure Genuine (chunks : List (ArenaChunk t)) : Prop where
  fits : ∀ c ∈ chunks, c.start.toNat + c.len.toNat < 2 ^ t.bits
  separate : chunks.Pairwise fun c d => Separate c.start.toNat (c.start.toNat + c.len.toNat) d.start.toNat
    (d.start.toNat + d.len.toNat)

theorem Genuine.of_prefix (h : Genuine chunks') (hp : chunks <+: chunks') : Genuine chunks :=
  ⟨fun c hc => h.fits c (hp.subset hc),h.separate.sublist hp.sublist⟩

namespace Range

def first (r : Range t) : Nat := r.address.toNat
def stop (r : Range t) : Nat := r.address.toNat + r.layout.size.toNat

def Inside (r : Range t) (c : ArenaChunk t) : Prop := c.start.toNat ≤ r.first ∧ r.stop ≤ c.start.toNat + c.len.toNat

end Range

namespace DroplessArena

structure Inv (arena : DroplessArena t) (ranges : List (Range t)) : Prop where
  word : 2 ^ t.wordLog ∣ arena.stop.toNat
  start_le : arena.start.toNat ≤ arena.stop.toNat
  free : arena.start = arena.stop ∨ ∃ c ∈ arena.chunks, c.start = arena.start ∧
    arena.stop.toNat ≤ c.start.toNat + c.len.toNat
  aligned : ∀ r ∈ ranges, 2 ^ r.layout.alignLog ∣ r.first
  inside : ∀ r ∈ ranges, ∃ c ∈ arena.chunks, r.Inside c
  unused : ∀ r ∈ ranges, Separate r.first r.stop arena.start.toNat arena.stop.toNat
  separate : ranges.Pairwise fun r s => Separate r.first r.stop s.first s.stop

variable {ranges : List (Range t)}

theorem Inv.default : Inv (.default : DroplessArena t) [] :=
  ⟨by simp [DroplessArena.default],by simp [DroplessArena.default],.inl rfl,by simp,by simp,by simp,.nil⟩

theorem Inv.bump (h : Inv arena ranges) (hsi : layout.size ≠ 0#t.bits) (hb : arena.bump layout = some address) :
    Inv { arena with stop := address } (ranges ++ [⟨address,layout⟩]) := by
  have hs := bump_spec h.word hb
  have hp := size_pos hsi
  have hlt : arena.start ≠ arena.stop := by
    intro heq
    have := hs.start_le
    have := hs.le_stop
    rw [heq] at *
    omega
  obtain ⟨c,hc,hsa,hst⟩ := h.free.resolve_left hlt
  have hle : address.toNat ≤ arena.stop.toNat := (Nat.le_add_right ..).trans hs.le_stop
  refine ⟨hs.word,hs.start_le,.inr ⟨c,hc,hsa,hle.trans hst⟩,?_,?_,?_,?_⟩
  · exact forall_mem_append.mpr ⟨h.aligned,forall_mem_singleton.mpr hs.aligned⟩
  · exact forall_mem_append.mpr ⟨h.inside,forall_mem_singleton.mpr ⟨c,hc,hsa ▸ hs.start_le,hs.le_stop.trans hst⟩⟩
  · exact forall_mem_append.mpr ⟨fun r hr => (h.unused r hr).imp_right hle.trans,forall_mem_singleton.mpr (.inr le_rfl)⟩
  · refine pairwise_append.2 ⟨h.separate,pairwise_singleton _ _,?_⟩
    intro r hr s hs'
    obtain rfl := mem_singleton.1 hs'
    exact (h.unused r hr).imp (fun hle => hle.trans hs.start_le) fun hle => hs.le_stop.trans hle

theorem Inv.grow (h : Inv arena ranges) (hsi : layout.size ≠ 0#t.bits)
    (hg : Genuine (arena.grow layout base).chunks) : Inv (arena.grow layout base) ranges := by
  set chunk : ArenaChunk t := ⟨base,arena.newCap layout⟩ with hch
  have hm : chunk ∈ (arena.grow layout base).chunks := mem_append_right _ (by simp [hch])
  have hst : (arena.grow layout base).stop.toNat = chunk.start.toNat +
    chunk.len.toNat - chunk.start.toNat % 2 ^ t.wordLog :=
    toNat_stop_grow (hg.fits chunk hm)
  have hmo := Nat.mod_lt chunk.start.toNat (Nat.two_pow_pos t.wordLog)
  have hl : 2 ^ t.wordLog ≤ chunk.len.toNat := by
    have hp := size_pos hsi
    have hn : paddedSize layout ≤ chunk.len.toNat := (newCap_spec arena layout).1
    rw [paddedSize] at hn
    have hx := le_max_left (2 ^ t.wordLog) (2 ^ layout.alignLog)
    generalize max (2 ^ t.wordLog) (2 ^ layout.alignLog) = padding at hn hx
    omega
  refine ⟨?_,?_,.inr ⟨chunk,hm,rfl,by omega⟩,h.aligned,?_,?_,h.separate⟩
  · rw [DroplessArena.grow,droplessAlignment,toNat_alignDown t.wordLog_lt]
    exact Nat.dvd_sub_mod _
  · have hsa : (arena.grow layout base).start.toNat = chunk.start.toNat := rfl
    omega
  · intro r hr
    obtain ⟨c,hc,hin⟩ := h.inside r hr
    exact ⟨c,mem_append_left _ hc,hin⟩
  · intro r hr
    obtain ⟨c,hc,hin⟩ := h.inside r hr
    have hs := (pairwise_append.1 hg.separate).2.2 c hc chunk (by simp [hch])
    have hsa : (arena.grow layout base).start.toNat = chunk.start.toNat := rfl
    rcases hs with hs | hs
    · exact .inl (hin.2.trans hs)
    · exact .inr (by have := hin.1; omega)

theorem allocLoop_spec (hs : layout.size ≠ 0#t.bits) (h : allocLoop layout bases arena = some (address,arena')) :
    arena.chunks <+: arena'.chunks ∧
      ∀ {ranges}, Inv arena ranges → Genuine arena'.chunks → Inv arena' (ranges ++ [⟨address,layout⟩]) := by
  fun_induction allocLoop layout bases arena with
  | case1 bases arena address hb =>
    cases h
    exact ⟨prefix_rfl,fun hi _ => hi.bump hs hb⟩
  | case2 arena hb => cases h
  | case3 arena hb base bases ih =>
    obtain ⟨hp,hi⟩ := ih h
    exact ⟨(prefix_append _ _).trans hp,fun ha hg => hi (ha.grow hs (hg.of_prefix hp)) hg⟩

variable {calls : List (Call t)}

theorem run_spec (h : run calls arena = some (arena',new)) : arena.chunks <+: arena'.chunks ∧
    ∀ {ranges}, Inv arena ranges → Genuine arena'.chunks → Inv arena' (ranges ++ new) := by
  induction calls generalizing arena new with
  | nil =>
    cases h
    exact ⟨prefix_rfl,fun hi _ => by simpa using hi⟩
  | cons call calls ih =>
    simp only [run,allocRaw,bind_eq_bind,bind_eq_some_iff] at h
    obtain ⟨⟨address,arena1⟩,ha,⟨arena2,new2⟩,hr,h⟩ := h
    cases h
    split at ha
    · cases ha
    rename_i hs
    obtain ⟨hp,hi⟩ := allocLoop_spec hs ha
    obtain ⟨hp',hi'⟩ := ih hr
    exact ⟨hp.trans hp',fun h hg => by simpa using hi' (hi h (hg.of_prefix hp')) hg⟩

theorem arena_ranges_never_overlap {calls : List (Call t)} {arena : DroplessArena t}
    {ranges : List (Range t)} (h : run calls .default = some (arena,ranges))
    (hg : Genuine arena.chunks) :
    (∀ r ∈ ranges, 2 ^ r.layout.alignLog ∣ r.first ∧ ∃ c ∈ arena.chunks, r.Inside c) ∧
      ranges.Pairwise (fun r s => Separate r.first r.stop s.first s.stop) ∧
      2 ^ t.wordLog ∣ arena.stop.toNat ∧ arena.start ≤ arena.stop := by
  have hin := (run_spec h).2 Inv.default hg
  rw [nil_append] at hin
  exact ⟨fun r hr => ⟨hin.aligned r hr,hin.inside r hr⟩,hin.separate,hin.word,le_def.2 hin.start_le⟩

def smallLayout : Layout .bits64 := ⟨5#64,4,by decide,by decide⟩

def pageLayout : Layout .bits64 := ⟨4096#64,0,by decide,by decide⟩

def threeCalls : List (Call .bits64) := [⟨smallLayout,[0x10003#64]⟩,⟨pageLayout,[0x20000#64]⟩,⟨smallLayout,[]⟩]

def twoChunks : List (ArenaChunk .bits64) := [⟨0x10003#64,0x1000#64⟩,⟨0x20000#64,0x2000#64⟩]

def threeRanges : List (Range .bits64) := [⟨0x10ff0#64,smallLayout⟩,⟨0x21000#64,pageLayout⟩,⟨0x20ff0#64,smallLayout⟩]

theorem three_ranges_never_overlap : run threeCalls .default = some (⟨0x20000#64,0x20ff0#64,twoChunks⟩,threeRanges) ∧
    Genuine twoChunks ∧
      threeRanges.Pairwise (fun r s => Separate r.first r.stop s.first s.stop) := by
  have hr : run threeCalls .default = some (⟨0x20000#64,0x20ff0#64,twoChunks⟩,threeRanges) := rfl
  have hg : Genuine twoChunks := ⟨by decide,by simp [Separate,twoChunks]⟩
  exact ⟨hr,hg,(arena_ranges_never_overlap hr hg).2.1⟩

end DroplessArena

end Frontend.Arena
