import Frontend.Abi.ReserveSound
import Frontend.Abi.StructSound

namespace Frontend.Abi

open Library List Size

namespace WrappingRange

variable (r other : WrappingRange) (size : Nat)

def isFullFor : Bool := r.start = wrappingAdd r.end 1 &&& unsignedIntMax size

def containsRange : Bool :=
  if r.isFullFor size then true
  else
    let delta := r.start
    let max := truncate size (wrappingSub r.end delta)
    let otherStart := truncate size (wrappingSub other.start delta)
    let otherEnd := truncate size (wrappingSub other.end delta)
    otherStart ≤ otherEnd && otherEnd ≤ max

def outside : Finset Nat := (Finset.range (2 ^ bits size)).filter fun v => r.contains v = false

variable {r other size} {s e : Nat} {values : List Nat}

theorem card_outside (h : r.WellFormed size) : (r.outside size).card = gap (2 ^ bits size) r.start r.end := by
  obtain ⟨hs,he⟩ := h.lt
  have hm v : v ∈ r.outside size ↔ v < 2 ^ bits size ∧ ¬ Between r.start r.end v := by
    rw [outside,Finset.mem_filter,Finset.mem_range,← Bool.not_eq_true,contains_iff]
  rw [gap_eq hs he]
  split
  · have ho : r.outside size = Finset.Ioo r.end r.start := by
      ext v
      rw [hm,Finset.mem_Ioo,Between]
      split <;> omega
    rw [ho,Nat.card_Ioo]
  · have ho : r.outside size = Finset.range (2 ^ bits size) \ Finset.Icc r.start r.end := by
      ext v
      rw [hm,Finset.mem_sdiff,Finset.mem_range,Finset.mem_Icc,Between]
      split <;> omega
    have hi : Finset.Icc r.start r.end ⊆ Finset.range (2 ^ bits size) := fun v hv => by
      rw [Finset.mem_Icc] at hv
      exact Finset.mem_range.mpr (by omega)
    rw [ho,Finset.card_sdiff_of_subset hi,Finset.card_range,Nat.card_Icc]
    omega

section

variable (hb : bits size ≤ 128)
include hb

theorem truncate_sub (hs : s < 2 ^ bits size) (v : Nat) :
    truncate size (wrappingSub v s) = steps (2 ^ bits size) s v := by
  rw [truncate,← Nat.and_two_pow_sub_one_eq_mod,wrappingSub_and hb hs.le,steps]

theorem width_eq (hs : s < 2 ^ bits size) (he : e < 2 ^ bits size) :
    width ⟨s,e⟩ size = if s ≤ e then e - s else e + 2 ^ bits size - s := by rw [width,truncate_sub hb hs,steps_eq hs he]

theorem containsRange_iff (h : r.WellFormed size) (ho : other.WellFormed size) : r.containsRange other size = true ↔
    ∀ v < 2 ^ bits size, other.contains v = true → r.contains v = true := by
  obtain ⟨hs,he⟩ := h.lt
  obtain ⟨hos,hoe⟩ := ho.lt
  have hf : r.isFullFor size = true ↔ r.start = (r.end + 1) % 2 ^ bits size := by
    rw [isFullFor,unsignedIntMax,wrappingAdd_and hb,decide_eq_true_iff]
  rw [mod_two_mul (by omega)] at hf
  simp only [containsRange,contains_iff,truncate_sub hb hs,steps_eq hs he,steps_eq hs hos,steps_eq hs hoe]
  split
  · rename_i hfu
    refine iff_of_true rfl fun v hv _ => ?_
    have := hf.mp hfu
    unfold Between
    split_ifs at * <;> omega
  rename_i hfu
  rw [hf] at hfu
  rw [Bool.and_eq_true,decide_eq_true_iff,decide_eq_true_iff]
  constructor
  · intro hle v hv hbe
    unfold Between at *
    split_ifs at * <;> omega
  · intro hall
    -- The end of the other range, and the value in front of this one.
    have hend := hall other.end hoe (by unfold Between; split <;> omega)
    have hbe := hall (if r.start = 0 then 2 ^ bits size - 1 else r.start - 1) (by split <;> omega)
    unfold Between at hend hbe
    split_ifs at * <;> omega

end

theorem narrowest_le (size : Nat) (best : WrappingRange) (ranges : List WrappingRange) :
    ∀ r ∈ best :: ranges, (narrowest size best ranges).width size ≤ r.width size := by
  induction ranges generalizing best with
  | nil => simp [narrowest]
  | cons r ranges ih =>
    have hi := ih (if r.width size < best.width size then r else best)
    rw [forall_mem_cons] at hi
    rw [narrowest,forall_mem_cons,forall_mem_cons]
    refine ⟨hi.1.trans ?_,hi.1.trans ?_,hi.2⟩ <;> split <;> omega

theorem exists_wraparound (hs : values.Pairwise (· ≤ ·)) (hl : e < s) (ha : ∀ v ∈ values, v ≤ e ∨ s ≤ v)
    (hu : u ∈ values)
    (hue : u ≤ e) (hw : w ∈ values) (hws : s ≤ w) : ∃ r ∈ wraparoundRanges values, r.end ≤ e ∧ s ≤ r.start ∧
    r.start ∈ values := by
  induction values generalizing u with
  | nil => cases hu
  | cons a values ih =>
    obtain ⟨hf,hs⟩ := pairwise_cons.mp hs
    have hae : a ≤ e := by
      rcases mem_cons.mp hu with rfl | hu
      · exact hue
      · exact (hf u hu).trans hue
    replace hw := (mem_cons.mp hw).resolve_left (by omega)
    cases values with
    | nil => cases hw
    | cons b values =>
      rcases ha b (.tail _ (.head _)) with hb | hb
      · obtain ⟨r,hr,he,hst,hm⟩ := ih hs (fun v hv => ha v (.tail _ hv)) (.head _) hb hw
        exact ⟨r,mem_append_right _ hr,he,hst,.tail _ hm⟩
      · refine ⟨⟨b,a⟩,mem_append_left _ ?_,hae,hb,.tail _ (.head _)⟩
        rw [if_pos (by omega)]
        exact .head _

theorem smallestRangeContaining_least (hz : 0 < bits size) (hb : bits size ≤ 128) (hne : values ≠ [])
    (hv : ∀ v ∈ values, v ≤ unsignedIntMax size) : ∃ r, smallestRangeContaining values size = .ok (some r) ∧
      (∀ v ∈ values, r.contains v = true) ∧
      ∀ r' : WrappingRange, r'.WellFormed size → (∀ v ∈ values, r'.contains v = true) →
      r.width size ≤ r'.width size := by
  suffices h : ∃ r, smallestRangeContaining values size = .ok (some r) ∧
      ∀ r' : WrappingRange, r'.WellFormed size → (∀ v ∈ values, r'.contains v = true) → r.width size ≤ r'.width size by
    obtain ⟨r,hr,hl⟩ := h
    refine ⟨r,hr,fun v hm => ?_,hl⟩
    obtain ⟨_,⟨⟩,hc⟩ := smallestRangeContaining_contains hr v hm
    exact hc
  have hlt v (hm : v ∈ values) : v < 2 ^ bits size := by
    have := hv v hm
    have := Nat.two_pow_pos (bits size)
    unfold unsignedIntMax at *
    omega
  have hh := Nat.two_pow_pred_mul_two hz
  obtain ⟨low,hlo⟩ := Option.isSome_iff_exists.mp (isSome_min?_iff.mpr hne)
  obtain ⟨hig,hhi⟩ := Option.isSome_iff_exists.mp (isSome_max?_iff.mpr hne)
  have hlm := (min?_eq_some_iff.mp hlo).1
  have hhm := (max?_eq_some_iff.mp hhi).1
  have hle := (min?_eq_some_iff.mp hlo).2 hig hhm
  have hob := width_eq hb (hlt low hlm) (hlt hig hhm)
  rw [if_pos hle] at hob
  rw [smallestRangeContaining,hlo,hhi]
  simp only
  rw [if_neg (Nat.not_lt.mpr (hv hig hhm))]
  have hst (r' : WrappingRange) (hr' : r'.WellFormed size) (hall : ∀ v ∈ values, r'.contains v = true) :
      hig - low ≤ r'.width size ∨ r'.end < r'.start ∧ low ≤ r'.end ∧ r'.start ≤ hig ∧
      r'.width size = r'.end + 2 ^ bits size - r'.start := by
    obtain ⟨hs,he⟩ := hr'.lt
    have hw : r'.width size = _ := width_eq hb hs he
    have h1 := contains_iff.mp (hall low hlm)
    have h2 := contains_iff.mp (hall hig hhm)
    have := hlt hig hhm
    unfold Between at h1 h2
    split_ifs at * <;> omega
  split
  · refine ⟨_,rfl,fun r' hr' hall => ?_⟩
    have := hst r' hr' hall
    rw [hob]
    omega
  · refine ⟨_,rfl,fun r' hr' hall => ?_⟩
    have hna := narrowest_le size ⟨low,hig⟩ (wraparoundRanges (values.insertionSort (· ≤ ·)))
    rcases hst r' hr' hall with hle | ⟨hlt',hl,hr,hw⟩
    · exact (hna _ (.head _)).trans (hob ▸ hle)
    have hmi v : v ∈ values.insertionSort (· ≤ ·) ↔ v ∈ values := mem_insertionSort _
    obtain ⟨c,hc,hce,hcs,hcm⟩ := exists_wraparound (pairwise_insertionSort (· ≤ ·) values) hlt' (fun v hm => by
      have := contains_iff.mp (hall v ((hmi v).mp hm))
      unfold Between at this
      split_ifs at this <;> omega) ((hmi low).mpr hlm) hl ((hmi hig).mpr hhm) hr
    refine (hna c (.tail _ hc)).trans ?_
    have hcl := hlt _ ((hmi _).mp hcm)
    have hcw : c.width size = _ := width_eq hb hcl (by omega)
    rw [hcw,hw,if_neg (by omega)]
    omega

end WrappingRange

theorem wrapping_ranges_exact :
    (∀ (dl : TargetDataLayout) (n : Niche), n.validRange.WellFormed (n.value.size dl) →
      n.available dl = (n.validRange.outside (n.value.size dl)).card ∧ n.reserve dl 0 = .error .panic ∧
      ∀ count > 0, (n.available dl < count → n.reserve dl count = .ok none) ∧
        (count ≤ n.available dl → ∃ start range, n.reserve dl count = .ok (some (start,.initialized n.value range)) ∧
          Reserves (2 ^ bits (n.value.size dl)) n.validRange range start count)) ∧
    ∀ size, 0 < bits size → bits size ≤ 128 →
      (∀ r other : WrappingRange, r.WellFormed size → other.WellFormed size → (r.containsRange other size = true ↔
        ∀ v < 2 ^ bits size, other.contains v = true → r.contains v = true)) ∧
      ∀ values ≠ [], (∀ v ∈ values, v ≤ unsignedIntMax size) →
        ∃ r, WrappingRange.smallestRangeContaining values size = .ok (some r) ∧ (∀ v ∈ values, r.contains v = true) ∧
          ∀ r' : WrappingRange, r'.WellFormed size → (∀ v ∈ values, r'.contains v = true) →
          r.width size ≤ r'.width size := by
  refine ⟨fun dl n hwf => ⟨?_,rfl,fun count hc => ?_⟩,fun size hz hb => ⟨fun r other h ho => ?_,fun values hne hv => ?_⟩⟩
  · rw [n.available_gap hwf,WrappingRange.card_outside hwf]
  · rcases n.reserve_cases hwf count with ⟨h0,-⟩ | ⟨hlt,hr⟩ | ⟨-,hle,hr⟩
    · omega
    · exact ⟨fun _ => hr,fun _ => by omega⟩
    · exact ⟨fun _ => by omega,fun _ => hr⟩
  · exact WrappingRange.containsRange_iff hb h ho
  · exact WrappingRange.smallestRangeContaining_least hz hb hne hv

def boolNiche : Niche := ⟨0,.int .i8 false,⟨0,1⟩⟩

theorem bool_ranges_exact : (boolNiche.available x86 = (boolNiche.validRange.outside 1).card ∧ ∃ start range,
      boolNiche.reserve x86 2 = .ok (some (start,.initialized (.int .i8 false) range)) ∧
      Reserves (2 ^ 8) ⟨0,1⟩ range start 2) ∧
    (WrappingRange.containsRange ⟨254,3⟩ ⟨0,1⟩ 1 = true ↔ ∀ v < 2 ^ 8, WrappingRange.contains ⟨0,1⟩ v = true →
    WrappingRange.contains ⟨254,3⟩ v = true) ∧
    ∃ r, WrappingRange.smallestRangeContaining [1,254] 1 = .ok (some r) ∧ ∀ v ∈ [1,254], r.contains v = true := by
  obtain ⟨hn,hr⟩ := wrapping_ranges_exact
  obtain ⟨ha,-,hc⟩ := hn x86 boolNiche ⟨by decide,by decide⟩
  obtain ⟨hco,hs⟩ := hr 1 (by decide) (by decide)
  obtain ⟨r,hr,hall,-⟩ := hs [1,254] (by decide) (by decide)
  exact ⟨⟨ha,(hc 2 (by decide)).2 (by decide)⟩,hco _ _ ⟨by decide,by decide⟩ ⟨by decide,by decide⟩,r,hr,hall⟩

-- All 254 other values are available, but not the empty run of them.
theorem reserve_nothing_panics : boolNiche.available x86 = 254 ∧ boolNiche.reserve x86 0 = .error .panic :=
  ⟨by decide,rfl⟩

end Frontend.Abi
