import Frontend.Abi.Reserve
import Frontend.Library.Circular

namespace Frontend.Abi

open Library List Size WrappingRange

theorem Primitive.size_bits_le (p : Primitive) (dl : TargetDataLayout) : bits (p.size dl) ≤ 128 := by
  cases p with
  | int i _ =>
    rw [Primitive.size]
    cases i <;> decide
  | float f =>
    rw [Primitive.size]
    cases f <;> decide
  | pointer a =>
    rw [Primitive.size]
    cases (dl.pointerSpecIn a).pointerSize <;> decide

namespace WrappingRange

variable {r : WrappingRange} {size v : Nat}

theorem contains_iff : r.contains v = true ↔ Between r.start r.end v := by
  unfold contains Between
  split <;> simp

def WellFormed (r : WrappingRange) (size : Nat) : Prop := r.start ≤ unsignedIntMax size ∧ r.end ≤ unsignedIntMax size

theorem WellFormed.lt (h : r.WellFormed size) : r.start < 2 ^ bits size ∧ r.end < 2 ^ bits size := by
  have hp := Nat.two_pow_pos (bits size)
  unfold WellFormed unsignedIntMax at h
  omega

theorem narrowest_mem (size : Nat) (best : WrappingRange) (ranges : List WrappingRange) :
    narrowest size best ranges ∈ best :: ranges := by
  induction ranges generalizing best with
  | nil => exact .head _
  | cons r ranges ih =>
    rw [narrowest]
    split
    · exact .tail _ (ih r)
    · rcases mem_cons.mp (ih best) with h | h
      · exact mem_cons.mpr (.inl h)
      · exact .tail _ (.tail _ h)

theorem wraparoundRanges_outside (hs : values.Pairwise (· ≤ ·)) (hr : r ∈ wraparoundRanges values) :
    r.end ∈ values ∧ r.end < r.start ∧ ∀ v ∈ values, v ≤ r.end ∨ r.start ≤ v := by
  induction values with
  | nil => cases hr
  | cons e values ih =>
    rcases values with _ | ⟨s,values⟩
    · cases hr
    obtain ⟨hf,hs⟩ := pairwise_cons.mp hs
    rw [wraparoundRanges,mem_append] at hr
    rcases hr with hr | hr
    · have hle := hf s (.head _)
      split at hr
      case isTrue hne =>
        obtain rfl := mem_singleton.mp hr
        refine ⟨.head _,by simp only; omega,forall_mem_cons.mpr ⟨.inl le_rfl,
          forall_mem_cons.mpr ⟨.inr le_rfl,fun v hv => ?_⟩⟩⟩
        exact .inr ((pairwise_cons.mp hs).1 v hv)
      case isFalse => cases hr
    · obtain ⟨hm,hlt,ha⟩ := ih hs hr
      exact ⟨.tail _ hm,hlt,forall_mem_cons.mpr ⟨.inl (hf _ hm),ha⟩⟩

theorem smallestRangeContaining_contains (h : smallestRangeContaining values size = .ok found) :
    ∀ v ∈ values, ∃ r, found = some r ∧ r.contains v = true := by
  intro v hv
  simp only [contains_iff]
  unfold smallestRangeContaining at h
  split at h
  case h_1 low hig hl hh =>
    have hb : low ≤ v ∧ v ≤ hig := ⟨(min?_eq_some_iff.mp hl).2 v hv,(max?_eq_some_iff.mp hh).2 v hv⟩
    have ho : Between low hig v := by rwa [Between,if_pos (hb.1.trans hb.2)]
    split at h
    · cases h
    split at h
    case isTrue =>
      cases h
      exact ⟨_,rfl,ho⟩
    case isFalse =>
      cases h
      refine ⟨_,rfl,?_⟩
      rcases mem_cons.mp (narrowest_mem size ⟨low,hig⟩ (wraparoundRanges (values.insertionSort (· ≤ ·)))) with heq | hm
      · rw [heq]
        exact ho
      · obtain ⟨-,hlt,ha⟩ := wraparoundRanges_outside (pairwise_insertionSort (· ≤ ·) values) hm
        rw [Between,if_neg (by omega)]
        exact (ha v ((mem_insertionSort _).mpr hv)).symm
  case h_2 hn =>
    obtain ⟨low,hl⟩ := Option.isSome_iff_exists.mp (isSome_min?_of_mem hv)
    obtain ⟨hig,hh⟩ := Option.isSome_iff_exists.mp (isSome_max?_of_mem hv)
    exact absurd hh (hn low hig hl)

end WrappingRange

section

variable {w a b : Nat}

theorem wrappingAdd_and (hw : w ≤ 128) : wrappingAdd a b &&& (2 ^ w - 1) = (a + b) % 2 ^ w := by
  rw [Nat.and_two_pow_sub_one_eq_mod,wrappingAdd,Nat.mod_mod_of_dvd _ (Nat.pow_dvd_pow 2 hw)]

theorem wrappingSub_and (hw : w ≤ 128) (hb : b ≤ 2 ^ w) : wrappingSub a b &&& (2 ^ w - 1) = (a + 2 ^ w - b) % 2 ^ w := by
  obtain ⟨k,hk⟩ := Nat.pow_dvd_pow 2 hw
  have hp : 0 < k := by
    rcases Nat.eq_zero_or_pos k with rfl | h
    · simp at hk
    · exact h
  have hle : 2 ^ w ≤ 2 ^ w * k := Nat.le_mul_of_pos_right _ hp
  have hs : a + 2 ^ w * k - b = a + 2 ^ w - b + 2 ^ w * (k - 1) := by
    rw [Nat.mul_sub_one]
    omega
  rw [Nat.and_two_pow_sub_one_eq_mod,wrappingSub,Nat.mod_mod_of_dvd _ (Nat.pow_dvd_pow 2 hw),hk,hs,
    Nat.add_mul_mod_self_left]

theorem available_eq (hw : w ≤ 128) (he : e < 2 ^ w) : wrappingSub (wrappingSub s e) 1 &&& (2 ^ w - 1) = gap
    (2 ^ w) s e := by
  have hp := Nat.two_pow_pos w
  have hin : wrappingSub s e % 2 ^ w = (s + 2 ^ w - e) % 2 ^ w := by
    rw [← Nat.and_two_pow_sub_one_eq_mod,wrappingSub_and hw he.le]
  rw [wrappingSub_and hw hp,gap]
  have hs (x : Nat) : (x + 2 ^ w - 1) % 2 ^ w = (x % 2 ^ w + (2 ^ w - 1)) % 2 ^ w := by
    rw [Nat.add_sub_assoc hp,Nat.add_mod,Nat.mod_eq_of_lt (show 2 ^ w - 1 < 2 ^ w by omega)]
  rw [hs,hin,← hs,Nat.add_sub_assoc hp]
  rw [show s + 2 ^ w - e + (2 ^ w - 1) = s + 2 ^ w - e - 1 + 2 ^ w by omega,Nat.add_mod_right]

theorem Niche.available_gap {n : Niche} (h : n.validRange.WellFormed (n.value.size dl)) :
    n.available dl = gap (2 ^ bits (n.value.size dl)) n.validRange.start n.validRange.end := by
  have hw := n.value.size_bits_le dl
  obtain ⟨-,he⟩ := h.lt
  have hm := Nat.pow_le_pow_right (show 0 < 2 by decide) hw
  have hle : wrappingAdd n.validRange.end 1 ≤ 2 ^ bits (n.value.size dl) := (Nat.mod_le _ _).trans he
  have hav : n.available dl = _ := wrappingSub_and hw hle
  rw [hav,wrappingAdd,gap]
  rcases Nat.lt_or_eq_of_le (he.trans_le hm) with hlt | heq
  · rw [Nat.mod_eq_of_lt hlt,Nat.sub_sub]
  · replace heq : n.validRange.end + 1 = 2 ^ 128 := heq
    rw [Nat.sub_sub,heq,Nat.mod_self,Nat.sub_zero,
      show 2 ^ bits (n.value.size dl) = 2 ^ 128 by omega,Nat.add_sub_cancel,Nat.add_mod_right]

structure Reserves (m : Nat) (old new : WrappingRange) (start count : Nat) : Prop where
  outside : ∀ k < count, old.contains ((start + k) % m) = false
  exact : ∀ v < m, new.contains v = true ↔ old.contains v = true ∨ ∃ k < count, v = (start + k) % m

theorem Reserves.of_steps {m start count : Nat} {old new : WrappingRange} (hst : start < m) (hc : count ≤ m)
    (h : ∀ v < m, (Between new.start new.end v ↔ Between old.start old.end v ∨ steps m start v < count) ∧
      ¬ (Between old.start old.end v ∧ steps m start v < count)) : Reserves m old new start count := by
  refine ⟨fun k hk => ?_,fun v hv => ?_⟩
  · have hlt := Nat.mod_lt (start + k) (Nat.zero_lt_of_lt hst)
    rw [Bool.eq_false_iff,ne_eq,contains_iff]
    exact fun hb => (h _ hlt).2 ⟨hb,(steps_lt_iff hst hlt hc).mpr ⟨k,hk,rfl⟩⟩
  · rw [contains_iff,contains_iff,(h v hv).1,steps_lt_iff hst hv hc]

theorem Niche.reserve_cases {n : Niche} (hwf : n.validRange.WellFormed (n.value.size dl)) (count : Nat) :
    (count = 0 ∧ n.reserve dl count = .error .panic) ∨ (n.available dl < count ∧ n.reserve dl count = .ok none) ∨
      0 < count ∧ count ≤ n.available dl ∧ ∃ start range, n.reserve dl count =
      .ok (some (start,.initialized n.value range)) ∧
        Reserves (2 ^ bits (n.value.size dl)) n.validRange range start count := by
  have hw := n.value.size_bits_le dl
  obtain ⟨hs,he⟩ := hwf.lt
  have hp := Nat.two_pow_pos (bits (n.value.size dl))
  have hg := gap_lt (s := n.validRange.start) (e := n.validRange.end) hp
  have hav : wrappingSub (wrappingSub n.validRange.start n.validRange.end) 1 &&& unsignedIntMax (n.value.size dl) = _ :=
    available_eq hw he
  rw [Niche.reserve,n.available_gap hwf]
  split
  · exact .inl ⟨by assumption,rfl⟩
  simp only [hav]
  split
  · exact .inr (.inl ⟨by assumption,rfl⟩)
  rename_i hc hf
  replace hf := Nat.le_of_not_lt hf
  refine .inr (.inr ⟨Nat.pos_of_ne_zero hc,hf,?_⟩)
  have hle := (hf.trans_lt hg).le
  split
  · have hst : wrappingSub n.validRange.start count &&& unsignedIntMax (n.value.size dl) = _ := wrappingSub_and hw hle
    refine ⟨_,_,rfl,.of_steps ?_ hle fun v hv => ?_⟩
    · rw [hst]
      exact Nat.mod_lt _ hp
    · simp only [hst,withStart]
      exact extend_down hs he hf hv
  · have hst : wrappingAdd n.validRange.end 1 &&& unsignedIntMax (n.value.size dl) = _ := wrappingAdd_and hw
    have hen : wrappingAdd n.validRange.end count &&& unsignedIntMax (n.value.size dl) = _ := wrappingAdd_and hw
    refine ⟨_,_,rfl,.of_steps ?_ hle fun v hv => ?_⟩
    · rw [hst]
      exact Nat.mod_lt _ hp
    · simp only [hst,withEnd,hen]
      exact extend_up hs he hf hv

end

end Frontend.Abi
