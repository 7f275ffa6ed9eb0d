import Mathlib.Data.List.GetD
import Mathlib.Order.Nat

namespace Frontend.BitSet

open List

abbrev Word := BitVec 64

def wordBits : Nat := 64

def numWords (domainSize : Nat) : Nat := (domainSize + wordBits - 1) / wordBits

def wordIndexAndMask (elem : Nat) : Nat × Word := (elem / wordBits,1#64 <<< (elem % wordBits))

def bit (words : List Word) (i : Nat) : Bool := (words.getD (i / wordBits) 0).getLsbD (i % wordBits)

def trailingZeros (word : Word) : Nat := (List.range wordBits).findIdx word.getLsbD

def clearExcessBitsInFinalWord (domainSize : Nat) (words : List Word) : List Word :=
  let numBitsInFinalWord := domainSize % wordBits
  if 0 < numBitsInFinalWord then
    let mask := (1#64 <<< numBitsInFinalWord) - 1
    words.set (words.length - 1) (words.getD (words.length - 1) 0 &&& mask)
  else words

-- A word represents the slice of a set that its index selects.
def Covers (set : Nat → Prop) (k : Nat) (word : Word) : Prop := ∀ j < 64, word.getLsbD j = true ↔ set (wordBits * k + j)

section

variable {words : List Word} {word : Word} {set : Nat → Prop} {i j k : Nat}

theorem getLsbD_mask (hk : k < 64) : (1#64 <<< k).getLsbD j = decide (k = j) := by
  rw [← BitVec.twoPow_eq,BitVec.getLsbD_twoPow]
  simp [hk]

theorem getLsbD_mask_sub_mask (hk : k < 64) (hi : i ≤ k) :
    ((1#64 <<< k) - (1#64 <<< i)).getLsbD j = decide (i ≤ j ∧ j < k) := by
  have hle : 2 ^ i ≤ 2 ^ k := Nat.pow_le_pow_right (by omega) hi
  have hp : 2 ^ k < 2 ^ 64 := Nat.pow_lt_pow_right (by omega) hk
  have hm m (hm : m < 64) : (1#64 <<< m).toNat = 2 ^ m := by rw [← BitVec.twoPow_eq,BitVec.toNat_twoPow_of_lt hm]
  have hn : ((1#64 <<< k) - (1#64 <<< i)).toNat = (2 ^ (k - i) - 1) <<< i := by
    rw [BitVec.toNat_sub,hm k hk,hm i (by omega),Nat.shiftLeft_eq,Nat.sub_mul,← Nat.pow_add,Nat.sub_add_cancel hi]
    omega
  rw [BitVec.getLsbD,hn,Nat.testBit_shiftLeft,Nat.testBit_two_pow_sub_one,← Bool.decide_and]
  exact decide_eq_decide.mpr (by omega)

theorem getLsbD_mask_sub_one (hk : k < 64) : ((1#64 <<< k) - 1).getLsbD j = decide (j < k) := by
  simpa using getLsbD_mask_sub_mask hk (Nat.zero_le k)

theorem mod_lt (i : Nat) : i % wordBits < 64 := Nat.mod_lt _ (by decide)

theorem bit_at (k : Nat) (hj : j < 64) : bit words (wordBits * k + j) = (words.getD k 0).getLsbD j := by
  have hd : (wordBits * k + j) / wordBits = k ∧ (wordBits * k + j) % wordBits = j := by
    simp only [wordBits]
    omega
  rw [bit,hd.1,hd.2]

theorem covers_word : Covers (bit words · = true) k (words.getD k 0) := fun j hj => by simp only [bit_at k hj]

theorem covers_mask : Covers (i = ·) (i / wordBits) (1#64 <<< (i % wordBits)) := by
  intro j hj
  rw [getLsbD_mask (mod_lt i),decide_eq_true_iff]
  simp only [wordBits]
  omega

theorem covers_below : Covers (· < i) (i / wordBits) ((1#64 <<< (i % wordBits)) - 1) := by
  intro j hj
  rw [getLsbD_mask_sub_one (mod_lt i),decide_eq_true_iff]
  simp only [wordBits]
  omega

namespace Covers

variable {set' : Nat → Prop} {word' : Word}

section

variable (h : Covers set k word)

include h

theorem or (h' : Covers set' k word') : Covers (fun i => set i ∨ set' i) k (word ||| word') := by
  intro j hj
  rw [BitVec.getLsbD_or,Bool.or_eq_true,h j hj,h' j hj]

theorem and (h' : Covers set' k word') : Covers (fun i => set i ∧ set' i) k (word &&& word') := by
  intro j hj
  rw [BitVec.getLsbD_and,Bool.and_eq_true,h j hj,h' j hj]

theorem not : Covers (fun i => ¬ set i) k (~~~ word) := by
  intro j hj
  simp [hj,← h j hj]

theorem at_iff (hj : j / wordBits = k) : word.getLsbD (j % wordBits) = true ↔ set j := by
  rw [h _ (mod_lt j),← hj,Nat.div_add_mod]

theorem ne_zero_iff : word ≠ 0 ↔ ∃ j, j / wordBits = k ∧ set j := by
  constructor
  · intro hne
    by_contra hn
    refine hne (BitVec.eq_of_getLsbD_eq fun j hj => ?_)
    have hk : (wordBits * k + j) / wordBits = k := by
      simp only [wordBits]
      omega
    simpa using (h j hj).not.mpr fun hs => hn ⟨_,hk,hs⟩
  · rintro ⟨j,hj,hs⟩ rfl
    simpa using (h.at_iff hj).mpr hs

theorem bit_set (hk : k < words.length) : bit (words.set k word) j = true ↔
    if j / wordBits = k then set j else bit words j = true := by
  simp only [bit,getD_eq_getElem?_getD,getElem?_set]
  split
  case isTrue heq => simp [← heq,h.at_iff heq.symm]
  case isFalse hne => simp [Ne.symm hne]

end

end Covers

theorem bit_or_mask (hi : i / wordBits < words.length) :
    bit (words.set (i / wordBits) (words.getD (i / wordBits) 0 ||| (wordIndexAndMask i).2)) j = true ↔
    bit words j = true ∨ i = j := by
  rw [wordIndexAndMask,(covers_word.or covers_mask).bit_set hi]
  split
  case isTrue => rfl
  case isFalse hne => exact (or_iff_left (by rintro rfl; exact hne rfl)).symm

theorem bit_and_not_mask (hi : i / wordBits < words.length) :
    bit (words.set (i / wordBits) (words.getD (i / wordBits) 0 &&& ~~~ (wordIndexAndMask i).2)) j = true ↔
    bit words j = true ∧ ¬ i = j := by
  rw [wordIndexAndMask,(covers_word.and covers_mask.not).bit_set hi]
  split
  case isTrue => rfl
  case isFalse hne => exact (and_iff_left (by rintro rfl; exact hne rfl)).symm

theorem exists_of_ne_zero (h : word ≠ 0) : ∃ j < 64, word.getLsbD j = true := by
  by_contra hn
  push Not at hn
  refine h (BitVec.eq_of_getLsbD_eq fun j hj => ?_)
  simpa using hn j hj

theorem trailingZeros_spec (h : word ≠ 0) : trailingZeros word < 64 ∧
    word.getLsbD (trailingZeros word) = true ∧ ∀ j < trailingZeros word, word.getLsbD j = false := by
  obtain ⟨j,hj,hb⟩ := exists_of_ne_zero h
  have hlt : trailingZeros word < (range wordBits).length :=
    findIdx_lt_length_of_exists ⟨j,by simpa [wordBits] using hj,hb⟩
  refine ⟨by simpa [wordBits] using hlt,?_,fun j hj => ?_⟩
  · exact (congrArg word.getLsbD (getElem_range hlt)).symm.trans (findIdx_getElem (w := hlt))
  · simpa using not_of_lt_findIdx hj

end

structure DenseBitSet where
  domainSize : Nat
  words : List Word
  length_words : words.length = numWords domainSize
  excess : ∀ i, domainSize ≤ i → bit words i = false

section

variable {words : List Word} {n i : Nat}

@[simp] theorem length_clearExcessBitsInFinalWord (words : List Word) :
    (clearExcessBitsInFinalWord n words).length = words.length := by
  simp only [clearExcessBitsInFinalWord]
  split <;> simp

theorem bit_lt_length (h : bit words i = true) : i / wordBits < words.length := by
  by_contra hn
  rw [bit,getD_eq_default _ _ (by omega)] at h
  simp at h

theorem bit_clearExcess (hl : words.length = numWords n) :
    bit (clearExcessBitsInFinalWord n words) i = true ↔ bit words i = true ∧ i < n := by
  simp only [clearExcessBitsInFinalWord]
  split
  case isTrue hp =>
    have hk : words.length - 1 = n / wordBits ∧ n / wordBits < words.length := by
      simp only [hl,numWords,wordBits] at *
      omega
    rw [hk.1,(covers_word.and covers_below).bit_set hk.2]
    split
    case isTrue => rfl
    case isFalse hne =>
      refine (and_iff_left_of_imp fun hb => ?_).symm
      have hi := bit_lt_length hb
      simp only [wordBits] at *
      omega
  case isFalse hz =>
    refine (and_iff_left_of_imp fun hb => ?_).symm
    have hi := bit_lt_length hb
    simp only [hl,numWords,wordBits] at *
    omega

theorem bit_filled : bit (clearExcessBitsInFinalWord n (replicate (numWords n) (BitVec.allOnes 64))) i = true ↔
    i < n := by
  rw [bit_clearExcess length_replicate]
  refine and_iff_right_of_imp fun hi => ?_
  have hk : i / wordBits < numWords n := by
    simp only [numWords,wordBits]
    omega
  rw [bit,getD_eq_getElem?_getD,getElem?_replicate,if_pos hk,Option.getD_some,BitVec.getLsbD_allOnes,
    decide_eq_true (mod_lt i)]

end

namespace DenseBitSet

variable {s s' : DenseBitSet} {i j n : Nat}

def Mem (s : DenseBitSet) (i : Nat) : Prop := bit s.words i = true

instance (s : DenseBitSet) (i : Nat) : Decidable (s.Mem i) := inferInstanceAs (Decidable (_ = true))

theorem Mem.lt (h : s.Mem i) : i < s.domainSize := by
  by_contra hge
  rw [Mem,s.excess i (by omega)] at h
  cases h

theorem index_lt (s : DenseBitSet) (hi : i < s.domainSize) : i / wordBits < s.words.length := by
  rw [s.length_words,numWords]
  simp only [wordBits]
  omega

def newFilled (domainSize : Nat) : DenseBitSet where
  domainSize := domainSize
  words := clearExcessBitsInFinalWord domainSize (List.replicate (numWords domainSize) (BitVec.allOnes 64))
  length_words := by simp
  excess := fun i hi => Bool.eq_false_iff.mpr fun hb => absurd (bit_filled.mp hb) (by omega)

section

variable (s : DenseBitSet)

-- `none` is the failed assertion that the element lies in the domain.
def contains (elem : Nat) : Option Bool :=
  if elem < s.domainSize then
    let (wordIndex,mask) := wordIndexAndMask elem
    some (s.words.getD wordIndex 0 &&& mask != 0)
  else none

def insert (elem : Nat) : Option DenseBitSet :=
  if h : elem < s.domainSize then
    let word := s.words.getD (wordIndexAndMask elem).1 0
    let newWord := word ||| (wordIndexAndMask elem).2
    some
      { domainSize := s.domainSize
        words := s.words.set (wordIndexAndMask elem).1 newWord
        length_words := by simpa using s.length_words
        excess := fun i hi => Bool.eq_false_iff.mpr fun hb => by
          rcases (bit_or_mask (s.index_lt h)).mp hb with hb | rfl
          · exact absurd hb (by simp [s.excess i hi])
          · omega }
  else none

def remove (elem : Nat) : Option DenseBitSet :=
  if h : elem < s.domainSize then
    let word := s.words.getD (wordIndexAndMask elem).1 0
    let newWord := word &&& ~~~ (wordIndexAndMask elem).2
    some
      { domainSize := s.domainSize
        words := s.words.set (wordIndexAndMask elem).1 newWord
        length_words := by simpa using s.length_words
        excess := fun i hi => Bool.eq_false_iff.mpr fun hb =>
          absurd ((bit_and_not_mask (s.index_lt h)).mp hb).1 (by simp [s.excess i hi]) }
  else none

def firstSetFrom (wordIndex : Nat) (word : Word) (rest : List Word) : Option Nat :=
  if word ≠ 0 then some (wordBits * wordIndex + trailingZeros word)
  else
    match rest with
    | [] => none
    | next :: rest => firstSetFrom (wordIndex + 1) next rest

def firstSetAtOrAfter (elem : Nat) : Option (Option Nat) :=
  if elem < s.domainSize then
    let (wordIndex,mask) := wordIndexAndMask elem
    let word := s.words.getD wordIndex 0 &&& ~~~ (mask - 1)
    some (firstSetFrom wordIndex word (s.words.drop (wordIndex + 1)))
  else none

end

theorem mem_newFilled : (newFilled n).Mem i ↔ i < n := by rw [Mem,newFilled,bit_filled]

theorem contains_eq (h : i < s.domainSize) : s.contains i = some (decide (s.Mem i)) := by
  rw [contains,if_pos h]
  refine congrArg some ?_
  rw [Bool.eq_iff_iff,bne_iff_ne,decide_eq_true_iff]
  refine (covers_word.and covers_mask).ne_zero_iff.trans ⟨fun ⟨j,_,hb,hj⟩ => hj ▸ hb,fun hb => ⟨i,rfl,hb,rfl⟩⟩

theorem insert_spec (h : i < s.domainSize) : ∃ s', s.insert i = some s' ∧
    s'.domainSize = s.domainSize ∧ ∀ j, s'.Mem j ↔ j = i ∨ s.Mem j := by
  refine ⟨_,dif_pos h,rfl,fun j => ?_⟩
  exact (bit_or_mask (s.index_lt h)).trans (by rw [or_comm,eq_comm,Mem])

theorem remove_spec (h : i < s.domainSize) : ∃ s', s.remove i = some s' ∧
    s'.domainSize = s.domainSize ∧ ∀ j, s'.Mem j ↔ s.Mem j ∧ j ≠ i := by
  refine ⟨_,dif_pos h,rfl,fun j => ?_⟩
  exact (bit_and_not_mask (s.index_lt h)).trans (by rw [ne_comm,Mem])

def IsFirst (set : Nat → Prop) (lo : Nat) : Option Nat → Prop
  | some k => lo ≤ k ∧ set k ∧ ∀ j, lo ≤ j → j < k → ¬ set j
  | none => ∀ j, lo ≤ j → ¬ set j

theorem IsFirst.weaken {set : Nat → Prop} (h : IsFirst set lo' r)
    (hle : lo ≤ lo') (hg : ∀ j, lo ≤ j → j < lo' → ¬ set j) : IsFirst set lo r := by
  cases r with
  | none => exact fun j hj => if hlt : j < lo' then hg j hj hlt else h j (by omega)
  | some k => exact ⟨hle.trans h.1,h.2.1,fun j hj hk => if hlt : j < lo' then hg j hj hlt else h.2.2 j (by omega) hk⟩

section

variable {words : List Word} {word : Word} {set : Nat → Prop} {wordIndex : Nat}

theorem div_eq_of_lt (hlo : wordBits * wordIndex ≤ j) (hhi : j < wordBits * (wordIndex + 1)) :
    j / wordBits = wordIndex := by
  simp only [wordBits] at *
  omega

theorem isFirst_trailingZeros (hne : word ≠ 0) (hw : Covers set wordIndex word) :
    IsFirst set (wordBits * wordIndex) (some (wordBits * wordIndex + trailingZeros word)) := by
  obtain ⟨hlt,hb,hbe⟩ := trailingZeros_spec hne
  refine ⟨by omega,(hw _ hlt).mp hb,fun j hlo hhi hs => ?_⟩
  obtain ⟨m,rfl⟩ := Nat.exists_eq_add_of_le hlo
  simpa [hbe m (by omega)] using (hw m (by omega)).mpr hs

theorem not_of_covers_zero (hw : Covers set wordIndex 0) (hj : j / wordBits = wordIndex) : ¬ set j :=
  fun hs => hw.ne_zero_iff.mpr ⟨j,hj,hs⟩ rfl

theorem firstSetFrom_spec (words rest : List Word) (wordIndex : Nat) (word : Word)
    (hd : words.drop (wordIndex + 1) = rest)
    (hw : Covers set wordIndex word) (hr : ∀ i, wordBits * (wordIndex + 1) ≤ i → (bit words i = true ↔ set i)) :
    IsFirst set (wordBits * wordIndex) (firstSetFrom wordIndex word rest) := by
  induction rest generalizing wordIndex word with
  | nil =>
    rw [firstSetFrom]
    split
    case isTrue hne => exact isFirst_trailingZeros hne hw
    case isFalse hz =>
      obtain rfl := not_not.mp hz
      intro j hj
      by_cases hhi : j < wordBits * (wordIndex + 1)
      · exact not_of_covers_zero hw (div_eq_of_lt hj hhi)
      intro hs
      have hl := bit_lt_length ((hr j (by omega)).mpr hs)
      have hn := drop_eq_nil_iff.mp hd
      simp only [wordBits] at *
      omega
  | cons next rest ih =>
    rw [firstSetFrom]
    split
    case isTrue hne => exact isFirst_trailingZeros hne hw
    case isFalse hz =>
      obtain rfl := not_not.mp hz
      have hn : words.getD (wordIndex + 1) 0 = next := by
        have hg := congrArg head? hd
        rw [head?_drop] at hg
        rw [getD_eq_getElem?_getD,hg]
        rfl
      refine (ih (wordIndex + 1) next ?_ (fun j hj => ?_) fun i hi => hr i ?_).weaken ?_ ?_
      · rw [← tail_drop,hd,tail_cons]
      · rw [← hr _ (by omega),bit_at _ hj,hn]
      · simp only [wordBits] at *
        omega
      · exact Nat.mul_le_mul_left _ (by omega)
      · exact fun j hlo hhi => not_of_covers_zero hw (div_eq_of_lt hlo hhi)

theorem firstSetAtOrAfter_spec (h : i < s.domainSize) : ∃ r, s.firstSetAtOrAfter i = some r ∧ IsFirst s.Mem i r := by
  refine ⟨_,if_pos h,?_⟩
  have hlo := Nat.mul_div_le i wordBits
  have hf := firstSetFrom_spec s.words _ (i / wordBits) _ rfl (covers_word.and covers_below.not) fun j hj =>
    (and_iff_left (by simp only [wordBits] at *; omega)).symm
  generalize firstSetFrom (i / wordBits) _ _ = r at hf ⊢
  cases r with
  | none => exact fun j hj hm => hf j (hlo.trans hj) ⟨hm,hj.not_gt⟩
  | some k => exact ⟨not_lt.mp hf.2.1.2,hf.2.1.1,fun j hj hk hm => hf.2.2 j (hlo.trans hj) hk ⟨hm,hj.not_gt⟩⟩

end

end DenseBitSet

end Frontend.BitSet
