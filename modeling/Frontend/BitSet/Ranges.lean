import Mathlib
import Frontend.BitSet.Dense

namespace Frontend.BitSet

open List

inductive Bound where
  | included (index : Nat)
  | excluded (index : Nat)
  | unbounded
  deriving DecidableEq

structure RangeBounds where
  startBound : Bound
  endBound : Bound

namespace RangeBounds

variable {elems : RangeBounds} {domain i : Nat}

def start (elems : RangeBounds) : Nat :=
  match elems.startBound with
  | .included start => start
  | .excluded start => start + 1
  | .unbounded => 0

def checkEnd (elems : RangeBounds) (domain last : Nat) : Option (Option (Nat × Nat)) :=
  if last < domain then some (if last < elems.start then none else some (elems.start,last)) else none

-- The outer `none` is a panic: a failed assertion, or the underflow of `domain - 1`.
def inclusiveStartEnd (elems : RangeBounds) (domain : Nat) : Option (Option (Nat × Nat)) :=
  match elems.endBound with
  | .included last => elems.checkEnd domain last
  | .excluded 0 => some none
  | .excluded (last + 1) => elems.checkEnd domain last
  | .unbounded => if domain = 0 then none else elems.checkEnd domain (domain - 1)

def Starts (i : Nat) : Bound → Prop
  | .included start => start ≤ i
  | .excluded start => start < i
  | .unbounded => True

def Mem (elems : RangeBounds) (domain i : Nat) : Prop :=
  Starts i elems.startBound ∧
  match elems.endBound with
    | .included last => i ≤ last
    | .excluded last => i < last
    | .unbounded => i < domain

def Inside (elems : RangeBounds) (domain : Nat) : Prop :=
  elems.start ≤ domain ∧
  match elems.endBound with
    | .included last => last < domain
    | .excluded last => last ≤ domain
    | .unbounded => True

def Selects (elems : RangeBounds) (domain : Nat) : Option (Nat × Nat) → Prop
  | none => ∀ i, ¬ elems.Mem domain i
  | some (first,last) => (first ≤ last ∧ last < domain) ∧ ∀ i, elems.Mem domain i ↔ first ≤ i ∧ i ≤ last

theorem starts_iff (elems : RangeBounds) (i : Nat) : Starts i elems.startBound ↔ elems.start ≤ i := by
  obtain ⟨lower,upper⟩ := elems
  cases lower <;> simp [Starts,start]

theorem checkEnd_spec (hl : last < domain) (hm : ∀ i, elems.Mem domain i ↔ elems.start ≤ i ∧ i ≤ last) :
    ∃ r, elems.checkEnd domain last = some r ∧ elems.Selects domain r := by
  refine ⟨_,if_pos hl,?_⟩
  split
  case isTrue hlt => exact fun i hi => absurd ((hm i).mp hi) (by omega)
  case isFalse hle => exact ⟨⟨by omega,hl⟩,hm⟩

theorem inclusiveStartEnd_spec (h : elems.Inside domain) (hz : domain = 0 → elems.endBound ≠ .unbounded) :
    ∃ r, elems.inclusiveStartEnd domain = some r ∧ elems.Selects domain r := by
  obtain ⟨lower,upper⟩ := elems
  have hs := starts_iff ⟨lower,upper⟩
  have hi := h.2
  match upper with
  | .included last => exact checkEnd_spec hi fun i => and_congr_left' (hs i)
  | .excluded 0 => exact ⟨none,rfl,fun i hi => absurd hi.2 (Nat.not_lt_zero i)⟩
  | .excluded (last + 1) =>
    exact checkEnd_spec hi fun i => (and_congr_left' (hs i)).trans (and_congr_right' Nat.lt_succ_iff)
  | .unbounded =>
    have hd : domain ≠ 0 := fun hd => hz hd rfl
    rw [inclusiveStartEnd,if_neg hd]
    exact checkEnd_spec (by omega) fun i => (and_congr_left' (hs i)).trans
      (and_congr_right' (Nat.lt_iff_le_pred (by omega)))

theorem inclusiveStartEnd_some (h : elems.inclusiveStartEnd domain = some (some (first,last))) :
    first ≤ last ∧ last < domain := by
  grind [inclusiveStartEnd,checkEnd]

end RangeBounds

def insertWords (words : List Word) : Nat × Word → Nat × Word → List Word
  | (startWordIndex,startMask),(endWordIndex,endMask) =>
    let words := (range' (startWordIndex + 1) (endWordIndex - (startWordIndex + 1))).foldl
      (·.set · (BitVec.allOnes 64)) words
    if startWordIndex ≠ endWordIndex then
      let words := words.set startWordIndex (words.getD startWordIndex 0 ||| ~~~ (startMask - 1))
      words.set endWordIndex (words.getD endWordIndex 0 ||| (endMask ||| (endMask - 1)))
    else words.set startWordIndex (words.getD startWordIndex 0 ||| (endMask ||| (endMask - startMask)))

def anyWord (words : List Word) : Nat × Word → Nat × Word → Bool
  | (startWordIndex,startMask),(endWordIndex,endMask) =>
    if startWordIndex = endWordIndex then words.getD startWordIndex 0 &&& (endMask ||| (endMask - startMask)) != 0
    else if words.getD startWordIndex 0 &&& ~~~ (startMask - 1) != 0 then true
    else if startWordIndex + 1 ≤ endWordIndex then
      (range' (startWordIndex + 1) (endWordIndex - (startWordIndex + 1))).any (words.getD · 0 != 0) ||
        words.getD endWordIndex 0 &&& (endMask ||| (endMask - 1)) != 0
    else false

def leadingZeros (word : Word) : Nat := (List.range wordBits).findIdx fun j => word.getLsbD (wordBits - 1 - j)

def maxBit (word : Word) : Nat := wordBits - 1 - leadingZeros word

def rposition (words : List Word) (start : Nat) : (len : Nat) → Option Nat
  | 0 => none
  | len + 1 => if words.getD (start + len) 0 ≠ 0 then some len else rposition words start len

def lastWord (words : List Word) (start : Nat) : Nat × Word → Nat × Word → Option Nat
  | (startWordIndex,_),(endWordIndex,endMask) =>
    let endWord := words.getD endWordIndex 0 &&& (endMask ||| (endMask - 1))
    let pos := maxBit endWord + wordBits * endWordIndex
    if endWord ≠ 0 ∧ start ≤ pos then some pos
    else
      match rposition words startWordIndex (endWordIndex - startWordIndex) with
      | some offset =>
        let wordIdx := startWordIndex + offset
        let pos := maxBit (words.getD wordIdx 0) + wordBits * wordIdx
        if start ≤ pos then some pos else none
      | none => none

def countOnes (word : Word) : Nat := (List.range wordBits).countP word.getLsbD

section

variable {words : List Word} {word : Word} {set : Nat → Prop} {first last j k : Nat}

theorem covers_between (hk : first / wordBits = last / wordBits) (hle : first ≤ last) :
    Covers (fun j => first ≤ j ∧ j < last) (last / wordBits)
    ((1#64 <<< (last % wordBits)) - (1#64 <<< (first % wordBits))) := by
  intro j hj
  have hm : first % wordBits ≤ last % wordBits := by
    simp only [wordBits] at *
    omega
  rw [getLsbD_mask_sub_mask (mod_lt last) hm,decide_eq_true_iff]
  simp only [wordBits] at *
  omega

theorem bit_foldl_set (ks : List Nat) (hk : ∀ k ∈ ks, k < words.length) :
    bit (ks.foldl (·.set · (BitVec.allOnes 64)) words) j = true ↔ bit words j = true ∨ j / wordBits ∈ ks := by
  induction ks generalizing words with
  | nil => simp
  | cons k ks ih =>
    have hc : Covers (fun _ => True) k (BitVec.allOnes 64) := fun j hj => by
      rw [BitVec.getLsbD_allOnes,decide_eq_true hj]; simp
    rw [foldl_cons,ih fun m hm => by simpa using hk m (.tail _ hm),hc.bit_set (hk k (.head _)),mem_cons]
    split
    case isTrue heq => simp [heq]
    case isFalse hne => simp [hne]

theorem length_foldl_set (ks : List Nat) : (ks.foldl (·.set · word) words).length = words.length := by
  induction ks generalizing words with
  | nil => rfl
  | cons k ks ih => rw [foldl_cons,ih,length_set]

theorem length_insertWords : (insertWords words p q).length = words.length := by
  simp only [insertWords]
  split <;> simp [length_foldl_set]

theorem bit_insertWords (hl : last / wordBits < words.length) (hle : first ≤ last) :
    bit (insertWords words (wordIndexAndMask first) (wordIndexAndMask last)) j = true ↔ bit words j = true ∨
    first ≤ j ∧ j ≤ last := by
  have hdiv : first / wordBits ≤ last / wordBits := Nat.div_le_div_right hle
  have hks : ∀ k ∈ range' (first / wordBits + 1) (last / wordBits - (first / wordBits + 1)), k < words.length := by
    intro k hk
    have := mem_range'_1.mp hk
    omega
  rw [wordIndexAndMask,wordIndexAndMask,insertWords]
  split
  case isTrue hne =>
    rw [(covers_word.or (covers_mask.or covers_below)).bit_set (by simpa [length_foldl_set] using hl),
      (covers_word.or covers_below.not).bit_set
        (by simpa [length_foldl_set] using hdiv.trans_lt hl),bit_foldl_set _ hks,mem_range'_1]
    by_cases hb : bit words j = true
    · simp [hb]
    · simp only [hb,wordBits,Bool.false_eq_true,false_or] at *
      split_ifs <;> omega
  case isFalse heq =>
    have heq := not_not.mp heq
    rw [heq,(covers_word.or (covers_mask.or (covers_between heq hle))).bit_set (by simpa [length_foldl_set] using hl)]
    rw [heq] at hks
    rw [bit_foldl_set _ hks,mem_range'_1]
    by_cases hb : bit words j = true
    · simp [hb]
    · simp only [hb,wordBits,Bool.false_eq_true,false_or] at *
      split_ifs <;> omega

theorem word_ne_zero_iff : (words.getD k 0 != 0) = true ↔ ∃ j, j / wordBits = k ∧ bit words j = true := by
  rw [bne_iff_ne,covers_word.ne_zero_iff]

theorem anyWord_iff (hle : first ≤ last) : anyWord words (wordIndexAndMask first) (wordIndexAndMask last) = true ↔
      ∃ j, (first ≤ j ∧ j ≤ last) ∧ bit words j = true := by
  have hdiv : first / wordBits ≤ last / wordBits := Nat.div_le_div_right hle
  rw [wordIndexAndMask,wordIndexAndMask,anyWord]
  split
  case isTrue heq =>
    rw [bne_iff_ne,heq,(covers_word.and (covers_mask.or (covers_between heq hle))).ne_zero_iff]
    refine exists_congr fun j => ?_
    simp only [wordBits] at *
    constructor
    · rintro ⟨hj,hb,hm⟩
      exact ⟨by omega,hb⟩
    · rintro ⟨hm,hb⟩
      exact ⟨by omega,hb,by omega⟩
  case isFalse hne =>
    rw [if_pos (show first / wordBits + 1 ≤ last / wordBits by omega),Bool.if_true_left,Bool.or_eq_true,
      decide_eq_true_iff,Bool.or_eq_true,any_eq_true,bne_iff_ne,bne_iff_ne,
      (covers_word.and (covers_mask.or covers_below)).ne_zero_iff,(covers_word.and covers_below.not).ne_zero_iff]
    simp only [word_ne_zero_iff,mem_range'_1]
    constructor
    · rintro (⟨j,hj,hb,hm⟩ | ⟨k,hk,j,hj,hb⟩ | ⟨j,hj,hb,hm⟩)
      all_goals
        refine ⟨j,?_,hb⟩
        simp only [wordBits] at *
        omega
    · rintro ⟨j,hm,hb⟩
      by_cases h1 : j / wordBits = first / wordBits
      · exact .inl ⟨j,h1,hb,by omega⟩
      · by_cases h2 : j / wordBits = last / wordBits
        · exact .inr (.inr ⟨j,h2,hb,by omega⟩)
        · refine .inr (.inl ⟨j / wordBits,?_,j,rfl,hb⟩)
          simp only [wordBits] at *
          omega

theorem maxBit_spec (h : word ≠ 0) : maxBit word < 64 ∧ word.getLsbD (maxBit word) = true ∧
    ∀ j, maxBit word < j → word.getLsbD j = false := by
  obtain ⟨j,hj,hb⟩ := exists_of_ne_zero h
  have hlt : leadingZeros word < (range wordBits).length := findIdx_lt_length_of_exists
    ⟨wordBits - 1 - j,by simp [wordBits]; omega,by simpa [wordBits,show 63 - (63 - j) = j by omega] using hb⟩
  refine ⟨by simp only [maxBit,wordBits]; omega,?_,fun j hj => ?_⟩
  · exact (congrArg (fun j => word.getLsbD (wordBits - 1 - j)) (getElem_range hlt)).symm.trans
      (findIdx_getElem (w := hlt))
  · by_cases h64 : j < 64
    · have hn := not_of_lt_findIdx (show wordBits - 1 - j < leadingZeros word by simp [maxBit,wordBits] at *; omega)
      simpa [wordBits,show 63 - (63 - j) = j by omega] using hn
    · exact BitVec.getLsbD_of_ge _ _ (by omega)

theorem Covers.maxBit (h : Covers set k word) (hne : word ≠ 0) : (maxBit word + wordBits * k) / wordBits = k ∧
    set (maxBit word + wordBits * k) ∧ ∀ j, j / wordBits = k → set j → j ≤ maxBit word + wordBits * k := by
  obtain ⟨hlt,hb,hm⟩ := maxBit_spec hne
  refine ⟨by simp only [wordBits]; omega,Nat.add_comm .. ▸ (h _ hlt).mp hb,fun j hj hs => ?_⟩
  by_contra hn
  have hf := hm (j % wordBits) (by simp only [wordBits] at *; omega)
  simpa [hf] using (h.at_iff hj).mpr hs

def IsLast (set : Nat → Prop) : Option Nat → Prop
  | some k => set k ∧ ∀ j, set j → j ≤ k
  | none => ∀ j, ¬ set j

theorem rposition_isLast (words : List Word) (k len : Nat) :
    IsLast (fun m => (k ≤ m ∧ m < k + len) ∧ words.getD m 0 ≠ 0) ((rposition words k len).map (k + ·)) := by
  induction len with
  | zero => exact fun m hm => by omega
  | succ len ih =>
    rw [rposition]
    split
    case isTrue h => exact ⟨⟨by simp,h⟩,fun m hm => Nat.le_of_lt_succ hm.1.2⟩
    case isFalse h =>
      convert ih using 2 with m
      refine and_congr_left fun hm => ?_
      have hne : m ≠ k + len := fun he => h (he ▸ hm)
      omega

theorem lastWord_isLast (hle : first ≤ last) : IsLast (fun j => (first ≤ j ∧ j ≤ last) ∧ bit words j = true)
    (lastWord words first (wordIndexAndMask first) (wordIndexAndMask last)) := by
  have hc : Covers _ _ (words.getD (last / wordBits) 0 &&& _) := covers_word.and (covers_mask.or covers_below)
  rw [wordIndexAndMask,wordIndexAndMask,lastWord]
  split
  case isTrue h =>
    obtain ⟨hk,⟨hb,hm⟩,hmax⟩ := hc.maxBit h.1
    refine ⟨⟨⟨h.2,by omega⟩,hb⟩,fun j hj => ?_⟩
    by_cases hw : j / wordBits = last / wordBits
    · exact hmax j hw ⟨hj.2,by omega⟩
    · simp only [wordBits] at *
      omega
  case isFalse h =>
    have hw : ∀ j, (first ≤ j ∧ j ≤ last) ∧ bit words j = true → (first / wordBits ≤ j / wordBits ∧
        j / wordBits < first / wordBits + (last / wordBits - first / wordBits)) ∧ words.getD (j / wordBits) 0 ≠ 0 := by
      rintro j ⟨hj,hb⟩
      have hne : j / wordBits ≠ last / wordBits := by
        intro hw
        have hz := hc.ne_zero_iff.mpr ⟨j,hw,hb,by omega⟩
        have hmax := (hc.maxBit hz).2.2 j hw ⟨hb,by omega⟩
        exact h ⟨hz,hj.1.trans hmax⟩
      refine ⟨?_,covers_word.ne_zero_iff.mpr ⟨j,rfl,hb⟩⟩
      simp only [wordBits] at *
      omega
    have hr := rposition_isLast words (first / wordBits) (last / wordBits - first / wordBits)
    split
    case h_1 offset ho =>
      rw [ho] at hr
      obtain ⟨⟨hlt,hnz⟩,hz⟩ := hr
      obtain ⟨hk,hb,hmax⟩ := covers_word.maxBit hnz
      have hle : ∀ j, (first ≤ j ∧ j ≤ last) ∧ bit words j = true →
          j ≤ maxBit (words.getD (first / wordBits + offset) 0) + wordBits * (first / wordBits + offset) := by
        intro j hj
        rcases Nat.lt_or_eq_of_le (hz _ (hw j hj)) with hl | he
        · simp only [wordBits] at *
          omega
        · exact hmax j he hj.2
      dsimp only
      split
      case isTrue hf =>
        refine ⟨⟨⟨hf,?_⟩,hb⟩,hle⟩
        simp only [wordBits] at *
        omega
      case isFalse hf => exact fun j hj => absurd (hj.1.1.trans (hle j hj)) hf
    case h_2 ho =>
      rw [ho] at hr
      exact fun j hj => hr _ (hw j hj)

theorem sum_countOnes (words : List Word) : (words.map countOnes).sum = (List.range (wordBits * words.length)).countP
    (bit words) := by
  induction words with
  | nil => rfl
  | cons word words ih =>
    have hw : ∀ j ∈ List.range wordBits, bit (word :: words) j = true ↔ word.getLsbD j = true := by
      intro j hj
      have hj := mem_range.mp hj
      rw [bit,Nat.div_eq_of_lt hj,Nat.mod_eq_of_lt hj]
      rfl
    have ht : ∀ j, bit (word :: words) (wordBits + j) = bit words j := by
      intro j
      rw [bit,bit,Nat.add_div_left j (by decide),Nat.add_mod_left]
      rfl
    rw [map_cons,sum_cons,ih,countOnes,length_cons,Nat.mul_succ,Nat.add_comm (wordBits * _),range_add,
      countP_append,countP_congr hw,countP_map]
    exact congrArg _ (countP_congr fun j _ => by rw [Function.comp_apply,ht])

end

namespace DenseBitSet

variable {s s' : DenseBitSet} {elems : RangeBounds} {i : Nat}

def count (s : DenseBitSet) : Nat := (s.words.map countOnes).sum

def isEmpty (s : DenseBitSet) : Bool := s.words.all (· == 0)

def insertRange (s : DenseBitSet) (elems : RangeBounds) : Option DenseBitSet :=
  match h : elems.inclusiveStartEnd s.domainSize with
  | none => none
  | some none => some s
  | some (some (first,last)) =>
    some
      { domainSize := s.domainSize
        words := insertWords s.words (wordIndexAndMask first) (wordIndexAndMask last)
        length_words := length_insertWords.trans s.length_words
        excess := fun i hi => Bool.eq_false_iff.mpr fun hb => by
          have hl := RangeBounds.inclusiveStartEnd_some h
          rcases (bit_insertWords (s.index_lt hl.2) hl.1).mp hb with hb | hb
          · exact absurd hb (by simp [s.excess i hi])
          · omega }

def containsAny (s : DenseBitSet) (elems : RangeBounds) : Option Bool :=
  (elems.inclusiveStartEnd s.domainSize).map fun
    | none => false
    | some (start,last) => anyWord s.words (wordIndexAndMask start) (wordIndexAndMask last)

def lastSetIn (s : DenseBitSet) (range : RangeBounds) : Option (Option Nat) :=
  (range.inclusiveStartEnd s.domainSize).map fun
    | none => none
    | some (start,last) => lastWord s.words start (wordIndexAndMask start) (wordIndexAndMask last)

def unionNot (s other : DenseBitSet) : Option DenseBitSet :=
  if h : s.domainSize = other.domainSize then
    some
      { domainSize := s.domainSize
        words := clearExcessBitsInFinalWord s.domainSize (zipWith (fun a b => a ||| ~~~ b) s.words other.words)
        length_words := by simp [s.length_words,other.length_words,h]
        excess := fun i hi => Bool.eq_false_iff.mpr fun hb =>
          absurd ((bit_clearExcess (by simp [s.length_words,other.length_words,h])).mp hb).2 (by omega) }
  else none

theorem isEmpty_iff : s.isEmpty = true ↔ ∀ i, ¬ s.Mem i := by
  rw [isEmpty,all_eq_true]
  constructor
  · intro h i hm
    have hk := s.index_lt hm.lt
    have hz : s.words.getD (i / wordBits) 0 = 0 := by
      rw [getD_eq_getElem _ _ hk]
      exact beq_iff_eq.mp (h _ (getElem_mem hk))
    exact covers_word.ne_zero_iff.mpr ⟨i,rfl,hm⟩ hz
  · intro h word hw
    obtain ⟨k,hk,rfl⟩ := getElem_of_mem hw
    by_contra hne
    rw [beq_iff_eq,← getD_eq_getElem _ 0 hk,← ne_eq,covers_word.ne_zero_iff] at hne
    obtain ⟨j,-,hb⟩ := hne
    exact h j hb

theorem ext_iff (h : s.domainSize = s'.domainSize) : s = s' ↔ ∀ i, s.Mem i ↔ s'.Mem i := by
  refine ⟨fun he i => he ▸ Iff.rfl,fun hm => ?_⟩
  have hw : s.words = s'.words := by
    refine ext_getElem (by rw [s.length_words,s'.length_words,h]) fun k hk hk' => BitVec.eq_of_getLsbD_eq fun j hj => ?_
    rw [← getD_eq_getElem _ 0 hk,← getD_eq_getElem _ 0 hk',← bit_at k hj,← bit_at k hj]
    exact Bool.eq_iff_iff.mpr (hm _)
  cases s
  cases s'
  cases h
  cases hw
  rfl

theorem count_eq : s.count = (List.range s.domainSize).countP (s.Mem ·) := by
  obtain ⟨m,hm⟩ : ∃ m, wordBits * s.words.length = s.domainSize + m := Nat.exists_eq_add_of_le (by
    simp only [s.length_words,numWords,wordBits]
    omega)
  have hz : countP (bit s.words) ((List.range m).map (s.domainSize + ·)) = 0 := by
    rw [countP_eq_zero]
    rintro i hi
    obtain ⟨j,-,rfl⟩ := mem_map.mp hi
    simp [s.excess (s.domainSize + j) (by omega)]
  rw [count,sum_countOnes,hm,range_add,countP_append,hz,Nat.add_zero]
  exact countP_congr fun i _ => by rw [decide_eq_true_iff,Mem]

theorem unionNot_spec (h : s.domainSize = s'.domainSize) : ∃ r, s.unionNot s' = some r ∧ r.domainSize = s.domainSize ∧
    ∀ i, r.Mem i ↔ i < s.domainSize ∧ (s.Mem i ∨ ¬ s'.Mem i) := by
  refine ⟨_,dif_pos h,rfl,fun i => ?_⟩
  refine (bit_clearExcess (by simp [s.length_words,s'.length_words,h])).trans
    (and_comm.trans (and_congr_right fun hi => ?_))
  have hk := s.index_lt hi
  have hk' := s'.index_lt (h ▸ hi)
  rw [Mem,Mem,bit,bit,bit,getD_eq_getElem _ _ (by rw [length_zipWith]; omega),getElem_zipWith,getD_eq_getElem _ _ hk,
    getD_eq_getElem _ _ hk',
    BitVec.getLsbD_or,BitVec.getLsbD_not,decide_eq_true (mod_lt i)]
  simp

structure Exact (s : DenseBitSet) (elems : RangeBounds) : Prop where
  insertRange : ∃ r, s.insertRange elems = some r ∧ r.domainSize = s.domainSize ∧ ∀ i, r.Mem i ↔ s.Mem i ∨
    elems.Mem s.domainSize i
  containsAny : ∃ r, s.containsAny elems = some r ∧ (r = true ↔ ∃ i, elems.Mem s.domainSize i ∧ s.Mem i)
  lastSetIn : ∃ r, s.lastSetIn elems = some r ∧ IsLast (fun i => elems.Mem s.domainSize i ∧ s.Mem i) r

theorem exact_of_nonempty (h : elems.Inside s.domainSize) (hz : s.domainSize = 0 → elems.endBound ≠ .unbounded) :
    s.Exact elems := by
  obtain ⟨r,hr,hs⟩ := RangeBounds.inclusiveStartEnd_spec h hz
  match r with
  | none =>
    refine ⟨⟨s,?_,rfl,fun i => (or_iff_left (hs i)).symm⟩,⟨false,?_,iff_of_false Bool.false_ne_true ?_⟩,
      ⟨none,?_,fun i hi => hs i hi.1⟩⟩
    · rw [DenseBitSet.insertRange]
      split <;> simp_all
    · simp [DenseBitSet.containsAny,hr]
    · rintro ⟨i,hi,-⟩
      exact hs i hi
    · simp [DenseBitSet.lastSetIn,hr]
  | some (first,last) =>
    obtain ⟨⟨hle,hl⟩,hm⟩ := hs
    have hmem : ∀ i, elems.Mem s.domainSize i ∧ s.Mem i ↔ (first ≤ i ∧ i ≤ last) ∧ bit s.words i = true :=
      fun i => and_congr_left' (hm i)
    refine ⟨?_,⟨_,by rw [DenseBitSet.containsAny,hr]; rfl,?_⟩,⟨_,by rw [DenseBitSet.lastSetIn,hr]; rfl,?_⟩⟩
    · rw [DenseBitSet.insertRange]
      split
      case h_3 f l he =>
        cases hr.symm.trans he
        exact ⟨_,rfl,rfl,fun i => (bit_insertWords (s.index_lt hl) hle).trans (or_congr_right (hm i).symm)⟩
      all_goals simp_all
    · simpa only [hmem] using anyWord_iff hle
    · simpa only [hmem] using lastWord_isLast hle

theorem rangeOperations_exact_iff (s : DenseBitSet) (elems : RangeBounds) (h : elems.Inside s.domainSize) :
    (s.Exact elems ↔ (s.domainSize = 0 → elems.endBound ≠ .unbounded)) ∧
    (∀ i < s.domainSize, ∃ r, s.firstSetAtOrAfter i = some r ∧ IsFirst s.Mem i r) ∧
    (∀ s' : DenseBitSet, s.domainSize = s'.domainSize →
      (∃ r, s.unionNot s' = some r ∧ r.domainSize = s.domainSize ∧ ∀ i, r.Mem i ↔ i < s.domainSize ∧
      (s.Mem i ∨ ¬ s'.Mem i)) ∧
      (s = s' ↔ ∀ i, s.Mem i ↔ s'.Mem i)) ∧
    s.count = (List.range s.domainSize).countP (s.Mem ·) ∧ (s.isEmpty = true ↔ ∀ i, ¬ s.Mem i) := by
  refine ⟨⟨fun he hd hu => ?_,exact_of_nonempty h⟩,fun i => firstSetAtOrAfter_spec,
    fun s' hs => ⟨unionNot_spec hs,ext_iff hs⟩,count_eq,isEmpty_iff⟩
  obtain ⟨r,hr,-⟩ := he.containsAny
  simp [DenseBitSet.containsAny,RangeBounds.inclusiveStartEnd,hd,hu] at hr

theorem newFilled_zero_panics : RangeBounds.Inside ⟨.unbounded,.unbounded⟩ 0 ∧
    (newFilled 0).insertRange ⟨.unbounded,.unbounded⟩ = none ∧
    (newFilled 0).containsAny ⟨.unbounded,.unbounded⟩ = none ∧
    (newFilled 0).lastSetIn ⟨.unbounded,.unbounded⟩ = none := by
  exact ⟨⟨Nat.le_refl 0,trivial⟩,rfl,rfl,rfl⟩

theorem newFilled_seventy_exact : (newFilled 70).Exact ⟨.included 3,.unbounded⟩ :=
  (rangeOperations_exact_iff (newFilled 70) ⟨.included 3,.unbounded⟩ ⟨by decide,trivial⟩).1.mpr (by decide)

end DenseBitSet

end Frontend.BitSet
