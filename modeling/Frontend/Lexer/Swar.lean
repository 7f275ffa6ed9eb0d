import Frontend.BitSet.Dense
import Frontend.Lexer.Cursor
import Frontend.Library.Lanes

namespace Frontend.Lexer

open Library Library.Utf8 List Cursor
open String (utf8EncodeChar)

def swarOnes : Nat := 0x0101010101010101

def swarHigh : Nat := 0x8080808080808080

def swarNot (x : Nat) : Nat := 0xFFFFFFFFFFFFFFFF ^^^ x

def asciiClasses (b : UInt8) : UInt8 :=
  (if 97 ≤ b ∧ b ≤ 122 ∨ 65 ≤ b ∧ b ≤ 90 ∨ b = 95 then 1 ||| 4 else 0) |||
    (if 48 ≤ b ∧ b ≤ 57 then 1 else 0) ||| if 9 ≤ b ∧ b ≤ 13 ∨ b = 32 then 2 else 0

def swarGe (x lo : Nat) : Nat := ((x ||| swarHigh) - swarOnes * lo) &&& swarHigh

def swarIn (x lo hi : Nat) : Nat := swarGe x lo &&& swarNot (swarGe x (hi + 1))

def swarIdContinue (x : Nat) : Nat :=
  let folded := x ||| swarOnes * 0x20
  (swarIn x 48 57 ||| swarIn folded 97 122 ||| swarIn x 95 95) &&& swarNot x

def swarWhitespace (x : Nat) : Nat := (swarIn x 9 13 ||| swarIn x 32 32) &&& swarNot x

def isWhitespace (c : Char) : Bool := c ∈ ['\n', '\x0b', '\x0c', '\r', '\u0085', '\u2028', '\u2029',
    '\u200e', '\u200f', '\t', ' ']

namespace Cursor

def eatWhile (predicate : Char → Bool) (c : Cursor) : Cursor :=
  if _h : predicate c.first ∧ c.chars ≠ [] then eatWhile predicate c.bump else c
termination_by c.chars.length
decreasing_by
  rw [bump,length_tail]
  have := length_pos_iff.mpr _h.2
  omega

section

variable (block : Nat → Nat) (ascii : UInt8 → Bool) (predicate : Char → Bool)

-- Whether the whole scan ends here, and where.
def scalars (bytes : List UInt8) : Nat → Nat → Bool × Nat
  | 0, i => (false,i)
  | n + 1, i =>
    match bytes[i]? with
    | none => (true,i)
    | some b => if 0x80 ≤ b then (false,i) else if ascii b then scalars bytes n (i + 1) else (true,i)

def chunks (bytes : List UInt8) (i : Nat) : Bool × Nat :=
  if i + 8 ≤ bytes.length then
    let x := ofLeBytes ((bytes.drop i).take 8)
    let stop := swarNot (block x) &&& swarHigh
    if stop ≠ 0 then
      let i := i + BitSet.trailingZeros (BitVec.ofNat 64 stop) / 8
      (bytes[i]?.any (· < 0x80),i)
    else chunks bytes (i + 8)
  else (false,i)
termination_by bytes.length - i

def scan (rest : List Char) : Nat → Nat → Option Nat
  | 0, _ => none
  | fuel + 1, i =>
    match scalars ascii (bytes rest) 4 i with
    | (true,i) => some i
    | (false,i) =>
      match chunks block (bytes rest) i with
      | (true,i) => some i
      | (false,i) =>
        match (bytes rest)[i]? with
        | none => some i
        | some b =>
          if b < 0x80 then if ascii b then scan rest fuel (i + 1) else some i
          else do
            let c ← (← dropBytes i rest).head?
            if predicate c then scan rest fuel (i + c.utf8Size) else some i

def eatWhileAscii (c : Cursor) : Option Cursor := do
  c.advanceBytes (← scan block ascii predicate c.chars ((bytes c.chars).length + 1) 0)

end

def eatWhitespace : Cursor → Option Cursor := eatWhileAscii swarWhitespace (asciiClasses · &&& 2 ≠ 0) isWhitespace

def eatIdContinue (isIdContinue : Char → Bool) : Cursor → Option Cursor :=
  eatWhileAscii swarIdContinue (asciiClasses · &&& 1 ≠ 0) isIdContinue

end Cursor

section

variable {i x lo hi : Nat} (hx : x < 2 ^ 64) (hi8 : i < 8)

def laneGe (b lo : Nat) : Nat := ((b ||| 128) - lo) &&& 128

def laneIn (b lo hi : Nat) : Nat := laneGe b lo &&& (255 ^^^ laneGe b (hi + 1))

theorem lane_swarHigh : ∀ i < 8, lane i swarHigh = 128 := by decide

theorem lane_ones : ∀ lo ≤ 128, ∀ i < 8, lane i (swarOnes * lo) = lo := by decide +kernel

include hi8

theorem lane_swarNot : lane i (swarNot x) = 255 ^^^ lane i x := by
  have h : ∀ i < 8, lane i 0xFFFFFFFFFFFFFFFF = 255 := by decide
  rw [swarNot,lane_xor,h i hi8]

include hx

theorem lane_swarGe (hlo : lo ≤ 128) : lane i (swarGe x lo) = laneGe (lane i x) lo := by
  have hb j (hj : j < 8) : lane j (swarOnes * lo) ≤ lane j (x ||| swarHigh) := by
    rw [lane_ones lo hlo j hj,lane_or,lane_swarHigh j hj]
    exact hlo.trans Nat.right_le_or
  have hm : swarOnes * lo < 256 ^ 8 := by
    have hl := Nat.mul_le_mul_left swarOnes hlo
    exact hl.trans_lt (by decide)
  rw [swarGe,lane_and,lane_swarHigh i hi8,lane_sub 8 (Nat.or_lt_two_pow (n := 64) hx (by decide)) hm hb hi8,
    lane_ones lo hlo i hi8,lane_or,lane_swarHigh i hi8]
  rfl

theorem lane_swarIn (hlo : lo ≤ 128) (hhi : hi + 1 ≤ 128) : lane i (swarIn x lo hi) = laneIn (lane i x) lo hi := by
  rw [swarIn,lane_and,lane_swarNot hi8,lane_swarGe hx hi8 hlo,lane_swarGe hx hi8 hhi]
  rfl

theorem lane_swarIdContinue : lane i (swarIdContinue x) =
    if asciiClasses (UInt8.ofNat (lane i x)) &&& 1 ≠ 0 then 128 else 0 := by
  have hf : x ||| swarOnes * 0x20 < 2 ^ 64 := Nat.or_lt_two_pow hx (by decide)
  rw [swarIdContinue,lane_and,lane_or,lane_or,lane_swarNot hi8,lane_swarIn hx hi8 (by decide) (by decide),
    lane_swarIn hf hi8 (by decide) (by decide),lane_swarIn hx hi8 (by decide) (by decide),lane_or,
    lane_ones 0x20 (by decide) i hi8]
  have h : ∀ b < 256, (laneIn b 48 57 ||| laneIn (b ||| 0x20) 97 122 ||| laneIn b 95 95) &&& (255 ^^^ b) =
      if asciiClasses (UInt8.ofNat b) &&& 1 ≠ 0 then 128 else 0 := by decide +kernel
  exact h _ lane_lt

theorem lane_swarWhitespace : lane i (swarWhitespace x) =
    if asciiClasses (UInt8.ofNat (lane i x)) &&& 2 ≠ 0 then 128 else 0 := by
  rw [swarWhitespace,lane_and,lane_or,lane_swarNot hi8,lane_swarIn hx hi8 (by decide) (by decide),
    lane_swarIn hx hi8 (by decide) (by decide)]
  have h : ∀ b < 256, (laneIn b 9 13 ||| laneIn b 32 32) &&& (255 ^^^ b) =
      if asciiClasses (UInt8.ofNat b) &&& 2 ≠ 0 then 128 else 0 := by decide +kernel
  exact h _ lane_lt

end

section

variable {block : Nat → Nat} {ascii : UInt8 → Bool} {predicate : Char → Bool} {text : List Char} {i j : Nat}

def At (predicate : Char → Bool) (text : List Char) (i : Nat) : Prop :=
  ∃ pre post, text = pre ++ post ∧ i = (bytes pre).length ∧ ∀ c ∈ pre, predicate c

def Stops (predicate : Char → Bool) (text : List Char) (i : Nat) : Prop :=
  dropBytes i text = some (text.dropWhile predicate)

def Exact (block : Nat → Nat) (ascii : UInt8 → Bool) : Prop :=
  ∀ x < 2 ^ 64, ∀ i < 8, lane i (block x) = if ascii (UInt8.ofNat (lane i x)) then 128 else 0

structure Agrees (ascii : UInt8 → Bool) (predicate : Char → Bool) : Prop where
  low : ∀ c : Char, c.toNat < 128 → ascii (byte c) = predicate c
  high : ∀ n < 256, ascii (UInt8.ofNat n) → UInt8.ofNat n < 0x80

theorem At.cases (h : At predicate text i) : (bytes text)[i]? = none ∧ Stops predicate text i ∨
    ∃ c b, (bytes text)[i]? = some b ∧ (b < 0x80 → c.toNat < 128 ∧ b = byte c) ∧ (dropBytes i text).bind head? = some c ∧
      (predicate c → At predicate text (i + c.utf8Size)) ∧ (predicate c = false → Stops predicate text i) := by
  obtain ⟨pre,post,rfl,rfl,hp⟩ := h
  cases post with
  | nil =>
    refine .inl ⟨by simp,?_⟩
    rw [Stops,dropBytes_bytes,dropWhile_append_of_pos hp,dropWhile_nil]
  | cons c post =>
    have hne : utf8EncodeChar c ≠ [] := ne_nil_of_length_pos (by simp [c.utf8Size_pos])
    obtain ⟨b,l,he⟩ := exists_cons_of_ne_nil hne
    refine .inr ⟨c,b,by simp [he],fun hb => ?_,by simp,fun hc => ?_,fun hc => ?_⟩
    · have hl : c.toNat < 128 := by
        by_contra hge
        have hh := encode_high (Nat.le_of_not_lt hge) b (by simp [he])
        exact absurd (UInt8.lt_iff_toNat_lt.mp hb) (Nat.not_lt_of_le hh)
      rw [encode_ascii hl] at he
      exact ⟨hl,(cons.inj he).1.symm⟩
    · refine ⟨pre ++ [c],post,by simp,by simp,?_⟩
      simpa using fun d hd => hd.elim (hp d) (· ▸ hc)
    · rw [Stops,dropBytes_bytes,dropWhile_append_of_pos hp,dropWhile_cons_of_neg (by simp [hc])]

section

variable (hb : Exact block ascii) {bs : List UInt8} (hl : bs.length = 8)

include hb hl

theorem lane_stop (hi : i < 8) : ∃ b, bs[i]? = some b ∧
    lane i (swarNot (block (ofLeBytes bs)) &&& swarHigh) = if ascii b then 0 else 128 := by
  have hx : ofLeBytes bs < 2 ^ 64 := by simpa [hl] using ofLeBytes_lt bs
  have hg : bs[i]? = some bs[i] := getElem?_eq_getElem _
  refine ⟨_,hg,?_⟩
  rw [lane_and,lane_swarNot hi,lane_swarHigh i hi,hb _ hx i hi,lane_ofLeBytes hg,UInt8.ofNat_toNat]
  split <;> rfl

theorem chunk_pass (hs : swarNot (block (ofLeBytes bs)) &&& swarHigh = 0) : ∀ j < 8, ∃ b, bs[j]? = some b ∧ ascii b := by
  intro j hj
  obtain ⟨b,hg,he⟩ := lane_stop hb hl hj
  refine ⟨b,hg,?_⟩
  by_contra hn
  rw [hs,if_neg hn,lane,Nat.zero_div] at he
  cases he

theorem chunk_stop (hs : swarNot (block (ofLeBytes bs)) &&& swarHigh ≠ 0) :
    let k := BitSet.trailingZeros (BitVec.ofNat 64 (swarNot (block (ofLeBytes bs)) &&& swarHigh)) / 8
    (∀ j < k, ∃ b, bs[j]? = some b ∧ ascii b) ∧ ∃ b, bs[k]? = some b ∧ ascii b = false := by
  have hla := fun i (hi : i < 8) => lane_stop hb hl hi
  have hlt : swarNot (block (ofLeBytes bs)) &&& swarHigh < 2 ^ 64 := Nat.and_le_right.trans_lt (by decide)
  generalize swarNot (block (ofLeBytes bs)) &&& swarHigh = stop at hs hla hlt
  have hw : BitVec.ofNat 64 stop ≠ 0 := by
    intro h
    have h := congrArg BitVec.toNat h
    rw [BitVec.toNat_ofNat,Nat.mod_eq_of_lt hlt] at h
    exact hs h
  obtain ⟨ht,hse,hcl⟩ := BitSet.trailingZeros_spec hw
  generalize BitSet.trailingZeros (BitVec.ofNat 64 stop) = t at ht hse hcl
  simp only [BitVec.getLsbD_ofNat,Bool.and_eq_true,decide_eq_true_eq] at hse
  constructor
  · intro j hj
    obtain ⟨b,hg,he⟩ := hla j (by omega)
    refine ⟨b,hg,?_⟩
    by_contra hn
    have hc := hcl (8 * j + 7) (by omega)
    rw [BitVec.getLsbD_ofNat,decide_eq_true (by omega),Bool.true_and,← testBit_lane (by decide),he,if_neg hn] at hc
    cases hc
  · obtain ⟨b,hg,he⟩ := hla (t / 8) (by omega)
    refine ⟨b,hg,?_⟩
    by_contra hn
    have hc := testBit_lane (i := t / 8) (x := stop) (Nat.mod_lt t (by decide : 8 > 0))
    rw [he,if_pos (by simpa using hn),Nat.div_add_mod,hse.2,Nat.zero_testBit] at hc
    cases hc

end

variable (ha : Agrees ascii predicate)

include ha

theorem At.low (h : At predicate text i) (hb : (bytes text)[i]? = some b) (hl : b < 0x80) :
    if ascii b then At predicate text (i + 1) else Stops predicate text i := by
  rcases h.cases with ⟨hn,-⟩ | ⟨c,b',hb',hc,-,hy,hn⟩
  · simp [hn] at hb
  cases hb'.symm.trans hb
  obtain ⟨hlo,rfl⟩ := hc hl
  rw [ha.low c hlo]
  have hs : c.utf8Size = 1 := by
    rw [← String.length_utf8EncodeChar,encode_ascii hlo]
    rfl
  split
  next hp => exact hs ▸ hy hp
  next hp => exact hn (by simpa using hp)

theorem At.run (h : At predicate text i) (k : Nat)
    (hk : ∀ j < k, ∃ b, (bytes text)[i + j]? = some b ∧ ascii b) : At predicate text (i + k) := by
  induction k with
  | zero => exact h
  | succ k ih =>
    obtain ⟨b,hb,hs⟩ := hk k (Nat.lt_succ_self k)
    have hlo := ha.high b.toNat b.toNat_lt
    rw [UInt8.ofNat_toNat] at hlo
    have hl := At.low ha (ih fun j hj => hk j (Nat.lt_succ_of_lt hj)) hb (hlo hs)
    rwa [if_pos hs] at hl

theorem scalars_spec (n : Nat) (h : At predicate text i) :
    let r := scalars ascii (bytes text) n i
    if r.1 then Stops predicate text r.2 else At predicate text r.2 ∧ i ≤ r.2 := by
  induction n generalizing i with
  | zero => exact ⟨h,le_rfl⟩
  | succ n ih =>
    rw [scalars]
    rcases hb : (bytes text)[i]? with _ | b
    · rcases h.cases with ⟨-,hs⟩ | ⟨c,b,hb',-⟩
      · exact hs
      · simp [hb] at hb'
    · by_cases hge : 0x80 ≤ b
      · simp only [if_pos hge]
        exact ⟨h,le_rfl⟩
      · have hl := At.low ha h hb (UInt8.not_le.mp hge)
        by_cases hs : ascii b
        · simp only [if_neg hge,if_pos hs] at hl ⊢
          have hi := ih hl
          dsimp only at hi ⊢
          split at hi
          next hr => rwa [if_pos hr]
          next hr => rw [if_neg hr]; exact ⟨hi.1,by omega⟩
        · simpa only [if_neg hge,if_neg hs,if_true] using hl

theorem chunks_spec (hb : Exact block ascii) (i : Nat) (h : At predicate text i) :
    let r := chunks block (bytes text) i
    if r.1 then Stops predicate text r.2 else At predicate text r.2 ∧ i ≤ r.2 := by
  have hge i j (hj : j < 8) : (take 8 (drop i (bytes text)))[j]? = (bytes text)[i + j]? := by
    rw [getElem?_take_of_lt hj,getElem?_drop]
  fun_induction chunks block (bytes text) i with
  | case1 i hle x stop hs k =>
    obtain ⟨hp,b,hg,hn⟩ := chunk_stop hb (by simp; omega) hs
    have hk := (List.getElem_of_getElem? hg).1
    rw [length_take] at hk
    rw [hge i _ (by omega)] at hg
    have hat := At.run ha h _ fun j hj => (hp j hj).imp fun b hb => ⟨(hge i j (by omega)).symm.trans hb.1,hb.2⟩
    dsimp only [k]
    rw [hg,Option.any_some]
    by_cases hlo : b < 0x80
    · have hs := At.low ha hat hg hlo
      rw [hn,if_neg Bool.false_ne_true] at hs
      rw [if_pos (by simpa using hlo)]
      exact hs
    · rw [if_neg (by simpa using hlo)]
      exact ⟨hat,Nat.le_add_right i _⟩
  | case2 i hle x stop hs ih =>
    have hp := chunk_pass hb (by simp; omega) (not_not.mp hs)
    have hr := ih (At.run ha h 8 fun j hj => hge i j hj ▸ hp j hj)
    dsimp only at hr ⊢
    split at hr
    next he => rwa [if_pos he]
    next he => rw [if_neg he]; exact ⟨hr.1,by omega⟩
  | case3 i hle => exact ⟨h,le_rfl⟩

theorem scan_spec (hb : Exact block ascii) (fuel : Nat) (h : At predicate text i) (hf : (bytes text).length - i < fuel) :
    ∃ k, scan block ascii predicate text fuel i = some k ∧ Stops predicate text k := by
  induction fuel generalizing i with
  | zero => omega
  | succ fuel ih =>
    rw [scan]
    have hs := scalars_spec ha 4 h
    rcases hr : scalars ascii (bytes text) 4 i with ⟨_ | _,j⟩
    · rw [hr] at hs
      obtain ⟨h,hij⟩ : At predicate text j ∧ i ≤ j := by simpa using hs
      have hs := chunks_spec ha hb j h
      dsimp only
      rcases hr : chunks block (bytes text) j with ⟨_ | _,k⟩
      · rw [hr] at hs
        obtain ⟨h,hjk⟩ : At predicate text k ∧ j ≤ k := by simpa using hs
        dsimp only
        rcases h.cases with ⟨hg,hs⟩ | ⟨c,b,hg,hc,hd,hy,hn⟩
        · exact ⟨k,by rw [hg],hs⟩
        have hk := (List.getElem_of_getElem? hg).1
        rw [hg]
        dsimp only
        by_cases hlo : b < 0x80
        · have hs := At.low ha h hg hlo
          rw [if_pos hlo]
          by_cases hab : ascii b
          · rw [if_pos hab] at hs ⊢
            exact ih hs (by omega)
          · rw [if_neg hab] at hs ⊢
            exact ⟨k,rfl,hs⟩
        · obtain ⟨rest,hre,hh⟩ := Option.bind_eq_some_iff.mp hd
          have hp := c.utf8Size_pos
          simp only [if_neg hlo,hre,Option.bind_eq_bind,Option.bind_some,hh]
          by_cases hpc : predicate c
          · rw [if_pos hpc]
            exact ih (hy hpc) (by omega)
          · rw [if_neg hpc]
            exact ⟨k,rfl,hn (by simpa using hpc)⟩
      · rw [hr] at hs
        exact ⟨k,rfl,by simpa using hs⟩
    · rw [hr] at hs
      exact ⟨j,rfl,by simpa using hs⟩

omit ha in
theorem eatWhile_eq (c : Cursor) : c.eatWhile predicate = { c with chars := c.chars.dropWhile predicate } := by
  obtain ⟨len,chars,fm⟩ := c
  induction chars with
  | nil => simp [eatWhile]
  | cons d text ih =>
    rw [eatWhile]
    by_cases hd : predicate d
    · rw [dif_pos ⟨hd,cons_ne_nil d text⟩]
      simpa [bump,hd] using ih
    · rw [dif_neg fun h => hd h.1]
      simp [hd]

theorem eatWhileAscii_eq (hb : Exact block ascii) (c : Cursor) :
    c.eatWhileAscii block ascii predicate = some (c.eatWhile predicate) := by
  have h : At predicate c.chars 0 := ⟨[],c.chars,rfl,rfl,nofun⟩
  obtain ⟨k,hk,hs⟩ := scan_spec ha hb ((bytes c.chars).length + 1) h (Nat.lt_succ_self _)
  rw [Stops] at hs
  rw [eatWhileAscii,hk,Option.bind_eq_bind,Option.bind_some,advanceBytes,hs,eatWhile_eq]
  rfl

end

theorem whitespace_agrees : Agrees (asciiClasses · &&& 2 ≠ 0) isWhitespace := by
  have h : ∀ n < 128, (decide (asciiClasses (UInt8.ofNat n) &&& 2 ≠ 0)) = isWhitespace (Char.ofNat n) := by
    decide +kernel
  refine ⟨fun c hc => ?_,?_⟩
  · rw [byte,h c.toNat hc,Char.ofNat_toNat]
  · decide +kernel

theorem words_scan_as_characters (isXidContinue : Char → Bool)
    (hx : ∀ c : Char, c.toNat < 128 → isXidContinue c = (c.isAlphanum || c == '_')) (c : Cursor) :
    c.eatWhitespace = some (c.eatWhile isWhitespace) ∧ c.eatIdContinue isXidContinue =
    some (c.eatWhile isXidContinue) := by
  have h : ∀ n < 128, (decide (asciiClasses (UInt8.ofNat n) &&& 1 ≠ 0)) =
      ((Char.ofNat n).isAlphanum || Char.ofNat n == '_') := by decide +kernel
  refine ⟨eatWhileAscii_eq whitespace_agrees (fun x hx i hi => ?_) c,eatWhileAscii_eq ⟨fun d hd => ?_,?_⟩
    (fun x hx i hi => ?_) c⟩
  · simpa using lane_swarWhitespace hx hi
  · rw [hx d hd,byte,h d.toNat hd,Char.ofNat_toNat]
  · decide +kernel
  · simpa using lane_swarIdContinue hx hi

theorem accented_word_scans : eatIdContinue (fun c => c.isAlphanum || c == '_' || c == '\u00ef')
      ⟨20, "na\u00efve_identifier + 1".toList,.No⟩ = some ⟨20, " + 1".toList,.No⟩ := by
  have h := (words_scan_as_characters (fun c => c.isAlphanum || c == '_' || c == '\u00ef') (fun c hc => ?_)
    ⟨20, "na\u00efve_identifier + 1".toList,.No⟩).2
  · rw [h,eatWhile_eq]
    rfl
  · have hne : c ≠ '\u00ef' := by
      rintro rfl
      exact absurd hc (by decide)
    simp [hne]

end Frontend.Lexer
