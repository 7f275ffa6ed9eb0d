import Mathlib

namespace Frontend.Library.Utf8

open List
open String (utf8EncodeChar)

def byte (c : Char) : UInt8 := UInt8.ofNat c.toNat

def bytes (text : List Char) : List UInt8 := text.flatMap utf8EncodeChar

-- The text from a byte index on; an index inside a character has none.
def dropBytes : Nat → List Char → Option (List Char)
  | 0, text => some text
  | _ + 1, [] => none
  | n + 1, c :: text => if c.utf8Size ≤ n + 1 then dropBytes (n + 1 - c.utf8Size) text else none

def memchr (needles : List Char) (haystack : List UInt8) : Option Nat :=
  haystack.findIdx? ((needles.map byte).contains ·)

variable {c d : Char} {pre text : List Char}

theorem encode_ascii (h : c.toNat < 128) : utf8EncodeChar c = [byte c] := by
  have hle : c.val.toNat ≤ 127 := Nat.le_of_lt_succ h
  simp only [utf8EncodeChar,if_pos hle]
  rfl

theorem encode_high (h : 128 ≤ c.toNat) : ∀ b ∈ utf8EncodeChar c, 128 ≤ b.toNat := by
  have hgt : ¬c.val.toNat ≤ 127 := Nat.not_le_of_lt h
  simp only [utf8EncodeChar,if_neg hgt]
  split
  · simp only [mem_cons,not_mem_nil,or_false,forall_eq_or_imp,forall_eq,UInt8.toNat_ofNat']
    omega
  split
  · simp only [mem_cons,not_mem_nil,or_false,forall_eq_or_imp,forall_eq,UInt8.toNat_ofNat']
    omega
  · simp only [mem_cons,not_mem_nil,or_false,forall_eq_or_imp,forall_eq,UInt8.toNat_ofNat']
    omega

theorem toNat_byte (h : c.toNat < 128) : (byte c).toNat = c.toNat := by
  rw [byte,UInt8.toNat_ofNat']
  omega

@[simp] theorem bytes_nil : bytes [] = [] := rfl

@[simp] theorem bytes_cons : bytes (c :: text) = utf8EncodeChar c ++ bytes text := flatMap_cons

@[simp] theorem bytes_append : bytes (pre ++ text) = bytes pre ++ bytes text := flatMap_append

@[simp] theorem dropBytes_bytes (pre text : List Char) : dropBytes (bytes pre).length (pre ++ text) = some text := by
  induction pre with
  | nil => simp [dropBytes]
  | cons c pre ih =>
    have hp := c.utf8Size_pos
    obtain ⟨n,hn⟩ : ∃ n, (bytes (c :: pre)).length = n + 1 := ⟨(bytes (c :: pre)).length - 1,by simp; omega⟩
    have hl : c.utf8Size + (bytes pre).length = n + 1 := by simpa using hn
    rw [hn,cons_append,dropBytes,if_pos (by omega),← hl,Nat.add_sub_cancel_left,ih]

section

variable {needles : List Char} (hlow : ∀ d ∈ needles, d.toNat < 128)

include hlow

theorem contains_byte (h : c.toNat < 128) : (needles.map byte).contains (byte c) = needles.contains c := by
  rw [Bool.eq_iff_iff,contains_iff_mem,contains_iff_mem,mem_map]
  refine ⟨fun ⟨d,hd,heq⟩ => (Char.toNat_inj.mp (by rw [← toNat_byte (hlow d hd),heq,toNat_byte h]) : d = c) ▸ hd,
    fun hc => ⟨c,hc,rfl⟩⟩

theorem any_encode : (utf8EncodeChar c).any ((needles.map byte).contains ·) = needles.contains c := by
  by_cases h : c.toNat < 128
  · simp only [encode_ascii h,any_cons,any_nil,Bool.or_false,contains_byte hlow h]
  have hc : needles.contains c = false := by
    simpa using fun hm => h (hlow c hm)
  rw [hc,any_eq_false]
  intro b hb hm
  obtain ⟨d,hd,rfl⟩ := mem_map.mp (contains_iff_mem.mp hm)
  have hge := encode_high (Nat.le_of_not_lt h) _ hb
  rw [toNat_byte (hlow d hd)] at hge
  exact absurd (hlow d hd) (Nat.not_lt_of_le hge)

theorem memchr_none (h : ∀ c ∈ text, c ∉ needles) : memchr needles (bytes text) = none := by
  rw [memchr,findIdx?_eq_none_iff]
  intro b hb
  obtain ⟨c,hc,hb⟩ := mem_flatMap.mp hb
  have ha := any_encode (c := c) hlow
  rw [show needles.contains c = false by simpa using h c hc,any_eq_false] at ha
  simpa using ha b hb

theorem memchr_some (h : ∀ c ∈ pre, c ∉ needles) (hc : c ∈ needles) :
    memchr needles (bytes (pre ++ c :: text)) = some (bytes pre).length := by
  have hn := memchr_none hlow h
  rw [memchr] at hn ⊢
  have hcc : (needles.map byte).contains (byte c) = true := by
    rw [contains_byte hlow (hlow c hc),contains_iff_mem]
    exact hc
  simp only [bytes_append,bytes_cons,encode_ascii (hlow c hc),findIdx?_append,hn,singleton_append,findIdx?_cons,hcc,
    if_true,Option.none_or,Option.map_some,Nat.zero_add]

end

theorem split_at (needles text : List Char) : (∀ c ∈ text, c ∉ needles) ∨
    ∃ pre c post, text = pre ++ c :: post ∧ (∀ d ∈ pre, d ∉ needles) ∧ c ∈ needles := by
  induction text with
  | nil => exact .inl nofun
  | cons d text ih =>
    by_cases hd : d ∈ needles
    · exact .inr ⟨[],d,text,rfl,nofun,hd⟩
    · rcases ih with ha | ⟨pre,c,post,rfl,hp,hc⟩
      · exact .inl (forall_mem_cons.mpr ⟨hd,ha⟩)
      · exact .inr ⟨d :: pre,c,post,rfl,forall_mem_cons.mpr ⟨hd,hp⟩,hc⟩

end Frontend.Library.Utf8
