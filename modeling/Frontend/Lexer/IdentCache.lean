import Mathlib.Data.Nat.Size
import Mathlib.Tactic.Ring
import Frontend.Library.Lanes
import Frontend.Symbol.Predefined

namespace Frontend.Lexer

open Library List Frontend.Symbol

section

variable (bytes : Bytes)

def overlay (first last : Nat) : Nat :=
  ofLeBytes (bytes.take first) ||| ofLeBytes (bytes.drop (bytes.length - last)) <<< ((bytes.length - last) * 8)

def shortKey : Option Nat :=
  if bytes.length = 1 then some (ofLeBytes (bytes.take 1))
  else if 2 ≤ bytes.length ∧ bytes.length ≤ 3 then some (overlay bytes 2 1)
  else if 4 ≤ bytes.length ∧ bytes.length ≤ 8 then some (overlay bytes 4 4)
  else none

end

def shortSlot (key : Nat) : Nat := (key * 0x9e3779b97f4a7c15 % 2 ^ 64) >>> 55

def leadingZeros (key : Nat) : Nat := 64 - key.size

def significantBytes (key : Nat) : Nat := (64 - leadingZeros key + 7) / 8

section

variable (S : Type)

structure Normalizer where
  intern : Bytes → S
  isNfcQuick : Bytes → Bool
  nfc : Bytes → Bytes

structure IdentCache where
  identCache : List (Nat × S)
  nfcCache : List (Bytes × S)

end

variable {S : Type}

section

variable (N : Normalizer S) (c : IdentCache S) (text : Bytes)

def Normalizer.normalized : Bytes := if text.all (· < 128) then text else if N.isNfcQuick text then text else N.nfc text

def Normalizer.nfcNormalizeIn : S := N.intern (N.normalized text)

namespace IdentCache

def new (empty : S) : IdentCache S := ⟨replicate 512 (0,empty),[]⟩

def nfcNormalizeSrc : S × IdentCache S :=
  match c.nfcCache.lookup text with
  | some sym => (sym,c)
  | none => (N.nfcNormalizeIn text,{ c with nfcCache := (text,N.nfcNormalizeIn text) :: c.nfcCache })

-- An index past the cache panics.
def identSymbol : Option (S × IdentCache S) :=
  match shortKey text with
  | none => some (c.nfcNormalizeSrc N text)
  | some key =>
    c.identCache[shortSlot key]?.map fun (cachedKey,sym) =>
      if cachedKey = key then (sym,c)
      else
        let (sym,c) := c.nfcNormalizeSrc N text
        (sym,{ c with identCache := c.identCache.set (shortSlot key) (key,sym) })

def lookups (c : IdentCache S) : List Bytes → Option (List S)
  | [] => some []
  | text :: texts => (c.identSymbol N text).bind fun (sym,c) => (lookups c texts).map (sym :: ·)

structure Ok : Prop where
  slots : c.identCache.length = 512
  cached : ∀ key sym, (key,sym) ∈ c.identCache → key = 0 ∨ ∃ text, 0 ∉ text ∧ shortKey text = some key ∧
    sym = N.nfcNormalizeIn text
  normalized : ∀ text sym, (text,sym) ∈ c.nfcCache → sym = N.nfcNormalizeIn text

end IdentCache

end

variable {a b bytes : Bytes} {k m key : Nat}

theorem ofLeBytes_lt_two_pow (a : Bytes) : ofLeBytes a < 2 ^ (a.length * 8) := by
  rw [Nat.mul_comm,Nat.pow_mul]
  exact ofLeBytes_lt a

theorem ofLeBytes_append (a b : Bytes) : ofLeBytes (a ++ b) = ofLeBytes b <<< (a.length * 8) ||| ofLeBytes a := by
  rw [← Nat.shiftLeft_add_eq_or_of_lt (ofLeBytes_lt_two_pow a),Nat.shiftLeft_eq]
  induction a with
  | nil => simp [ofLeBytes]
  | cons x a ih =>
    rw [cons_append,ofLeBytes,ih,ofLeBytes,length_cons]
    ring

theorem overlay_eq (h : bytes.length - m ≤ k) : overlay bytes k m = ofLeBytes bytes := by
  obtain ⟨s,hs⟩ : ∃ s, s = bytes.length - m := ⟨_,rfl⟩
  rw [← hs] at h
  have hl : (bytes.take s).length = s := by simp; omega
  have ht : bytes.take k = bytes.take s ++ (bytes.take k).drop s := by
    have h' := take_append_drop s (bytes.take k)
    rw [take_take,Nat.min_eq_left h] at h'
    exact h'.symm
  have hd : bytes.drop s = (bytes.take k).drop s ++ bytes.drop k := by
    rw [← drop_append_of_le_length,take_append_drop]
    simp; omega
  have hb := congrArg ofLeBytes (take_append_drop s bytes)
  rw [ofLeBytes_append,hl] at hb
  rw [overlay,← hs,← hb,ht,ofLeBytes_append,hl,hd,ofLeBytes_append,Nat.shiftLeft_or_distrib,Nat.or_comm,
    Nat.or_assoc,← Nat.or_assoc _ _ (ofLeBytes (bytes.take s)),
    Nat.or_self,Nat.or_assoc]

theorem shortKey_eq_some_iff : shortKey bytes = some key ↔ (0 < bytes.length ∧ bytes.length ≤ 8) ∧
    ofLeBytes bytes = key := by
  unfold shortKey
  split
  · rw [take_of_length_le (by omega),Option.some.injEq]
    omega
  split
  · rw [overlay_eq (by omega),Option.some.injEq]
    omega
  split
  · rw [overlay_eq (by omega),Option.some.injEq]
    omega
  · simp only [reduceCtorEq,false_iff]
    omega

theorem pow_le_ofLeBytes (h : 0 ∉ x :: a) : 256 ^ a.length ≤ ofLeBytes (x :: a) := by
  induction a generalizing x with
  | nil =>
    have hx : x.toNat ≠ 0 := fun hx => h (by simp [← UInt8.toNat_inj,hx])
    simp only [ofLeBytes,length_nil]
    omega
  | cons y a ih =>
    have hy := ih (not_mem_of_not_mem_cons h)
    rw [ofLeBytes,length_cons,Nat.pow_succ]
    omega

theorem ofLeBytes_inj (ha : 0 ∉ a) (hb : 0 ∉ b) (h : ofLeBytes a = ofLeBytes b) : a = b := by
  induction a generalizing b with
  | nil =>
    cases b with
    | nil => rfl
    | cons y b => exact absurd (h ▸ pow_le_ofLeBytes hb) (by simp [ofLeBytes])
  | cons x a ih =>
    cases b with
    | nil => exact absurd (h ▸ pow_le_ofLeBytes ha) (by simp [ofLeBytes])
    | cons y b =>
      have hx := x.toNat_lt
      have hy := y.toNat_lt
      simp only [ofLeBytes] at h
      rw [ih (not_mem_of_not_mem_cons ha) (not_mem_of_not_mem_cons hb) (by omega),
        UInt8.toNat_inj.mp (by omega : x.toNat = y.toNat)]

theorem shortKey_inj (ha : 0 ∉ a) (hb : 0 ∉ b) (h : shortKey a = some key) (h' : shortKey b = some key) : a = b := by
  rw [shortKey_eq_some_iff] at h h'
  exact ofLeBytes_inj ha hb (h.2.trans h'.2.symm)

theorem shortKey_ne_zero (h0 : 0 ∉ bytes) : shortKey bytes ≠ some 0 := by
  rw [Ne,shortKey_eq_some_iff]
  rintro ⟨⟨hp,-⟩,hz⟩
  exact length_pos_iff.mp hp (ofLeBytes_inj h0 not_mem_nil hz)

theorem significantBytes_ofLeBytes (h0 : 0 ∉ bytes) (hp : 0 < bytes.length) (hn : bytes.length ≤ 8) :
    ofLeBytes bytes < 2 ^ 64 ∧ significantBytes (ofLeBytes bytes) = bytes.length := by
  obtain ⟨x,a,rfl⟩ := exists_cons_of_length_pos hp
  have hs := Nat.size_le.mpr (ofLeBytes_lt_two_pow (x :: a))
  have hl : a.length * 8 < (ofLeBytes (x :: a)).size := by
    rw [Nat.lt_size,Nat.mul_comm,Nat.pow_mul]
    exact pow_le_ofLeBytes h0
  rw [length_cons] at hs hn ⊢
  rw [← Nat.size_le,significantBytes,leadingZeros]
  omega

theorem shortSlot_lt (key : Nat) : shortSlot key < 512 := by
  rw [shortSlot,Nat.shiftRight_eq_div_pow]
  omega

namespace IdentCache

variable {N : Normalizer S} {c : IdentCache S}

theorem Ok.new (empty : S) : Ok N (new empty) :=
  ⟨length_replicate,fun _ _ he => .inl (congrArg Prod.fst (eq_of_mem_replicate he)),nofun⟩

section

variable (h : Ok N c)

include h

theorem Ok.nfcNormalizeSrc (text : Bytes) : ∃ c', c.nfcNormalizeSrc N text = (N.nfcNormalizeIn text,c') ∧ Ok N c' := by
  unfold IdentCache.nfcNormalizeSrc
  split
  case h_1 sym hs =>
    obtain ⟨_,_,hc,-⟩ := lookup_eq_some_iff.mp hs
    exact ⟨c,by rw [h.normalized text sym (by simp [hc])],h⟩
  case h_2 =>
    refine ⟨_,rfl,h.slots,h.cached,fun t sym he => ?_⟩
    rcases mem_cons.mp he with he | he
    · cases he
      rfl
    · exact h.normalized t sym he

theorem Ok.identSymbol (h0 : 0 ∉ text) : ∃ c', c.identSymbol N text = some (N.nfcNormalizeIn text,c') ∧ Ok N c' := by
  obtain ⟨c',hs,hc'⟩ := h.nfcNormalizeSrc text
  unfold IdentCache.identSymbol
  split
  case h_1 => exact ⟨c',by rw [hs],hc'⟩
  case h_2 key hk =>
    obtain ⟨⟨cached,sym⟩,hg⟩ : ∃ e, c.identCache[shortSlot key]? = some e :=
      ⟨_,getElem?_eq_getElem (h.slots ▸ shortSlot_lt key)⟩
    simp only [hg,Option.map_some]
    split
    case isTrue heq =>
      subst heq
      rcases h.cached _ _ (mem_of_getElem? hg) with rfl | ⟨text',h0',hk',rfl⟩
      · exact absurd hk (shortKey_ne_zero h0)
      · cases shortKey_inj h0 h0' hk hk'
        exact ⟨c,rfl,h⟩
    case isFalse =>
      rw [hs]
      refine ⟨_,rfl,by simp [hc'.slots],fun k sym he => ?_,hc'.normalized⟩
      rcases mem_or_eq_of_mem_set he with he | he
      · exact hc'.cached k sym he
      · cases he
        exact .inr ⟨text,h0,hk,rfl⟩

theorem Ok.lookups (h0 : ∀ text ∈ texts, 0 ∉ text) : c.lookups N texts = some (texts.map N.nfcNormalizeIn) := by
  induction texts generalizing c with
  | nil => rfl
  | cons text texts ih =>
    obtain ⟨c',hs,hc'⟩ := h.identSymbol (h0 text (.head _))
    simp [IdentCache.lookups,hs,ih hc' fun t ht => h0 t (.tail _ ht)]

end

theorem short_keys_identify : (∀ a b : Bytes, 0 ∉ a → 0 ∉ b → 0 < a.length → a.length ≤ 8 →
    shortKey a = shortKey b → a = b) ∧
    (∀ a : Bytes, 0 ∉ a → 0 < a.length → a.length ≤ 8 → ∃ key < 2 ^ 64, shortKey a = some key ∧
    significantBytes key = a.length) ∧
    ∀ {S : Type} (N : Normalizer S) (empty : S) (texts : List Bytes), (∀ text ∈ texts, 0 ∉ text) →
      (new empty).lookups N texts = some (texts.map fun text => N.intern (N.normalized text)) := by
  refine ⟨fun a b ha hb hp hn h => ?_,fun a ha hp hn => ?_,fun _ empty _ h0 => (Ok.new empty).lookups h0⟩
  · have hk := shortKey_eq_some_iff.mpr ⟨⟨hp,hn⟩,rfl⟩
    exact shortKey_inj ha hb hk (h ▸ hk)
  · obtain ⟨hl,hs⟩ := significantBytes_ofLeBytes ha hp hn
    exact ⟨_,hl,shortKey_eq_some_iff.mpr ⟨⟨hp,hn⟩,rfl⟩,hs⟩

-- The letter e and a combining acute accent normalize to one letter of two bytes.
theorem decomposed_not_exact : (new []).lookups ⟨id,fun _ => false,fun _ => [0xC3,0xA9]⟩ [[0x65,0xCC,0x81]] =
    some [[0xC3,0xA9]] :=
  (Ok.new []).lookups (by decide)

end IdentCache

end Frontend.Lexer
