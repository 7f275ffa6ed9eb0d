import Frontend.Library.Outcome
import Frontend.Library.Pointwise
import Frontend.DiagTemplate.Parser

namespace Frontend.DiagTemplate

open Library List

variable {src : Bytes} {i j k m : Nat}

def Free (src : Bytes) (c : Char) (i j : Nat) : Prop := ∀ k, i ≤ k → k < j → src[k]? ≠ some (byte c)

def AfterNewline (src : Bytes) (j : Nat) : Prop := 0 < j ∧ src[j - 1]? = some (byte '\n')

def LineHead (src : Bytes) (j : Nat) : Prop := ∃ b < j, src[b]? = some (byte '\n') ∧ ∀ k, b < k → k < j →
    src[k]? = some (byte ' ')

variable {c : Char} {b : UInt8} {f : UInt8 → Prop}

theorem Free.append (h : Free src c i m) (h' : Free src c m j) : Free src c i j := by
  intro k hi hj
  by_cases hk : k < m
  · exact h k hi hk
  · exact h' k (by omega) hj

theorem Free.refl : Free src c i i := fun k hi hj => by omega

theorem Free.single (h : src[i]? = some (byte d)) (hcd : byte d ≠ byte c) : Free src c i (i + 1) := by
  intro k hi hj
  obtain rfl : k = i := by omega
  rw [h]
  simpa using hcd

theorem AfterNewline.lineHead (h : AfterNewline src j) : LineHead src j :=
  ⟨j - 1,by have := h.1; omega,h.2,fun k h1 h2 => by omega⟩

theorem LineHead.space (h : LineHead src i) (hi : src[i]? = some (byte ' ')) : LineHead src (i + 1) := by
  obtain ⟨b,hb,hn,hs⟩ := h
  refine ⟨b,by omega,hn,fun k h1 h2 => ?_⟩
  by_cases hk : k = i
  · exact hk ▸ hi
  · exact hs k h1 (by omega)

structure Scans (src : Bytes) (f : UInt8 → Prop) (i j : Nat) : Prop where
  le : i ≤ j
  le_length : j ≤ src.length
  bytes : ∀ k, i ≤ k → k < j → ∃ c, src[k]? = some c ∧ f c

theorem Scans.refl (hi : i ≤ src.length) : Scans src f i i := ⟨le_rfl,hi,fun k h1 h2 => by omega⟩

theorem Scans.append (h : Scans src f i m) (h' : Scans src f m j) : Scans src f i j := by
  refine ⟨h.le.trans h'.le,h'.le_length,fun k h1 h2 => ?_⟩
  by_cases hk : k < m
  · exact h.bytes k h1 hk
  · exact h'.bytes k (by omega) h2

theorem Scans.mono (h : Scans src f i j) (hfg : ∀ c, f c → g c) : Scans src g i j := by
  refine ⟨h.le,h.le_length,fun k h1 h2 => ?_⟩
  obtain ⟨c,hc,hf⟩ := h.bytes k h1 h2
  exact ⟨c,hc,hfg c hf⟩

theorem Scans.single (h : src[i]? = some b) (hf : f b) : Scans src f i (i + 1) := by
  refine ⟨by omega,lt_of_getElem? h,fun k h1 h2 => ?_⟩
  obtain rfl : k = i := by omega
  exact ⟨b,h,hf⟩

theorem Scans.free (h : Scans src f i j) (hf : ¬f (byte c)) : Free src c i j := by
  intro k h1 h2 hk
  obtain ⟨d,hd,hfd⟩ := h.bytes k h1 h2
  rw [hk,Option.some.injEq] at hd
  exact hf (hd ▸ hfd)

theorem Scans.last (h : Scans src f i j) (hij : i < j) : ∃ c, src[j - 1]? = some c ∧ f c :=
  h.bytes (j - 1) (by omega) (by omega)

theorem skipWhile_scans (f : UInt8 → Bool) (hi : i ≤ src.length) : Scans src (fun c => f c) i (skipWhile src f i) := by
  have hp : (src.drop i).takeWhile f <+: src.drop i := takeWhile_prefix f
  have hl := hp.length_le
  rw [length_drop] at hl
  refine ⟨by simp [skipWhile],by simp only [skipWhile]; omega,fun k h1 h2 => ?_⟩
  have hk : k - i < ((src.drop i).takeWhile f).length := by simp only [skipWhile] at h2; omega
  refine ⟨((src.drop i).takeWhile f)[k - i],?_,?_⟩
  · rw [hp.getElem hk,getElem_drop,← getElem?_eq_getElem]
    congr 1
    omega
  · exact mem_takeWhile_imp (getElem_mem hk)

theorem skipBlankInline_scans (hi : i ≤ src.length) : Scans src (· = byte ' ') i (skipBlankInline src i) :=
  (skipWhile_scans _ hi).mono fun c hc => by simpa using hc

def blankByte (c : UInt8) : Prop := c = byte ' ' ∨ c = byte '\n' ∨ c = byte '\r'

theorem skipEol_spec (src : Bytes) (i : Nat) : (skipEol src i = (false,i)) ∨ ∃ j, skipEol src i = (true,j) ∧ i < j ∧
    Scans src blankByte i j ∧ AfterNewline src j := by
  unfold skipEol
  split
  · rename_i h
    exact .inr ⟨i + 1,rfl,by omega,.single h (by simp [blankByte]),by omega,h⟩
  split
  · rename_i h
    have h1 : Scans src blankByte i (i + 1) := .single h.1 (by simp [blankByte])
    have h2 : Scans src blankByte (i + 1) (i + 2) := .single h.2 (by simp [blankByte])
    exact .inr ⟨i + 2,rfl,by omega,h1.append h2,by omega,h.2⟩
  · exact .inl rfl

theorem skipBlankBlockLoop_spec (n : Nat) (hi : i ≤ src.length) (h : AfterNewline src i) :
    Scans src blankByte i (skipBlankBlockLoop src n i) ∧ AfterNewline src (skipBlankBlockLoop src n i) := by
  induction n generalizing i with
  | zero => exact ⟨.refl hi,h⟩
  | succ n ih =>
    have hs := skipBlankInline_scans hi
    unfold skipBlankBlockLoop
    rcases skipEol_spec src (skipBlankInline src i) with he | ⟨j,he,_,hj,hn⟩
    · rw [he]
      exact ⟨.refl hi,h⟩
    · rw [he]
      obtain ⟨h1,h2⟩ := ih hj.le_length hn
      exact ⟨((hs.mono fun c hc => .inl hc).append hj).append h1,h2⟩

theorem skipBlankLoop_spec (n : Nat) (hi : i ≤ src.length) : Scans src blankByte i (skipBlankLoop src n i) ∧
      (LineHead src i → LineHead src (skipBlankLoop src n i)) := by
  induction n generalizing i with
  | zero => exact ⟨.refl hi,id⟩
  | succ n ih =>
    unfold skipBlankLoop
    split
    · rename_i h
      have hb : Scans src blankByte i (i + 1) := by
        rcases h with h | h
        · exact .single h (by simp [blankByte])
        · exact .single h (by simp [blankByte])
      obtain ⟨h1,h2⟩ := ih hb.le_length
      refine ⟨hb.append h1,fun hl => h2 ?_⟩
      rcases h with h | h
      · exact hl.space h
      · exact AfterNewline.lineHead ⟨by omega,h⟩
    split
    · rename_i h
      have ha : Scans src blankByte i (i + 1) := .single h.1 (by simp [blankByte])
      have hb : Scans src blankByte (i + 1) (i + 2) := .single h.2 (by simp [blankByte])
      obtain ⟨h1,h2⟩ := ih hb.le_length
      exact ⟨(ha.append hb).append h1,fun _ => h2 (AfterNewline.lineHead ⟨by omega,h.2⟩)⟩
    · exact ⟨.refl hi,id⟩

theorem skipBlank_scans (hi : i ≤ src.length) : Scans src blankByte i (skipBlank src i) := (skipBlankLoop_spec _ hi).1

theorem LineHead.skipBlank (h : LineHead src i) (hi : i ≤ src.length) : LineHead src (skipBlank src i) :=
  (skipBlankLoop_spec _ hi).2 h

def completes (e : Failure) : Prop := e ≠ .outOfFuel

@[simp] theorem outcome_fail (offset : Nat) (message : String) : Outcome completes P (fail offset message) := by
  simp [fail,completes]

theorem expectByte_outcome (c : Char) : Outcome completes (fun j => j = i + 1 ∧ src[i]? = some (byte c))
    (expectByte src c i) := by
  unfold expectByte
  split
  · rename_i h
    exact ⟨rfl,h⟩
  · simp

def wordByte (c : UInt8) : Prop := c ≠ byte ' ' ∧ c ≠ byte '*' ∧ c ≠ byte '\x7d' ∧ c ≠ byte '\n'

theorem wordByte_of_isIdentifierByte {c : UInt8} (h : isIdentifierByte c) : wordByte c := by
  refine ⟨?_,?_,?_,?_⟩ <;> rintro rfl <;> revert h <;> decide

def Word (src : Bytes) (i j : Nat) : Prop := i < j ∧ Scans src wordByte i j

theorem getIdentifierUnchecked_word (h : src[i]? = some b) (hb : isAsciiAlphabetic b) :
    Word src i (getIdentifierUnchecked src (i + 1)).2 := by
  have hs := skipWhile_scans isIdentifierByte (lt_of_getElem? h)
  refine ⟨hs.le,?_⟩
  exact (Scans.single h (wordByte_of_isIdentifierByte (by simp [isIdentifierByte,hb]))).append
    (hs.mono fun c hc => wordByte_of_isIdentifierByte hc)

theorem getIdentifier_outcome : Outcome completes (fun r => Word src i r.2) (getIdentifier src i) := by
  unfold getIdentifier
  split
  · rename_i h
    obtain ⟨b,hb,hf⟩ : ∃ b, src[i]? = some b ∧ isAsciiAlphabetic b := by simpa [byteIs,Option.any_eq_true] using h
    exact getIdentifierUnchecked_word hb hf
  · simp

theorem takeByteIf_cases (src : Bytes) (c : Char) (i : Nat) : takeByteIf src c i = (true,i + 1) ∧
    src[i]? = some (byte c) ∨
      takeByteIf src c i = (false,i) ∧ src[i]? ≠ some (byte c) := by
  unfold takeByteIf
  split
  · rename_i h
    exact .inl ⟨rfl,h⟩
  · rename_i h
    exact .inr ⟨rfl,h⟩

theorem getNumberLiteral_outcome (hi : i ≤ src.length) :
    Outcome completes (fun r => Word src i r.2) (getNumberLiteral src i) := by
  have hs : Scans src wordByte i (takeByteIf src '-' i).2 := by
    rcases takeByteIf_cases src '-' i with ⟨h,hb⟩ | ⟨h,_⟩
    · rw [h]
      exact .single hb (by unfold wordByte; decide)
    · rw [h]
      exact .refl hi
  have hd := skipWhile_scans isAsciiDigit hs.le_length
  unfold getNumberLiteral
  dsimp only
  split
  · simp
  rename_i hne
  split
  · simp
  split
  · refine ⟨?_,hs.append (hd.mono fun c hc => wordByte_of_isIdentifierByte (by simp [isIdentifierByte,hc]))⟩
    have h1 := hs.le
    have h2 := hd.le
    dsimp only
    omega
  · simp

theorem getVariantKey_outcome (hi : i ≤ src.length) :
    Outcome completes (fun r => i < r.2 ∧ r.2 ≤ src.length ∧ Free src '\x7d' i r.2) (getVariantKey src i) := by
  have hbl : ∀ {i}, i ≤ src.length → Free src '\x7d' i (skipBlank src i) := fun h =>
    (skipBlank_scans h).free (by unfold blankByte; decide)
  have hs := skipBlank_scans hi
  have ht {α : Type} (f : α → Key) (r : α × Nat) (hw : Word src (skipBlank src i) r.2) :
      Outcome completes (fun s => i < s.2 ∧ s.2 ≤ src.length ∧ Free src '\x7d' i s.2) (do
      let ptr ← expectByte src ']' (skipBlank src r.2)
      return (f r.1,ptr) : Parsed (Key × Nat)) := by
    have hw' := hw.2.le_length
    have hb := skipBlank_scans hw'
    refine (expectByte_outcome ']').bind fun j hj => ?_
    obtain ⟨rfl,hc⟩ := hj
    have h1 := hs.le
    have h2 := hw.1
    have h3 := hb.le
    refine ⟨by omega,lt_of_getElem? hc,?_⟩
    exact (((hbl hi).append (hw.2.free (by unfold wordByte; simp))).append (hbl hw')).append (.single hc (by decide))
  unfold getVariantKey
  dsimp only
  split
  · exact (getNumberLiteral_outcome hs.le_length).bind fun r hr => ht Key.Number r hr
  · exact getIdentifier_outcome.bind fun r hr => ht Key.Name r hr

theorem skipHexDigits_outcome (hi : i ≤ src.length) : Outcome completes (fun j => Scans src wordByte i j)
    (skipHexDigits src n i) := by
  unfold skipHexDigits
  dsimp only
  split
  · have hp : ((src.drop i).take n).takeWhile isAsciiHexdigit <+: src.drop i := by
      have ht := take_prefix n (src.drop i)
      exact takeWhile_prefix _ |>.trans ht
    have hl := hp.length_le
    rw [length_drop] at hl
    refine ⟨by omega,by omega,fun k h1 h2 => ?_⟩
    have hk : k - i < (((src.drop i).take n).takeWhile isAsciiHexdigit).length := by omega
    refine ⟨(((src.drop i).take n).takeWhile isAsciiHexdigit)[k - i],?_,?_⟩
    · rw [hp.getElem hk,getElem_drop,← getElem?_eq_getElem]
      congr 1
      omega
    · have hm := mem_takeWhile_imp (getElem_mem hk)
      generalize (((src.drop i).take n).takeWhile isAsciiHexdigit)[k - i] = c at hm
      refine ⟨?_,?_,?_,?_⟩ <;> rintro rfl <;> revert hm <;> decide
  · simp

def InLine (src : Bytes) (i j : Nat) : Prop := Scans src (· ≠ byte '\n') i j

theorem stringLoop_outcome (hi : i ≤ src.length) (hn : src.length < n + i) :
    Outcome completes (fun j => InLine src i j) (stringLoop src n i) := by
  induction n generalizing i with
  | zero => omega
  | succ n ih =>
    have hs {j} (hj : InLine src i j) (hlt : i < j) :
        Outcome completes (fun j => InLine src i j) (stringLoop src n j) := by
      exact (ih hj.le_length (by omega)).imp fun _ h => Scans.append hj h
    unfold stringLoop
    cases hb : src[i]? with
    | none => exact Scans.refl hi
    | some b =>
      dsimp only
      split
      · rename_i hbs
        have h1 : InLine src i (i + 1) := .single hb (by rw [hbs]; decide)
        have he : ∀ {c}, src[i + 1]? = some (byte c) → byte c ≠ byte '\n' →
            InLine src i (i + 2) := fun hc hne => h1.append (.single hc hne)
        have hh : ∀ {k} {c}, src[i + 1]? = some (byte c) → byte c ≠ byte '\n' →
          Outcome completes (fun j => InLine src i j)
              (skipHexDigits src k (i + 2) >>= fun ptr => stringLoop src n ptr) := by
          intro k c hc hne
          have h2 := he hc hne
          refine (skipHexDigits_outcome h2.le_length).bind fun j hj => ?_
          have hle := hj.le
          exact hs (h2.append (hj.mono fun _ h => h.2.2.2)) (by omega)
        split
        · rename_i h
          rcases h with h | h
          · exact hs (he h (by decide)) (by omega)
          · exact hs (he h (by decide)) (by omega)
        split
        · rename_i h
          exact hh h (by decide)
        split
        · rename_i h
          exact hh h (by decide)
        · simp
      split
      · exact Scans.refl hi
      split
      · simp
      · rename_i hne
        exact hs (.single hb hne) (by omega)

theorem getStringLiteral_outcome (hi : i ≤ src.length) :
    Outcome completes (fun r => i < r.2 ∧ InLine src i r.2 ∧ src[r.2 - 1]? = some (byte '"'))
    (getStringLiteral src i) := by
  unfold getStringLiteral
  refine (stringLoop_outcome hi (by omega)).bind fun j hj => ?_
  refine (expectByte_outcome '"').bind fun k hj => ?_
  obtain ⟨rfl,hq⟩ := hj
  have hle := hj.le
  exact ⟨by dsimp only; omega,hj.append (.single hq (by decide)),hq⟩

def AtLine (src : Bytes) (j : Nat) : Prop := AfterNewline src j ∨ src[j]? = some (byte '\n')

structure SliceSpec (src : Bytes) (i : Nat) (t : TextSlice) : Prop where
  le : i ≤ t.ptr
  le_length : t.ptr ≤ src.length
  free : Free src '\x7d' i t.ptr
  line : t.termination = .LineFeed ∨ t.termination = .Crlf → AtLine src t.ptr
  progress : i < t.ptr ∨ src[i]? = some (byte '\x7b')

theorem getTextSlice_outcome (hi : i < src.length) : Outcome completes (SliceSpec src i) (getTextSlice src i) := by
  unfold getTextSlice
  dsimp only
  split
  · rename_i h
    rw [findIdx?_eq_none_iff] at h
    refine ⟨by simp,by simp; omega,fun k h1 _ hk => ?_,by simp,.inl (by simp; omega)⟩
    have hm : byte '\x7d' ∈ src.drop i := by
      rw [mem_iff_getElem?]
      exact ⟨k - i,by rw [getElem?_drop,← hk]; congr 1; omega⟩
    have := h _ hm
    revert this
    decide
  · rename_i pos h
    rw [findIdx?_eq_some_iff_getElem] at h
    obtain ⟨hp,hat,hbe⟩ := h
    have hl : i + pos < src.length := by
      rw [length_drop] at hp
      omega
    have hf : Free src '\x7d' i (i + pos) := by
      intro k h1 h2 hk
      have hb := hbe (k - i) (by omega)
      rw [getElem_drop] at hb
      have hk' : src[i + (k - i)] = byte '\x7d' := by
        rw [getElem?_eq_some_iff] at hk
        obtain ⟨_,hk⟩ := hk
        rw [← hk]
        congr 1
        omega
      rw [hk'] at hb
      revert hb
      decide
    rw [getElem?_drop]
    split
    · simp
    rename_i hne
    split
    · rename_i hnl
      split
      · rename_i hcr
        exact ⟨by simp,by simp; omega,hf,fun _ => .inr hnl,.inl (by simp; omega)⟩
      · refine ⟨by simp only; omega,by simp only; omega,hf.append (.single hnl (by decide)),
          fun _ => .inl ⟨by simp,hnl⟩,.inl (by simp only; omega)⟩
    · rename_i hnl
      refine ⟨by simp,by simp; omega,hf,by simp,?_⟩
      by_cases h0 : pos = 0
      · right
        subst h0
        have hg := getElem?_eq_getElem hi
        rw [Nat.add_zero,hg,Option.some.injEq] at hne hnl
        rw [getElem_drop] at hat
        simp only [Nat.add_zero,Bool.or_eq_true,decide_eq_true_eq] at hat
        rw [hg]
        tauto
      · left
        simp
        omega

end Frontend.DiagTemplate
