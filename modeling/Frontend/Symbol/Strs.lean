import Frontend.Symbol.Predefined

namespace Frontend.Symbol

open List

def symbolStrsFirstBits : Nat := 10
def symbolStrsBuckets : Nat := 32 - symbolStrsFirstBits + 1

def locate (index : Nat) : Nat × Nat :=
  let biased := index + 2 ^ symbolStrsFirstBits
  let log := Nat.log 2 biased
  (log - symbolStrsFirstBits,biased - 2 ^ log)

def bucketLen (bucket : Nat) : Nat := 2 ^ (bucket + symbolStrsFirstBits)

section

variable {index index' : Nat}

theorem firstBits_le_log (index : Nat) : symbolStrsFirstBits ≤ Nat.log 2 (index + 2 ^ symbolStrsFirstBits) := by
  exact Nat.le_log_of_pow_le (by omega) (by omega)

theorem locate_sum (index : Nat) : bucketLen (locate index).1 + (locate index).2 = index + 2 ^ symbolStrsFirstBits := by
  have hle := firstBits_le_log index
  have hp : 2 ^ Nat.log 2 (index + 2 ^ symbolStrsFirstBits) ≤ index + 2 ^ symbolStrsFirstBits :=
    Nat.pow_log_le_self 2 (by simp [symbolStrsFirstBits])
  simp only [locate,bucketLen,Nat.sub_add_cancel hle]
  omega

theorem locate_offset_lt (index : Nat) : (locate index).2 < bucketLen (locate index).1 := by
  have hle := firstBits_le_log index
  have hp := Nat.lt_pow_succ_log_self (by omega : 1 < 2) (index + 2 ^ symbolStrsFirstBits)
  have hpo := Nat.two_pow_pos (Nat.log 2 (index + 2 ^ symbolStrsFirstBits))
  rw [Nat.pow_succ] at hp
  simp only [locate,bucketLen,Nat.sub_add_cancel hle]
  omega

theorem locate_bucket_lt (h : index < 2 ^ 32) : (locate index).1 < symbolStrsBuckets := by
  have hl : Nat.log 2 (index + 2 ^ symbolStrsFirstBits) < 33 :=
    Nat.log_lt_of_lt_pow (by simp [symbolStrsFirstBits]) (by simp only [symbolStrsFirstBits]; omega)
  simp only [locate,symbolStrsBuckets,symbolStrsFirstBits] at hl ⊢
  omega

theorem locate_injective (h : locate index = locate index') : index = index' := by
  have h1 := locate_sum index
  have h2 := locate_sum index'
  rw [h] at h1
  omega

end

abbrev Buckets := List (Option (List (Option Bytes)))

section

variable (buckets : Buckets)

def readEntry (index : Nat) : Option Bytes := do
  let entries ← (buckets[(locate index).1]?).join
  (entries[(locate index).2]?).join

def bucketEntries (bucket : Nat) : List (Option Bytes) :=
  ((buckets[bucket]?).join).getD (List.replicate (bucketLen bucket) none)

def writeEntry (index : Nat) (bytes : Bytes) : Buckets :=
  buckets.set (locate index).1 (some ((bucketEntries buckets (locate index).1).set (locate index).2 (some bytes)))

end

structure SymbolStrs where
  len : Nat
  buckets : Buckets
  bucketCount : buckets.length = symbolStrsBuckets
  bucketSize : ∀ bucket, (bucketEntries buckets bucket).length = bucketLen bucket
  held : ∀ index < len, (readEntry buckets index).isSome

section

variable {buckets : Buckets} {index index' : Nat} {bytes : Bytes}

theorem bucketEntries_writeEntry (hb : (locate index).1 < buckets.length) (bucket : Nat) :
    bucketEntries (writeEntry buckets index bytes) bucket =
      if bucket = (locate index).1 then
        (bucketEntries buckets bucket).set (locate index).2 (some bytes)
      else bucketEntries buckets bucket := by
  rw [bucketEntries,writeEntry,getElem?_set]
  split
  · rename_i h
    subst h
    simp
  · rename_i h
    simp [Ne.symm h,bucketEntries]

theorem readEntry_eq (buckets : Buckets) (index : Nat) :
    readEntry buckets index = ((bucketEntries buckets (locate index).1)[(locate index).2]?).join := by
  simp only [readEntry,bucketEntries]
  cases (buckets[(locate index).1]?).join with
  | none => simp [locate_offset_lt]
  | some entries => rfl

theorem readEntry_writeEntry (hbu : (locate index).1 < buckets.length)
    (hsi : ∀ bucket, (bucketEntries buckets bucket).length = bucketLen bucket) :
    readEntry (writeEntry buckets index bytes) index' =
      if index' = index then some bytes else readEntry buckets index' := by
  rw [readEntry_eq,bucketEntries_writeEntry hbu]
  by_cases hs : index' = index
  · subst hs
    simp [hsi,locate_offset_lt]
  rw [if_neg hs,readEntry_eq]
  split
  · rename_i hb
    have hof : (locate index).2 ≠ (locate index').2 := fun ho => hs (locate_injective (Prod.ext hb ho.symm))
    rw [getElem?_set_ne hof]
  · rfl

end

namespace SymbolStrs

def new : SymbolStrs where
  len := 0
  buckets := List.replicate symbolStrsBuckets none
  bucketCount := length_replicate
  bucketSize bucket := by
    simp only [bucketEntries,getElem?_replicate]
    split <;> simp
  held _ h := absurd h (Nat.not_lt_zero _)

def push (s : SymbolStrs) (bytes : Bytes) : Option (Nat × SymbolStrs) :=
  if h : s.len < 2 ^ 32 then
    have hbuc := s.bucketCount ▸ locate_bucket_lt h
    some (s.len,
      { len := s.len + 1
        buckets := writeEntry s.buckets s.len bytes
        bucketCount := by simp [writeEntry,s.bucketCount]
        bucketSize := fun bucket => by
          rw [bucketEntries_writeEntry hbuc]
          split <;> simp [s.bucketSize]
        held := fun index hind => by
          rw [readEntry_writeEntry hbuc s.bucketSize]
          split
          · rfl
          · exact s.held index (by omega) })
  else none

def get (s : SymbolStrs) (index : Nat) : Option Bytes :=
  if index < s.len then readEntry s.buckets index else none

variable {s s' : SymbolStrs} {bytes : Bytes} {index : Nat}

theorem get_isSome : (s.get index).isSome ↔ index < s.len := by
  by_cases h : index < s.len
  · simp [get,h,s.held index h]
  · simp [get,h]

theorem lt_of_get (h : s.get index = some bytes) : index < s.len := get_isSome.mp (by simp [h])

theorem push_eq (h : s.len < 2 ^ 32) (bytes : Bytes) : ∃ s', s.push bytes = some (s.len,s') ∧ s'.len = s.len + 1 ∧
      ∀ index, s'.get index = if index = s.len then some bytes else s.get index := by
  have hb := s.bucketCount ▸ locate_bucket_lt h
  refine ⟨_,dif_pos h,rfl,fun index => ?_⟩
  simp only [get]
  rw [readEntry_writeEntry hb s.bucketSize]
  by_cases hs : index = s.len
  · simp [hs]
  · have : index < s.len + 1 ↔ index < s.len := by omega
    simp [hs,this]

theorem push_index (h : s.push bytes = some (index,s')) : index = s.len := by
  rw [push] at h
  split at h
  · simp only [Option.some.injEq,Prod.mk.injEq] at h
    exact h.1.symm
  · cases h

@[simp] theorem get_new (index : Nat) : new.get index = none := by simp [get,new]

end SymbolStrs

end Frontend.Symbol
