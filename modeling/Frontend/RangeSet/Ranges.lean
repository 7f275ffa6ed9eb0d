import Mathlib

namespace Frontend.RangeSet

open List

-- The operators of the element type; `none` is the panic of one that leaves its range.
class Offset (T : Type) where
  add : T → T → Option T
  sub : T → T → Option T

abbrev Size := Fin (2 ^ 64)

instance sizeOffset : Offset Size where
  add a b := if h : a.val + b.val < 2 ^ 64 then some ⟨a.val + b.val,h⟩ else none
  sub a b := if b ≤ a then some (a - b) else none

abbrev Ranges (T : Type) := List (T × T)

section

variable {T : Type} [LinearOrder T] [Zero T] [Offset T]

-- On a sorted list a binary search splits where the test first fails. Ends that only the binary
-- search probes lie behind that point and can add a panic, never another split.
def partitionPoint (test : T × T → Option Bool) : Ranges T → Option (Ranges T × Ranges T)
  | [] => some ([],[])
  | range :: rest => do
    if ← test range then
      let split ← partitionPoint test rest
      some (range :: split.1,split.2)
    else some ([],range :: rest)

def absorb (stop : T) : Ranges T → Option (T × Ranges T)
  | [] => some (stop,[])
  | next :: rest =>
    if next.1 ≤ stop then do
      let nextEnd ← Offset.add next.1 next.2
      absorb (max stop nextEnd) rest
    else some (stop,next :: rest)

def addRange (v : Ranges T) (offset size : T) : Option (Ranges T) :=
  if size = 0 then some v
  else do
    let split ← partitionPoint (fun other => (Offset.add other.1 other.2).map fun stop => decide (stop < offset)) v
    match split.2 with
    | [] => some (split.1 ++ [(offset,size)])
    | other :: rest => do
      let ownEnd ← Offset.add offset size
      if other.1 ≤ ownEnd then
        let otherEnd ← Offset.add other.1 other.2
        let absorbed ← absorb (max otherEnd ownEnd) rest
        let length ← Offset.sub absorbed.1 (min other.1 offset)
        some (split.1 ++ (min other.1 offset,length) :: absorbed.2)
      else some (split.1 ++ (offset,size) :: other :: rest)

def skip (cursor : T) : Ranges T → Option (Ranges T)
  | [] => some []
  | range :: rest => do
    let stop ← Offset.add range.1 range.2
    if stop ≤ cursor then skip cursor rest else some (range :: rest)

def carve (stop cursor : T) : Ranges T → Option (List (T × T) × T)
  | [] => some ([],cursor)
  | range :: rest =>
    if range.1 < stop then do
      let rangeEnd ← Offset.add range.1 range.2
      let carved ← carve stop (max cursor rangeEnd) rest
      some (if cursor < range.1 then (cursor,range.1) :: carved.1 else carved.1,carved.2)
    else some ([],cursor)

def difference : Ranges T → Ranges T → Option (List (T × T))
  | [], _ => some []
  | range :: a, b => do
    let stop ← Offset.add range.1 range.2
    let rest ← skip range.1 b
    let carved ← carve stop range.1 rest
    let out ← difference a rest
    some (carved.1 ++ (if carved.2 < stop then [(carved.2,stop)] else []) ++ out)

end

def stop (range : Size × Size) : Nat := range.1.val + range.2.val

def Covers (ranges : Ranges Size) (x : Nat) : Prop := ∃ range ∈ ranges, range.1.val ≤ x ∧ x < stop range

structure Canonical (ranges : Ranges Size) : Prop where
  pos : ∀ range ∈ ranges, 0 < range.2.val
  gaps : ranges.Pairwise fun range next => stop range < next.1.val

structure Sorted (ranges : Ranges Size) : Prop where
  pos : ∀ range ∈ ranges, 0 < range.2.val
  disjoint : ranges.Pairwise fun range next => stop range ≤ next.1.val

variable {a b rest : Ranges Size} {range : Size × Size} {c d e : Size} {x : Nat}

theorem add_eq_some : Offset.add c d = some e ↔ e.val = c.val + d.val := by
  simp only [Offset.add,Option.dite_none_right_eq_some,Option.some.injEq,Fin.ext_iff]
  have he := e.isLt
  constructor
  · rintro ⟨-,h⟩
    exact h.symm
  · intro h
    exact ⟨h ▸ he,h.symm⟩

theorem add_isSome : (Offset.add c d).isSome ↔ c.val + d.val < 2 ^ 64 := by simp [Offset.add]

theorem sub_eq_some : Offset.sub c d = some e ↔ c.val = d.val + e.val := by
  simp only [Offset.sub,Option.ite_none_right_eq_some,Option.some.injEq,Fin.ext_iff,Fin.le_def]
  constructor
  · rintro ⟨hle,h⟩
    rw [Fin.sub_val_of_le hle] at h
    omega
  · intro h
    have hle : d.val ≤ c.val := by omega
    refine ⟨hle,?_⟩
    rw [Fin.sub_val_of_le hle]
    omega

theorem val_max (c d : Size) : (max c d).val = max c.val d.val := Monotone.map_max Fin.val_strictMono.monotone

theorem val_min (c d : Size) : (min c d).val = min c.val d.val := Monotone.map_min Fin.val_strictMono.monotone

@[simp] theorem covers_nil : ¬ Covers [] x := by simp [Covers]

@[simp] theorem covers_cons : Covers (range :: rest) x ↔ (range.1.val ≤ x ∧ x < stop range) ∨ Covers rest x := by
  simp [Covers]

@[simp] theorem covers_append : Covers (a ++ b) x ↔ Covers a x ∨ Covers b x := by
  simp only [Covers,mem_append,or_and_right,exists_or]

theorem not_covers_of_before (hb : ∀ range ∈ b, x < range.1.val) : ¬ Covers b x := by
  rintro ⟨range,hr,hle,-⟩
  exact absurd (hb range hr) (not_lt.mpr hle)

theorem canonical_nil : Canonical [] := ⟨by simp,.nil⟩

theorem canonical_cons : Canonical (range :: rest) ↔ 0 < range.2.val ∧ (∀ next ∈ rest, stop range < next.1.val) ∧
    Canonical rest := by
  constructor
  · rintro ⟨hp,hg⟩
    obtain ⟨hf,hre⟩ := pairwise_cons.mp hg
    exact ⟨hp _ (by simp),hf,fun r hr => hp r (by simp [hr]),hre⟩
  · rintro ⟨hp,hf,hre⟩
    exact ⟨forall_mem_cons.mpr ⟨hp,hre.pos⟩,.cons hf hre.gaps⟩

theorem Canonical.sublist (h : Canonical b) (hs : a.Sublist b) : Canonical a :=
  ⟨fun range hr => h.pos range (hs.subset hr),h.gaps.sublist hs⟩

theorem canonical_append : Canonical (a ++ b) ↔ Canonical a ∧ Canonical b ∧ ∀ range ∈ a, ∀ next ∈ b,
    stop range < next.1.val := by
  constructor
  · intro h
    have hg := pairwise_append.mp h.gaps
    exact ⟨h.sublist (sublist_append_left _ _),h.sublist (sublist_append_right _ _),hg.2.2⟩
  · rintro ⟨ha,hb,hab⟩
    refine ⟨fun range hr => ?_,pairwise_append.mpr ⟨ha.gaps,hb.gaps,hab⟩⟩
    exact (mem_append.mp hr).elim (ha.pos range) (hb.pos range)

theorem start_lt_stop (h : 0 < range.2.val) : range.1.val < stop range := Nat.lt_add_of_pos_right h

end Frontend.RangeSet
