import Mathlib
import Frontend.Library.Pointwise

namespace Frontend.Interval

open Library List

inductive Bound where
  | included (index : Nat)
  | excluded (index : Nat)
  | unbounded
  deriving DecidableEq

structure RangeBounds where
  startBound : Bound
  endBound : Bound

-- The cast `as u32`, and a `u32` sum without overflow checks.
def u32 (n : Nat) : Nat := n % 2 ^ 32

def inclusiveStart (range : RangeBounds) : Nat :=
  match range.startBound with
  | .included start => u32 start
  | .excluded start => u32 (u32 start + 1)
  | .unbounded => 0

def inclusiveEnd (domain : Nat) (range : RangeBounds) : Option Nat :=
  match range.endBound with
  | .included last => some (u32 last)
  | .excluded last => if last = 0 then none else some (u32 (last - 1))
  | .unbounded => if domain = 0 then none else some (u32 (domain - 1))

def partitionPoint (p : Nat × Nat → Bool) (map : List (Nat × Nat)) : Nat := (map.takeWhile p).length

-- An index out of bounds panics.
def insertInclusive (map : List (Nat × Nat)) (start last : Nat) : Option (Bool × List (Nat × Nat)) :=
  match partitionPoint (fun r => r.1 ≤ u32 (last + 1)) map with
  | 0 => some (true,(start,last) :: map)
  | right + 1 => do
    let (prevStart,prevEnd) ← map[right]?
    if start ≤ u32 (prevEnd + 1) then
      if start < prevStart then
        let left := partitionPoint (fun l => u32 (l.2 + 1) < start) map
        let first ← map[left]?
        let map := map.set right (min first.1 start,max prevEnd last)
        return (true,map.take left ++ map.drop right)
      else if prevEnd < last then return (true,map.set right (prevStart,last))
      else return (false,map)
    else return (true,map.take (right + 1) ++ (start,last) :: map.drop (right + 1))

structure IntervalSet where
  map : List (Nat × Nat)
  domain : Nat
  deriving DecidableEq

namespace IntervalSet

def new (domain : Nat) : IntervalSet := ⟨[],domain⟩

def insertRange (s : IntervalSet) (range : RangeBounds) : Option (Bool × IntervalSet) :=
  match inclusiveEnd s.domain range with
  | none => some (false,s)
  | some last =>
    if last < inclusiveStart range then some (false,s)
    else (insertInclusive s.map (inclusiveStart range) last).map fun r => (r.1,{ s with map := r.2 })

def iterIntervals (s : IntervalSet) : List RangeBounds := s.map.map fun r => ⟨.included r.1,.excluded (r.2 + 1)⟩

def insertEach (s : IntervalSet) (didInsert : Bool) : List RangeBounds → Option (Bool × IntervalSet)
  | [] => some (didInsert,s)
  | range :: ranges => do
    let (grew,s) ← s.insertRange range
    s.insertEach (didInsert || grew) ranges

-- The call inside finds the longer map on its left and goes through its intervals at once.
def union (s other : IntervalSet) : Option (Bool × IntervalSet) :=
  if s.domain ≠ other.domain then none
  else if s.map.length < other.map.length then { s with map := other.map }.insertEach false s.iterIntervals
  else s.insertEach false other.iterIntervals

end IntervalSet

def Covers (map : List (Nat × Nat)) (x : Nat) : Prop := ∃ r ∈ map, r.1 ≤ x ∧ x ≤ r.2

@[mk_iff] structure Canonical (map : List (Nat × Nat)) : Prop where
  nonempty : ∀ r ∈ map, r.1 ≤ r.2
  gaps : map.Pairwise fun a b => a.2 + 1 < b.1

variable {A B M map rs : List (Nat × Nat)} {start last lo hi x : Nat} {a b s s' : IntervalSet}

theorem covers_append : Covers (A ++ B) x ↔ Covers A x ∨ Covers B x := by
  simp only [Covers,mem_append,or_and_right,exists_or]

theorem covers_cons : Covers ((lo,hi) :: B) x ↔ lo ≤ x ∧ x ≤ hi ∨ Covers B x := by simp [Covers]

theorem canonical_append : Canonical (A ++ B) ↔ Canonical A ∧ Canonical B ∧ ∀ a ∈ A, ∀ b ∈ B, a.2 + 1 < b.1 := by
  simp only [canonical_iff,forall_mem_append,pairwise_append]
  tauto

theorem canonical_cons : Canonical ((lo,hi) :: B) ↔ lo ≤ hi ∧ Canonical B ∧ ∀ b ∈ B, hi + 1 < b.1 := by
  simp only [canonical_iff,forall_mem_cons,pairwise_cons]
  tauto

theorem partitionPoint_append (hA : ∀ r ∈ A, p r = true) (hB : ∀ r ∈ B, p r = false) :
    partitionPoint p (A ++ B) = A.length := by
  have hn : B.takeWhile p = [] := by
    cases B with
    | nil => rfl
    | cons b B => rw [takeWhile_cons,hB b (.head _)]; rfl
  rw [partitionPoint,takeWhile_append_of_pos hA,hn,append_nil]

-- The intervals before the inserted one, those that touch it, and those after it.
structure Split (start last : Nat) (A M B : List (Nat × Nat)) : Prop where
  before : ∀ r ∈ A, r.2 + 1 < start
  touching : ∀ r ∈ M, start ≤ r.2 + 1 ∧ r.1 ≤ last + 1
  after : ∀ r ∈ B, last + 1 < r.1

theorem exists_split (h : Canonical map) (start last : Nat) : ∃ A M B, map = A ++ (M ++ B) ∧ Split start last A M B := by
  induction map with
  | nil => exact ⟨[],[],[],rfl,by simp,by simp,by simp⟩
  | cons r map ih =>
    obtain ⟨hl,hc,hg⟩ := canonical_cons.mp h
    obtain ⟨A,M,B,rfl,hs⟩ := ih hc
    by_cases hb : r.2 + 1 < start
    · exact ⟨r :: A,M,B,rfl,forall_mem_cons.mpr ⟨hb,hs.before⟩,hs.touching,hs.after⟩
    -- Every later interval starts after this one, so none of them ends before `start`.
    obtain rfl : A = [] := by
      refine eq_nil_iff_forall_not_mem.mpr fun a ha => ?_
      have h1 := hg a (mem_append_left _ ha)
      have h2 := hs.before a ha
      have h3 := hc.nonempty a (mem_append_left _ ha)
      omega
    by_cases ht : r.1 ≤ last + 1
    · exact ⟨[],r :: M,B,rfl,by simp,forall_mem_cons.mpr ⟨⟨by omega,ht⟩,hs.touching⟩,hs.after⟩
    · refine ⟨[],[],r :: (M ++ B),rfl,by simp,by simp,forall_mem_cons.mpr ⟨by omega,fun b hb => ?_⟩⟩
      have := hg b hb
      omega

structure Inserted (map : List (Nat × Nat)) (start last : Nat) (grew : Bool) (map' : List (Nat × Nat)) : Prop where
  canonical : Canonical map'
  covers : ∀ x, Covers map' x ↔ Covers map x ∨ start ≤ x ∧ x ≤ last
  grew : grew = true ↔ ∃ x, start ≤ x ∧ x ≤ last ∧ ¬ Covers map x

theorem Split.inserted (hs : Split start last A M B) (h : Canonical (A ++ (M ++ B))) (hle : start ≤ last)
    (hM : ∀ y, lo ≤ y ∧ y ≤ hi ↔ Covers M y ∨ start ≤ y ∧ y ≤ last) (hx : start ≤ x ∧ x ≤ last) (hn : ¬ Covers M x) :
    Inserted (A ++ (M ++ B)) start last true (A ++ (lo,hi) :: B) := by
  obtain ⟨hA,hMB,hg⟩ := canonical_append.mp h
  obtain ⟨-,hB,hMg⟩ := canonical_append.mp hMB
  have hlh := (hM start).mpr (.inr ⟨le_rfl,hle⟩)
  have hla r (hr : r ∈ A) : r.2 + 1 < lo := by
    rcases (hM lo).mp ⟨le_rfl,by omega⟩ with ⟨m,hm,hml,-⟩ | hl
    · exact (hg r hr m (mem_append_left _ hm)).trans_le hml
    · exact (hs.before r hr).trans_le hl.1
  have hhb r (hr : r ∈ B) : hi + 1 < r.1 := by
    rcases (hM hi).mp ⟨by omega,le_rfl⟩ with ⟨m,hm,-,hmh⟩ | hl
    · exact (Nat.succ_le_succ hmh).trans_lt (hMg m hm r hr)
    · exact (Nat.succ_le_succ hl.2).trans_lt (hs.after r hr)
  refine ⟨canonical_append.mpr ⟨hA,canonical_cons.mpr ⟨by omega,hB,hhb⟩,
    fun a ha => forall_mem_cons.mpr ⟨hla a ha,fun b hb => ?_⟩⟩,
    fun y => ?_,iff_of_true rfl ⟨x,hx.1,hx.2,?_⟩⟩
  · exact hg a ha b (mem_append_right _ hb)
  · rw [covers_append,covers_append,covers_append,covers_cons,hM]
    tauto
  · rw [covers_append,covers_append]
    rintro (⟨r,hr,h1,h2⟩ | hc | ⟨r,hr,h1,h2⟩)
    · have := hs.before r hr
      omega
    · exact hn hc
    · have := hs.after r hr
      omega

theorem insertInclusive_spec (h : Canonical map) (hb : ∀ r ∈ map, r.2 + 1 < 2 ^ 32) (hle : start ≤ last)
    (hl : last + 1 < 2 ^ 32) :
    ∃ grew map', insertInclusive map start last = some (grew,map') ∧ Inserted map start last grew map' := by
  obtain ⟨A,M,B,rfl,hs⟩ := exists_split h start last
  have hu r (hr : r ∈ A ++ (M ++ B)) : u32 (r.2 + 1) = r.2 + 1 := Nat.mod_eq_of_lt (hb r hr)
  have hne := h.nonempty
  have hnx : partitionPoint (fun r => r.1 ≤ u32 (last + 1)) (A ++ (M ++ B)) = (A ++ M).length := by
    rw [← append_assoc,u32,Nat.mod_eq_of_lt hl]
    refine partitionPoint_append (forall_mem_append.mpr ⟨fun r hr => ?_,fun r hr => ?_⟩) fun r hr => ?_
    · have := hs.before r hr
      have := hne r (mem_append_left _ hr)
      exact decide_eq_true (by omega)
    · exact decide_eq_true (hs.touching r hr).2
    · exact decide_eq_false (Nat.not_le.mpr (hs.after r hr))
  have hle' : partitionPoint (fun l => u32 (l.2 + 1) < start) (A ++ (M ++ B)) = A.length := by
    refine partitionPoint_append (fun r hr => ?_) fun r hr => ?_
    · rw [hu r (mem_append_left _ hr)]
      exact decide_eq_true (hs.before r hr)
    · rw [hu r (mem_append_right _ hr)]
      refine decide_eq_false ?_
      rcases mem_append.mp hr with hr | hr
      · exact Nat.not_lt.mpr (hs.touching r hr).1
      · have := hs.after r hr
        have := hne r (mem_append_right _ (mem_append_right _ hr))
        omega
  rw [insertInclusive,hnx,hle']
  rcases eq_nil_or_concat' M with rfl | ⟨M,m,rfl⟩
  · refine ⟨true,A ++ (start,last) :: B,?_,hs.inserted h hle (by simp [Covers]) ⟨le_rfl,hle⟩ (by simp [Covers])⟩
    rcases eq_nil_or_concat' A with rfl | ⟨A,a,rfl⟩
    · rfl
    · have := hs.before a (by simp)
      simp [hu a (by simp),Nat.not_le.mpr this,take_length_add_append]
  · obtain ⟨ht,hm⟩ := hs.touching m (by simp)
    obtain ⟨-,-,hMm⟩ := canonical_append.mp (canonical_append.mp (canonical_append.mp h).2.1).1
    have hML r (hr : r ∈ M) : r.2 + 1 < m.1 := hMm r hr m (by simp)
    have hg : (A ++ (M ++ [m] ++ B))[(A ++ M).length]? = some m := by simp
    rw [length_append,length_append,length_singleton,← Nat.add_assoc,← length_append]
    simp only [hg,hu m (by simp),ht,if_true,Option.bind_eq_bind,Option.bind_some]
    split
    · rename_i hlt
      obtain ⟨f,M',hf⟩ : ∃ f M', M ++ [m] = f :: M' := by cases M <;> simp
      have hfl : ∀ r ∈ M ++ [m], f.1 ≤ r.1 := by
        have hc := (canonical_append.mp (canonical_append.mp h).2.1).1
        rw [hf] at hc ⊢
        obtain ⟨hl,-,hg⟩ := canonical_cons.mp hc
        exact forall_mem_cons.mpr ⟨le_rfl,fun r hr => by have := hg r hr; omega⟩
      have hrl : ∀ r ∈ M ++ [m], r.2 ≤ m.2 :=
        forall_mem_append.mpr ⟨fun r hr => by have := hML r hr; have := hne m (by simp); omega,by simp⟩
      refine ⟨true,A ++ (min f.1 start,max m.2 last) :: B,?_,hs.inserted (x := m.1 - 1) h hle
        (fun y => ⟨fun hy => ?_,?_⟩) (by omega) ?_⟩
      · have hg : (A ++ (M ++ [m] ++ B))[A.length]? = some f := by simp [hf]
        rw [hg]
        simp
      · by_cases hys : y < start
        · have hfm := hf ▸ mem_cons_self
          exact .inl ⟨f,hfm,by omega,by have := hs.touching f hfm; omega⟩
        by_cases hyl : y ≤ last
        · exact .inr ⟨by omega,hyl⟩
        · exact .inl ⟨m,by simp,by omega,by omega⟩
      · rintro (⟨r,hr,h1,h2⟩ | hy)
        · have := hfl r hr
          have := hrl r hr
          omega
        · omega
      · rintro ⟨r,hr,h1,h2⟩
        rcases mem_append.mp hr with hr | hr
        · have := hML r hr
          omega
        · rw [mem_singleton.mp hr] at h1
          omega
    · rename_i hge
      obtain rfl : M = [] := by
        refine eq_nil_iff_forall_not_mem.mpr fun r hr => ?_
        have := hML r hr
        have := hs.touching r (mem_append_left _ hr)
        omega
      split
      · rename_i hlt
        refine ⟨true,A ++ (m.1,last) :: B,by simp,hs.inserted (x := last) h hle (fun y => ?_) (by omega) ?_⟩
        · simp [Covers]
          omega
        · simp [Covers]
          omega
      · rename_i hlt
        have hc x (hx : start ≤ x ∧ x ≤ last) : Covers (A ++ ([] ++ [m] ++ B)) x := ⟨m,by simp,by omega,by omega⟩
        exact ⟨false,_,rfl,h,fun x => (or_iff_left_of_imp (hc x)).symm,iff_of_false nofun fun ⟨x,h1,h2,hx⟩ =>
          hx (hc x ⟨h1,h2⟩)⟩

namespace IntervalSet

def Has (s : IntervalSet) (x : Nat) : Prop := Covers s.map x

def GrowsBy (a b : IntervalSet) : Prop := ∃ x, b.Has x ∧ ¬ a.Has x

-- What `check_invariants` tests.
structure Valid (s : IntervalSet) : Prop where
  canonical : Canonical s.map
  bound : ∀ x, s.Has x → x < u32 s.domain

theorem Valid.insertInclusive (h : s.Valid) (hle : start ≤ last) (hl : last < u32 s.domain) :
    ∃ grew map', insertInclusive s.map start last = some (grew,map') ∧ Inserted s.map start last grew map' ∧
      Valid { s with map := map' } := by
  have hd : u32 s.domain < 2 ^ 32 := Nat.mod_lt _ (by decide)
  obtain ⟨grew,map',hr,hi⟩ := insertInclusive_spec h.canonical (fun r hr => by
    have := h.bound r.2 ⟨r,hr,h.canonical.nonempty r hr,le_rfl⟩
    omega) hle (by omega)
  refine ⟨grew,map',hr,hi,hi.canonical,fun x hx => ?_⟩
  rcases (hi.covers x).mp hx with hx | hx
  · exact h.bound x hx
  · exact hx.2.trans_lt hl

theorem Valid.insertEach (h : s.Valid) (hr : Canonical rs) (hb : ∀ x, Covers rs x → x < u32 s.domain) (did : Bool) :
    ∃ did' s', s.insertEach did (iterIntervals ⟨rs,s.domain⟩) = some (did',s') ∧ s'.domain = s.domain ∧ s'.Valid ∧
      (∀ x, s'.Has x ↔ s.Has x ∨ Covers rs x) ∧ (did' = true ↔ did = true ∨ ∃ x, Covers rs x ∧ ¬ s.Has x) := by
  induction rs generalizing s did with
  | nil => exact ⟨did,s,rfl,rfl,h,by simp [Covers],by simp [Covers]⟩
  | cons r rs ih =>
    obtain ⟨hle,hr,hg⟩ := canonical_cons.mp hr
    have hd : u32 s.domain < 2 ^ 32 := Nat.mod_lt _ (by decide)
    have hl := hb r.2 ⟨r,.head _,hle,le_rfl⟩
    have hs : u32 r.1 = r.1 := Nat.mod_eq_of_lt (by omega)
    have he : u32 r.2 = r.2 := Nat.mod_eq_of_lt (by omega)
    obtain ⟨grew,map',hm,hi,hv⟩ := h.insertInclusive hle hl
    have hin : s.insertRange ⟨.included r.1,.excluded (r.2 + 1)⟩ = some (grew,{ s with map := map' }) := by
      simp [insertRange,inclusiveEnd,inclusiveStart,hs,he,hm,Nat.not_lt.mpr hle]
    obtain ⟨did',s',hs',hdo,hv',hc,hdi⟩ := ih hv hr (fun x ⟨r,hr,hx⟩ => hb x ⟨r,.tail _ hr,hx⟩) (did || grew)
    have hH : ∀ x, Has { s with map := map' } x ↔ s.Has x ∨ r.1 ≤ x ∧ x ≤ r.2 := hi.covers
    refine ⟨did',s',?_,hdo,hv',fun x => ?_,?_⟩
    · simp only [iterIntervals,map_cons,IntervalSet.insertEach,hin]
      exact hs'
    · rw [hc,hH,covers_cons,or_assoc]
    · rw [hdi,Bool.or_eq_true,hi.grew,or_assoc]
      refine or_congr_right ⟨?_,?_⟩
      · rintro (⟨x,h1,h2,hx⟩ | ⟨x,hx,hn⟩)
        · exact ⟨x,covers_cons.mpr (.inl ⟨h1,h2⟩),hx⟩
        · exact ⟨x,covers_cons.mpr (.inr hx),fun h => hn ((hH x).mpr (.inl h))⟩
      · rintro ⟨x,hx,hn⟩
        by_cases hin : r.1 ≤ x ∧ x ≤ r.2
        · exact .inl ⟨x,hin.1,hin.2,hn⟩
        · exact .inr ⟨x,(covers_cons.mp hx).resolve_left hin,fun h => ((hH x).mp h).elim hn hin⟩

theorem union_spec (ha : a.Valid) (hb : b.Valid) (hd : a.domain = b.domain) : ∃ grew s', a.union b = some (grew,s') ∧
    s'.domain = a.domain ∧
    s'.Valid ∧ (∀ x, s'.Has x ↔ a.Has x ∨ b.Has x) ∧
    (grew = true ↔ if a.map.length < b.map.length then b.GrowsBy a else a.GrowsBy b) := by
  rw [union,if_neg (not_not.mpr hd)]
  split
  · have hb' : Valid { a with map := b.map } := ⟨hb.canonical,hd ▸ hb.bound⟩
    obtain ⟨grew,s',hs,hdo,hv,hc,hg⟩ := hb'.insertEach ha.canonical ha.bound false
    exact ⟨grew,s',hs,hdo,hv,fun x => (hc x).trans or_comm,hg.trans (or_iff_right nofun)⟩
  · obtain ⟨grew,s',hs,hdo,hv,hc,hg⟩ := ha.insertEach hb.canonical (hd ▸ hb.bound) false
    exact ⟨grew,s',hs,hdo,hv,hc,hg.trans (or_iff_right nofun)⟩

end IntervalSet

structure SparseIntervalMatrix where
  rows : List IntervalSet
  columnSize : Nat

namespace SparseIntervalMatrix

section

variable (m : SparseIntervalMatrix)

-- A row that is not there yet is empty.
def row (i : Nat) : IntervalSet := m.rows[i]?.getD (.new m.columnSize)

end

def Valid (m : SparseIntervalMatrix) : Prop := ∀ s ∈ m.rows, s.Valid ∧ s.domain = m.columnSize

variable {m : SparseIntervalMatrix}

theorem Valid.row (h : m.Valid) (i : Nat) : (m.row i).Valid ∧ (m.row i).domain = m.columnSize := by
  unfold SparseIntervalMatrix.row
  cases hi : m.rows[i]? with
  | none => exact ⟨⟨⟨by simp [IntervalSet.new],by simp [IntervalSet.new]⟩,
      by simp [IntervalSet.new,IntervalSet.Has,Covers]⟩,rfl⟩
  | some s => exact h s (mem_of_getElem? hi)

end SparseIntervalMatrix

end Frontend.Interval
