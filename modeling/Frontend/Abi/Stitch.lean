import Frontend.Abi.Coroutine
import Frontend.Abi.StructSound
import Frontend.Library.Scatter

namespace Frontend.Abi

open Library List

namespace Coroutine

section

variable {mapping : List Nat} {n : Nat}

theorem invertBijectiveMapping_eq (mapping : List Nat) :
    invertBijectiveMapping mapping = scatter (replicate mapping.length 0) (indexed mapping 0) := by
  have hf : ∀ (writes : List (Nat × Nat)) (init : List Nat),
      writes.foldl (fun inverse p => inverse.set p.1 p.2) init = scatter init writes := by
    intro writes
    induction writes with
    | nil => intro init; rfl
    | cons w writes ih => intro init; exact ih _
  exact hf _ _

theorem invertBijectiveMapping_get (h : mapping.Perm (range n)) {i k : Nat} (hi : mapping[i]? = some k) :
    (invertBijectiveMapping mapping)[k]? = some i := by
  rw [invertBijectiveMapping_eq]
  refine scatter_written _ ?_ (mem_indexed.mpr hi) ?_
  · rw [map_fst_indexed]
    exact h.nodup_iff.mpr nodup_range
  · rw [length_replicate,h.length_eq,length_range]
    exact mem_range.mp (h.mem_iff.mp (mem_of_getElem? hi))

theorem invertBijectiveMapping_perm (h : mapping.Perm (range n)) : (invertBijectiveMapping mapping).Perm (range n) := by
  have hl : (invertBijectiveMapping mapping).length = n := by
    rw [invertBijectiveMapping_eq,scatter_length,length_replicate,h.length_eq,length_range]
  have hf {k i : Nat} (hk : (invertBijectiveMapping mapping)[k]? = some i) : mapping[i]? = some k := by
    have hkn : k < n := hl ▸ (List.getElem_of_getElem? hk).1
    obtain ⟨j,hj,hg⟩ := getElem_of_mem (h.mem_iff.mpr (mem_range.mpr hkn))
    have hj' := getElem?_eq_some_iff.mpr ⟨hj,hg⟩
    obtain rfl := Option.mem_unique (invertBijectiveMapping_get h hj') hk
    exact hj'
  refine (perm_ext_iff_of_nodup ?_ nodup_range).mpr fun i => ?_
  · rw [nodup_iff_pairwise_ne,pairwise_iff_getElem]
    intro p q hp hq hpq heq
    have h1 := hf (getElem?_eq_getElem hp)
    have h2 := hf (getElem?_eq_getElem hq)
    rw [← heq,h1] at h2
    have := Option.some.inj h2
    omega
  · rw [mem_range]
    constructor
    · intro hi
      obtain ⟨k,hk,hg⟩ := getElem_of_mem hi
      have := (List.getElem_of_getElem? (hf (List.getElem?_eq_some_iff.mpr ⟨hk,hg⟩))).1
      rwa [h.length_eq,length_range] at this
    · intro hi
      have hi' : i < mapping.length := by rwa [h.length_eq,length_range]
      exact mem_of_getElem? (invertBijectiveMapping_get h (getElem?_eq_getElem hi'))

theorem promoted_perm {order : List Nat} (h : order.Perm (range (bStart + m))) :
    (order.filterMap fun i => if bStart ≤ i then some (i - bStart) else none).Perm (range m) := by
  refine (h.filterMap _).trans ?_
  rw [range_add,filterMap_append,filterMap_map]
  have hl : (range bStart).filterMap (fun i => if bStart ≤ i then some (i - bStart) else none) = [] := by
    rw [filterMap_eq_nil_iff]
    intro i hi
    rw [mem_range] at hi
    rw [if_neg (by omega)]
  have hh : ((fun i => if bStart ≤ i then some (i - bStart) else none) ∘ fun x => bStart + x) = some := by
    funext i
    simp
  rw [hl,hh,filterMap_some,nil_append]

end

section

variable {dl : TargetDataLayout} {localLayouts : List LayoutData} {e : Eligibility} {split : Split}
  {fields locals : List Nat} {index i l : Nat}

def isAssigned (e : Eligibility) (l : Nat) : Bool :=
  match e.assignments l with
  | .assigned _ => true
  | _ => false

theorem isAssigned_iff : isAssigned e l = true ↔ ∃ v, e.assignments l = .assigned v := by
  unfold isAssigned
  split
  case h_1 v h => exact iff_of_true rfl ⟨v,h⟩
  case h_2 h => exact iff_of_false (by nofun) fun ⟨v,hv⟩ => h v hv

theorem variantOnly_eq (hli : ∀ l ∈ fields, e.assignments l ≠ .unassigned)
    (ho : ∀ l ∈ fields, ∀ v, e.assignments l = .assigned v → v = index) :
    variantOnly e index fields = .ok (fields.filter (isAssigned e)) := by
  induction fields with
  | nil => rfl
  | cons l fields ih =>
    rw [forall_mem_cons] at hli ho
    have ih := ih hli.2 ho.2
    cases hl : e.assignments l with
    | unassigned => exact absurd hl hli.1
    | assigned v =>
      obtain rfl := ho.1 v hl
      rw [filter_cons_of_pos (isAssigned_iff.mpr ⟨v,hl⟩)]
      simp only [variantOnly,hl,if_true,ih]
      rfl
    | ineligible f =>
      rw [filter_cons_of_neg (by rw [isAssigned_iff,hl]; nofun)]
      simp [variantOnly,hl,ih]

section

variable (hlt : ∀ l ∈ locals, l < localLayouts.length)

include hlt

theorem layoutsOf_get (i : Nat) : (layoutsOf localLayouts locals)[i]? = locals[i]?.bind (localLayouts[·]?) := by
  induction locals generalizing i with
  | nil => rfl
  | cons l locals ih =>
    rw [forall_mem_cons] at hlt
    have hc : layoutsOf localLayouts (l :: locals) = localLayouts[l] :: layoutsOf localLayouts locals := by
      rw [layoutsOf,filterMap_cons,getElem?_eq_getElem hlt.1]
      rfl
    rw [hc]
    cases i with
    | zero => simp [getElem?_eq_getElem hlt.1]
    | succ i => simpa using ih hlt.2 i

theorem layoutsOf_length : (layoutsOf localLayouts locals).length = locals.length := by
  induction locals with
  | nil => rfl
  | cons l locals ih =>
    rw [forall_mem_cons] at hlt
    rw [layoutsOf,filterMap_cons,getElem?_eq_getElem hlt.1]
    exact congrArg (· + 1) (ih hlt.2)

theorem layoutsOf_idxOf (hl : l ∈ locals) : (layoutsOf localLayouts locals)[locals.idxOf l]? = localLayouts[l]? := by
  rw [layoutsOf_get hlt,getElem?_eq_getElem (idxOf_lt_length_iff.mpr hl),getElem_idxOf]
  rfl

end

def placeOf (e : Eligibility) (split : Split) (offset : Nat → Nat) (l : Nat) : Nat :=
  match e.assignments l with
  | .ineligible (some f) => offsetAt split.promotedOffsets f
  | _ => offset l

def slotOf (e : Eligibility) (split : Split) (memoryIndex : Nat → Nat) (l : Nat) : Nat :=
  match e.assignments l with
  | .ineligible (some f) => split.promotedMemoryIndex.getD f 0
  | _ => split.promotedMemoryIndex.length + memoryIndex l

theorem stitch_eq (offset memoryIndex : Nat → Nat)
    (hfi : ∀ l ∈ fields, (∃ v, e.assignments l = .assigned v) ∨ ∃ f, e.assignments l = .ineligible (some f) ∧
      f < split.promotedOffsets.length ∧ f < split.promotedMemoryIndex.length) (combined : List Nat) :
    stitch e split i fields ((fields.filter (isAssigned e)).map fun l => (offset l,memoryIndex l)) combined =
      .ok (fields.map (placeOf e split offset),
      scatter combined (indexed (fields.map (slotOf e split memoryIndex)) i)) := by
  induction fields generalizing i combined with
  | nil => rfl
  | cons l fields ih =>
    rw [forall_mem_cons] at hfi
    rcases hfi.1 with ⟨v,hl⟩ | ⟨f,hl,hf,hf'⟩
    · rw [filter_cons_of_pos (isAssigned_iff.mpr ⟨v,hl⟩)]
      simp only [map_cons,stitch,hl,ih hfi.2,placeOf,slotOf]
      rfl
    · rw [filter_cons_of_neg (by rw [isAssigned_iff,hl]; nofun)]
      simp only [map_cons,stitch,hl,ih hfi.2,placeOf,slotOf,getElem?_eq_getElem hf,getElem?_eq_getElem hf']
      simp [offsetAt,Except.map,indexed,scatter,zipIdx_cons,hf,hf']

theorem zip_eq_map (hn : locals.Nodup) (ho : offsets.length = locals.length) (hm : memoryIndex.length = locals.length) :
    offsets.zip memoryIndex = locals.map fun l => (offsetAt offsets (locals.idxOf l),
    memoryIndex.getD (locals.idxOf l) 0) := by
  refine ext_getElem (by simp [ho,hm]) fun i hi hi' => ?_
  rw [length_map] at hi'
  rw [getElem_zip,getElem_map,hn.idxOf_getElem i hi']
  simp [offsetAt,ho,hm,hi']

end

end Coroutine

end Frontend.Abi
