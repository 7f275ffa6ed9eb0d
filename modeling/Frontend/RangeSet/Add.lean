import Frontend.RangeSet.Ranges

namespace Frontend.RangeSet

open List
open Option (bind_eq_some_iff map_eq_some_iff isSome_iff_exists)

variable {v v' lower upper rest rest' : Ranges Size} {offset size stop' : Size} {other : Size × Size}
  {start last x : Nat}

structure Split (v : Ranges Size) (offset : Size) (lower upper : Ranges Size) : Prop where
  whole : v = lower ++ upper
  before : ∀ range ∈ lower, stop range < offset.val
  reaches : ∀ range ∈ upper.head?, offset.val ≤ stop range

def endsBefore (offset : Size) (other : Size × Size) : Option Bool :=
  (Offset.add other.1 other.2).map fun stop => decide (stop < offset)

theorem endsBefore_eq_some (h : endsBefore offset other = some before) : before = decide (stop other < offset.val) := by
  obtain ⟨e,he,rfl⟩ := map_eq_some_iff.mp h
  rw [stop,← add_eq_some.mp he]
  rfl

theorem partitionPoint_spec (h : partitionPoint (endsBefore offset) v = some (lower,upper)) :
    Split v offset lower upper := by
  induction v generalizing lower with
  | nil =>
    cases h
    exact ⟨rfl,by simp,by simp⟩
  | cons range rest ih =>
    obtain ⟨before,hb,h⟩ := bind_eq_some_iff.mp h
    have hlt := endsBefore_eq_some hb
    split at h
    case isTrue ht =>
      obtain ⟨⟨lower',upper'⟩,hs,h⟩ := bind_eq_some_iff.mp h
      cases h
      obtain ⟨rfl,hf,hr⟩ := ih hs
      exact ⟨rfl,forall_mem_cons.mpr ⟨by simpa [hlt] using ht,hf⟩,hr⟩
    case isFalse hn =>
      cases h
      exact ⟨rfl,by simp,by simpa [hlt] using hn⟩

structure Absorbed (start last : Nat) (rest : Ranges Size) (last' : Nat) (rest' : Ranges Size) : Prop where
  grows : last ≤ last'
  suffix : rest' <:+ rest
  canonical : Canonical rest'
  gap : ∀ next ∈ rest', last' < next.1.val
  points : ∀ x, start ≤ x → (x < last' ∨ Covers rest' x ↔ x < last ∨ Covers rest x)

theorem absorb_spec {first : Size} (start : Nat) (hr : Canonical rest) (h : absorb first rest = some (stop',rest')) :
    Absorbed start first.val rest stop'.val rest' := by
  induction rest generalizing first with
  | nil =>
    cases h
    exact ⟨le_rfl,suffix_rfl,canonical_nil,by simp,fun _ _ => Iff.rfl⟩
  | cons range rest ih =>
    obtain ⟨hs,hg,ht⟩ := canonical_cons.mp hr
    rw [absorb] at h
    split at h
    case isTrue hle =>
      obtain ⟨e,he,h⟩ := bind_eq_some_iff.mp h
      obtain ⟨hgr,hsu,hc,hg',hp⟩ := ih ht h
      rw [val_max,add_eq_some.mp he,← stop] at hgr hp
      refine ⟨(le_max_left _ _).trans hgr,hsu.trans (suffix_cons _ _),hc,hg',fun x hx => ?_⟩
      rw [hp x hx,covers_cons,lt_max_iff,or_assoc]
      -- a point behind the absorbed end lies behind the start of the next range as well
      refine or_congr_right' fun hst => or_congr_left ?_
      have hle' : range.1.val ≤ first.val := hle
      omega
    case isFalse hlt =>
      cases h
      have hlt' : stop'.val < range.1.val := not_le.mp hlt
      have hsr := start_lt_stop hs
      refine ⟨le_rfl,suffix_rfl,hr,forall_mem_cons.mpr ⟨hlt',fun next hn => ?_⟩,fun _ _ => Iff.rfl⟩
      exact (hlt'.trans hsr).trans (hg next hn)

structure Added (v : Ranges Size) (offset size : Size) (v' : Ranges Size) : Prop where
  canonical : Canonical v'
  points : ∀ x, Covers v' x ↔ Covers v x ∨ offset.val ≤ x ∧ x < offset.val + size.val

theorem Split.canonical (h : Split v offset lower upper) (hv : Canonical v) : Canonical lower ∧ Canonical upper ∧
      ∀ range ∈ lower, ∀ next ∈ upper, stop range < next.1.val :=
  canonical_append.mp (h.whole ▸ hv)

theorem Split.inserted (h : Split v offset lower upper) (hv : Canonical v) (hs : 0 < size.val)
    (hu : ∀ next ∈ upper, offset.val + size.val < next.1.val) :
    Added v offset size (lower ++ (offset,size) :: upper) := by
  obtain ⟨hl,hup,hc⟩ := h.canonical hv
  refine ⟨canonical_append.mpr ⟨hl,canonical_cons.mpr ⟨hs,hu,hup⟩,
    fun range hr => forall_mem_cons.mpr ⟨h.before range hr,hc range hr⟩⟩,fun x => ?_⟩
  rw [h.whole]
  simp only [covers_append,covers_cons,stop]
  tauto

theorem Split.merged {length : Size} (h : Split v offset lower (other :: rest)) (hv : Canonical v) (hs : 0 < size.val)
    (ht : other.1.val ≤ offset.val + size.val)
    (ha : Absorbed (min other.1.val offset.val) (max (stop other) (offset.val + size.val)) rest stop'.val rest')
    (hle : stop'.val = (min other.1 offset).val + length.val) :
    Added v offset size (lower ++ (min other.1 offset,length) :: rest') := by
  obtain ⟨hl,hu,hc⟩ := h.canonical hv
  obtain ⟨hp,hg,-⟩ := canonical_cons.mp hu
  have hri : offset.val ≤ stop other := h.reaches other rfl
  have hgr := ha.grows
  have hst : stop (min other.1 offset,length) = stop'.val := hle.symm
  rw [val_min] at hle
  have hso := start_lt_stop hp
  refine ⟨canonical_append.mpr ⟨hl,canonical_cons.mpr ⟨by dsimp only; omega,?_,ha.canonical⟩,fun range hr => ?_⟩,
    fun x => ?_⟩
  · rw [hst]
    exact ha.gap
  · have hb := h.before range hr
    have ho := hc range hr other (.head _)
    refine forall_mem_cons.mpr ⟨?_,fun next hn => ?_⟩
    · rw [val_min]
      exact lt_min ho hb
    · have hn' := ha.gap next hn
      omega
  · have hpo := ha.points x
    have hbe : x < min other.1.val offset.val → ¬ Covers rest x ∧ ¬ Covers rest' x := fun hx =>
      ⟨not_covers_of_before
        fun next hn => by have := hg next hn; omega,not_covers_of_before fun next hn => by have := ha.gap next hn; omega⟩
    rw [h.whole]
    simp only [covers_append,covers_cons,hst,val_min]
    by_cases hx : min other.1.val offset.val ≤ x
    · have hi := hpo hx
      by_cases hlo : Covers lower x
      · simp [hlo]
      · simp only [hlo,false_or,hx,true_and]
        rw [hi,or_right_comm]
        refine or_congr_left ?_
        omega
    · obtain ⟨hr,hr'⟩ := hbe (not_le.mp hx)
      have hx' : ¬ other.1.val ≤ x ∧ ¬ offset.val ≤ x := by omega
      simp [hr,hr',hx,hx'.1,hx'.2]

theorem addRange_spec (hv : Canonical v) (h : addRange v offset size = some v') : Added v offset size v' := by
  rw [addRange] at h
  split at h
  case isTrue hz =>
    cases h
    exact ⟨hv,fun x => by simp [hz]⟩
  case isFalse hz =>
    have hs : 0 < size.val := Fin.pos_iff_ne_zero.mpr hz
    obtain ⟨⟨lower,upper⟩,hp,h⟩ := bind_eq_some_iff.mp h
    have hsp := partitionPoint_spec hp
    cases upper with
    | nil =>
      cases h
      exact hsp.inserted hv hs (by simp)
    | cons other rest =>
      obtain ⟨hop,hg,hr⟩ := canonical_cons.mp (hsp.canonical hv).2.1
      obtain ⟨e,he,h⟩ := bind_eq_some_iff.mp h
      have he' := add_eq_some.mp he
      split at h
      case isTrue ht =>
        obtain ⟨e',he2,h⟩ := bind_eq_some_iff.mp h
        obtain ⟨⟨stop',rest'⟩,ha,h⟩ := bind_eq_some_iff.mp h
        obtain ⟨length,hl,h⟩ := bind_eq_some_iff.mp h
        cases h
        have hab := absorb_spec (min other.1.val offset.val) hr ha
        rw [val_max,add_eq_some.mp he2,← stop,he'] at hab
        exact hsp.merged hv hs (he' ▸ ht) hab (sub_eq_some.mp hl)
      case isFalse ht =>
        cases h
        have hlt : offset.val + size.val < other.1.val := he' ▸ not_le.mp ht
        refine hsp.inserted hv hs (forall_mem_cons.mpr ⟨hlt,fun next hn => ?_⟩)
        exact (hlt.trans (start_lt_stop hop)).trans (hg next hn)

-- The end of every range is itself a `Size`.
def Bounded (v : Ranges Size) : Prop := ∀ range ∈ v, stop range < 2 ^ 64

theorem partitionPoint_returns (offset : Size) (hv : Bounded v) :
    ∃ split, partitionPoint (endsBefore offset) v = some split := by
  induction v with
  | nil => exact ⟨_,rfl⟩
  | cons range rest ih =>
    obtain ⟨hr,hv⟩ := forall_mem_cons.mp hv
    obtain ⟨split,hs⟩ := ih hv
    obtain ⟨e,he⟩ := isSome_iff_exists.mp (add_isSome.mpr hr)
    rw [partitionPoint,endsBefore,he,hs]
    by_cases hlt : e < offset <;> simp [hlt]

theorem absorb_returns (first : Size) (hf : Bounded rest) : ∃ absorbed, absorb first rest = some absorbed := by
  induction rest generalizing first with
  | nil => exact ⟨_,rfl⟩
  | cons range rest ih =>
    obtain ⟨hr,hf⟩ := forall_mem_cons.mp hf
    obtain ⟨e,he⟩ := isSome_iff_exists.mp (add_isSome.mpr hr)
    rw [absorb]
    split
    · rw [he]
      exact ih _ hf
    · exact ⟨_,rfl⟩

theorem addRange_returns (hv : Canonical v) (hf : Bounded v) (hs : offset.val + size.val < 2 ^ 64) :
    ∃ v', addRange v offset size = some v' ∧ Bounded v' := by
  obtain ⟨⟨lower,upper⟩,hp⟩ := partitionPoint_returns offset hf
  have hsp := partitionPoint_spec hp
  obtain ⟨hfl,hfu⟩ := forall_mem_append.mp (hsp.whole ▸ hf)
  rw [addRange]
  split
  · exact ⟨v,rfl,hf⟩
  change ∃ v', (partitionPoint (endsBefore offset) v >>= _) = some v' ∧ _
  rw [hp]
  cases upper with
  | nil => exact ⟨_,rfl,forall_mem_append.mpr ⟨hfl,by simpa [stop] using hs⟩⟩
  | cons other rest =>
    obtain ⟨hfo,hfr⟩ := forall_mem_cons.mp hfu
    obtain ⟨hop,hg,hr⟩ := canonical_cons.mp (hsp.canonical hv).2.1
    obtain ⟨e,he⟩ := isSome_iff_exists.mp (add_isSome.mpr hs)
    obtain ⟨e',he'⟩ := isSome_iff_exists.mp (add_isSome.mpr hfo)
    obtain ⟨⟨stop',rest'⟩,ha⟩ := absorb_returns (max e' e) hfr
    have hab := absorb_spec 0 hr ha
    have hle : (min other.1 offset).val ≤ stop'.val := by
      have hgr := hab.grows
      have hst := start_lt_stop hop
      rw [val_max,add_eq_some.mp he',← stop] at hgr
      rw [val_min]
      omega
    have hsub : Offset.sub stop' (min other.1 offset) = some (stop' - min other.1 offset) := if_pos hle
    simp only [he,he',ha,hsub,Option.bind_eq_bind,Option.bind_some]
    split
    · refine ⟨_,rfl,forall_mem_append.mpr ⟨hfl,forall_mem_cons.mpr ⟨?_,fun r hr => hfr r (hab.suffix.subset hr)⟩⟩⟩
      rw [stop,← sub_eq_some.mp hsub]
      exact stop'.isLt
    · exact ⟨_,rfl,forall_mem_append.mpr ⟨hfl,forall_mem_cons.mpr ⟨hs,hfu⟩⟩⟩

def addRanges (v added : Ranges Size) : Option (Ranges Size) :=
  added.foldlM (fun v range => addRange v range.1 range.2) v

theorem addRanges_spec (hv : Canonical v) (added : Ranges Size) (h : addRanges v added = some v') : Canonical v' ∧
    ∀ x, Covers v' x ↔ Covers v x ∨ Covers added x := by
  induction added generalizing v with
  | nil =>
    cases h
    exact ⟨hv,by simp⟩
  | cons range added ih =>
    rw [addRanges,foldlM_cons] at h
    obtain ⟨w,hw,h⟩ := bind_eq_some_iff.mp h
    have ha := addRange_spec hv hw
    obtain ⟨hc,hp⟩ := ih ha.canonical h
    refine ⟨hc,fun x => (hp x).trans ?_⟩
    rw [ha.points,covers_cons,or_assoc,stop]

theorem addRanges_returns (hv : Canonical v) (hf : Bounded v) (added : Ranges Size) (ha : Bounded added) :
    (addRanges v added).isSome := by
  induction added generalizing v with
  | nil => rfl
  | cons range added ih =>
    obtain ⟨hr,ha⟩ := forall_mem_cons.mp ha
    obtain ⟨w,hw,hf⟩ := addRange_returns hv hf hr
    rw [addRanges,foldlM_cons,hw]
    exact ih (addRange_spec hv hw).canonical hf ha

theorem addRanges_canonical_union (added : Ranges Size) :
    (Bounded added → (addRanges [] added).isSome) ∧
      ∀ v, addRanges [] added = some v → Canonical v ∧ ∀ x, Covers v x ↔ Covers added x := by
  refine ⟨addRanges_returns canonical_nil (by simp [Bounded]) added,fun v h => ?_⟩
  simpa using addRanges_spec canonical_nil added h

def bridging : Ranges Size := [(4,2),(0,1),(1,3)]

theorem addRanges_bridging : Bounded bridging ∧ (addRanges [] bridging).isSome ∧
    addRanges [] bridging = some [(0,6)] ∧ Canonical [(0,6)] := by
  have hb : Bounded bridging := by simp [Bounded,bridging,stop]
  have hr : addRanges [] bridging = some [(0,6)] := by decide
  exact ⟨hb,(addRanges_canonical_union bridging).1 hb,hr,((addRanges_canonical_union bridging).2 _ hr).1⟩

theorem addRanges_past_end : addRanges [] [(Fin.last (2 ^ 64 - 1),1),((0 : Size),1)] = none := by decide

end Frontend.RangeSet
