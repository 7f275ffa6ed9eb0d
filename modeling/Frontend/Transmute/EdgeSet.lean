import Frontend.Transmute.Dfa

namespace Frontend.Transmute

open List

variable {S : Type} {lo lo' v : Nat} {runs xs ys : EdgeSet S} {range : Byte} {dst : S}

namespace EdgeSet

def find (runs : EdgeSet S) (v : Nat) : Option S := (List.find? (fun run => decide (run.1.Mem v)) runs).map Prod.snd

def Runs (lo : Nat) : EdgeSet S → Prop
  | [] => True
  | (range,_) :: runs => lo ≤ range.start ∧ range.start < range.end ∧ range.end ≤ Byte.uninitValue + 1 ∧
      Runs range.end runs

theorem find_cons : find ((range,dst) :: runs) v = if range.Mem v then some dst else find runs v := by
  by_cases h : range.Mem v <;> simp [find,h]

@[simp] theorem find_nil : find ([] : EdgeSet S) v = none := rfl

theorem Runs.weaken (h : Runs lo' runs) (hle : lo ≤ lo') : Runs lo runs := by
  cases runs with
  | nil => trivial
  | cons run runs => exact ⟨hle.trans h.1,h.2⟩

theorem Runs.find_lt (h : Runs lo runs) (hv : v < lo) : find runs v = none := by
  induction runs generalizing lo with
  | nil => rfl
  | cons run runs ih =>
    obtain ⟨range,dst⟩ := run
    obtain ⟨hs,hlt,-,hr⟩ := h
    rw [find_cons,if_neg fun hm => by have := hm.1; omega]
    exact ih hr (by omega)

theorem Runs.find_head (h : Runs lo ((range,dst) :: runs)) (hv : v < range.end) :
    find ((range,dst) :: runs) v = if range.start ≤ v then some dst else none := by
  rw [find_cons]
  by_cases hle : range.start ≤ v
  · rw [if_pos ⟨hle,hv⟩,if_pos hle]
  · rw [if_neg fun hm => hle hm.1,if_neg hle]
    exact h.2.2.2.find_lt (by omega)

theorem find_tail (hv : range.end ≤ v) : find ((range,dst) :: runs) v = find runs v := by
  rw [find_cons,if_neg fun hm => by have := hm.2; omega]

theorem find_mapStates (f : S → S') : find (mapStates f runs) v = (find runs v).map f := by
  induction runs with
  | nil => rfl
  | cons run runs ih =>
    obtain ⟨range,dst⟩ := run
    change find ((range,f dst) :: mapStates f runs) v = _
    rw [find_cons,find_cons,ih]
    split <;> rfl

theorem Runs.mapStates (f : S → S') (h : Runs lo runs) : Runs lo (mapStates f runs) := by
  induction runs generalizing lo with
  | nil => trivial
  | cons run runs ih => exact ⟨h.1,h.2.1,h.2.2.1,ih h.2.2.2⟩

theorem Runs.new (h : range.Valid) : Runs 0 (new range dst) := by
  rw [EdgeSet.new,if_neg]
  · exact ⟨Nat.zero_le _,h.1,h.2,trivial⟩
  · have := h.1
    simp only [Byte.isEmpty,beq_iff_eq]
    omega

theorem find_new (h : range.Valid) : find (new range dst) v = if range.Mem v then some dst else none := by
  have hne : ¬ range.isEmpty = true := by
    have := h.1
    simp only [Byte.isEmpty,beq_iff_eq]
    omega
  rw [EdgeSet.new,if_neg hne,find_cons,find_nil]

theorem getUninitEdgeDst_eq (h : Runs lo runs) : runs.getUninitEdgeDst = find runs Byte.uninitValue := by
  induction runs generalizing lo with
  | nil => rfl
  | cons run runs ih =>
    obtain ⟨range,dst⟩ := run
    obtain ⟨-,hlt,he,hr⟩ := h
    cases runs with
    | nil =>
      rw [find_cons,find_nil]
      by_cases hm : range.start ≤ Byte.uninitValue ∧ Byte.uninitValue < range.end <;>
        simp [getUninitEdgeDst,Byte.containsUninit,Byte.Mem,hm]
    | cons next runs =>
      have hn := hr.2.1.trans_le hr.2.2.1
      rw [find_tail (by have := hr.1; omega),← ih hr]
      simp [getUninitEdgeDst]

section

variable [DecidableEq S]

theorem push_spec (dst : S) (hru : Runs lo runs) (hra : lo ≤ range.start) (hlt : range.start < range.end)
    (he : range.end ≤ Byte.uninitValue + 1) (hl : ∀ run ∈ runs, run.1.end ≤ range.start) :
    Runs lo (push runs range dst) ∧ (∀ run ∈ push runs range dst, run.1.end ≤ range.end) ∧
      ∀ v, find (push runs range dst) v = if range.Mem v then some dst else find runs v := by
  induction runs generalizing lo with
  | nil => exact ⟨⟨hra,hlt,he,trivial⟩,by simp [push],fun v => find_cons⟩
  | cons run runs ih =>
    obtain ⟨first,firstDst⟩ := run
    obtain ⟨hs,hf,hfi,hre⟩ := hru
    have hb : first.end ≤ range.start := hl _ (.head _)
    cases runs with
    | nil =>
      simp only [push]
      split
      case isTrue hm =>
        obtain ⟨he',rfl⟩ := hm
        refine ⟨⟨hs,by simp only; omega,he,trivial⟩,by simp,fun v => ?_⟩
        simp only [find_cons,find_nil,Byte.Mem]
        grind
      case isFalse =>
        refine ⟨⟨hs,hf,hfi,hb,hlt,he,trivial⟩,?_,fun v => ?_⟩
        · simp only [mem_cons,not_mem_nil,or_false,forall_eq_or_imp,forall_eq]
          omega
        · simp only [find_cons,find_nil,Byte.Mem]
          grind
    | cons next runs =>
      obtain ⟨hso,hen,hfn⟩ := ih hre (by have := hre.1; omega) fun r hr => hl r (.tail _ hr)
      simp only [push]
      refine ⟨⟨hs,hf,hfi,hso⟩,?_,fun v => ?_⟩
      · refine forall_mem_cons.mpr ⟨?_,hen⟩
        change first.end ≤ range.end
        omega
      · have ho : find ((first,firstDst) :: next :: runs) v = _ := find_cons
        rw [find_cons,hfn,ho]
        simp only [Byte.Mem]
        grind

end

def both {A : Type} : Option A → Option A → Option (Option A × Option A)
  | none, none => none
  | x, y => some (x,y)

structure Taken (lo : Nat) (xs ys : EdgeSet S) (range : Byte) (dst : Option S × Option S) (xs' ys' : EdgeSet S) :
    Prop where
  start : lo ≤ range.start
  lt : range.start < range.end
  bound : range.end ≤ Byte.uninitValue + 1
  left : Runs range.end xs'
  right : Runs range.end ys'
  before : ∀ v < range.start, find xs v = none ∧ find ys v = none
  here : ∀ v, range.Mem v → find xs v = dst.1 ∧ find ys v = dst.2
  after : ∀ v, range.end ≤ v → find xs' v = find xs v ∧ find ys' v = find ys v
  some : dst ≠ (none,none)
  width : width xs' + width ys' < width xs + width ys

theorem unionNext_left (h : Runs lo (x :: xs)) :
    ∃ range dst xs' ys', unionNext (x :: xs) [] = some ((range,dst),xs',ys') ∧
    Taken lo (x :: xs) [] range dst xs' ys' := by
  obtain ⟨range,s⟩ := x
  obtain ⟨hs,hlt,he,hr⟩ := h
  refine ⟨_,_,_,_,rfl,hs,hlt,he,hr,trivial,fun v hv => ?_,fun v hv => ?_,fun v hv => ?_,by simp,?_⟩
  · exact ⟨(show Runs range.start ((range,s) :: xs) from ⟨le_rfl,hlt,he,hr⟩).find_lt hv,rfl⟩
  · exact ⟨by rw [find_cons,if_pos hv],rfl⟩
  · exact ⟨(find_tail hv).symm,rfl⟩
  · simp only [Transmute.width,map_cons,sum_cons]
    omega

theorem unionNext_right (h : Runs lo (y :: ys)) :
    ∃ range dst xs' ys', unionNext [] (y :: ys) = some ((range,dst),xs',ys') ∧
    Taken lo [] (y :: ys) range dst xs' ys' := by
  obtain ⟨range,s⟩ := y
  obtain ⟨hs,hlt,he,hr⟩ := h
  refine ⟨_,_,_,_,rfl,hs,hlt,he,trivial,hr,fun v hv => ?_,fun v hv => ?_,fun v hv => ?_,by simp,?_⟩
  · exact ⟨rfl,(show Runs range.start ((range,s) :: ys) from ⟨le_rfl,hlt,he,hr⟩).find_lt hv⟩
  · exact ⟨rfl,by rw [find_cons,if_pos hv]⟩
  · exact ⟨rfl,(find_tail hv).symm⟩
  · simp only [Transmute.width,map_cons,sum_cons]
    omega

def rest (cut : Nat) (x : Byte × S) (xs : EdgeSet S) : EdgeSet S :=
  if (Byte.mk cut x.1.end).isEmpty then xs else (⟨cut,x.1.end⟩,x.2) :: xs

theorem rest_spec (cut : Nat) (h : Runs lo (x :: xs)) (hs : x.1.start ≤ cut)
    (he : cut ≤ x.1.end) : Runs cut (rest cut x xs) ∧ (∀ v, cut ≤ v → find (rest cut x xs) v = find (x :: xs) v) ∧
      width (rest cut x xs) + (cut - x.1.start) = width (x :: xs) := by
  obtain ⟨range,s⟩ := x
  obtain ⟨-,hlt,hb,hr⟩ := h
  simp only [rest] at hs he ⊢
  split
  case isTrue hem =>
    obtain rfl : cut = range.end := by simpa [Byte.isEmpty] using hem
    refine ⟨hr,fun v hv => (find_tail hv).symm,?_⟩
    simp only [Transmute.width,map_cons,sum_cons]
    omega
  case isFalse hne =>
    have hc : cut < range.end := by
      have : cut ≠ range.end := by simpa [Byte.isEmpty] using hne
      omega
    refine ⟨⟨le_rfl,hc,hb,hr⟩,fun v hv => ?_,?_⟩
    · simp only [find_cons,Byte.Mem]
      grind
    · simp only [Transmute.width,map_cons,sum_cons]
      omega

theorem keep (h : Runs lo (x :: xs)) : (if x.1.isEmpty then xs else x :: xs) = x :: xs := by
  rw [if_neg]
  have := h.2.1
  simp only [Byte.isEmpty,beq_iff_eq]
  omega

theorem unionNext_both (hx : Runs lo (x :: xs)) (hy : Runs lo (y :: ys)) :
    ∃ range dst xs' ys', unionNext (x :: xs) (y :: ys) = some ((range,dst),xs',ys') ∧
    Taken lo (x :: xs) (y :: ys) range dst xs' ys' := by
  have hxt := hx.2.1
  have hyt := hy.2.1
  have hxe := hx.2.2.1
  have hye := hy.2.2.1
  have hxl := hx.1
  have hyl := hy.1
  have hxr : Runs x.1.start (x :: xs) := ⟨le_rfl,hx.2⟩
  have hyr : Runs y.1.start (y :: ys) := ⟨le_rfl,hy.2⟩
  rcases lt_trichotomy x.1.start y.1.start with hlt | heq | hgt
  · -- The part of the first run before the other starts.
    obtain ⟨hr,hf,hw⟩ := rest_spec (min x.1.end y.1.start) hx (by omega) (by omega)
    refine ⟨⟨x.1.start,min x.1.end y.1.start⟩,(some x.2,none),_,y :: ys,?_,hxl,by simp only; omega,
      by simp only; omega,hr,hyr.weaken (by simp only; omega),fun v hv => ?_,fun v hv => ?_,
      fun v hv => ⟨hf v hv,rfl⟩,by simp,?_⟩
    · have hne : x.1.start ≠ y.1.start := by omega
      simp only [unionNext,Nat.compare_eq_lt.mpr hlt,if_true,if_neg hne]
      rw [keep hy]
      rfl
    · exact ⟨hxr.find_lt hv,hyr.find_lt (by simp only at hv; omega)⟩
    · have hv2 := hv.2
      have hv1 := hv.1
      simp only at hv1 hv2
      refine ⟨?_,hyr.find_lt (by omega)⟩
      exact (hx.find_head (by omega)).trans (if_pos hv1)
    · omega
  · obtain ⟨hr,hf,hw⟩ := rest_spec (min x.1.end y.1.end) hx (by omega) (by omega)
    obtain ⟨hr',hf',hw'⟩ := rest_spec (min x.1.end y.1.end) hy (by omega) (by omega)
    refine ⟨⟨x.1.start,min x.1.end y.1.end⟩,(some x.2,some y.2),_,_,?_,hxl,by simp only; omega,
      by simp only; omega,hr,hr',fun v hv => ?_,fun v hv => ?_,
      fun v hv => ⟨hf v hv,hf' v hv⟩,by simp,?_⟩
    · simp only [unionNext,Nat.compare_eq_eq.mpr heq,if_true,if_pos heq]
      rfl
    · exact ⟨hxr.find_lt hv,hyr.find_lt (by simp only at hv; omega)⟩
    · have hv2 := hv.2
      have hv1 := hv.1
      simp only at hv1 hv2
      exact ⟨(hx.find_head (by omega)).trans (if_pos hv1),(hy.find_head (by omega)).trans (if_pos (by omega))⟩
    · omega
  · obtain ⟨hr,hf,hw⟩ := rest_spec (min x.1.start y.1.end) hy (by omega) (by omega)
    refine ⟨⟨y.1.start,min x.1.start y.1.end⟩,(none,some y.2),x :: xs,_,?_,hyl,by simp only; omega,
      by simp only; omega,hxr.weaken (by simp only; omega),hr,fun v hv => ?_,fun v hv => ?_,
      fun v hv => ⟨rfl,hf v hv⟩,by simp,?_⟩
    · have hne : y.1.start ≠ x.1.start := by omega
      simp only [unionNext,Nat.compare_eq_gt.mpr hgt,if_true,if_neg hne]
      rw [keep hx]
      rfl
    · exact ⟨hxr.find_lt (by simp only at hv; omega),hyr.find_lt hv⟩
    · have hv2 := hv.2
      have hv1 := hv.1
      simp only at hv1 hv2
      refine ⟨hxr.find_lt (by omega),?_⟩
      exact (hy.find_head (by omega)).trans (if_pos hv1)
    · omega

theorem unionNext_spec (hx : Runs lo xs) (hy : Runs lo ys) : (xs = [] ∧ ys = [] ∧ unionNext xs ys = none) ∨
      ∃ range dst xs' ys', unionNext xs ys = some ((range,dst),xs',ys') ∧ Taken lo xs ys range dst xs' ys' := by
  cases xs with
  | nil =>
    cases ys with
    | nil => exact .inl ⟨rfl,rfl,rfl⟩
    | cons y ys => exact .inr (unionNext_right hy)
  | cons x xs =>
    cases ys with
    | nil => exact .inr (unionNext_left hx)
    | cons y ys => exact .inr (unionNext_both hx hy)

theorem unionIter_spec (fuel : Nat) (hx : Runs lo xs) (hy : Runs lo ys) (hfu : width xs + width ys ≤ fuel) :
    Runs lo (unionIter fuel xs ys) ∧ (∀ item ∈ unionIter fuel xs ys, item.2 ≠ (none,none)) ∧
      ∀ v, find (unionIter fuel xs ys) v = both (find xs v) (find ys v) := by
  induction fuel generalizing lo xs ys with
  | zero =>
    rcases unionNext_spec hx hy with ⟨rfl,rfl,-⟩ | ⟨range,dst,xs',ys',-,h⟩
    · exact ⟨trivial,by simp [unionIter],fun v => rfl⟩
    · have := h.width
      omega
  | succ fuel ih =>
    rcases unionNext_spec hx hy with ⟨rfl,rfl,hn⟩ | ⟨range,dst,xs',ys',hs,h⟩
    · simp only [unionIter,hn]
      exact ⟨trivial,by simp,fun v => rfl⟩
    obtain ⟨hr,hie,hf⟩ := ih h.left h.right (by have := h.width; omega)
    simp only [unionIter,hs]
    refine ⟨⟨h.start,h.lt,h.bound,hr⟩,?_,fun v => ?_⟩
    · rintro item (_ | ⟨_,hit⟩)
      · exact h.some
      · exact hie item hit
    · rw [find_cons,hf]
      split
      case isTrue hm =>
        obtain ⟨hxv,hyv⟩ := h.here v hm
        rw [hxv,hyv]
        have hs := h.some
        revert hs
        rcases dst with ⟨_ | a,_ | b⟩ <;> simp [both]
      case isFalse hm =>
        by_cases hv : v < range.start
        · rw [(h.before v hv).1,(h.before v hv).2,h.left.find_lt (by have := h.lt; omega),
            h.right.find_lt (by have := h.lt; omega)]
        · have ha := h.after v (by by_contra hlt; exact hm ⟨by omega,by omega⟩)
          rw [ha.1,ha.2]

theorem union_spec (hx : Runs lo xs) (hy : Runs lo ys) : Runs lo (union xs ys) ∧
    (∀ item ∈ union xs ys, item.2 ≠ (none,none)) ∧
      ∀ v, find (union xs ys) v = both (find xs v) (find ys v) :=
  unionIter_spec _ hx hy le_rfl

end EdgeSet

end Frontend.Transmute
