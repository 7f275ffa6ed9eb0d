import Frontend.RangeSet.Ranges

namespace Frontend.RangeSet

open List
open Option (bind_eq_some_iff isSome_iff_exists)

variable {a b rest : Ranges Size} {range : Size × Size} {limit cursor last offset : Size}
  {out out' : List (Size × Size)} {x : Nat}

def Inside (piece : Size × Size) (x : Nat) : Prop := piece.1.val ≤ x ∧ x < piece.2.val

structure Carved (limit cursor : Size) (b : Ranges Size) (out : List (Size × Size)) (last : Size) : Prop where
  start : cursor ≤ last
  bounds : ∀ piece ∈ out, cursor ≤ piece.1 ∧ piece.1 < piece.2 ∧ piece.2 < last ∧ piece.2 ≤ limit
  gaps : out.Pairwise fun piece next => piece.2 < next.1
  points : ∀ x, cursor.val ≤ x → x < limit.val → (¬ Covers b x ↔ last.val ≤ x ∨ ∃ piece ∈ out, Inside piece x)

theorem Carved.none (hb : ∀ range ∈ b, limit ≤ range.1) : Carved limit cursor b [] cursor where
  start := le_rfl
  bounds := by simp
  gaps := .nil
  points := fun x hx hs => by
    simp only [hx,true_or,iff_true]
    exact not_covers_of_before fun range hr => hs.trans_le (hb range hr)

theorem Carved.cons {rangeEnd : Size} (hs : 0 < range.2.val) (hg : ∀ next ∈ rest, stop range < next.1.val)
    (hof : range.1 < limit)
    (he : rangeEnd.val = stop range) (h : Carved limit (max cursor rangeEnd) rest out last) :
    Carved limit cursor (range :: rest) (if cursor < range.1 then (cursor,range.1) :: out else out) last := by
  have hlt := start_lt_stop hs
  have hoe : range.1 < rangeEnd := Fin.lt_def.mpr (he ▸ hlt)
  have hla := (le_max_right _ _).trans h.start
  refine ⟨(le_max_left _ _).trans h.start,?_,?_,fun x hx hst => ?_⟩
  · have ho piece (hp : piece ∈ out) : cursor ≤ piece.1 ∧ piece.1 < piece.2 ∧ piece.2 < last ∧ piece.2 ≤ limit :=
      ⟨(le_max_left _ _).trans (h.bounds piece hp).1,(h.bounds piece hp).2⟩
    split
    case isTrue hc => exact forall_mem_cons.mpr ⟨⟨le_rfl,hc,hoe.trans_le hla,hof.le⟩,ho⟩
    case isFalse => exact ho
  · split
    · refine .cons (fun next hn => ?_) h.gaps
      exact hoe.trans_le ((le_max_right _ _).trans (h.bounds next hn).1)
    · exact h.gaps
  · have hf : (∃ piece ∈ (if cursor < range.1 then (cursor,range.1) :: out else out),
        Inside piece x) ↔ x < range.1.val ∨ ∃ piece ∈ out, Inside piece x := by
      split
      case isTrue => simp [Inside,hx]
      case isFalse hc =>
        have hc' : range.1.val ≤ cursor.val := not_lt.mp hc
        simp [not_lt.mpr (hc'.trans hx)]
    rw [hf,covers_cons]
    rcases lt_or_ge x range.1.val with hl | hl
    · have hr : ¬ Covers rest x := not_covers_of_before fun next hn => hl.trans (hlt.trans (hg next hn))
      simp [hl,hr,not_le.mpr hl]
    have hmax : ∀ y : Size, max cursor rangeEnd ≤ y → stop range ≤ y.val :=
      fun y hy => he ▸ (le_max_right cursor rangeEnd).trans hy
    rcases lt_or_ge x (stop range) with hh | hh
    · have hno : ¬ ∃ piece ∈ out, Inside piece x := by
        rintro ⟨piece,hp,hle,-⟩
        exact absurd (hh.trans_le (hmax _ (h.bounds piece hp).1)) (not_lt.mpr hle)
      simp [hl,hh,not_lt.mpr hl,hh.trans_le (hmax _ h.start),hno]
    · have hcx : (max cursor rangeEnd).val ≤ x := by
        rw [val_max,he]
        exact max_le hx hh
      simpa [not_lt.mpr hl,not_lt.mpr hh] using h.points x hcx hst

theorem carve_spec (hb : Canonical b) (h : carve limit cursor b = some (out,last)) : Carved limit cursor b out last := by
  induction b generalizing cursor out with
  | nil =>
    cases h
    exact .none (by simp)
  | cons range rest ih =>
    obtain ⟨hs,hg,hr⟩ := canonical_cons.mp hb
    rw [carve] at h
    split at h
    case isTrue ho =>
      obtain ⟨e,he,h⟩ := bind_eq_some_iff.mp h
      obtain ⟨⟨out',last'⟩,hc,h⟩ := bind_eq_some_iff.mp h
      cases h
      exact .cons hs hg ho (add_eq_some.mp he) (ih hr hc)
    case isFalse ho =>
      cases h
      refine .none (forall_mem_cons.mpr ⟨not_lt.mp ho,fun next hn => (not_lt.mp ho).trans ?_⟩)
      exact ((start_lt_stop hs).trans (hg next hn)).le

structure Skipped (cursor : Size) (b rest : Ranges Size) : Prop where
  suffix : rest <:+ b
  kept : ∀ range ∈ b, cursor.val < stop range → range ∈ rest

theorem skip_spec (h : skip cursor b = some rest) : Skipped cursor b rest := by
  induction b with
  | nil =>
    cases h
    exact ⟨suffix_rfl,by simp⟩
  | cons range b ih =>
    obtain ⟨e,he,h⟩ := bind_eq_some_iff.mp h
    split at h
    case isTrue hle =>
      have hle' : stop range ≤ cursor.val := (add_eq_some.mp he).ge.trans hle
      obtain ⟨hs,hk⟩ := ih h
      refine ⟨hs.trans (suffix_cons _ _),forall_mem_cons.mpr ⟨fun hlt => absurd hlt (not_lt.mpr hle'),hk⟩⟩
    case isFalse =>
      cases h
      exact ⟨suffix_rfl,fun _ hr _ => hr⟩

theorem Skipped.covers_iff (h : Skipped cursor b rest) (hx : cursor.val ≤ x) : Covers rest x ↔ Covers b x := by
  constructor
  · rintro ⟨range,hr,hin⟩
    exact ⟨range,h.suffix.subset hr,hin⟩
  · rintro ⟨range,hr,hin⟩
    exact ⟨range,h.kept range hr (hx.trans_lt hin.2),hin⟩

structure Left (a b : Ranges Size) (out : List (Size × Size)) : Prop where
  nonempty : ∀ piece ∈ out, piece.1 < piece.2
  within : ∀ piece ∈ out, ∃ range ∈ a, range.1 ≤ piece.1 ∧ piece.2.val ≤ stop range
  gaps : out.Pairwise fun piece next => piece.2 < next.1
  points : ∀ x, (∃ piece ∈ out, Inside piece x) ↔ Covers a x ∧ ¬ Covers b x

-- The piece that is left behind the last carved one.
theorem mem_tail : piece ∈ (if last < limit then [(last,limit)] else []) ↔ last < limit ∧ piece = (last,limit) := by
  rw [mem_ite_nil_right,mem_singleton]

theorem inside_tail (x : Nat) : (∃ piece ∈ (if last < limit then [(last,limit)] else []), Inside piece x) ↔
    last.val ≤ x ∧ x < limit.val := by
  simp only [mem_tail]
  constructor
  · rintro ⟨_,⟨-,rfl⟩,hin⟩
    exact hin
  · rintro ⟨hle,hlt⟩
    exact ⟨_,⟨hle.trans_lt hlt,rfl⟩,hle,hlt⟩

theorem Carved.left (hl : limit.val = stop range) (h : Carved limit range.1 b out last) : Left [range] b
      (out ++ if last < limit then [(last,limit)] else []) where
  nonempty := by
    intro piece hp
    rcases mem_append.mp hp with hp | hp
    · exact (h.bounds piece hp).2.1
    · obtain ⟨hlt,rfl⟩ := mem_tail.mp hp
      exact hlt
  within := by
    intro piece hp
    refine ⟨range,by simp,?_⟩
    rw [← hl]
    rcases mem_append.mp hp with hp | hp
    · exact ⟨(h.bounds piece hp).1,(h.bounds piece hp).2.2.2⟩
    · obtain ⟨-,rfl⟩ := mem_tail.mp hp
      exact ⟨h.start,le_rfl⟩
  gaps := by
    refine pairwise_append.mpr ⟨h.gaps,?_,fun piece hp next hn => ?_⟩
    · split <;> simp
    · obtain ⟨-,rfl⟩ := mem_tail.mp hn
      exact (h.bounds piece hp).2.2.1
  points := by
    intro x
    simp only [mem_append,or_and_right,exists_or,inside_tail,covers_cons,covers_nil,or_false,← hl]
    constructor
    · intro hx
      have hb : range.1.val ≤ x ∧ x < limit.val := by
        rcases hx with ⟨piece,hp,hle,hlt⟩ | ⟨hle,hlt⟩
        · obtain ⟨hst,-,-,hs⟩ := h.bounds piece hp
          exact ⟨le_trans hst hle,hlt.trans_le hs⟩
        · exact ⟨le_trans h.start hle,hlt⟩
      exact ⟨hb,(h.points x hb.1 hb.2).mpr (hx.symm.imp_left And.left)⟩
    · rintro ⟨hb,hf⟩
      exact ((h.points x hb.1 hb.2).mp hf).symm.imp_right fun hl => ⟨hl,hb.2⟩

theorem Left.append (hsi : 0 < range.2.val) (hg : ∀ next ∈ a, stop range < next.1.val) (hsk : Skipped range.1 b rest)
    (h : Left [range] rest out) (h' : Left a rest out') : Left (range :: a) b (out ++ out') where
  nonempty := fun piece hp => (mem_append.mp hp).elim (h.nonempty piece) (h'.nonempty piece)
  within := by
    intro piece hp
    rcases mem_append.mp hp with hp | hp
    · obtain ⟨range,hr,hb⟩ := h.within piece hp
      exact ⟨range,by simp [mem_singleton.mp hr],hb⟩
    · obtain ⟨range,hr,hb⟩ := h'.within piece hp
      exact ⟨range,.tail _ hr,hb⟩
  gaps := by
    refine pairwise_append.mpr ⟨h.gaps,h'.gaps,fun piece hp next hn => ?_⟩
    obtain ⟨range,hr,-,hs⟩ := h.within piece hp
    obtain ⟨range',hr',hst,-⟩ := h'.within next hn
    rw [mem_singleton.mp hr] at hs
    exact (hs.trans_lt (hg range' hr')).trans_le hst
  points := by
    intro x
    simp only [mem_append,or_and_right,exists_or,h.points,h'.points]
    rw [← or_and_right,covers_cons,covers_cons]
    simp only [covers_nil,or_false]
    refine and_congr_right fun hc => not_congr (hsk.covers_iff ?_)
    rcases hc with ⟨hle,-⟩ | ⟨next,hn,hle,-⟩
    · exact hle
    · exact ((start_lt_stop hsi).trans (hg next hn)).le.trans hle

theorem difference_left (ha : Canonical a) (hb : Canonical b) (h : difference a b = some out) : Left a b out := by
  induction a generalizing b out with
  | nil =>
    cases h
    exact ⟨by simp,by simp,.nil,by simp⟩
  | cons range a ih =>
    obtain ⟨hs,hg,ha⟩ := canonical_cons.mp ha
    obtain ⟨limit,hl,h⟩ := bind_eq_some_iff.mp h
    obtain ⟨rest,hr,h⟩ := bind_eq_some_iff.mp h
    obtain ⟨⟨out',last⟩,hc,h⟩ := bind_eq_some_iff.mp h
    obtain ⟨out'',hd,h⟩ := bind_eq_some_iff.mp h
    cases h
    have hsk := skip_spec hr
    have hb' := hb.sublist hsk.suffix.sublist
    exact Left.append hs hg hsk ((carve_spec hb' hc).left (add_eq_some.mp hl)) (ih ha hb' hd)

def Overflows (range : Size × Size) : Prop := 2 ^ 64 ≤ stop range

theorem add_of_overflows (h : Overflows range) : Offset.add range.1 range.2 = none :=
  Option.not_isSome_iff_eq_none.mp (mt add_isSome.mp (not_lt.mpr h))

theorem add_of_not_overflows (h : ¬ Overflows range) : ∃ e, Offset.add range.1 range.2 = some e ∧
    e.val = stop range := by
  obtain ⟨e,he⟩ := isSome_iff_exists.mp (add_isSome.mpr (not_le.mp h))
  exact ⟨e,he,add_eq_some.mp he⟩

theorem eq_nil_of_overflows (hb : Canonical (range :: rest)) (h : Overflows range) : rest = [] := by
  refine eq_nil_iff_forall_not_mem.mpr fun next hn => ?_
  have hg := (canonical_cons.mp hb).2.1 next hn
  have hlt := next.1.isLt
  rw [Overflows] at h
  omega

theorem skip_returns_iff (hb : Canonical b) (cursor : Size) : (skip cursor b).isSome ↔
      ∀ range ∈ b, Overflows range → ∃ next ∈ b, ¬ Overflows next ∧ cursor.val < stop next := by
  induction b with
  | nil => simp [skip]
  | cons range b ih =>
    by_cases hr : Overflows range
    · rw [skip,add_of_overflows hr,eq_nil_of_overflows hb hr]
      simp [hr]
    · obtain ⟨e,he,he'⟩ := add_of_not_overflows hr
      rw [skip,he,Option.bind_eq_bind,Option.bind_some]
      split
      case isTrue hle =>
        have hle' : stop range ≤ cursor.val := he' ▸ hle
        rw [ih (canonical_cons.mp hb).2.2,forall_mem_cons]
        simp [hr,not_lt.mpr hle']
      case isFalse hlt =>
        have hlt' : cursor.val < stop range := he' ▸ not_le.mp hlt
        exact iff_of_true rfl fun _ _ _ => ⟨range,.head _,hr,hlt'⟩

theorem carve_returns_iff (hb : Canonical b) (limit cursor : Size) :
    (carve limit cursor b).isSome ↔ ∀ range ∈ b, Overflows range → limit ≤ range.1 := by
  induction b generalizing cursor with
  | nil => simp [carve]
  | cons range b ih =>
    obtain ⟨hs,hg,hb'⟩ := canonical_cons.mp hb
    rw [carve]
    split
    case isTrue hlt =>
      by_cases hr : Overflows range
      · rw [add_of_overflows hr]
        simp [hr,hlt]
      · obtain ⟨e,he,-⟩ := add_of_not_overflows hr
        rw [he,forall_mem_cons,← ih hb' (max cursor e)]
        simp [hr,Option.isSome_bind]
    case isFalse hge =>
      refine iff_of_true rfl (forall_mem_cons.mpr ⟨fun _ => not_lt.mp hge,fun next hn _ => (not_lt.mp hge).trans ?_⟩)
      exact ((start_lt_stop hs).trans (hg next hn)).le

-- Every end that the sweep computes is a `Size`: those of `a`, and those of `b` up to the first one
-- behind the start of a range of `a`, and on to its end.
structure Sums (a b : Ranges Size) : Prop where
  left : ∀ range ∈ a, ¬ Overflows range
  right : ∀ range ∈ b, Overflows range → ∀ other ∈ a, stop other ≤ range.1.val ∧ ∃ next ∈ b, ¬ Overflows next ∧
    other.1.val < stop next

theorem sums_cons (hsk : Skipped range.1 b rest) (hg : ∀ next ∈ a, range.1.val < next.1.val) :
    Sums (range :: a) b ↔ ¬ Overflows range ∧ (∀ last ∈ b, Overflows last → stop range ≤ last.1.val ∧
      ∃ next ∈ b, ¬ Overflows next ∧ range.1.val < stop next) ∧ Sums a rest := by
  have hover last (hl : last ∈ b) (ho : Overflows last) : last ∈ rest :=
    hsk.kept last hl (range.1.isLt.trans_le ho)
  constructor
  · rintro ⟨hl,hr⟩
    obtain ⟨hra,hl⟩ := forall_mem_cons.mp hl
    refine ⟨hra,fun last hb ho => hr last hb ho range (.head _),hl,fun last hb ho other hm => ?_⟩
    obtain ⟨hle,next,hn,hno,hlt⟩ := hr last (hsk.suffix.subset hb) ho other (.tail _ hm)
    exact ⟨hle,next,hsk.kept next hn ((hg other hm).trans hlt),hno,hlt⟩
  · rintro ⟨hra,hf,hl,hr⟩
    refine ⟨forall_mem_cons.mpr ⟨hra,hl⟩,fun last hb ho => forall_mem_cons.mpr ⟨hf last hb ho,fun other hm => ?_⟩⟩
    obtain ⟨hle,next,hn,hno⟩ := hr last (hover last hb ho) ho other hm
    exact ⟨hle,next,hsk.suffix.subset hn,hno⟩

theorem difference_returns_iff (ha : Canonical a) (hb : Canonical b) : (difference a b).isSome ↔ Sums a b := by
  induction a generalizing b with
  | nil => exact iff_of_true rfl ⟨by simp,by simp⟩
  | cons range a ih =>
    obtain ⟨hs,hg,ha⟩ := canonical_cons.mp ha
    rw [difference]
    by_cases hr : Overflows range
    · rw [add_of_overflows hr]
      exact iff_of_false (by simp) fun h => h.left range (.head _) hr
    obtain ⟨limit,hl,hl'⟩ := add_of_not_overflows hr
    rw [hl,Option.bind_eq_bind,Option.bind_some]
    cases hk : skip range.1 b with
    | none =>
      have hn := mt (skip_returns_iff hb range.1).mpr (by simp [hk])
      exact iff_of_false (by simp) fun h => hn fun last hlast ho => (h.right last hlast ho range (.head _)).2
    | some rest =>
      have hsk := skip_spec hk
      have hb' := hb.sublist hsk.suffix.sublist
      have hsome := (skip_returns_iff hb range.1).mp (by simp [hk])
      rw [sums_cons hsk fun next hn => (start_lt_stop hs).trans (hg next hn),← ih ha hb']
      have hc := carve_returns_iff hb' limit range.1
      have hcarve : (carve limit range.1 rest).isSome ↔ ∀ last ∈ b, Overflows last → stop range ≤ last.1.val := by
        rw [hc,← hl']
        exact ⟨fun h last hm ho => h last (hsk.kept last hm (range.1.isLt.trans_le ho)) ho,
          fun h last hm ho => h last (hsk.suffix.subset hm) ho⟩
      have hboth : (∀ last ∈ b, Overflows last → stop range ≤ last.1.val ∧ ∃ next ∈ b, ¬ Overflows next ∧
        range.1.val < stop next) ↔
          (carve limit range.1 rest).isSome := by
        rw [hcarve]
        exact ⟨fun h last hm ho => (h last hm ho).1,fun h last hm ho => ⟨h last hm ho,hsome last hm ho⟩⟩
      rw [hboth,Option.bind_eq_bind,Option.bind_some]
      cases carve limit range.1 rest <;> cases difference a rest <;> simp [hr]

def IsDifference (a b out : Ranges Size) : Prop := Sorted out ∧ ∀ x, Covers out x ↔ Covers a x ∧ ¬ Covers b x

def Initial (a b : Ranges Size) : Prop := ∀ x y, y ≤ x → Covers a x ∧ ¬ Covers b x → Covers a y ∧ ¬ Covers b y

def FromZero (out : Ranges Size) : Prop := out = [] ∨ ∃ start last, start.val = 0 ∧ start < last ∧ out = [(start,last)]

theorem Left.isDifference (h : Left a b out) (hz : FromZero out) : IsDifference a b out := by
  rcases hz with rfl | ⟨start,last,hz,hs,rfl⟩
  · exact ⟨⟨by simp,.nil⟩,fun x => by simpa using h.points x⟩
  · obtain rfl : start = 0 := Fin.ext hz
    refine ⟨⟨by simpa using hs,by simp⟩,fun x => ?_⟩
    simpa [Inside,stop] using h.points x

theorem Left.initial (h : Left a b out) (hz : FromZero out) : Initial a b := by
  intro x y hle hx
  obtain ⟨piece,hp,hin⟩ := (h.points x).mpr hx
  refine (h.points y).mp ⟨piece,hp,?_⟩
  rcases hz with rfl | ⟨start,last,hz,-,rfl⟩
  · cases hp
  · rw [mem_singleton.mp hp] at hin ⊢
    exact ⟨hz.trans_le (Nat.zero_le _),hle.trans_lt hin.2⟩

theorem Left.fromZero_of_initial (h : Left a b out) (hi : Initial a b) : FromZero out := by
  cases out with
  | nil => exact .inl rfl
  | cons piece rest =>
    obtain ⟨hg,-⟩ := pairwise_cons.mp h.gaps
    have hlt := h.nonempty piece (by simp)
    have hin := (h.points _).mp ⟨piece,by simp,le_refl _,hlt⟩
    have hs : piece.1 = 0 := by
      obtain ⟨other,ho,hle,-⟩ := (h.points 0).mpr (hi _ 0 (Nat.zero_le _) hin)
      have hz : other.1 = 0 := Fin.ext (Nat.le_zero.mp hle)
      rcases mem_cons.mp ho with rfl | ho
      · exact hz
      · exact absurd (hz ▸ hg other ho) (Fin.not_lt_zero _)
    have hr : rest = [] := by
      refine eq_nil_iff_forall_not_mem.mpr fun next hn => ?_
      have hne := (h.points next.1.val).mp ⟨next,by simp [hn],le_refl _,h.nonempty next (by simp [hn])⟩
      obtain ⟨other,ho,hle,hlt'⟩ := (h.points piece.2.val).mpr (hi _ piece.2.val (hg next hn).le hne)
      rcases mem_cons.mp ho with rfl | ho
      · exact absurd hlt' (lt_irrefl _)
      · exact absurd (hg other ho) (not_lt.mpr hle)
    exact .inr ⟨piece.1,piece.2,congrArg Fin.val hs,hlt,by rw [hr]⟩

theorem Left.fromZero_of_isDifference (h : Left a b out) (hd : IsDifference a b out) : FromZero out := by
  rcases eq_nil_or_concat out with rfl | ⟨first,⟨start,last⟩,rfl⟩
  · exact .inl rfl
  have hg := (pairwise_append.mp (by simpa using h.gaps)).2.2
  have hlt := h.nonempty (start,last) (by simp)
  have hs : start = 0 := by
    by_contra hne
    have hpos : 0 < start.val := Fin.pos_iff_ne_zero.mpr hne
    have hc : Covers (first.concat (start,last)) last.val := ⟨(start,last),by simp,hlt.le,Nat.lt_add_of_pos_left hpos⟩
    obtain ⟨piece,hp,-,hin⟩ := (h.points last.val).mpr ((hd.2 last.val).mp hc)
    simp only [concat_eq_append,mem_append,mem_singleton] at hp
    rcases hp with hp | rfl
    · exact absurd ((hg piece hp _ (mem_singleton_self _)).trans hlt) (not_lt.mpr (le_of_lt hin))
    · exact absurd hin (lt_irrefl _)
  subst hs
  have hf : first = [] := by
    refine eq_nil_iff_forall_not_mem.mpr fun piece hp => ?_
    exact absurd (hg piece hp _ (mem_singleton_self _)) (Fin.not_lt_zero _)
  exact .inr ⟨0,last,rfl,hlt,by simp [hf]⟩

theorem difference_isDifference_iff (ha : Canonical a) (hb : Canonical b) :
    (∃ out, difference a b = some out ∧ IsDifference a b out) ↔ Sums a b ∧ Initial a b := by
  rw [← difference_returns_iff ha hb]
  constructor
  · rintro ⟨out,ho,hd⟩
    have hl := difference_left ha hb ho
    exact ⟨by simp [ho],hl.initial (hl.fromZero_of_isDifference hd)⟩
  · rintro ⟨hs,hi⟩
    obtain ⟨out,ho⟩ := isSome_iff_exists.mp hs
    have hl := difference_left ha hb ho
    exact ⟨out,ho,hl.isDifference (hl.fromZero_of_initial hi)⟩

theorem difference_at_zero : Canonical [(0,4)] ∧ Canonical [(2,5)] ∧ Sums [(0,4)] [(2,5)] ∧ Initial [(0,4)] [(2,5)] ∧
      difference [(0,4)] [((2 : Size),5)] = some [(0,2)] := by
  have ha : Canonical [(0,4)] := ⟨by simp,by simp⟩
  have hb : Canonical [(2,5)] := ⟨by simp,by simp⟩
  have hd : difference [(0,4)] [((2 : Size),5)] = some [(0,2)] := by decide
  have hi : IsDifference [(0,4)] [(2,5)] [(0,2)] := by
    refine ⟨⟨by simp,by simp⟩,fun x => ?_⟩
    simp [stop]
    omega
  obtain ⟨hs,hin⟩ := (difference_isDifference_iff ha hb).mp ⟨_,hd,hi⟩
  exact ⟨ha,hb,hs,hin,hd⟩

theorem difference_not_isDifference : Canonical [(2,3)] ∧ Canonical [] ∧ difference [((2 : Size),3)] [] = some [(2,5)] ∧
      ¬ IsDifference [(2,3)] [] [(2,5)] := by
  refine ⟨⟨by simp,by simp⟩,canonical_nil,by decide,fun h => ?_⟩
  have hc := (h.2 5).mp ⟨(2,5),by simp,by decide,by decide⟩
  simp [stop] at hc

end Frontend.RangeSet
