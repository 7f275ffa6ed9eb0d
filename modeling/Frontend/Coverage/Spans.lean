import Mathlib

namespace Frontend.Coverage

open List

structure Span where
  lo : Nat
  hi : Nat
  le : lo ≤ hi
deriving DecidableEq

def Span.overlaps (a b : Span) : Bool := a.lo < b.hi && b.lo < a.hi

def compareSpans (a b : Span) : Ordering := (compare a.lo b.lo).then (compare a.hi b.hi).swap

structure Covspan where
  span : Span
  bcb : Nat
deriving DecidableEq

-- The holes are those from `curr_hole` on.
def overlapsHole (span : Span) : List Span → Bool × List Span
  | [] => (false,[])
  | hole :: holes => if hole.hi ≤ span.lo then overlapsHole span holes else (hole.overlaps span,hole :: holes)

def discardSpansOverlappingHoles : List Covspan → List Span → List Covspan
  | [], _ => []
  | c :: covspans, holes =>
    let (overlaps,holes) := overlapsHole c.span holes
    if overlaps then discardSpansOverlappingHoles covspans holes else c :: discardSpansOverlappingHoles covspans holes

def sweep (pending refined : List Covspan) : List Covspan → List Covspan
  | [] => refined ++ pending
  | curr :: rest =>
    sweep ((pending.filter (¬ ·.span.hi ≤ curr.span.lo)).filter (·.bcb = curr.bcb) ++ [curr])
      (refined ++ pending.filter (·.span.hi ≤ curr.span.lo)) rest

def removeUnwantedOverlappingSpans (spans : List Covspan) : List Covspan := sweep [] [] spans

theorem lo_le_of_compareSpans (h : (compareSpans a b).isLE) : a.lo ≤ b.lo := by
  by_contra hlt
  simp [compareSpans,Nat.compare_eq_gt.mpr (Nat.lt_of_not_le hlt)] at h

theorem overlapsHole_spec (span : Span) (h : holes.Pairwise fun a b : Span => a.lo ≤ b.lo) :
    (overlapsHole span holes).1 = holes.any (·.overlaps span) ∧ (overlapsHole span holes).2 <:+ holes ∧
      ∀ later : Span, span.lo ≤ later.lo →
        (overlapsHole span holes).2.any (·.overlaps later) = holes.any (·.overlaps later) := by
  induction holes with
  | nil => exact ⟨rfl,suffix_rfl,fun _ _ => rfl⟩
  | cons hole holes ih =>
    obtain ⟨hl,hh⟩ := pairwise_cons.mp h
    rw [overlapsHole]
    split
    case isTrue hle =>
      obtain ⟨ho,hs,hr⟩ := ih hh
      have hn (later : Span) (hla : span.lo ≤ later.lo) : hole.overlaps later = false := by
        simp [Span.overlaps,hle.trans hla]
      refine ⟨?_,hs.trans (suffix_cons ..),fun later hla => ?_⟩
      · rw [ho,any_cons,hn span le_rfl,Bool.false_or]
      · rw [hr later hla,any_cons,hn later hla,Bool.false_or]
    case isFalse hlt =>
      refine ⟨?_,suffix_rfl,fun _ _ => rfl⟩
      -- a hole that is not skipped and not hit starts after the span, and so do the others
      cases ho : hole.overlaps span with
      | true => rw [any_cons,ho,Bool.true_or]
      | false =>
        rw [any_cons,ho,Bool.false_or,eq_comm,any_eq_false]
        intro later hla
        have := hl later hla
        simp only [Span.overlaps,Bool.and_eq_true,Bool.and_eq_false_iff,decide_eq_true_eq,decide_eq_false_iff_not]
          at ho ⊢
        omega

theorem discard_eq_filter (h : covspans.Pairwise fun a b : Covspan => a.span.lo ≤ b.span.lo)
    (hh : holes.Pairwise fun a b : Span => a.lo ≤ b.lo) :
    discardSpansOverlappingHoles covspans holes = covspans.filter fun c => !holes.any (·.overlaps c.span) := by
  induction covspans generalizing holes with
  | nil => rfl
  | cons c covspans ih =>
    obtain ⟨hl,hc⟩ := pairwise_cons.mp h
    obtain ⟨ho,hs,hr⟩ := overlapsHole_spec c.span hh
    have hi : discardSpansOverlappingHoles covspans (overlapsHole c.span holes).2 = covspans.filter fun c =>
        !holes.any (·.overlaps c.span) := by
      rw [ih hc (hh.sublist hs.sublist)]
      exact filter_congr fun later hla => by rw [hr later.span (hl later hla)]
    rw [discardSpansOverlappingHoles,filter_cons,← ho]
    cases hb : (overlapsHole c.span holes).1 <;> simp [hi,hb]

-- No later span of another block starts before the end of the span.
def stays (later : List Covspan) (s : Covspan) : Bool := later.all fun c => c.span.lo < s.span.hi → c.bcb = s.bcb

def settled : List Covspan → List Covspan
  | [] => []
  | s :: later => [s].filter (stays later) ++ settled later

theorem settled_spec (spans : List Covspan) : settled spans <+ spans ∧
    (settled spans).Pairwise fun a b => b.span.lo < a.span.hi → b.bcb = a.bcb := by
  induction spans with
  | nil => exact ⟨.refl _,.nil⟩
  | cons s later ih =>
    refine ⟨filter_sublist.append ih.1,pairwise_append.mpr ⟨(pairwise_singleton ..).filter _,ih.2,fun a ha b hb => ?_⟩⟩
    obtain ⟨hs,hn⟩ := mem_filter.mp ha
    rw [mem_singleton.mp hs] at hn ⊢
    exact of_decide_eq_true (all_eq_true.mp hn b (ih.1.subset hb))

theorem sweep_perm (pending refined : List Covspan) (h : rest.Pairwise fun a b : Covspan => a.span.lo ≤ b.span.lo) :
    (sweep pending refined rest).Perm (refined ++ pending.filter (stays rest) ++ settled rest) := by
  induction rest generalizing pending refined with
  | nil => simp [sweep,settled,filter_eq_self.mpr fun p (_ : p ∈ pending) => (rfl : stays [] p = true)]
  | cons curr rest ih =>
    obtain ⟨hl,hr⟩ := pairwise_cons.mp h
    have hf : (pending.filter (stays (curr :: rest))).filter (·.span.hi ≤ curr.span.lo) = pending.filter
        (·.span.hi ≤ curr.span.lo) := by
      rw [filter_filter]
      refine filter_congr fun p _ => Bool.and_eq_left_iff_imp.mpr fun hle => ?_
      refine all_eq_true.mpr fun c hc => decide_eq_true fun hlt => ?_
      have : curr.span.lo ≤ c.span.lo := by
        rcases mem_cons.mp hc with rfl | hc
        · exact le_rfl
        · exact hl c hc
      have := of_decide_eq_true hle
      omega
    have hk : (pending.filter (stays (curr :: rest))).filter (fun p => !decide (p.span.hi ≤ curr.span.lo)) =
        ((pending.filter (¬ ·.span.hi ≤ curr.span.lo)).filter (·.bcb = curr.bcb)).filter (stays rest) := by
      rw [filter_filter,filter_filter,filter_filter]
      refine filter_congr fun p _ => ?_
      by_cases hle : p.span.hi ≤ curr.span.lo
      · simp [hle]
      · simp [hle,stays,Nat.lt_of_not_le hle,eq_comm,Bool.and_comm]
    have hp := filter_append_perm (·.span.hi ≤ curr.span.lo) (pending.filter (stays (curr :: rest)))
    rw [hf,hk] at hp
    rw [sweep,settled]
    refine (ih _ _ hr).trans ?_
    rw [filter_append,← append_assoc,← append_assoc]
    refine .append_right _ (.append_right _ ?_)
    rw [append_assoc]
    exact hp.append_left _

theorem overlaps_resolved (spans : List Covspan)
    (hsorted : spans.Pairwise fun a b => (compareSpans a.span b.span).isLE) :
    (∀ holes : List Span, holes.Pairwise (fun a b => (compareSpans a b).isLE) →
      discardSpansOverlappingHoles spans holes = spans.filter fun c => !holes.any (·.overlaps c.span)) ∧
    (removeUnwantedOverlappingSpans spans).Pairwise (fun a b => a.span.overlaps b.span → a.bcb = b.bcb) ∧
    (removeUnwantedOverlappingSpans spans).Perm (settled spans) ∧ settled spans <+ spans ∧
    ∀ s c, [s,c] <+ spans → c.span.lo < s.span.hi →
      s.span.overlaps c.span ∨ c.span.lo = s.span.lo ∧ c.span.hi = s.span.lo := by
  have hl : spans.Pairwise fun a b => a.span.lo ≤ b.span.lo := hsorted.imp lo_le_of_compareSpans
  have hp : (removeUnwantedOverlappingSpans spans).Perm (settled spans) := by
    simpa [removeUnwantedOverlappingSpans] using sweep_perm [] [] hl
  obtain ⟨hs,ha⟩ := settled_spec spans
  simp only [Span.overlaps,Bool.and_eq_true,decide_eq_true_eq]
  refine ⟨fun holes hh => discard_eq_filter hl (hh.imp lo_le_of_compareSpans),?_,hp,hs,fun s c hsc hd => ?_⟩
  · exact (hp.pairwise_iff fun hab ho => (hab ho.symm).symm).mpr (ha.imp fun hab ho => (hab ho.2).symm)
  · have hle : s.span.lo ≤ c.span.lo := by simpa using hl.sublist hsc
    have := c.span.le
    omega

def outer : Covspan := ⟨⟨5,8,by decide⟩,0⟩

-- An empty span at the start of `outer`, which it does not overlap.
def marker : Covspan := ⟨⟨5,5,le_rfl⟩,1⟩

theorem outer_marker_resolved : (removeUnwantedOverlappingSpans [outer,marker]).Perm (settled [outer,marker]) ∧
    discardSpansOverlappingHoles [outer,marker] [⟨2,6,by decide⟩] = [] :=
  have h := overlaps_resolved [outer,marker] (by simp [outer,marker,compareSpans]; decide)
  ⟨h.2.2.1,(h.1 [⟨2,6,by decide⟩] (by simp)).trans (by decide)⟩

theorem empty_span_drops_outer : (compareSpans outer.span marker.span).isLE ∧
    removeUnwantedOverlappingSpans [outer,marker] = [marker] ∧ outer.span.overlaps marker.span = false := by decide

end Frontend.Coverage
