import Frontend.Span.Canonical

namespace Frontend.SpanEncoding

open Library List SpanEncoding.Span

variable {I J : SpanInterner} {sp sp' : Span} {d d' : SpanData}
variable {lo hi c : UInt32} {p : Option UInt32}

structure Session where
  interner : SpanInterner
  live : List Span

namespace Session

def new : Session := ⟨[],[]⟩

def make (s : Session) (lo hi c : UInt32) (p : Option UInt32) : Session :=
  ⟨(Span.new lo hi c p s.interner).2,(Span.new lo hi c p s.interner).1 :: s.live⟩

def Step (s t : Session) : Prop := ∃ lo hi c p, t = s.make lo hi c p

def Reached : Session → Prop := Reachable (· = new) Step

structure Canonical (s : Session) : Prop where
  nodup : s.interner.Nodup
  encodes : ∀ sp ∈ s.live, ∃ d, Encodes s.interner sp d

end Session

theorem SpanInterner.prefix_intern (I : SpanInterner) (d : SpanData) : I <+: (I.intern d).2 := by
  unfold SpanInterner.intern
  split
  · exact prefix_rfl
  · exact prefix_append I [d]

theorem prefix_new : I <+: (new lo hi c p I).2 := by
  rw [new_eq_newSorted]
  by_cases hin : Inline (min lo hi) (max lo hi) c p
  · obtain ⟨hl,⟨hc,rfl⟩ | ⟨rfl,q,rfl,hq⟩⟩ := hin.cases
    · rw [newSorted_inlineCtxt hl hc]
    · rw [newSorted_inlineParent hl hq]
  · rw [newSorted_interned hin]
    split
    · exact I.prefix_intern _
    · exact I.prefix_intern _

namespace Session

theorem Canonical.new : Canonical Session.new := ⟨nodup_nil,fun _ h => absurd h not_mem_nil⟩

theorem Canonical.make (h : Canonical s) (hl : (s.make lo hi c p).interner.length ≤ 2 ^ 32) :
    Canonical (s.make lo hi c p) := by
  obtain ⟨h1,h2,h3⟩ := new_spec h.nodup hl
  refine ⟨h1,forall_mem_cons.mpr ⟨⟨_,h3⟩,fun sp hsp => ?_⟩⟩
  obtain ⟨d,hd⟩ := h.encodes sp hsp
  exact ⟨d,hd.mono h2⟩

theorem Reached.canonical (h : Reached s) (hl : s.interner.length ≤ 2 ^ 32) : Canonical s := by
  refine Reachable.invariant (I := fun s => s.interner.length ≤ 2 ^ 32 → Canonical s) h ?_ ?_ hl
  · rintro s rfl _
    exact Canonical.new
  · rintro s t hs ⟨lo,hi,c,p,rfl⟩ hl
    exact (hs (prefix_new.length_le.trans hl)).make hl

end Session

structure Agrees (s : Session) (a : Span) (d : SpanData) : Prop where
  data : a.dataUntracked s.interner = some d
  ctxt : a.ctxt s.interner = some d.ctxt
  parent : a.parent s.interner = some d.parent
  isDummy : a.isDummy s.interner = some d.isDummy
  fromExpansion : a.fromExpansion = decide (d.ctxt ≠ 0)
  mapCtxt : ∀ f, a.mapCtxt f s.interner = some (new d.lo d.hi (f d.ctxt) d.parent s.interner)
  withParent : ∀ p, a.withParent p s.interner = some (new d.lo d.hi d.ctxt p s.interner)

structure AgreeTogether (s : Session) (a b : Span) (d e : SpanData) : Prop where
  eq_iff : a = b ↔ d = e
  eqCtxt : a.eqCtxt b s.interner = some (decide (d.ctxt = e.ctxt))
  toEnd : ∀ metavars callsiteCtxt, a.toEnd metavars callsiteCtxt b s.interner =
    a.toGeneral metavars callsiteCtxt b s.interner

theorem span_encoding_lossless_canonical {s : Session} (h : s.Reached) (hlen : s.interner.length ≤ 2 ^ 32) :
    (∀ lo hi c p, (s.make lo hi c p).interner.length ≤ 2 ^ 32 →
      (new lo hi c p s.interner).1.dataUntracked (new lo hi c p s.interner).2 = some (sortedData lo hi c p) ∧
        ∀ a ∈ s.live, a.dataUntracked (s.make lo hi c p).interner = a.dataUntracked s.interner) ∧
    (∀ a ∈ s.live, ∃ d, Agrees s a d) ∧
    ∀ a ∈ s.live, ∀ b ∈ s.live, ∀ d e, a.dataUntracked s.interner = some d →
      b.dataUntracked s.interner = some e → AgreeTogether s a b d e := by
  have hs := h.canonical hlen
  refine ⟨fun lo hi c p hl' => ?_,fun a ha => ?_,fun a ha b hb d e hd he => ?_⟩
  · obtain ⟨_,h2,h3⟩ := new_spec hs.nodup hl'
    refine ⟨h3.dataUntracked,fun a ha => ?_⟩
    obtain ⟨d,hd⟩ := hs.encodes a ha
    rw [hd.dataUntracked,(hd.mono h2 : Encodes (s.make lo hi c p).interner a d).dataUntracked]
  · obtain ⟨d,hd⟩ := hs.encodes a ha
    exact ⟨d,hd.dataUntracked,hd.ctxt_eq,hd.parent_eq,hd.isDummy_eq,hd.fromExpansion_eq,hd.mapCtxt_eq,
      hd.withParent_eq hs.nodup⟩
  · obtain ⟨d',hd'⟩ := hs.encodes a ha
    obtain ⟨e',he'⟩ := hs.encodes b hb
    obtain rfl : d' = d := Option.mem_unique hd'.dataUntracked hd
    obtain rfl : e' = e := Option.mem_unique he'.dataUntracked he
    exact ⟨hd'.eq_iff hs.nodup he',hd'.eqCtxt_eq he',hd'.toEnd_eq he'⟩

-- An inline span with a parent, and one too long to be inline.
def twoSpans : Session := (Session.new.make 7 3 0 (some 5)).make 0 0x10000 9 none

theorem two_spans_lossless : twoSpans.Reached ∧ twoSpans.live = [⟨0,0xFFFF,9⟩,⟨3,0x8004,5⟩] ∧
    twoSpans.interner.length = 1 ∧
      (∀ a ∈ twoSpans.live, ∃ d, Agrees twoSpans a d) ∧
      AgreeTogether twoSpans ⟨0,0xFFFF,9⟩ ⟨3,0x8004,5⟩ ⟨0,0x10000,9,none⟩ ⟨3,7,0,some 5⟩ := by
  have hr : twoSpans.Reached := Reachable.tail ⟨Session.new,rfl,.single ⟨7,3,0,some 5,rfl⟩⟩ ⟨0,0x10000,9,none,rfl⟩
  have h := (span_encoding_lossless_canonical hr (by decide)).2
  exact ⟨hr,by decide,by decide,h.1,h.2 _ (by decide) _ (by decide) _ _ (by decide) (by decide)⟩

def wide (n : Nat) : SpanData := ⟨UInt32.ofNat n,UInt32.ofNat n,0x8000,none⟩

def filled : Nat → Session
  | 0 => Session.new
  | n + 1 => (filled n).make (UInt32.ofNat n) (UInt32.ofNat n) 0x8000 none

theorem filled_reached (n : Nat) : (filled n).Reached := by
  induction n with
  | zero => exact Reachable.start rfl
  | succ n ih => exact ih.tail ⟨_,_,_,_,rfl⟩

theorem wide_not_mem (h : n < 2 ^ 32) : wide n ∉ (List.range n).map wide := by
  intro hme
  obtain ⟨m,hm,heq⟩ := mem_map.mp hme
  rw [mem_range] at hm
  simp only [wide,SpanData.mk.injEq] at heq
  have h1 := congrArg UInt32.toNat heq.1
  rw [UInt32.toNat_ofNat_of_lt' (by simp [UInt32.size]; omega),UInt32.toNat_ofNat_of_lt'
    (by simp [UInt32.size]; omega)] at h1
  omega

theorem new_wide (hc : ¬c ≤ maxCtxt) (h : (⟨x,x,c,none⟩ : SpanData) ∉ I) : new x x c none I =
      (internedSpan (UInt32.ofNat I.length),I ++ [⟨x,x,c,none⟩]) := by
  have hin : ¬Inline x x c none := fun h => hc h.2.1
  rw [new_of_le (UInt32.le_refl x),newSorted_interned hin,if_neg hc]
  simp [SpanInterner.intern,h]

theorem filled_interner (h : n ≤ 2 ^ 32) : (filled n).interner = (List.range n).map wide := by
  induction n with
  | zero => rfl
  | succ n ih =>
    have hm := wide_not_mem (by omega : n < 2 ^ 32)
    rw [← ih (by omega)] at hm
    have hn := new_wide (by decide : ¬(0x8000 : UInt32) ≤ maxCtxt) hm
    simp only [filled,Session.make,hn]
    rw [ih (by omega),range_succ,map_append]
    rfl

theorem decode_wrapped (hp : 0 < n) (hn : UInt32.ofNat n = 0) (hI : I = (List.range n).map wide) :
    (new 0 0 0x8001 none I).1.dataUntracked (new 0 0 0x8001 none I).2 = some (wide 0) := by
  have hm : (⟨0,0,0x8001,none⟩ : SpanData) ∉ I := by
    rw [hI]
    intro hm
    obtain ⟨m,_,heq⟩ := mem_map.mp hm
    simp only [wide,SpanData.mk.injEq] at heq
    exact absurd heq.2.2.1 (by decide)
  have hl : I.length = n := by simp [hI]
  rw [new_wide (by decide) hm,hl,hn]
  have hg : SpanInterner.get (I ++ [⟨0,0,0x8001,none⟩]) 0 = some (wide 0) := by
    obtain ⟨m,rfl⟩ := Nat.exists_eq_succ_of_ne_zero hp.ne'
    simp [SpanInterner.get,hI,range_succ_eq_map]
  simp [dataUntracked,kind_interned,hg]

theorem full_interner_decodes_wrong : ∃ s : Session, s.Reached ∧ (new 0 0 0x8001 none s.interner).1.dataUntracked
        (new 0 0 0x8001 none s.interner).2 ≠ some (sortedData 0 0 0x8001 none) := by
  refine ⟨filled (2 ^ 32),filled_reached _,?_⟩
  rw [decode_wrapped (by decide) (by decide) (filled_interner le_rfl)]
  decide

end Frontend.SpanEncoding
