import Frontend.Dataflow.Effects
import Frontend.Library.Outcome

namespace Frontend.Dataflow

open Mir BitSet Library List Function DenseBitSet

variable {Place Operand Statement : Type} {body : Body Place Operand Statement} {dir : Direction}

section

variable {b : body.BasicBlock} {r i : Nat}

theorem foldl_update_zipIdx [DecidableEq α] (l : List α) (hn : l.Nodup) (f : Nat → β) (k : Nat)
    (init : α → Option β) (x : α) :
    (l.zipIdx k).foldl (fun (m : α → Option β) entry => update m entry.1 (some (f entry.2)))
      init x = if x ∈ l then some (f (k + l.idxOf x)) else init x := by
  induction l generalizing k init with
  | nil => simp
  | cons y l ih =>
    rw [nodup_cons] at hn
    rw [zipIdx_cons,foldl_cons,ih hn.2]
    by_cases hxy : x = y
    · subst hxy
      simp [hn.1]
    · have hyx : y ≠ x := fun h => hxy h.symm
      simp [hxy,idxOf_cons_ne _ hyx,Nat.add_assoc,Nat.add_comm 1]

theorem flip_lt (hi : i < body.reversePostorder.length) : flip dir body i < body.reversePostorder.length := by
  cases dir with
  | forward => exact hi
  | backward =>
    simp only [flip]
    omega

theorem flip_flip (hi : i < body.reversePostorder.length) : flip dir body (flip dir body i) = i := by
  cases dir with
  | forward => rfl
  | backward =>
    simp only [flip]
    omega

theorem ranks_eq_some : ranks dir body b = some r ↔
      r < body.reversePostorder.length ∧ body.reversePostorder[flip dir body r]? = some b := by
  obtain ⟨hn,-⟩ := body.reversePostorder_spec
  rw [ranks,foldl_update_zipIdx _ hn]
  constructor
  · intro h
    split at h
    case isFalse => cases h
    rename_i hme
    have hlt := List.idxOf_lt_length_iff.mpr hme
    rw [Nat.zero_add] at h
    cases h
    refine ⟨flip_lt hlt,?_⟩
    rw [flip_flip hlt,List.getElem?_eq_getElem hlt,List.getElem_idxOf hlt]
  · rintro ⟨hr,hg⟩
    obtain ⟨hlt,heq⟩ := List.getElem_of_getElem? hg
    rw [if_pos (List.mem_of_getElem? hg),Nat.zero_add,← heq,hn.idxOf_getElem,flip_flip hr]

theorem ranks_isSome : (∃ r, ranks dir body b = some r) ↔ body.Reachable b := by
  obtain ⟨hn,hme⟩ := body.reversePostorder_spec
  rw [← hme]
  constructor
  · rintro ⟨r,hr⟩
    exact mem_of_getElem? (ranks_eq_some.mp hr).2
  · intro hb
    obtain ⟨i,hi,rfl⟩ := getElem_of_mem hb
    refine ⟨flip dir body i,ranks_eq_some.mpr ⟨flip_lt hi,?_⟩⟩
    rw [flip_flip hi,getElem?_eq_getElem hi]

theorem ranks_inj (h : ranks dir body b = some r) (h' : ranks dir body b' = some r) : b = b' :=
  Option.some.inj ((ranks_eq_some.mp h).2.symm.trans (ranks_eq_some.mp h').2)

end

variable {D : Type}

structure Kept (s s' : Loop body D) : Prop where
  domain : s'.dirty.domainSize = s.dirty.domainSize
  curr : s'.currRank ≤ s.currRank
  lowest : (∀ r, s.dirty.Mem r → s.currRank ≤ r) → ∀ r, s'.dirty.Mem r → s'.currRank ≤ r

theorem Kept.refl (s : Loop body D) : Kept s s := ⟨rfl,le_rfl,fun hs => hs⟩

theorem Kept.trans (h : Kept s s') (h' : Kept s' s'') : Kept s s'' :=
  ⟨h'.domain.trans h.domain,h'.curr.trans h.curr,fun hs => h'.lowest (h.lowest hs)⟩

variable [SemilatticeSup D] {a : Analysis body D}

def sends (a : Analysis body D) (dir : Direction) : Sends body.BasicBlock D :=
  fun k d => {sent | body.Reachable k ∧ body.Reachable sent.1 ∧ Propagates a dir k d sent.1 sent.2}

def dirtyBlocks (body : Body Place Operand Statement) (dir : Direction) (dirty : DenseBitSet) : Set body.BasicBlock :=
  {b | ∃ r, ranks dir body b = some r ∧ dirty.Mem r}

section

variable {s s' : Loop body D} {target : body.BasicBlock} {sent : D}

variable [DecidableEq D]

theorem propagate_unranked (hb : dir = .backward) (h : ¬ body.Reachable target) :
    propagate dir s (target,sent) = .ok s := by
  have hn : ranks dir body target = none := by
    by_contra hs
    exact h (ranks_isSome.mp (Option.ne_none_iff_exists'.mp hs))
  subst hb
  simp [propagate,hn]

theorem propagate_ranked (dir : Direction) (sent : D) (hd : s.dirty.domainSize = body.reversePostorder.length)
    (h : body.Reachable target) : ∃ s', propagate dir s (target,sent) = .ok s' ∧ Kept s s' ∧
      s'.entryStates = update s.entryStates target (s.entryStates target ⊔ sent) ∧
      ∀ b, b ∈ dirtyBlocks body dir s'.dirty ↔ b ∈ dirtyBlocks body dir s.dirty ∨
      s.entryStates b ≠ s'.entryStates b := by
  obtain ⟨r,hr⟩ : ∃ r, ranks dir body target = some r := ranks_isSome.mpr h
  have hlt := hd ▸ (ranks_eq_some.mp hr).1
  obtain ⟨dirty,hin,hsi,hme⟩ := insert_spec hlt
  by_cases hsa : s.entryStates target ⊔ sent = s.entryStates target
  · refine ⟨{ s with entryStates := update s.entryStates target (s.entryStates target ⊔ sent) },
      by simp [propagate,hr,join,hsa],⟨rfl,le_rfl,fun hs => hs⟩,rfl,fun b => ?_⟩
    simp [hsa]
  · refine ⟨_,by simp [propagate,hr,join,hsa,hin,assertSome]; rfl,⟨hsi,min_le_left _ _,?_⟩,
      rfl,fun b => ?_⟩
    · intro hs r' hr'
      rcases (hme r').mp hr' with rfl | ho
      · exact min_le_right _ _
      · exact (min_le_left _ _).trans (hs r' ho)
    · have hc : s.entryStates b ≠ update s.entryStates target (s.entryStates target ⊔ sent) b ↔ b = target := by
        by_cases hb : b = target
        · subst hb
          rw [update_self]
          exact iff_of_true (fun h => hsa h.symm) rfl
        · simp [hb]
      rw [hc]
      constructor
      · rintro ⟨r',hr',hr''⟩
        rcases (hme r').mp hr'' with rfl | ho
        · exact .inr (ranks_inj hr' hr)
        · exact .inl ⟨r',hr',ho⟩
      · rintro (⟨r',hr',ho⟩ | rfl)
        · exact ⟨r',hr',(hme r').mpr (.inr ho)⟩
        · exact ⟨r,hr,(hme r).mpr (.inl rfl)⟩

theorem propagateAll_spec (dir : Direction) (l : List (body.BasicBlock × D)) (s : Loop body D)
    (hd : s.dirty.domainSize = body.reversePostorder.length)
    (hl : ∀ p ∈ l, dir = .forward → body.Reachable p.1) : ∃ s', l.foldlM (propagate dir) s = .ok s' ∧
      Kept s s' ∧ Delivered {p | p ∈ l ∧ body.Reachable p.1} s.entryStates (dirtyBlocks body dir s.dirty)
        s'.entryStates (dirtyBlocks body dir s'.dirty) := by
  induction l generalizing s with
  | nil => exact ⟨s,rfl,.refl s,by simpa using Delivered.nil⟩
  | cons p l ih =>
    obtain ⟨target,sent⟩ := p
    have hrs := fun p hp => hl p (.tail _ hp)
    by_cases hre : body.Reachable target
    · obtain ⟨s1,hs1,hk,he,hdr⟩ := propagate_ranked dir sent hd hre
      obtain ⟨s',hs',hk',hde⟩ := ih s1 (hk.domain.trans hd) hrs
      refine ⟨s',by rw [foldlM_cons,hs1]; exact hs',hk.trans hk',?_⟩
      have hs : {p | p ∈ (target,sent) :: l ∧ body.Reachable p.1} = insert (target,sent)
          {p | p ∈ l ∧ body.Reachable p.1} := by
        ext p
        simp only [mem_cons,Set.mem_ofPred_eq,Set.mem_insert_iff]
        constructor
        · rintro ⟨rfl | hp,hr⟩
          · exact .inl rfl
          · exact .inr ⟨hp,hr⟩
        · rintro (rfl | ⟨hp,hr⟩)
          · exact ⟨.inl rfl,hre⟩
          · exact ⟨.inr hp,hr⟩
      exact hs ▸ Delivered.cons he hdr hde
    · have hb : dir = .backward := by
        cases hdi : dir with
        | backward => rfl
        | forward => exact absurd (hl _ (.head _) hdi) hre
      obtain ⟨s',hs',hk',hde⟩ := ih s hd hrs
      refine ⟨s',by rw [foldlM_cons,propagate_unranked hb hre]; exact hs',hk',?_⟩
      have hs : {p | p ∈ (target,sent) :: l ∧ body.Reachable p.1} = {p | p ∈ l ∧ body.Reachable p.1} := by
        ext p
        simp only [mem_cons,Set.mem_ofPred_eq]
        constructor
        · rintro ⟨rfl | hp,hr⟩
          · exact absurd hr hre
          · exact ⟨hp,hr⟩
        · exact fun h => ⟨.inr h.1,h.2⟩
      exact hs ▸ hde

end

section

variable {s s' : Loop body D}

structure Consistent (a : Analysis body D) (dir : Direction) (s : Loop body D) : Prop where
  domain : s.dirty.domainSize = body.reversePostorder.length
  lowest : ∀ r, s.dirty.Mem r → s.currRank ≤ r
  seed : initialStates a ≤ s.entryStates
  settled : Settled (sends a dir) (dirtyBlocks body dir s.dirty) s.entryStates
  below : ∀ bound, Solution (sends a dir) (initialStates a) bound → s.entryStates ≤ bound

theorem sends_monotone (hm : MonotoneEffects a) (dir : Direction) : (sends a dir).Monotone := by
  rintro k d d' hle t e ⟨hk,ht,hp⟩
  obtain ⟨e',hee',hp'⟩ := hp.mono hm hle
  exact ⟨e',hee',hk,ht,hp'⟩

theorem Propagates.reachable (h : Propagates a .forward block state target sent) (hb : body.Reachable block) :
    body.Reachable target :=
  hb.tail (a.edges_subset _ _ _ h.mem_targets)

theorem initial_consistent (a : Analysis body D) (dir : Direction) :
    Consistent a dir (initialLoop a) ∧ (initialLoop a).dirty.Mem (initialLoop a).currRank := by
  have hs := length_pos_of_mem ((body.reversePostorder_spec.2 body.startBlock).mpr .refl)
  refine ⟨⟨rfl,fun r _ => Nat.zero_le r,le_rfl,?_,fun bound h => h.seed⟩,mem_newFilled.mpr hs⟩
  rintro k hk t e ⟨hre,-⟩
  obtain ⟨r,hr⟩ : ∃ r, ranks dir body k = some r := ranks_isSome.mpr hre
  exact absurd ⟨r,hr,mem_newFilled.mpr (ranks_eq_some.mp hr).1⟩ hk

theorem dirtyBlocks_remove (hr : ranks dir body bb = some r) (hme : ∀ j, dirty'.Mem j ↔ dirty.Mem j ∧ j ≠ r) :
    dirtyBlocks body dir dirty' = dirtyBlocks body dir dirty \ {bb} := by
  ext b
  constructor
  · rintro ⟨r',hr',hm'⟩
    obtain ⟨ho,hne⟩ := (hme r').mp hm'
    refine ⟨⟨r',hr',ho⟩,?_⟩
    rintro rfl
    exact hne (Option.mem_unique hr' hr)
  · rintro ⟨⟨r',hr',ho⟩,hne⟩
    refine ⟨r',hr',(hme r').mpr ⟨ho,?_⟩⟩
    rintro rfl
    exact hne (ranks_inj hr' hr)

variable [DecidableEq D]

section

variable (hm : MonotoneEffects a) (hswi : dir = .backward → NoSwitchIntData a) (h : Consistent a dir s)
  (hcur : s.dirty.Mem s.currRank)

include hm hswi h hcur

theorem process_spec : ∃ s', process a dir s = .ok s' ∧ Consistent a dir s' ∧ s'.currRank < s'.dirty.domainSize ∧
      Progress (s'.entryStates,dirtyBlocks body dir s'.dirty) (s.entryStates,dirtyBlocks body dir s.dirty) := by
  have hc := hcur.lt
  have hf : flip dir body s.currRank < body.reversePostorder.length := flip_lt (h.domain ▸ hc)
  obtain ⟨bb,hbb⟩ : ∃ bb, body.reversePostorder[flip dir body s.currRank]? = some bb := ⟨_,getElem?_eq_getElem hf⟩
  have hra := ranks_eq_some.mpr ⟨h.domain ▸ hc,hbb⟩
  have hre := ranks_isSome.mp ⟨_,hra⟩
  obtain ⟨dirty,hrm,hs,hdr⟩ := remove_spec hc
  obtain ⟨sent,hse,hpr⟩ := applyEffectsInBlock_spec hswi (s.entryStates bb) bb
  obtain ⟨s',hs',hk,hd⟩ := propagateAll_spec dir sent { s with dirty := dirty } (hs.trans h.domain) fun p hp hdi => by
      subst hdi
      exact ((hpr p.1 p.2).mp hp).reachable hre
  have hst : {p | p ∈ sent ∧ body.Reachable p.1} = sends a dir bb (s.entryStates bb) := by
    ext p
    simp only [sends,Set.mem_ofPred_eq,← hpr,hre,true_and]
    exact and_comm
  rw [hst,dirtyBlocks_remove hra hdr] at hd
  refine ⟨s',?_,⟨hk.domain.trans (hs.trans h.domain),?_,h.seed.trans hd.le,
    hd.settled h.settled,fun bound hb => hd.below (sends_monotone hm dir) hb (h.below bound hb)⟩,?_,
    hd.progress ⟨_,hra,hcur⟩⟩
  · simpa [process,hbb,assertSome,contains_eq hc,hcur,hrm,hse] using hs'
  · exact hk.lowest fun r hr => h.lowest r ((hdr r).mp hr).1
  · rw [hk.domain,hs]
    exact lt_of_le_of_lt hk.curr hc

theorem iteration_spec : (∃ s', iteration a dir s = .ok (.inl s') ∧ Consistent a dir s' ∧ s'.dirty.Mem s'.currRank ∧
      Progress (s'.entryStates,dirtyBlocks body dir s'.dirty) (s.entryStates,dirtyBlocks body dir s.dirty)) ∨
    ∃ entryStates, iteration a dir s = .ok (.inr entryStates) ∧
      IsLeast {value | Solution (sends a dir) (initialStates a) value} entryStates := by
  obtain ⟨s',hs',hc,hlt,hp⟩ := process_spec hm hswi h hcur
  obtain ⟨r,hr,hf⟩ := firstSetAtOrAfter_spec hlt
  cases r with
  | some rank =>
    refine .inl ⟨{ s' with currRank := rank },?_,⟨hc.domain,fun r hme => ?_,hc.seed,hc.settled,hc.below⟩,hf.2.1,hp⟩
    · simp [iteration,hs',hr,assertSome]
    · change rank ≤ r
      by_contra hlt
      exact hf.2.2 r (hc.lowest r hme) (by omega) hme
  | none =>
    have hcl : ∀ r, ¬ s'.dirty.Mem r := fun r hme => hf r (hc.lowest r hme) hme
    refine .inr ⟨s'.entryStates,?_,⟨hc.seed,fun k t e hs => ?_⟩,fun bound hb => hc.below bound hb⟩
    · simp [iteration,hs',hr,assertSome]
    · exact hc.settled k (fun ⟨r,_,hme⟩ => hcl r hme) t e hs

end

end

end Frontend.Dataflow
