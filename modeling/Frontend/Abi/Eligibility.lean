import Frontend.Abi.Coroutine

namespace Frontend.Abi.Coroutine

open List Eligibility

variable {n : Nat} {variantFields : List (List Nat)} {conflicts : Nat → Nat → Bool} {e e' e'' : Eligibility}
  {a b l v w : Nat}

structure Coherent (e : Eligibility) : Prop where
  ineligible : ∀ l, e.ineligible l = true ↔ e.assignments l = .ineligible none
  unnumbered : ∀ l f, e.assignments l ≠ .ineligible (some f)

theorem Coherent.start : Coherent .start := ⟨fun _ => by simp [Eligibility.start],fun _ _ => by simp [Eligibility.start]⟩

theorem Coherent.remove (h : Coherent e) (l : Nat) : Coherent (e.remove l) := by
  refine ⟨fun k => ?_,fun k f => ?_⟩
  · by_cases hk : k = l
    · simp [Eligibility.remove,hk]
    · simp [Eligibility.remove,hk,h.ineligible]
  · by_cases hk : k = l
    · simp [Eligibility.remove,hk]
    · simp [Eligibility.remove,hk,h.unnumbered]

theorem Coherent.assign (h : Coherent e) (hl : e.assignments l = .unassigned) : Coherent (e.assign l (.assigned v)) := by
  have hn : e.ineligible l = false := by
    rw [Bool.eq_false_iff,ne_eq,h.ineligible,hl]
    nofun
  refine ⟨fun k => ?_,fun k f => ?_⟩
  · by_cases hk : k = l
    · simp [Eligibility.assign,hk,hn]
    · simp [Eligibility.assign,hk,h.ineligible]
  · by_cases hk : k = l
    · simp [Eligibility.assign,hk]
    · simp [Eligibility.assign,hk,h.unnumbered]

section

def listings (variantFields : List (List Nat)) : List (Nat × Nat) :=
  variantFields.zipIdx.flatMap fun v => v.1.map fun l => (v.2,l)

theorem mem_listings : (v,l) ∈ listings variantFields ↔ ∃ fields, variantFields[v]? = some fields ∧ l ∈ fields := by
  simp only [listings,mem_flatMap,mem_map,Prod.mk.injEq]
  constructor
  · rintro ⟨⟨fields,w⟩,hm,k,hk,rfl,rfl⟩
    exact ⟨fields,mem_zipIdx_iff_getElem?.mp hm,hk⟩
  · rintro ⟨fields,hv,hl⟩
    exact ⟨(fields,v),mem_zipIdx_iff_getElem?.mpr hv,l,hl,rfl,rfl⟩

theorem assignVariants_eq : assignVariants variantFields e = (listings variantFields).foldl
    (fun e p => assignLocal p.1 e p.2) e := by
  simp [assignVariants,listings,foldl_flatMap,foldl_map]

structure Assigned (done : List (Nat × Nat)) (e : Eligibility) : Prop where
  coherent : Coherent e
  unassigned : ∀ l, e.assignments l = .unassigned ↔ ∀ w, (w,l) ∉ done
  only : ∀ l v, e.assignments l = .assigned v → ∀ w, (w,l) ∈ done → w = v
  once : ∀ l v, e.assignments l = .assigned v → (done.map Prod.snd).count l = 1

variable {done : List (Nat × Nat)}

theorem count_of_unlisted (hn : ∀ w, (w,l) ∉ done) : (done.map Prod.snd).count l = 0 := by
  refine count_eq_zero.mpr fun hm => ?_
  obtain ⟨⟨w,k⟩,hp,rfl⟩ := mem_map.mp hm
  exact hn w hp

theorem Assigned.step (h : Assigned done e) (hc : Coherent e')
    (hs : ∀ k, k ≠ l → e'.assignments k = e.assignments k) (hl : e'.assignments l ≠ .unassigned)
    (hne : ∀ v', e'.assignments l = .assigned v' → v' = v ∧ ∀ w, (w,l) ∉ done) :
    Assigned (done ++ [(v,l)]) e' := by
  have hm k w (hk : k ≠ l) : ((w,k) ∈ done ++ [(v,l)] ↔ (w,k) ∈ done) := by
    simp [hk]
  refine ⟨hc,fun k => ?_,fun k v' hv' w hw => ?_,fun k v' hv' => ?_⟩
  · by_cases hk : k = l
    · subst hk
      exact iff_of_false hl fun hn => hn v (by simp)
    · rw [hs k hk,h.unassigned]
      exact forall_congr' fun w => not_congr (hm k w hk).symm
  · by_cases hk : k = l
    · subst hk
      obtain ⟨rfl,hn⟩ := hne v' hv'
      rcases mem_append.mp hw with hw | hw
      · exact absurd hw (hn w)
      · exact (Prod.mk.inj (mem_singleton.mp hw)).1
    · exact h.only k v' (hs k hk ▸ hv') w ((hm k w hk).mp hw)
  · rw [map_append,count_append]
    by_cases hk : k = l
    · subst hk
      rw [count_of_unlisted (hne v' hv').2]
      simp
    · rw [h.once k v' (hs k hk ▸ hv')]
      simp [Ne.symm hk]

theorem assignLocal_assigned (h : Assigned done e) (v l : Nat) : Assigned (done ++ [(v,l)]) (assignLocal v e l) := by
  unfold assignLocal
  split
  case h_1 hl =>
    refine h.step (h.coherent.assign hl) (fun k hk => ?_) ?_ fun v' hv' => ⟨?_,(h.unassigned l).mp hl⟩
    · simp [assign,hk]
    · simp [assign]
    · simpa [assign,eq_comm] using hv'
  case h_2 =>
    refine h.step (h.coherent.remove l) (fun k hk => ?_) ?_ fun v' hv' => ?_
    · simp [remove,hk]
    · simp [remove]
    · simp [remove] at hv'
  case h_3 f hl =>
    refine h.step h.coherent (fun k hk => rfl) ?_ fun v' hv' => ?_
    · rw [hl]
      nofun
    · cases hl.symm.trans hv'

theorem assignVariants_assigned (variantFields : List (List Nat)) :
    Assigned (listings variantFields) (assignVariants variantFields .start) := by
  rw [assignVariants_eq]
  have hs : Assigned [] .start := by
    refine ⟨.start,fun l => iff_of_true rfl fun w => not_mem_nil,?_,?_⟩
    · nofun
    · nofun
  induction listings variantFields using List.reverseRecOn with
  | nil => exact hs
  | append_singleton done p ih =>
    rw [foldl_append]
    exact assignLocal_assigned ih p.1 p.2

end

section

def Shrinks (e e' : Eligibility) : Prop :=
  ∀ l, e'.ineligible l = true ∨ (e'.assignments l = e.assignments l ∧ e'.ineligible l = e.ineligible l)

theorem Shrinks.refl (e : Eligibility) : Shrinks e e := fun _ => .inr ⟨rfl,rfl⟩

theorem Shrinks.ineligible (h : Shrinks e e') (hl : e.ineligible l = true) : e'.ineligible l = true := by
  rcases h l with h | ⟨-,h⟩
  · exact h
  · rw [h,hl]

theorem Shrinks.trans (h : Shrinks e e') (h' : Shrinks e' e'') : Shrinks e e'' := by
  intro l
  rcases h' l with h'' | ⟨ha,hin⟩
  · exact .inl h''
  · rcases h l with h | ⟨ha',hi'⟩
    · exact .inl (hin.trans h)
    · exact .inr ⟨ha.trans ha',hin.trans hi'⟩

theorem Shrinks.remove (e : Eligibility) (l : Nat) : Shrinks e (e.remove l) := by
  intro k
  by_cases hk : k = l
  · exact .inl (by simp [Eligibility.remove,hk])
  · exact .inr (by simp [Eligibility.remove,hk])

def Settled (e : Eligibility) (a b : Nat) : Prop := e.ineligible a = true ∨ e.ineligible b = true ∨
    e.assignments a = e.assignments b

theorem Settled.shrink (h : Settled e a b) (hs : Shrinks e e') : Settled e' a b := by
  rcases h with h | h | h
  · exact .inl (hs.ineligible h)
  · exact .inr (.inl (hs.ineligible h))
  · rcases hs a with ha | ⟨ha,-⟩
    · exact .inl ha
    · rcases hs b with hb | ⟨hb,-⟩
      · exact .inr (.inl hb)
      · exact .inr (.inr (ha.trans (h.trans hb.symm)))

variable (n conflicts)

theorem resolvePair_spec (a b : Nat) (e : Eligibility) : Shrinks e (resolvePair n conflicts a e b) ∧
    Settled (resolvePair n conflicts a e b) a b ∧ (Coherent e → Coherent (resolvePair n conflicts a e b)) := by
  unfold resolvePair
  split
  case isTrue h =>
    rw [Bool.or_eq_true,decide_eq_true_iff] at h
    exact ⟨.refl e,.inr h,id⟩
  case isFalse =>
    refine ⟨.remove e _,?_,fun h => h.remove _⟩
    split
    · exact .inl (by simp [remove])
    · exact .inr (.inl (by simp [remove]))

theorem resolvePairs_spec (a : Nat) (bs : List Nat) (e : Eligibility) :
    Shrinks e (bs.foldl (resolvePair n conflicts a) e) ∧
      (∀ b ∈ bs, Settled (bs.foldl (resolvePair n conflicts a) e) a b) ∧
      (Coherent e → Coherent (bs.foldl (resolvePair n conflicts a) e)) := by
  induction bs generalizing e with
  | nil => exact ⟨.refl e,nofun,id⟩
  | cons b bs ih =>
    obtain ⟨hs,hse,hc⟩ := resolvePair_spec n conflicts a b e
    obtain ⟨hs',hse',hc'⟩ := ih (resolvePair n conflicts a e b)
    refine ⟨hs.trans hs',fun b' hb' => ?_,fun h => hc' (hc h)⟩
    rcases mem_cons.mp hb' with rfl | hb'
    · exact hse.shrink hs'
    · exact hse' b' hb'

theorem resolveRow_spec (a : Nat) (e : Eligibility) : Shrinks e (resolveRow n conflicts e a) ∧
    (∀ b ∈ conflictsOf n conflicts a, Settled (resolveRow n conflicts e a) a b) ∧
    (Coherent e → Coherent (resolveRow n conflicts e a)) := by
  unfold resolveRow
  split
  case isTrue h => exact ⟨.refl e,fun b _ => .inl h,id⟩
  case isFalse => exact resolvePairs_spec n conflicts a _ e

theorem resolveRows_spec (rows : List Nat) (e : Eligibility) : Shrinks e (rows.foldl (resolveRow n conflicts) e) ∧
      (∀ a ∈ rows, ∀ b ∈ conflictsOf n conflicts a, Settled (rows.foldl (resolveRow n conflicts) e) a b) ∧
      (Coherent e → Coherent (rows.foldl (resolveRow n conflicts) e)) := by
  induction rows generalizing e with
  | nil => exact ⟨.refl e,nofun,id⟩
  | cons a rows ih =>
    obtain ⟨hs,hse,hc⟩ := resolveRow_spec n conflicts a e
    obtain ⟨hs',hse',hc'⟩ := ih (resolveRow n conflicts e a)
    refine ⟨hs.trans hs',fun a' ha' b hb => ?_,fun h => hc' (hc h)⟩
    rcases mem_cons.mp ha' with rfl | ha'
    · exact (hse b hb).shrink hs'
    · exact hse' a' ha' b hb

variable {n conflicts}

end

theorem numberLocals_assignments (locals : List Nat) (k : Nat) (e : Eligibility) (hn : locals.Nodup) (l : Nat) :
    ((locals.zipIdx k).foldl (fun e p => e.assign p.1 (.ineligible (some p.2))) e).assignments l =
      if l ∈ locals then .ineligible (some (k + locals.idxOf l)) else e.assignments l := by
  induction locals generalizing k e with
  | nil => rfl
  | cons x locals ih =>
    obtain ⟨hx,hn⟩ := nodup_cons.mp hn
    rw [zipIdx_cons,foldl_cons,ih (k + 1) _ hn]
    by_cases hl : l = x
    · subst hl
      simp [hx,assign]
    by_cases hm : l ∈ locals
    · simp only [hm,if_true,mem_cons,or_true,idxOf_cons_ne _ (Ne.symm hl)]
      congr 2
      omega
    · simp [hm,hl,assign]

theorem numberLocals_ineligible (pairs : List (Nat × Nat)) (e : Eligibility) :
    (pairs.foldl (fun e p => e.assign p.1 (.ineligible (some p.2))) e).ineligible = e.ineligible := by
  induction pairs generalizing e with
  | nil => rfl
  | cons p pairs ih => rw [foldl_cons,ih]; rfl

structure Eligible (n : Nat) (variantFields : List (List Nat)) (conflicts : Nat → Nat → Bool) (e : Eligibility) :
    Prop where
  listed : ∀ (v : Nat) (fields : List Nat) (l : Nat), variantFields[v]? = some fields → l ∈ fields →
    e.assignments l ≠ .unassigned
  only : ∀ (l v w : Nat) (fields : List Nat), e.assignments l = .assigned v → variantFields[w]? = some fields →
    l ∈ fields → w = v
  once : ∀ (l v w : Nat) (fields : List Nat), e.assignments l = .assigned v → variantFields[w]? = some fields →
    fields.count l ≤ 1
  ineligible : ∀ l, l < n → (e.ineligible l = true ↔ ∃ f, e.assignments l = .ineligible f)
  settled : ∀ a b, a < n → b < n → conflicts a b = true → Settled e a b

theorem map_snd_listings : (listings variantFields).map Prod.snd = variantFields.flatten := by
  have hr (v : List Nat × Nat) : (v.1.map fun l => (v.2,l)).map Prod.snd = v.1 := by
    rw [map_map]
    exact map_id _
  rw [listings,map_flatMap]
  simp only [hr]
  rw [flatMap_def,zipIdx_map_fst]

theorem resolveConflicts_eligible :
    Eligible n variantFields conflicts (resolveConflicts n conflicts (assignVariants variantFields .start)) ∧
      Coherent (resolveConflicts n conflicts (assignVariants variantFields .start)) := by
  have has := assignVariants_assigned variantFields
  obtain ⟨hs,hse,hc⟩ := resolveRows_spec n conflicts (List.range n) (assignVariants variantFields .start)
  replace hc := hc has.coherent
  change Eligible n variantFields conflicts ((List.range n).foldl _ _) ∧ Coherent ((List.range n).foldl _ _)
  generalize assignVariants variantFields .start = e1 at *
  generalize (List.range n).foldl (resolveRow n conflicts) e1 = e2 at *
  have hk l : e2.assignments l = .ineligible none ∨ e2.assignments l = e1.assignments l :=
    (hs l).imp (hc.ineligible l).mp And.left
  have hbe l v (hl : e2.assignments l = .assigned v) : e1.assignments l = .assigned v := by
    rcases hk l with h | h
    · cases hl.symm.trans h
    · rw [← h,hl]
  refine ⟨⟨fun v fields l hv hl => ?_,fun l v w fields hag hw hl => ?_,fun l v w fields hag hw => ?_,
    fun l _ => ⟨fun h => ⟨_,(hc.ineligible l).mp h⟩,?_⟩,fun a b ha hb hab => ?_⟩,hc⟩
  · rcases hk l with h | h
    · rw [h]
      nofun
    · rw [h,ne_eq,has.unassigned]
      exact fun hn => hn v (mem_listings.mpr ⟨fields,hv,hl⟩)
  · exact has.only l v (hbe l v hag) w (mem_listings.mpr ⟨fields,hw,hl⟩)
  · have ho := has.once l v (hbe l v hag)
    rw [map_snd_listings] at ho
    exact ((sublist_flatten_of_mem (mem_of_getElem? hw)).count_le l).trans_eq ho
  · rintro ⟨_ | f,hf⟩
    · exact (hc.ineligible l).mpr hf
    · exact absurd hf (hc.unnumbered l f)
  · exact hse a (mem_range.mpr ha) b (by simp [conflictsOf,hb,hab])

theorem Eligible.promote (h : Eligible n variantFields conflicts e) :
    Eligible n variantFields conflicts (promoteUnshared n variantFields e) := by
  unfold promoteUnshared
  split
  · refine ⟨fun _ _ _ _ _ => nofun,nofun,nofun,fun l hl => ?_,fun a _ ha _ _ => .inl (decide_eq_true ha)⟩
    exact iff_of_true (decide_eq_true hl) ⟨none,rfl⟩
  · exact h

theorem mem_ineligibleLocals : l ∈ ineligibleLocals n e ↔ l < n ∧ e.ineligible l = true := by
  rw [ineligibleLocals,mem_filter,mem_range]

theorem ineligibleLocals_numberLocals : ineligibleLocals n (numberLocals n e) = ineligibleLocals n e := by
  rw [ineligibleLocals,numberLocals,numberLocals_ineligible]
  rfl

theorem numberLocals_spec (l : Nat) : (numberLocals n e).assignments l =
    if l ∈ ineligibleLocals n e then .ineligible (some ((ineligibleLocals n e).idxOf l)) else e.assignments l := by
  rw [numberLocals,numberLocals_assignments (ineligibleLocals n e) _ _ (nodup_range.filter _)]
  simp

theorem Eligible.number (h : Eligible n variantFields conflicts e) :
    Eligible n variantFields conflicts (numberLocals n e) := by
  have hin : (numberLocals n e).ineligible = e.ineligible := numberLocals_ineligible _ e
  have has l v (hl : (numberLocals n e).assignments l = .assigned v) : e.assignments l = .assigned v := by
    rw [numberLocals_spec] at hl
    split at hl
    · cases hl
    · exact hl
  refine ⟨fun v fields l hv hl => ?_,fun l v w fields hl => h.only l v w fields (has l v hl),
    fun l v w fields hl => h.once l v w fields (has l v hl),fun l hl => ?_,fun a b ha hb hab => ?_⟩
  · rw [numberLocals_spec]
    split
    · nofun
    · exact h.listed v fields l hv hl
  · rw [hin,numberLocals_spec]
    split
    case isTrue hm => exact iff_of_true (mem_ineligibleLocals.mp hm).2 ⟨_,rfl⟩
    case isFalse => exact h.ineligible l hl
  · rw [Settled,hin]
    by_cases ha' : e.ineligible a = true
    · exact .inl ha'
    by_cases hb' : e.ineligible b = true
    · exact .inr (.inl hb')
    rw [numberLocals_spec,numberLocals_spec,if_neg fun h => ha' (mem_ineligibleLocals.mp h).2,
      if_neg fun h => hb' (mem_ineligibleLocals.mp h).2]
    rcases h.settled a b ha hb hab with h | h | h
    · exact absurd h ha'
    · exact absurd h hb'
    · exact .inr (.inr h)

theorem eligibility_spec (n : Nat) (variantFields : List (List Nat)) (conflicts : Nat → Nat → Bool) :
    Eligible n variantFields conflicts (coroutineSavedLocalEligibility n variantFields conflicts) :=
  resolveConflicts_eligible.1.promote.number

theorem eligibility_numbered (hl : l < n) (hin :
    (coroutineSavedLocalEligibility n variantFields conflicts).ineligible l = true) :
    (coroutineSavedLocalEligibility n variantFields conflicts).assignments l = .ineligible (some
      ((ineligibleLocals n (coroutineSavedLocalEligibility n variantFields conflicts)).idxOf l)) := by
  unfold coroutineSavedLocalEligibility at hin ⊢
  rw [ineligibleLocals_numberLocals,numberLocals_spec,if_pos]
  rw [numberLocals,numberLocals_ineligible] at hin
  exact mem_ineligibleLocals.mpr ⟨hl,hin⟩

end Frontend.Abi.Coroutine
