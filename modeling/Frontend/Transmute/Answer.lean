import Frontend.Transmute.Inclusion

namespace Frontend.Transmute

open Library Transmute.Tree Dfa State

variable {D R T : Type} [DecidableEq R] [DecidableEq T]

theorem answer_is_inclusion (hasSafetyInvariants : D → Bool) (assume : Assume)
    (hsafety : assume.safety = true) (c : Nat) :
    (∀ (src dst : Tree D R T) (n m fuel : Nat), src.refFree → dst.refFree → Uniform n (strings src) →
    Uniform m (strings dst) →
      (fromTree (src.prune fun _ => false) c).2 ≤ c + 2 ^ 32 →
      (fromTree (dst.prune fun _ => false) (fromTree (src.prune fun _ => false) c).2).2 ≤
        (fromTree (src.prune fun _ => false) c).2 + 2 ^ 32 → m < fuel →
      ∃ a, answer hasSafetyInvariants assume src dst c fuel = .ok a ∧ (a = .yes ↔ src.isInhabited = false ∨
          if assume.validity then ∃ w ∈ strings src, resize m w ∈ strings dst
          else ∀ w ∈ strings src, resize m w ∈ strings dst)) ∧
    ∀ (t : Tree Empty R T) (n : Nat), t.refFree → Uniform n (strings t) → (fromTree t c).2 ≤ c + 2 ^ 32 →
      ((fromTree t c).1 = .error .uninhabited ↔ t.isInhabited = false) ∧
      (t.isInhabited = true → ∃ d, (fromTree t c).1 = .ok d ∧
          ∀ w, runWord d.step d.start w = some d.accept ↔ w ∈ strings t) := by
  refine ⟨fun src dst n m fuel hsc hd hn hm hc hco' hfu => ?_,fun t n hf hn hb => ?_⟩
  · obtain ⟨hss,hsf⟩ := prune_spec src hsc
    obtain ⟨hdss,hdf⟩ := prune_spec dst hd
    have hsr := prune_isInhabited hsc
    have hds := prune_isInhabited hd
    rcases fromTree_spec _ hsf c hc with ⟨hin,a,ha,hbu⟩ | ⟨hun,he⟩
    · obtain ⟨c',hc'⟩ : ∃ c', fromTree (src.prune fun _ => false) c = (.ok a,c') := ⟨_,Prod.ext ha rfl⟩
      rw [hc'] at hco' hbu
      obtain ⟨x,hx⟩ := (isInhabited_iff src hsc).mp (hsr.symm.trans hin)
      rcases fromTree_spec _ hdf c' hco' with ⟨hin',b,hb,hb'⟩ | ⟨hun',he'⟩
      · obtain ⟨c'',hc''⟩ : ∃ c'', fromTree (dst.prune fun _ => false) c' = (.ok b,c'') := ⟨_,Prod.ext hb rfl⟩
        have hL := hbu.recognizes n (hss ▸ hn)
        have hM := hb'.recognizes m (hdss ▸ hm)
        obtain ⟨ans,han,hde⟩ := MaybeTransmutableQuery.answerDfa_spec (q := ⟨a,b,assume⟩) hbu.sane hb'.sane hL hM hfu
        refine ⟨ans,?_,?_⟩
        · rw [hds] at hin'
          simpa [answer,hin,hin',hsafety,hc',hc''] using han
        · rw [hsr] at hin
          simpa [hin,hss,hdss] using hde.yes_iff
      · refine ⟨.no .dstUninhabited,?_,iff_of_false nofun ?_⟩
        · rw [hds] at hun'
          simp [answer,hin,hun']
        · rw [hsr] at hin
          rintro (ho | hf)
          · cases hin.symm.trans ho
          · rw [strings_eq_empty hd (hds ▸ hun')] at hf
            split at hf
            · obtain ⟨w,-,hw⟩ := hf
              exact hw
            · exact hf x hx
    · obtain ⟨c',hc'⟩ : ∃ c', fromTree (src.prune fun _ => false) c = (.error .uninhabited,c') :=
        ⟨_,Prod.ext he rfl⟩
      refine ⟨.yes,?_,iff_of_true rfl (.inl (hsr.symm.trans hun))⟩
      simp [answer,hun,hc']
  · rcases fromTree_spec t hf c hb with ⟨hin,d,hd,hbu⟩ | ⟨hun,he⟩
    · rw [hd,hin]
      exact ⟨iff_of_false nofun nofun,fun _ => ⟨d,rfl,(hbu.recognizes n hn).language⟩⟩
    · rw [he,hun]
      exact ⟨iff_of_true rfl rfl,nofun⟩

def boolTree : Tree Unit Unit Unit := .seq [(.def Unit.unit),.byte ⟨0,2⟩ (by decide)]

def u8Tree : Tree Unit Unit Unit := .byte ⟨0,256⟩ (by decide)

omit [DecidableEq R] [DecidableEq T] in
theorem bool_uniform : Uniform 1 (strings boolTree) := by
  rintro w ⟨u,hu,v,⟨x,⟨y,-,rfl⟩,z,hz,rfl⟩,rfl⟩
  obtain rfl : u = [] := hu
  obtain rfl : z = [] := hz
  rfl

theorem bool_to_u8_inclusion : (∃ a, answer (fun _ => true) ⟨false,false,true,false⟩ boolTree u8Tree 7 2 = .ok a ∧
    (a = .yes ↔ boolTree.isInhabited = false ∨ ∀ w ∈ strings boolTree, resize 1 w ∈ strings u8Tree)) ∧
    ∃ d, (fromTree (boolTree.prune fun _ => false) 7).1 = .ok d ∧
      ∀ w, runWord d.step d.start w = some d.accept ↔ w ∈ strings (boolTree.prune fun _ => false) := by
  have h := answer_is_inclusion (D := Unit) (R := Unit) (T := Unit) (fun _ => true) ⟨false,false,true,false⟩ rfl 7
  have hp := prune_spec boolTree ⟨trivial,trivial,trivial⟩
  refine ⟨?_,?_⟩
  · exact h.1 boolTree u8Tree 1 1 2 ⟨trivial,trivial,trivial⟩ trivial bool_uniform (by rintro w ⟨v,-,rfl⟩; rfl)
      (by decide) (by decide) (by decide)
  · exact (h.2 (boolTree.prune fun _ => false) 1 hp.2 (hp.1 ▸ bool_uniform) (by decide)).2 (by decide)

-- The counter is a `u32`: the states of a long enough sequence are not distinct.
def u8s (n : Nat) : List (Tree Empty R T) := List.replicate n (.byte ⟨0,256⟩ (by decide))

def toState (s : State) : Transitions R T := ⟨EdgeSet.new ⟨0,256⟩ s,[]⟩

-- The automaton of the first `k + 1` bytes, the states taken from 0 on.
def chain (k : Nat) : Dfa R T :=
  ⟨(new 1,toState (new 2)) :: (List.range k).map fun i => (new (2 * (i + 1)),toState (new (2 * (i + 2)))),
    new 1,new (2 * (k + 1))⟩

omit [DecidableEq R] [DecidableEq T] in
theorem chain_succ (k : Nat) : (chain (k + 1) : Dfa R T).transitions = (chain k).transitions ++
    [(new (2 * (k + 1)),toState (new (2 * (k + 2))))] := by
  simp [chain,List.range_succ]

omit [DecidableEq R] [DecidableEq T] in
theorem chain_concat (k : Nat) : concat (chain k : Dfa R T) (fromByte ⟨0,256⟩ (2 * (k + 1) + 1)).1 =
    if new (2 * (k + 1)) ∈ (chain k : Dfa R T).transitions.map Prod.fst then .error .assertion
    else .ok (chain (k + 1)) := by
  have hse : (chain k : Dfa R T).start ≠ (chain k : Dfa R T).accept := by
    intro heq
    have hm : 1 % 2 ^ 32 = (2 * (k + 1)) % 2 ^ 32 := heq
    omega
  have hot : (fromByte ⟨0,256⟩ (2 * (k + 1) + 1) : Dfa R T × Nat).1.start ≠
      (fromByte ⟨0,256⟩ (2 * (k + 1) + 1) : Dfa R T × Nat).1.accept := by
    intro heq
    have hm : (2 * (k + 1) + 1) % 2 ^ 32 = (2 * (k + 2)) % 2 ^ 32 := heq
    omega
  have he : new (2 * (k + 2)) ≠ new (2 * (k + 1) + 1) := hot.symm
  have hmo : EdgeSet.mapStates (fixState (new (2 * (k + 1))) (new (2 * (k + 1) + 1)))
      (EdgeSet.new ⟨0,256⟩ (new (2 * (k + 2)))) = EdgeSet.new ⟨0,256⟩ (new (2 * (k + 2))) := by
    simp [EdgeSet.mapStates,EdgeSet.new,Byte.isEmpty,fixState_of_ne he]
  have ha : addTransitions (fixState (chain k : Dfa R T).accept
    (fromByte ⟨0,256⟩ (2 * (k + 1) + 1) : Dfa R T × Nat).1.start)
      (chain k : Dfa R T).transitions (fromByte ⟨0,256⟩ (2 * (k + 1) + 1)).1.transitions =
      if new (2 * (k + 1)) ∈ (chain k : Dfa R T).transitions.map Prod.fst then .error .assertion
      else .ok (chain (k + 1)).transitions := by
    change addTransitions (fixState (new (2 * (k + 1))) (new (2 * (k + 1) + 1))) _
      [(new (2 * (k + 1) + 1),toState (new (2 * (k + 2))))] = _
    rw [addTransitions,fixState_start,chain_succ]
    split
    case isTrue hs =>
      rw [if_pos]
      by_contra hn
      rw [IndexMap.lookup_eq_none_iff.mpr hn] at hs
      cases hs
    case isFalse hn =>
      have hne := IndexMap.lookup_eq_none_iff.mp (Option.not_isSome_iff_eq_none.mp hn)
      rw [if_neg hne,IndexMap.insert_of_notMem hne,addTransitions,toState,hmo]
      rfl
  rw [concat,if_neg hse,if_neg hot,ha]
  by_cases ho : new (2 * (k + 1)) ∈ (chain k : Dfa R T).transitions.map Prod.fst
  · rw [if_pos ho,if_pos ho]
  · rw [if_neg ho,if_neg ho]
    rfl

theorem fromSeq_u8 (d : Dfa R T) (r c : Nat) : fromSeq d (u8s (r + 1)) c =
    match concat d (fromByte ⟨0,256⟩ c).1 with
    | .error e => (.error e,c + 2)
    | .ok dfa => fromSeq dfa (u8s r) (c + 2) := rfl

theorem fromSeq_chain (j r : Nat) (hj : j ≤ 2 ^ 31) :
    fromSeq (chain 0 : Dfa R T) (u8s (j + r)) 3 = fromSeq (chain j) (u8s r) (2 * (j + 1) + 1) := by
  induction j generalizing r with
  | zero => rw [Nat.zero_add]
  | succ j ih =>
    have hn : new (2 * (j + 1)) ∉ (chain j : Dfa R T).transitions.map Prod.fst := by
      intro hm
      rcases List.mem_cons.mp hm with heq | hm
      · have hmo : (2 * (j + 1)) % 2 ^ 32 = 1 % 2 ^ 32 := heq
        omega
      rw [List.map_map] at hm
      obtain ⟨i,hi,heq⟩ := List.mem_map.mp hm
      have hmo : (2 * (i + 1)) % 2 ^ 32 = (2 * (j + 1)) % 2 ^ 32 := heq
      have hlt := List.mem_range.mp hi
      omega
    rw [Nat.succ_add_eq_add_succ,ih (r + 1) (by omega),fromSeq_u8,chain_concat,if_neg hn]
    rfl

theorem fromSeq_chain_wrapped (hk : k = 2 ^ 31) (r c : Nat) (hc : c = 2 * (k + 1) + 1) :
    (fromSeq (chain k : Dfa R T) (u8s (r + 1)) c).1 = .error .assertion := by
  have ho : new (2 * (k + 1)) ∈ (chain k : Dfa R T).transitions.map Prod.fst := by
    have hm : (2 * (k + 1)) % 2 ^ 32 = (2 * (0 + 1)) % 2 ^ 32 := by omega
    have heq : new (2 * (k + 1)) = new (2 * (0 + 1)) := hm
    have hz : 0 ∈ List.range k := List.mem_range.mpr (by omega)
    simp only [chain,List.map_cons,List.map_map,heq]
    exact .tail _ (List.mem_map.mpr ⟨0,hz,rfl⟩)
  rw [hc,fromSeq_u8,chain_concat,if_pos ho]

theorem fromTree_u8s (hn : 2 ^ 31 + 2 ≤ n) : (fromTree (seq (u8s n) : Tree Empty R T) 0).1 = .error .assertion := by
  obtain ⟨k,hk⟩ : ∃ k : Nat, k = 2 ^ 31 := ⟨_,rfl⟩
  obtain ⟨r,rfl⟩ : ∃ r, n = k + (r + 1) + 1 := ⟨n - k - 2,by omega⟩
  have hf : fromTree (seq (u8s (k + (r + 1) + 1)) : Tree Empty R T) 0 = fromSeq (chain 0) (u8s (k + (r + 1))) 3 := by
    change fromSeq (unit 0 : Dfa R T × Nat).1 (u8s (k + (r + 1) + 1)) 1 = _
    have hu : concat (unit 0).1 (fromByte ⟨0,256⟩ 1).1 = .ok (chain 0 : Dfa R T) := if_pos rfl
    rw [fromSeq_u8,hu]
  rw [hf,fromSeq_chain k (r + 1) hk.le,fromSeq_chain_wrapped hk r _ rfl]

omit [DecidableEq R] [DecidableEq T] in
theorem u8s_spec (n : Nat) : refFreeAll (u8s n : List (Tree Empty R T)) ∧
    Uniform n (stringsSeq (u8s n : List (Tree Empty R T))) := by
  induction n with
  | zero => exact ⟨trivial,by rintro w rfl; rfl⟩
  | succ n ih =>
    refine ⟨⟨trivial,ih.1⟩,?_⟩
    rintro w ⟨u,⟨v,-,rfl⟩,x,hx,rfl⟩
    rw [List.length_append,ih.2 x hx,List.length_singleton,Nat.add_comm]

theorem long_sequence_asserts : (Tree.seq (u8s (2 ^ 31 + 2)) : Tree Empty Unit Unit).refFree ∧
    Uniform (2 ^ 31 + 2) (strings (Tree.seq (u8s (2 ^ 31 + 2)) : Tree Empty Unit Unit)) ∧
    (fromTree (Tree.seq (u8s (2 ^ 31 + 2)) : Tree Empty Unit Unit) 0).1 = .error .assertion :=
  ⟨(u8s_spec _).1,(u8s_spec _).2,fromTree_u8s le_rfl⟩

end Frontend.Transmute
