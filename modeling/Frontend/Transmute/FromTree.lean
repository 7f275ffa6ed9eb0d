import Frontend.Transmute.Strings
import Frontend.Transmute.Union

namespace Frontend.Transmute.Dfa

open Library Transmute.Tree List State

variable {R T : Type} {a d : Dfa R T} {c lo : Nat}

theorem unit_spec (c : Nat) : Sane c (c + 1) (unit c : Dfa R T × Nat).1 ∧
    Recognizes (unit c : Dfa R T × Nat).1.step (new c) (new c) 0 {[]} := by
  have hw : Within c (c + 1) (new c) := ⟨c,le_rfl,Nat.lt_succ_self c,rfl⟩
  have hs s v : (unit c : Dfa R T × Nat).1.step s v = none := rfl
  have hr w s : runWord (unit c : Dfa R T × Nat).1.step (new c) w = some s ↔ w = [] ∧ s = new c := by
    cases w with
    | nil => simp [eq_comm]
    | cons v w => simp [hs]
  refine ⟨⟨hw,hw,by simp [unit],by simp [unit],by simp [unit],by simp [unit],by simp [unit],by simp [unit]⟩,
    fun w => ?_,fun u s hu => ?_,hs _,?_⟩
  · simp [hr]
  · exact ⟨[],by rw [((hr u s).mp hu).2]; rfl⟩
  · rintro w rfl
    rfl

theorem fromByte_spec (hb : b.Valid) (c : Nat) : Sane c (c + 2) (fromByte b c : Dfa R T × Nat).1 ∧
    Recognizes (fromByte b c : Dfa R T × Nat).1.step (new c) (new (c + 1)) 1 {w | ∃ v, b.Mem v ∧ w = [v]} := by
  have hw : Within c (c + 2) (new c) := ⟨c,le_rfl,by omega,rfl⟩
  have hw' : Within c (c + 2) (new (c + 1)) := ⟨c + 1,by omega,by omega,rfl⟩
  have hne : new c ≠ new (c + 1) := by
    intro heq
    have hmo : c % 2 ^ 32 = (c + 1) % 2 ^ 32 := heq
    omega
  have ht : (fromByte b c : Dfa R T × Nat).1.transitions = [(new c,⟨EdgeSet.new b (new (c + 1)),[]⟩)] := rfl
  have hru : EdgeSet.Runs 0 (EdgeSet.new b (new (c + 1))) := .new hb
  have hs : Sane c (c + 2) (fromByte b c : Dfa R T × Nat).1 := by
    refine ⟨hw,hw',fun e he => ?_,fun e he run hr => ?_,fun e he => ?_,fun e he => ?_,?_,?_⟩
    · rw [ht,mem_singleton] at he
      exact he ▸ hw
    · rw [ht,mem_singleton] at he
      rw [he,EdgeSet.new] at hr
      split at hr
      · cases hr
      · exact mem_singleton.mp hr ▸ hw'
    · rw [ht,mem_singleton] at he
      exact he ▸ hru
    · rw [ht,mem_singleton] at he
      exact he ▸ rfl
    · rw [ht]
      exact nodup_singleton _
    · rw [ht]
      exact fun hm => hne (mem_singleton.mp hm).symm
  have hst v : (fromByte b c : Dfa R T × Nat).1.step (new c) v =
      if b.Mem v then some (new (c + 1)) else none := by
    refine Eq.trans ?_ (EdgeSet.find_new hb)
    rw [step,byteEdges,ht]
    simp
  have hh : ∀ v, (fromByte b c : Dfa R T × Nat).1.step (new (c + 1)) v = none := hs.accept_halts
  have hr : ∀ w s, runWord (fromByte b c : Dfa R T × Nat).1.step (new c) w = some s ↔
      (w = [] ∧ s = new c) ∨ ((∃ v, b.Mem v ∧ w = [v]) ∧ s = new (c + 1)) := by
    intro w s
    rcases w with _ | ⟨v,_ | ⟨x,w⟩⟩
    · simp [eq_comm]
    · by_cases hv : b.Mem v <;> simp [hst,hv,eq_comm]
    · by_cases hv : b.Mem v <;> simp [hst,hh,hv]
  refine ⟨hs,fun w => ?_,fun u s hu => ?_,hh,?_⟩
  · rw [hr]
    simp [hne.symm]
  · rcases (hr u s).mp hu with ⟨-,rfl⟩ | ⟨-,rfl⟩
    · exact ⟨[b.start],(hr _ _).mpr (.inr ⟨⟨b.start,⟨le_rfl,hb.1⟩,rfl⟩,rfl⟩)⟩
    · exact ⟨[],rfl⟩
  · rintro w ⟨v,-,rfl⟩
    rfl

section

variable [DecidableEq R] [DecidableEq T]

theorem union_counter (a b : Dfa R T) (c : Nat) : c ≤ (union a b c).2 := by
  have hm := mapped_counter a b (new c) (some a.start,some b.start) ⟨c + 1,[],[],[],[]⟩
  simp only [union]
  generalize mapped a b (new c) (some a.start,some b.start) ⟨c + 1,[],[],[],[]⟩ = r at hm
  have hl := productLoop_counter a b (new c)
    ((a.targets.length + 1) * (b.targets.length + 1)) (enqueue (some a.start,some b.start) r.2)
  rw [enqueue_counter] at hl
  have hle := hm
  split
  case h_1 h =>
    rw [h] at hl
    exact (Nat.le_succ c).trans (hle.trans hl)
  case h_2 h =>
    rw [h] at hl
    exact (Nat.le_succ c).trans (hle.trans hl)

variable {t : Tree Empty R T} {alts elts : List (Tree Empty R T)} {acc : Option (Dfa R T)} {new : Dfa R T}

theorem fromAlts_skip (h : (fromTree t c).1 = .error .uninhabited) :
    fromAlts acc (t :: alts) c = fromAlts acc alts (fromTree t c).2 := by
  have heq : fromTree t c = (.error .uninhabited,(fromTree t c).2) := Prod.ext h rfl
  rw [fromAlts,heq]

theorem fromAlts_first (h : (fromTree t c).1 = .ok new) :
    fromAlts none (t :: alts) c = fromAlts (some new) alts (fromTree t c).2 := by
  have heq : fromTree t c = (.ok new,(fromTree t c).2) := Prod.ext h rfl
  rw [fromAlts,heq]

theorem fromAlts_join (h : (fromTree t c).1 = .ok new) : fromAlts (some a) (t :: alts) c =
    match union a new (fromTree t c).2 with
    | (.error e,counter) => (.error e,counter)
    | (.ok dfa,counter) => fromAlts (some dfa) alts counter := by
  rw [fromAlts]
  generalize fromTree t c = r at h ⊢
  obtain ⟨x,c'⟩ := r
  obtain rfl : x = .ok new := h
  rfl

theorem fromSeq_stop (h : (fromTree t c).1 = .error e) : fromSeq a (t :: elts) c = (.error e,(fromTree t c).2) := by
  have heq : fromTree t c = (.error e,(fromTree t c).2) := Prod.ext h rfl
  rw [fromSeq,heq]

theorem fromSeq_next (h : (fromTree t c).1 = .ok new) : fromSeq a (t :: elts) c =
    match concat a new with
    | .error e => (.error e,(fromTree t c).2)
    | .ok dfa => fromSeq dfa elts (fromTree t c).2 := by
  rw [fromSeq]
  generalize fromTree t c = r at h ⊢
  obtain ⟨x,c'⟩ := r
  obtain rfl : x = .ok new := h
  rfl

theorem fromAlts_join_counter (ht : ∀ acc c, c ≤ (fromAlts acc alts c).2) (h : (fromTree t c).1 = .ok new) :
    (union a new (fromTree t c).2).2 ≤ (fromAlts (some a) (t :: alts) c).2 := by
  rw [fromAlts_join h]
  split
  case h_1 hu => rw [hu]
  case h_2 hu =>
    rw [hu]
    exact ht _ _

theorem fromAlts_cons_counter (acc : Option (Dfa R T)) (hta : ∀ acc c, c ≤ (fromAlts acc alts c).2) :
    (fromTree t c).2 ≤ (fromAlts acc (t :: alts) c).2 := by
  cases ht : (fromTree t c).1 with
  | ok new =>
    cases acc with
    | none => exact fromAlts_first ht ▸ hta _ _
    | some a => exact (union_counter a new _).trans (fromAlts_join_counter hta ht)
  | error e =>
    have heq : fromTree t c = (.error e,(fromTree t c).2) := Prod.ext ht rfl
    cases e with
    | uninhabited => exact fromAlts_skip ht ▸ hta _ _
    | assertion => rw [fromAlts,heq]
    | outOfFuel => rw [fromAlts,heq]

theorem fromSeq_cons_counter (hta : ∀ d c, c ≤ (fromSeq d elts c).2) :
    (fromTree t c).2 ≤ (fromSeq a (t :: elts) c).2 := by
  cases ht : (fromTree t c).1 with
  | error e => rw [fromSeq_stop ht]
  | ok new =>
    rw [fromSeq_next ht]
    split
    · exact le_rfl
    · exact hta _ _

mutual

theorem fromTree_counter : (t : Tree Empty R T) → (c : Nat) → c ≤ (fromTree t c).2
  | .byte .., c => Nat.le_add_right c 2
  | .ref _, c => Nat.le_add_right c 2
  | .alt alts, c => fromAlts_counter alts none c
  | .seq elts, c => (Nat.le_succ c).trans (fromSeq_counter elts _ (c + 1))
  | .def d , _ => nomatch d

theorem fromAlts_counter : (alts : List (Tree Empty R T)) → (acc : Option (Dfa R T)) → (c : Nat) →
    c ≤ (fromAlts acc alts c).2
  | [], none, _ => le_rfl
  | [], some _, _ => le_rfl
  | t :: alts, _, c => (fromTree_counter t c).trans (fromAlts_cons_counter _ (fromAlts_counter alts))

theorem fromSeq_counter : (elts : List (Tree Empty R T)) → (dfa : Dfa R T) → (c : Nat) → c ≤ (fromSeq dfa elts c).2
  | [], _, _ => le_rfl
  | t :: elts, _, c => (fromTree_counter t c).trans (fromSeq_cons_counter (fromSeq_counter elts))

end

end

section

variable [DecidableEq R] [DecidableEq T]

structure Builds (lo hi : Nat) (d : Dfa R T) (L : Set (List Nat)) : Prop where
  sane : Sane lo hi d
  recognizes : ∀ n, Uniform n L → Recognizes d.step d.start d.accept n L

omit [DecidableEq R] [DecidableEq T] in
theorem append_assoc_set {L M N : Set (List Nat)} : {w | ∃ u ∈ {w | ∃ u ∈ L, ∃ v ∈ M, w = u ++ v}, ∃ v ∈ N, w = u ++ v} =
      {w | ∃ u ∈ L, ∃ v ∈ {w | ∃ u ∈ M, ∃ v ∈ N, w = u ++ v}, w = u ++ v} := by
  ext w
  constructor
  · rintro ⟨-,⟨u,hu,v,hv,rfl⟩,x,hx,rfl⟩
    exact ⟨u,hu,v ++ x,⟨v,hv,x,hx,rfl⟩,append_assoc u v x⟩
  · rintro ⟨u,hu,-,⟨v,hv,x,hx,rfl⟩,rfl⟩
    exact ⟨u ++ v,⟨u,hu,v,hv,rfl⟩,x,hx,(append_assoc u v x).symm⟩

mutual

theorem fromTree_spec : (t : Tree Empty R T) → t.refFree → (c : Nat) → (fromTree t c).2 ≤ c + 2 ^ 32 →
    (t.isInhabited = true ∧ ∃ d, (fromTree t c).1 = .ok d ∧ Builds c (fromTree t c).2 d (strings t)) ∨
      (t.isInhabited = false ∧ (fromTree t c).1 = .error .uninhabited)
  | .byte b hb, _, c, _ => by
    obtain ⟨hs,hr⟩ := fromByte_spec (R := R) (T := T) hb c
    refine .inl ⟨rfl,_,rfl,hs,fun n hn => ?_⟩
    obtain rfl : 1 = n := hn [b.start] ⟨b.start,⟨le_rfl,hb.1⟩,rfl⟩
    exact hr
  | .ref _, h, _, _ => h.elim
  | .alt alts, h, c, hbo => fromAlts_none_spec alts h c hbo
  | .seq elts, h, c, hbo => by
    obtain ⟨hs,hr⟩ := unit_spec (R := R) (T := T) c
    rcases fromSeq_spec elts h (c + 1) hs (Nat.le_succ c) hbo with ⟨hin,d,hd,hs',hl⟩ | hun
    · refine .inl ⟨hin,d,hd,hs',fun n hn => ?_⟩
      have := hl 0 n {[]} hr hn
      simpa [strings] using this
    · exact .inr hun
  | .def d , _, _, _ => nomatch d

theorem fromAlts_none_spec : (alts : List (Tree Empty R T)) → refFreeAll alts → (c : Nat) →
    (fromAlts none alts c).2 ≤ c + 2 ^ 32 →
    (anyInhabited alts = true ∧ ∃ d, (fromAlts none alts c).1 = .ok d ∧ Builds c (fromAlts none alts c).2 d
    (stringsAlt alts)) ∨
      (anyInhabited alts = false ∧ (fromAlts none alts c).1 = .error .uninhabited)
  | [], _, _, _ => .inr ⟨rfl,rfl⟩
  | t :: alts, h, c, hbo => by
    have hc := fromTree_counter t c
    have hle := (fromAlts_cons_counter (t := t) (c := c) none (fromAlts_counter alts)).trans hbo
    rcases fromTree_spec t h.1 c hle with ⟨hin,new,hnw,hb⟩ | ⟨hun,he⟩
    · rw [fromAlts_first hnw] at hbo ⊢
      obtain ⟨d,hd,hs,hl⟩ := fromAlts_some_spec alts h.2 _ hb.sane hc hbo
      refine .inl ⟨by rw [anyInhabited,hin,Bool.true_or],d,hd,hs,fun n hn => ?_⟩
      exact hl n _ (hb.recognizes n fun w hw => hn w (.inl hw)) fun w hw => hn w (.inr hw)
    · rw [fromAlts_skip he] at hbo ⊢
      rw [anyInhabited,hun,Bool.false_or,stringsAlt,strings_eq_empty h.1 hun,Set.empty_union]
      rcases fromAlts_none_spec alts h.2 (fromTree t c).2 (by omega) with ⟨hin,d,hd,hb⟩ | hun
      · exact .inl ⟨hin,d,hd,hb.sane.mono hc le_rfl,hb.recognizes⟩
      · exact .inr hun

theorem fromAlts_some_spec : (alts : List (Tree Empty R T)) → refFreeAll alts → (c : Nat) → {lo : Nat} →
    {dfa : Dfa R T} → Sane lo c dfa → lo ≤ c → (fromAlts (some dfa) alts c).2 ≤ lo + 2 ^ 32 →
    ∃ d, (fromAlts (some dfa) alts c).1 = .ok d ∧ Sane lo (fromAlts (some dfa) alts c).2 d ∧
      ∀ n L, Recognizes dfa.step dfa.start dfa.accept n L → Uniform n (stringsAlt alts) →
        Recognizes d.step d.start d.accept n (L ∪ stringsAlt alts)
  | [], _, c, lo, dfa, hs, _, _ => ⟨dfa,rfl,hs,fun n L hL _ => by simpa [stringsAlt] using hL⟩
  | t :: alts, h, c, lo, dfa, hs, hlo, hb => by
    have hc := fromTree_counter t c
    have hle := (fromAlts_cons_counter (t := t) (c := c) (some dfa) (fromAlts_counter alts)).trans hb
    rcases fromTree_spec t h.1 c (by omega) with ⟨hin,new,hnw,hbu⟩ | ⟨hun,he⟩
    · have hj := (fromAlts_join_counter (a := dfa) (fromAlts_counter alts) hnw).trans hb
      have huc := union_counter dfa new (fromTree t c).2
      obtain ⟨u,hu,hus,-,reached,label,hla,hm,hst⟩ := union_spec (c := (fromTree t c).2) hs hbu.sane (by omega)
      have heq : union dfa new (fromTree t c).2 = (.ok u,(union dfa new (fromTree t c).2).2) := Prod.ext hu rfl
      have hco : fromAlts (some dfa) (t :: alts) c = fromAlts (some u) alts (union dfa new (fromTree t c).2).2 := by
        rw [fromAlts_join hnw,heq]
      rw [hco] at hb ⊢
      obtain ⟨d,hd,hds,hl⟩ := fromAlts_some_spec alts h.2 _ (hus.mono (hlo.trans hc) le_rfl) (by omega) hb
      refine ⟨d,hd,hds,fun n L hL hn => ?_⟩
      have hM := hbu.recognizes n fun w hw => hn w (.inl hw)
      rw [stringsAlt,← Set.union_assoc]
      exact hl n _ (hst ▸ hla.recognizes hL hM hm) fun w hw => hn w (.inr hw)
    · rw [fromAlts_skip he] at hb ⊢
      rw [stringsAlt,strings_eq_empty h.1 hun,Set.empty_union]
      exact fromAlts_some_spec alts h.2 _ (hs.mono le_rfl hc) (by omega) hb

theorem fromSeq_spec : (elts : List (Tree Empty R T)) → refFreeAll elts → (c : Nat) → {lo : Nat} →
    {dfa : Dfa R T} → Sane lo c dfa → lo ≤ c → (fromSeq dfa elts c).2 ≤ lo + 2 ^ 32 →
    (allInhabited elts = true ∧ ∃ d, (fromSeq dfa elts c).1 = .ok d ∧ Sane lo (fromSeq dfa elts c).2 d ∧
      ∀ m n L, Recognizes dfa.step dfa.start dfa.accept m L → Uniform n (stringsSeq elts) →
        Recognizes d.step d.start d.accept (m + n) {w | ∃ u ∈ L, ∃ v ∈ stringsSeq elts, w = u ++ v}) ∨
      (allInhabited elts = false ∧ (fromSeq dfa elts c).1 = .error .uninhabited)
  | [], _, c, lo, dfa, hs, _, _ => by
    refine .inl ⟨rfl,dfa,rfl,hs,fun m n L hL hn => ?_⟩
    obtain rfl : 0 = n := hn [] rfl
    simpa [stringsSeq] using hL
  | t :: elts, h, c, lo, dfa, hs, hlo, hb => by
    have hco := fromTree_counter t c
    have hle := (fromSeq_cons_counter (a := dfa) (t := t) (c := c) (fromSeq_counter elts)).trans hb
    rcases fromTree_spec t h.1 c (by omega) with ⟨hin,new,hne,hbu⟩ | ⟨hun,he⟩
    · obtain ⟨g,hg,hgs,hca⟩ := concat_spec hs hbu.sane hlo hco hle
      have hc : fromSeq dfa (t :: elts) c = fromSeq g elts (fromTree t c).2 := by rw [fromSeq_next hne,hg]
      rw [hc] at hb ⊢
      rw [allInhabited,hin,Bool.true_and]
      rcases fromSeq_spec elts h.2 _ hgs (by omega) hb with ⟨ha,d,hd,hds,hla⟩ | hun
      · refine .inl ⟨ha,d,hd,hds,fun m n L hL hn => ?_⟩
        obtain ⟨k,l,rfl,hk,hl⟩ := Uniform.split hn ((isInhabited_iff t h.1).mp hin) ((allInhabited_iff elts h.2).mp ha)
        have hr := hla (m + k) l _ (concat_recognizes hs hbu.sane hle hL (hbu.recognizes k hk) hca) hl
        rw [Nat.add_assoc] at hr
        rwa [append_assoc_set] at hr
      · exact .inr hun
    · rw [fromSeq_stop he]
      exact .inr ⟨by rw [allInhabited,hun,Bool.false_and],rfl⟩

end

end

end Frontend.Transmute.Dfa
