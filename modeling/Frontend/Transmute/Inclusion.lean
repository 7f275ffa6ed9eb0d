import Frontend.Transmute.FromTree
import Frontend.Transmute.Query

namespace Frontend.Transmute

open Library Transmute.Tree List Quantifier

variable {R T : Type}

def resize (n : Nat) (w : List Nat) : List Nat := w.take n ++ List.replicate (n - w.length) Byte.uninitValue

@[simp] theorem resize_zero (w : List Nat) : resize 0 w = [] := by simp [resize]

@[simp] theorem resize_nil (n : Nat) : resize (n + 1) [] = Byte.uninitValue :: resize n [] := by
  simp [resize,replicate_succ]

@[simp] theorem resize_cons (n v : Nat) (w : List Nat) : resize (n + 1) (v :: w) = v :: resize n w := by simp [resize]

structure Decides (a : Answer R T) (P : Prop) : Prop where
  settled : ∀ cond, a ≠ .if cond
  yes_iff : a = .yes ↔ P

namespace Decides

variable {a b : Answer R T} {P Q : Prop} {r : Reason T}

theorem of_yes (h : P) : Decides (.yes : Answer R T) P := ⟨fun _ => nofun,iff_of_true rfl h⟩

theorem of_no (h : ¬ P) : Decides (.no r : Answer R T) P := ⟨fun _ => nofun,iff_of_false nofun h⟩

theorem congr (h : Decides a P) (hPQ : P ↔ Q) : Decides a Q := ⟨h.settled,h.yes_iff.trans hPQ⟩

theorem cases (h : Decides a P) : (a = .yes ∧ P) ∨ (∃ r, a = .no r) ∧ ¬ P := by
  cases a with
  | yes => exact .inl ⟨rfl,h.yes_iff.mp rfl⟩
  | no r => exact .inr ⟨⟨r,rfl⟩,fun hP => nomatch h.yes_iff.mpr hP⟩
  | «if» cond => exact absurd rfl (h.settled cond)

end Decides

namespace Quantifier

def Over : Quantifier → List Prop → Prop
  | .thereExists, Ps => ∃ P ∈ Ps, P
  | .forAll, Ps => ∀ P ∈ Ps, P

variable {Inv : Cache R T → Prop} {items : List (Memo R T (Answer R T))} {Ps : List Prop}

def Answers (Inv : Cache R T → Prop) (item : Memo R T (Answer R T)) (P : Prop) : Prop :=
  ∀ cache, Inv cache → ∃ a cache', item cache = .ok (a,cache') ∧ Inv cache' ∧ Decides a P

theorem no_or_yes (r : Reason T) : (Answer.no r : Answer R T).or .yes = .yes := by cases r <;> rfl

theorem no_or_no (r r' : Reason T) : ∃ r'', (Answer.no r : Answer R T).or (.no r') = .no r'' := by
  cases r <;> exact ⟨_,rfl⟩

theorem exists_fold (h : List.Forall₂ (Answers Inv) items Ps) (r : Reason T) :
    Answers Inv (fold .thereExists (.no r) items) (∃ P ∈ Ps, P) := by
  induction h generalizing r with
  | nil => exact fun cache hin => ⟨.no r,cache,rfl,hin,.of_no (by simp)⟩
  | @cons item P items Ps hit _ ih =>
    intro cache hin
    obtain ⟨a,cache1,ha,hi1,hd⟩ := hit cache hin
    rcases hd.cases with ⟨rfl,hP⟩ | ⟨⟨r',rfl⟩,hP⟩
    · refine ⟨.yes,cache1,?_,hi1,.of_yes ⟨P,.head _,hP⟩⟩
      simp [fold,ha,combine,no_or_yes,breaks]
    obtain ⟨r'',hr⟩ := no_or_no (R := R) r r'
    obtain ⟨a,cache',hf,hin',hd'⟩ := ih r'' cache1 hi1
    refine ⟨a,cache',?_,hin',hd'.congr ?_⟩
    · simp [fold,ha,combine,hr,breaks,hf]
    · rw [exists_mem_cons_iff,or_iff_right hP]

theorem forall_fold (h : List.Forall₂ (Answers Inv) items Ps) : Answers Inv (fold .forAll .yes items) (∀ P ∈ Ps, P) := by
  induction h with
  | nil => exact fun cache hin => ⟨.yes,cache,rfl,hin,.of_yes (by simp)⟩
  | @cons item P items Ps hit _ ih =>
    intro cache hin
    obtain ⟨a,cache1,ha,hi1,hd⟩ := hit cache hin
    rcases hd.cases with ⟨rfl,hP⟩ | ⟨⟨r,rfl⟩,hP⟩
    · obtain ⟨a,cache',hf,hin',hd'⟩ := ih cache1 hi1
      refine ⟨a,cache',?_,hin',hd'.congr ?_⟩
      · simp [fold,ha,combine,Answer.and,breaks,hf]
      · rw [forall_mem_cons,and_iff_right hP]
    · refine ⟨.no r,cache1,?_,hi1,.of_no fun hal => hP (hal P (.head _))⟩
      simp [fold,ha,combine,Answer.and,breaks]

theorem apply_spec (q : Quantifier) (h : List.Forall₂ (Answers Inv) items Ps) :
    Answers Inv (q.apply items) (q.Over Ps) := by
  cases q with
  | thereExists => exact exists_fold h _
  | forAll => exact forall_fold h

end Quantifier

namespace MaybeTransmutableQuery

open Dfa

def accepted (d : Dfa R T) (s : State) : Set (List Nat) := {w | runWord d.step s w = some d.accept}

def Ranked (d : Dfa R T) (s : State) (n : Nat) : Prop := Recognizes d.step s d.accept n (accepted d s)

section

variable {d : Dfa R T} {s t : State} {n m v : Nat}

theorem Ranked.unique (h : Ranked d s n) (h' : Ranked d s m) : n = m := by
  obtain ⟨w,hw⟩ := Recognizes.nonempty h
  exact (h.length w hw).symm.trans (h'.length w hw)

theorem Ranked.accept_iff (h : Ranked d s n) : s = d.accept ↔ n = 0 := Recognizes.start_eq_accept_iff h

theorem Ranked.step (h : Ranked d s (n + 1)) (hs : d.step s v = some t) : Ranked d t n := by
  have hr : runWord d.step s [v] = some t := by simp [hs]
  have hre := Recognizes.from_reached h hr
  have hse : {w | [v] ++ w ∈ accepted d s} = accepted d t := by
    ext w
    simp [accepted,hs]
  rwa [hse] at hre

theorem mem_accepted_cons : v :: w ∈ accepted d s ↔ ∃ t, d.step s v = some t ∧ w ∈ accepted d t := by
  simp [accepted,Option.bind_eq_some_iff]

theorem Ranked.cons (h : Ranked d s (n + 1)) (hw : w ∈ accepted d s) : ∃ v u, w = v :: u := by
  cases w with
  | nil => cases h.length _ hw
  | cons v u => exact ⟨v,u,rfl⟩

theorem of_recognizes (h : Recognizes d.step s d.accept n L) : Ranked d s n ∧ accepted d s = L := by
  have hs : accepted d s = L := Set.ext h.language
  exact ⟨by rwa [Ranked,hs],hs⟩

end

variable (q : MaybeTransmutableQuery R T)

def Fits (s t : State) (m : Nat) : Prop :=
  if q.assume.validity then ∃ w ∈ accepted q.src s, resize m w ∈ accepted q.dst t
  else ∀ w ∈ accepted q.src s, resize m w ∈ accepted q.dst t

variable {q} {s t : State} {n m v : Nat} {cache cache' : Cache R T}

theorem fits_of_dst_accept (hs : Ranked q.src s n) (ht : Ranked q.dst t 0) : q.Fits s t 0 := by
  have hn w : resize 0 w ∈ accepted q.dst t := by
    rw [resize_zero,ht.empty_word]
    rfl
  unfold Fits
  split
  · obtain ⟨w,hw⟩ := Recognizes.nonempty hs
    exact ⟨w,hw,hn w⟩
  · exact fun w _ => hn w

theorem fits_extend (hs : Ranked q.src s 0) : q.Fits s t (m + 1) ↔ ∃ t', q.dst.step t Byte.uninitValue = some t' ∧
    q.Fits s t' m := by
  have hse := hs.empty_word
  unfold Fits
  rw [hse]
  split <;> simp [mem_accepted_cons]

theorem fits_cons (hs : Ranked q.src s (n + 1)) : q.Fits s t (m + 1) ↔
    if q.assume.validity then ∃ v s' t', q.src.step s v = some s' ∧ q.dst.step t v = some t' ∧ q.Fits s' t' m
    else ∀ v s', q.src.step s v = some s' → ∃ t', q.dst.step t v = some t' ∧ q.Fits s' t' m := by
  unfold Fits
  split
  case isTrue hv =>
    constructor
    · rintro ⟨w,hw,hf⟩
      obtain ⟨v,u,rfl⟩ := hs.cons hw
      rw [resize_cons] at hf
      obtain ⟨s',hs',hu⟩ := mem_accepted_cons.mp hw
      obtain ⟨t',ht',hu'⟩ := mem_accepted_cons.mp hf
      exact ⟨v,s',t',hs',ht',u,hu,hu'⟩
    · rintro ⟨v,s',t',hs',ht',u,hu,hu'⟩
      exact ⟨v :: u,mem_accepted_cons.mpr ⟨s',hs',hu⟩,resize_cons m v u ▸ mem_accepted_cons.mpr ⟨t',ht',hu'⟩⟩
  case isFalse hv =>
    constructor
    · intro h v s' hs'
      obtain ⟨u,hu⟩ := Recognizes.nonempty (hs.step hs')
      have hst u (hu : u ∈ accepted q.src s') : v :: resize m u ∈ accepted q.dst t := by
        rw [← resize_cons]
        exact h _ (mem_accepted_cons.mpr ⟨s',hs',hu⟩)
      obtain ⟨t',ht',-⟩ := mem_accepted_cons.mp (hst u hu)
      refine ⟨t',ht',fun u hu => ?_⟩
      obtain ⟨t'',ht'',hu'⟩ := mem_accepted_cons.mp (hst u hu)
      rw [ht'] at ht''
      exact Option.some.inj ht'' ▸ hu'
    · intro h w hw
      obtain ⟨v,u,rfl⟩ := hs.cons hw
      obtain ⟨s',hs',hu⟩ := mem_accepted_cons.mp hw
      obtain ⟨t',ht',hf⟩ := h v s' hs'
      rw [resize_cons]
      exact mem_accepted_cons.mpr ⟨t',ht',hf u hu⟩

def Correct (q : MaybeTransmutableQuery R T) (cache : Cache R T) : Prop :=
  ∀ e ∈ cache, ∀ n m, Ranked q.src e.1.1 n → Ranked q.dst e.1.2 m → Decides e.2 (q.Fits e.1.1 e.1.2 m)

def Fresh (q : MaybeTransmutableQuery R T) (bound : Nat) (old cache : Cache R T) : Prop :=
  ∀ k ∈ cache.map Prod.fst, k ∈ old.map Prod.fst ∨ ∃ m < bound, Ranked q.dst k.2 m

theorem Fresh.refl (bound : Nat) (cache : Cache R T) : Fresh q bound cache cache := fun _ hk => .inl hk

theorem Fresh.trans (h : Fresh q bound old cache) (h' : Fresh q bound cache cache') :
    Fresh q bound old cache' := fun k hk => (h' k hk).elim (h k) .inr

def Kept (q : MaybeTransmutableQuery R T) (bound : Nat) (old cache : Cache R T) : Prop := Correct q cache ∧
    Fresh q bound old cache

variable {memo : State → State → Memo R T (Answer R T)} {lo hi lo' hi' : Nat}

def Calls (q : MaybeTransmutableQuery R T) (m : Nat) (memo : State → State → Memo R T (Answer R T)) : Prop :=
  ∀ s t n cache, Ranked q.src s n → Ranked q.dst t m → Correct q cache →
    ∃ a cache', memo s t cache = .ok (a,cache') ∧ Kept q (m + 1) cache cache' ∧ Decides a (q.Fits s t m)

theorem Calls.answers (hm : Calls q m memo) (hs : Ranked q.src s n) (ht : Ranked q.dst t m) (old : Cache R T) :
    Answers (Kept q (m + 1) old) (memo s t) (q.Fits s t m) := by
  intro cache hk
  obtain ⟨a,cache',hc,hk',hd⟩ := hm s t n cache hs ht hk.1
  exact ⟨a,cache',hc,⟨hk'.1,hk.2.trans hk'.2⟩,hd⟩

def itemProp (q : MaybeTransmutableQuery R T) (m : Nat) (item : Byte × Option State × Option State) : Option Prop :=
  item.2.1.map fun s => ∃ t, item.2.2 = some t ∧ q.Fits s t m

theorem bytes_items (hm : Calls q m memo) (old : Cache R T) (items : List (Byte × Option State × Option State))
    (hit : ∀ item ∈ items, (∀ s, item.2.1 = some s → ∃ n, Ranked q.src s n) ∧ ∀ t, item.2.2 = some t →
    Ranked q.dst t m) :
    List.Forall₂ (Answers (Kept q (m + 1) old)) (items.filterMap (byteItem memo)) (items.filterMap (itemProp q m)) := by
  induction items with
  | nil => exact .nil
  | cons item items ih =>
    have ih := ih fun item h => hit item (.tail _ h)
    obtain ⟨hsrc,hdst⟩ := hit item (.head _)
    match item with
    | (_,none,_) => exact ih
    | (_,some s,none) =>
      refine .cons (fun cache hk => ⟨_,cache,rfl,hk,.of_no ?_⟩) ih
      rintro ⟨t,ht,-⟩
      cases ht
    | (_,some s,some t) =>
      obtain ⟨n,hs⟩ := hsrc s rfl
      refine .cons (fun cache hk => ?_) ih
      obtain ⟨a,cache',ha,hk',hd⟩ := hm.answers hs (hdst t rfl) old cache hk
      exact ⟨a,cache',ha,hk',hd.congr (by simp)⟩

theorem bytesAnswer_spec (hsrc : Sane lo hi q.src) (hdst : Sane lo' hi' q.dst) (hm : Calls q m memo)
    (hs : Ranked q.src s (n + 1)) (ht : Ranked q.dst t (m + 1)) (hc : Correct q cache) :
    ∃ a cache', q.bytesAnswer memo s t cache = .ok (a,cache') ∧ Kept q (m + 1) cache cache' ∧
    Decides a (q.Fits s t (m + 1)) := by
  obtain ⟨hr,-,hf⟩ := EdgeSet.union_spec (hsrc.byteEdges_runs s) (hdst.byteEdges_runs t)
  have hme item (hit : item ∈ union (q.src.byteEdges s) (q.dst.byteEdges t)) :
      ∃ v, item.2 = (q.src.step s v,q.dst.step t v) := by
    exact ⟨item.1.start,both_eq_some ((hf item.1.start).symm.trans (find_of_mem hr hit))⟩
  have hit v s' (hs' : q.src.step s v = some s') : ∃ range,
      (range,some s',q.dst.step t v) ∈ union (q.src.byteEdges s) (q.dst.byteEdges t) := by
    have hv := hf v
    rw [show EdgeSet.find (q.src.byteEdges s) v = some s' from hs'] at hv
    exact find_mem hv
  have han := bytes_items hm cache (union (q.src.byteEdges s) (q.dst.byteEdges t)) fun item h => by
    obtain ⟨v,hv⟩ := hme item h
    rw [hv]
    exact ⟨fun s' hs' => ⟨n,hs.step hs'⟩,fun t' ht' => ht.step ht'⟩
  obtain ⟨a,cache',ha,hk,hd⟩ := apply_spec q.srcQuantifier han cache ⟨hc,Fresh.refl (m + 1) cache⟩
  refine ⟨a,cache',ha,hk,hd.congr ?_⟩
  rw [fits_cons hs,srcQuantifier]
  have hp P : P ∈ (union (q.src.byteEdges s) (q.dst.byteEdges t)).filterMap (itemProp q m) ↔
      ∃ v s', q.src.step s v = some s' ∧ P = ∃ t', q.dst.step t v = some t' ∧ q.Fits s' t' m := by
    rw [mem_filterMap]
    constructor
    · rintro ⟨item,hm',hP⟩
      obtain ⟨v,hv⟩ := hme item hm'
      rw [itemProp,hv] at hP
      obtain ⟨s',hs',rfl⟩ := Option.map_eq_some_iff.mp hP
      exact ⟨v,s',hs',rfl⟩
    · rintro ⟨v,s',hs',rfl⟩
      obtain ⟨range,hra⟩ := hit v s' hs'
      exact ⟨_,hra,rfl⟩
  split
  · simp only [Over,hp]
    constructor
    · rintro ⟨-,⟨v,s',hs',rfl⟩,t',ht',hfi⟩
      exact ⟨v,s',t',hs',ht',hfi⟩
    · rintro ⟨v,s',t',hs',ht',hfi⟩
      exact ⟨_,⟨v,s',hs',rfl⟩,t',ht',hfi⟩
  · simp only [Over,hp]
    constructor
    · intro h v s' hs'
      exact h _ ⟨v,s',hs',rfl⟩
    · rintro h - ⟨v,s',hs',rfl⟩
      exact h v s' hs'

theorem refEdges_nil (h : Sane lo hi d) (s : State) : d.refEdges s = [] := by
  unfold refEdges
  cases hs : d.transitions.lookup s with
  | none => rfl
  | some t => exact h.refs _ (IndexMap.mem_of_lookup hs)

theorem getUninitEdgeDst_step (h : Sane lo hi d) (s : State) : d.getUninitEdgeDst s = d.step s Byte.uninitValue := by
  rw [step,← EdgeSet.getUninitEdgeDst_eq (h.byteEdges_runs s),getUninitEdgeDst,byteEdges]
  cases d.transitions.lookup s <;> rfl

theorem answerImpl_bytes (hsrc : Sane lo hi q.src) (hs : s ≠ q.src.accept)
    (ht : t ≠ q.dst.accept) (ha : q.bytesAnswer memo s t cache = .ok (a,cache')) (hd : Decides a P) :
    q.answerImpl memo s t cache = .ok (a,cache') := by
  have hr : q.refsAnswer memo s t cache' = .ok (q.srcQuantifier.init,cache') := by
    rw [refsAnswer,refEdges_nil hsrc]
    rfl
  simp only [answerImpl,if_neg ht,if_neg hs,ha,hr]
  by_cases hv : q.assume.validity = true
  · rcases hd.cases with ⟨rfl,-⟩ | ⟨⟨r,rfl⟩,-⟩
    · simp [isFinal,hv]
    · cases r <;> simp [isFinal,hv,srcQuantifier,init,Answer.or]
  · rcases hd.cases with ⟨rfl,-⟩ | ⟨⟨r,rfl⟩,-⟩
    · simp [isFinal,hv,srcQuantifier,init,Answer.and]
    · simp [isFinal,hv]

section

variable (hsrc : Sane lo hi q.src) (hdst : Sane lo' hi' q.dst)

include hsrc hdst

theorem answerImpl_spec (hm : ∀ k < m, Calls q k memo) (hs : Ranked q.src s n) (ht : Ranked q.dst t m)
    (hc : Correct q cache) :
    ∃ a cache', q.answerImpl memo s t cache = .ok (a,cache') ∧ Kept q m cache cache' ∧ Decides a (q.Fits s t m) := by
  cases m with
  | zero =>
    refine ⟨.yes,cache,?_,⟨hc,.refl 0 cache⟩,.of_yes (fits_of_dst_accept hs ht)⟩
    rw [answerImpl,if_pos (ht.accept_iff.mpr rfl)]
  | succ m =>
    have htn : t ≠ q.dst.accept := fun h => nomatch ht.accept_iff.mp h
    have hca := hm m (Nat.lt_succ_self m)
    cases n with
    | zero =>
      have hse := hs.accept_iff.mpr rfl
      rw [answerImpl,if_neg htn,if_pos hse,getUninitEdgeDst_step hdst]
      cases hst : q.dst.step t Byte.uninitValue with
      | none =>
        refine ⟨_,cache,rfl,⟨hc,.refl _ cache⟩,.of_no fun hf => ?_⟩
        obtain ⟨t',ht',-⟩ := (fits_extend hs).mp hf
        cases hst.symm.trans ht'
      | some t' =>
        obtain ⟨a,cache',ha,hk,hd⟩ := hca s t' 0 cache hs (ht.step hst) hc
        refine ⟨a,cache',ha,hk,hd.congr ?_⟩
        rw [fits_extend hs,hst]
        simp
    | succ n =>
      have hsn : s ≠ q.src.accept := fun h => nomatch hs.accept_iff.mp h
      obtain ⟨a,cache',ha,hk,hd⟩ := bytesAnswer_spec hsrc hdst hca hs ht hc
      exact ⟨a,cache',answerImpl_bytes hsrc hsn htn ha hd,hk,hd⟩

theorem answerMemo_spec (fuel m : Nat) (hf : m < fuel) : Calls q m (q.answerMemo fuel) := by
  induction fuel generalizing m with
  | zero => omega
  | succ fuel ih =>
    intro s t n cache hs ht hc
    cases hl : cache.lookup (s,t) with
    | some a =>
      refine ⟨a,cache,by rw [answerMemo,hl],⟨hc,.refl _ cache⟩,?_⟩
      exact hc _ (IndexMap.mem_of_lookup hl) n m hs ht
    | none =>
      obtain ⟨a,cache',ha,hke,hd⟩ := answerImpl_spec hsrc hdst (fun k hk => ih k (by omega)) hs ht hc
      have hn : (s,t) ∉ cache'.map Prod.fst := by
        intro hm
        rcases hke.2 _ hm with ho | ⟨k,hk,hr⟩
        · exact IndexMap.lookup_eq_none_iff.mp hl ho
        · have := hr.unique ht
          omega
      have hno := IndexMap.lookup_eq_none_iff.mpr hn
      refine ⟨a,cache' ++ [((s,t),a)],?_,⟨fun e he => ?_,fun k hk => ?_⟩,hd⟩
      · simp only [answerMemo,hl,ha,hno,IndexMap.insert_of_notMem hn]
        rfl
      · rcases mem_append.mp he with he | he
        · exact hke.1 e he
        · obtain rfl := mem_singleton.mp he
          intro n' m' _ ht'
          exact ht.unique ht' ▸ hd
      · rw [map_append] at hk
        rcases mem_append.mp hk with hk | hk
        · exact (hke.2 k hk).imp_right fun ⟨j,hj,hr⟩ => ⟨j,by omega,hr⟩
        · obtain rfl := mem_singleton.mp hk
          exact .inr ⟨m,Nat.lt_succ_self m,ht⟩

theorem answerDfa_spec (hL : Recognizes q.src.step q.src.start q.src.accept n L)
    (hM : Recognizes q.dst.step q.dst.start q.dst.accept m M) (hf : m < fuel) :
    ∃ a, q.answerDfa fuel = .ok a ∧ Decides a (if q.assume.validity then ∃ w ∈ L, resize m w ∈ M
    else ∀ w ∈ L, resize m w ∈ M) := by
  obtain ⟨hs,rfl⟩ := of_recognizes hL
  obtain ⟨ht,rfl⟩ := of_recognizes hM
  obtain ⟨a,cache,ha,-,hd⟩ := answerMemo_spec hsrc hdst fuel m hf _ _ n [] hs ht (by simp [Correct])
  exact ⟨a,by rw [answerDfa,ha]; rfl,hd⟩

end

end MaybeTransmutableQuery

end Frontend.Transmute
