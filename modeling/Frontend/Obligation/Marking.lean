import Frontend.Library.Pointwise
import Frontend.Obligation.Forest

namespace Frontend.Obligation

open Library List

variable {σ O E K : Type}

def Node.reshape (n : Node O) (obligation : O) (state : NodeState) : Node O :=
  { n with obligation := obligation, state := state }

def Restate (R : NodeState → NodeState → Prop) (ns ns' : List (Node O)) : Prop :=
  ns'.length = ns.length ∧ ∀ (i : Nat) (n n' : Node O), ns[i]? = some n → ns'[i]? = some n' →
    n' = n.reshape n'.obligation n'.state ∧ R n.state n'.state

namespace Restate

variable {R R' S : NodeState → NodeState → Prop} {ns ns' ns'' : List (Node O)} {i : Nat} {n n' : Node O}

theorem back (h : Restate R ns ns') (hn : ns'[i]? = some n') :
    ∃ n, ns[i]? = some n ∧ n' = n.reshape n'.obligation n'.state ∧ R n.state n'.state := by
  have hi : i < ns.length := by
    rw [← h.1]
    exact lt_of_getElem? hn
  exact ⟨ns[i],getElem?_eq_getElem hi,h.2 i _ _ (getElem?_eq_getElem hi) hn⟩

theorem refl (hR : ∀ a, R a a) (ns : List (Node O)) : Restate R ns ns := by
  refine ⟨rfl,fun i n n' hn hn' => ?_⟩
  cases hn.symm.trans hn'
  exact ⟨rfl,hR _⟩

theorem trans (h : Restate R ns ns') (h' : Restate S ns' ns'') (hRS : ∀ a b c, R a b → S b c → R' a c) :
    Restate R' ns ns'' := by
  refine ⟨h'.1.trans h.1,fun i n n'' hn hn'' => ?_⟩
  obtain ⟨n',hn',heq',hS⟩ := h'.back hn''
  obtain ⟨heq,hR⟩ := h.2 i n n' hn hn'
  refine ⟨?_,hRS _ _ _ hR hS⟩
  rw [heq',heq]
  rfl

theorem modify (hR : ∀ a, R a a) (i : Nat) (state : NodeState) (hi : ∀ n, ns[i]? = some n → R n.state state) :
    Restate R ns (ns.modify i (Node.setState state)) := by
  refine ⟨length_modify ..,fun j n n' hn hn' => ?_⟩
  rw [getElem?_modify,hn] at hn'
  by_cases hij : i = j
  · obtain rfl : n.setState state = n' := by simpa [hij] using hn'
    exact ⟨rfl,hi n (hij ▸ hn)⟩
  · obtain rfl : n = n' := by simpa [hij] using hn'
    exact ⟨rfl,hR _⟩

theorem modifyObligation (hR : ∀ a, R a a) (i : Nat) (o : O) :
    Restate R ns (ns.modify i fun n => { n with obligation := o }) := by
  refine ⟨length_modify ..,fun j n n' hn hn' => ?_⟩
  rw [getElem?_modify,hn] at hn'
  by_cases hij : i = j
  · obtain rfl : _ = n' := by simpa [hij] using hn'
    exact ⟨rfl,hR _⟩
  · obtain rfl : n = n' := by simpa [hij] using hn'
    exact ⟨rfl,hR _⟩

end Restate

section

def Upward (p : NodeState → Prop) (todo : Nat → Prop) (ns : List (Node O)) : Prop :=
  ∀ (i : Nat) (n : Node O) (j : Nat) (m : Node O), ns[i]? = some n → p n.state → j ∈ n.dependents → ns[j]? = some m →
    p m.state ∨ todo j

variable {p : NodeState → Prop} {todo todo' : Nat → Prop} {ns : List (Node O)}

theorem Upward.mono (h : Upward p todo ns) (hs : ∀ j m, ns[j]? = some m → todo j → p m.state ∨ todo' j) :
    Upward p todo' ns := by
  intro i n j m hn hp hj hm
  rcases h i n j m hn hp hj hm with hpm | ht
  · exact .inl hpm
  · exact hs j m hm ht

theorem Upward.restate (h : Upward p todo ns) (hre : Restate R ns ns') (hR : ∀ a b, R a b → (p a ↔ p b)) :
    Upward p todo ns' := by
  intro i n' j m' hn' hp hj hm'
  obtain ⟨n,hn,heq,hRn⟩ := hre.back hn'
  obtain ⟨m,hm,-,hRm⟩ := hre.back hm'
  rw [heq] at hj
  exact (h i n j m hn ((hR _ _ hRn).mpr hp) hj hm).imp_left (hR _ _ hRm).mp

theorem Upward.modify (h : Upward p todo ns) (hs : p state) (hd : ∀ j, todo j → j = i ∨ todo' j)
    (hde : ∀ n, ns[i]? = some n → ∀ j ∈ n.dependents, todo' j) :
    Upward p todo' (ns.modify i (Node.setState state)) := by
  intro k n j m hn hp hj hm
  simp only [getElem?_modify,Option.map_eq_map,Option.map_eq_some_iff] at hn hm
  obtain ⟨n0,hn0,rfl⟩ := hn
  obtain ⟨m0,hm0,rfl⟩ := hm
  by_cases hij : i = j
  · exact .inl (by simpa [hij,Node.setState] using hs)
  by_cases hik : i = k
  · refine .inr (hde n0 (hik ▸ hn0) j ?_)
    simpa [hik,Node.setState] using hj
  simp only [hij,hik,if_false] at hp hj ⊢
  rcases h k n0 j m0 hn0 hp hj hm0 with hpm | ht
  · exact .inl hpm
  · exact .inr ((hd j ht).resolve_left (Ne.symm hij))

end

namespace ObligationForest

def toError (a b : NodeState) : Prop := b = a ∨ b = .error

theorem toError_refl (a : NodeState) : toError a a := .inl rfl

theorem toError_trans (h : toError a b) (h' : toError b c) : toError a c := by
  rcases h' with rfl | rfl
  · exact h
  · exact .inr rfl

theorem toError_error (h : toError .error b) : b = .error := h.elim id id

theorem climb_spec (h : climb fuel ns index stack trace = some (ns',stack',trace'))
    (hup : Upward (· = .error) (fun j => j = index ∨ j ∈ stack) ns) :
    Upward (· = .error) (· ∈ stack') ns' ∧ Restate toError ns ns' ∧ ∀ n, ns'[index]? = some n → n.state = .error := by
  induction fuel generalizing ns index stack trace with
  | zero => simp [climb] at h
  | succ fuel ih =>
    simp only [climb,bind_iff] at h
    obtain ⟨node,hno,h⟩ := h
    have hma : Restate toError ns (ns.modify index (Node.setState .error)) :=
      .modify toError_refl index .error fun _ _ => .inr rfl
    have hse n (hn : (ns.modify index (Node.setState .error))[index]? = some n) : n.state = .error := by
      obtain rfl : node.setState .error = n := by simpa [getElem?_modify,hno] using hn
      rfl
    split at h
    · simp only [bind_iff] at h
      obtain ⟨parent,hp,h⟩ := h
      obtain ⟨hup',hre,-⟩ := ih h (hup.modify rfl (fun j hj => hj.imp_right fun hs =>
          .inr (mem_append_right _ hs)) fun n hn j hj => by
        cases hno.symm.trans hn
        cases hd : node.dependents with
        | nil => simp [hd] at hj
        | cons d ds =>
          obtain rfl : d = parent := by simpa [hd] using hp
          simpa [hd,or_assoc] using (mem_cons.mp (hd ▸ hj)).imp_right Or.inl)
      refine ⟨hup',hma.trans hre fun _ _ _ => toError_trans,fun n hn => ?_⟩
      obtain ⟨m,hm,-,hst⟩ := hre.back hn
      rw [hse m hm] at hst
      exact toError_error hst
    · obtain ⟨rfl,rfl,-⟩ : ns.modify index (Node.setState .error) = ns' ∧
          node.dependents.reverse ++ stack = stack' ∧ trace ++ [node.obligation] = trace' := by
        simpa using h
      refine ⟨hup.modify rfl (fun j hj => hj.imp_right fun hs => mem_append_right _ hs) fun n hn j hj => ?_,hma,hse⟩
      cases hno.symm.trans hn
      exact mem_append_left _ (mem_reverse.mpr hj)

theorem drain_spec (h : drain fuel ns stack = some ns') (hup : Upward (· = .error) (· ∈ stack) ns) :
    Upward (· = .error) (fun _ => False) ns' ∧ Restate toError ns ns' := by
  induction fuel generalizing ns stack with
  | zero =>
    cases stack with
    | nil =>
      obtain rfl : ns = ns' := by simpa [drain] using h
      exact ⟨hup.mono fun j m _ hj => by simp at hj,.refl toError_refl _⟩
    | cons index stack => simp [drain] at h
  | succ fuel ih =>
    cases stack with
    | nil =>
      obtain rfl : ns = ns' := by simpa [drain] using h
      exact ⟨hup.mono fun j m _ hj => by simp at hj,.refl toError_refl _⟩
    | cons index stack =>
      simp only [drain,bind_iff] at h
      obtain ⟨node,hno,h⟩ := h
      split at h
      case isTrue hst =>
        refine ih h (hup.mono fun j m hm hj => ?_)
        rcases mem_cons.mp hj with rfl | hj
        · cases hno.symm.trans hm
          exact .inl hst
        · exact .inr hj
      case isFalse =>
        obtain ⟨hup',hre⟩ := ih h (hup.modify rfl
          (fun j hj => (mem_cons.mp hj).imp_right fun hs => mem_append_right _ hs)
          fun n hn j hj => by
            cases hno.symm.trans hn
            exact mem_append_left _ (mem_reverse.mpr hj))
        exact ⟨hup',(Restate.modify toError_refl index .error fun _ _ => .inr rfl).trans hre fun _ _ _ => toError_trans⟩

theorem errorAt_spec {f f' : ObligationForest O E K}
    (h : f.errorAt index = some (trace,f')) (hup : Upward (· = .error) (· = index) f.nodes) :
    f' = { f with nodes := f'.nodes } ∧ Upward (· = .error) (fun _ => False) f'.nodes ∧
      Restate toError f.nodes f'.nodes ∧ ∀ n, f'.nodes[index]? = some n → n.state = .error := by
  simp only [errorAt,bind_iff] at h
  obtain ⟨⟨ns,stack,trace'⟩,hc,ns',hd,h⟩ := h
  obtain ⟨rfl,rfl⟩ : trace' = trace ∧ { f with nodes := ns' } = f' := by simpa using h
  obtain ⟨hup1,hre1,hse⟩ := climb_spec hc (hup.mono fun j _ _ hj => .inr (.inl hj))
  obtain ⟨hup2,hre2⟩ := drain_spec hd hup1
  refine ⟨rfl,hup2,hre1.trans hre2 fun _ _ _ => toError_trans,fun n hn => ?_⟩
  obtain ⟨m,hm,-,hs⟩ := hre2.back hn
  rw [hse m hm] at hs
  exact toError_error hs

section

def toWaiting (a b : NodeState) : Prop := b = a ∨ a = .success ∧ b = .waiting

theorem toWaiting_refl (a : NodeState) : toWaiting a a := .inl rfl

theorem toWaiting_trans (h : toWaiting a b) (h' : toWaiting b c) : toWaiting a c := by
  rcases h with rfl | ⟨rfl,rfl⟩
  · exact h'
  · rcases h' with rfl | ⟨hb,-⟩
    · exact .inr ⟨rfl,rfl⟩
    · simp at hb

def markOne (fuel : Nat) (ns : List (Node O)) (index : Nat) : Option (List (Node O)) := do
  let node ← ns[index]?
  if node.state = .success then
    markDependentsAsWaiting fuel node.dependents (ns.modify index (Node.setState .waiting))
  else
    return ns

variable {fuel : Nat} {ns ns' : List (Node O)}

theorem markDependentsAsWaiting_spec (h : markDependentsAsWaiting fuel deps ns = some ns')
    (hup : Upward (· ≠ .success) (fun j => j ∈ deps ∨ todo j) ns) :
    Upward (· ≠ .success) todo ns' ∧ Restate toWaiting ns ns' := by
  induction fuel generalizing deps ns ns' todo with
  | zero => simp [markDependentsAsWaiting] at h
  | succ fuel ihf =>
    change deps.foldlM (markOne fuel) ns = _ at h
    induction deps generalizing ns with
    | nil =>
      obtain rfl : ns = ns' := by simpa using h
      exact ⟨hup.mono fun j m _ hj => .inr (by simpa using hj),.refl toWaiting_refl _⟩
    | cons d deps ih =>
      simp only [foldlM_cons,bind_iff] at h
      obtain ⟨ns1,ho,hr⟩ := h
      simp only [markOne,bind_iff] at ho
      obtain ⟨node,hno,ho⟩ := ho
      split at ho
      case isTrue hs =>
        have hmr : Upward (· ≠ .success) (fun j => j ∈ node.dependents ∨ (j ∈ deps ∨ todo j))
            (ns.modify d (Node.setState .waiting)) := by
          refine hup.modify (by simp) (fun j hj => ?_) fun n hn j hj => ?_
          · rcases hj with hj | hj
            · exact (mem_cons.mp hj).imp_right fun hj => .inr (.inl hj)
            · exact .inr (.inr (.inr hj))
          · cases hno.symm.trans hn
            exact .inl hj
        obtain ⟨hup1,hre1⟩ := ihf ho hmr
        obtain ⟨hup2,hre2⟩ := ih hup1 hr
        have hma : Restate toWaiting ns (ns.modify d (Node.setState .waiting)) :=
          .modify toWaiting_refl d .waiting fun n hn => by
            cases hno.symm.trans hn
            exact .inr ⟨hs,rfl⟩
        exact ⟨hup2,(hma.trans hre1 fun _ _ _ => toWaiting_trans).trans hre2 fun _ _ _ => toWaiting_trans⟩
      case isFalse hs =>
        obtain rfl : ns = ns1 := by simpa using ho
        refine ih (hup.mono fun j m hm hj => ?_) hr
        rcases hj with hj | hj
        · rcases mem_cons.mp hj with rfl | hj
          · cases hno.symm.trans hm
            exact .inl hs
          · exact .inr (.inl hj)
        · exact .inr (.inr hj)

theorem waitingToSuccess_state (node : Node O) : waitingToSuccess node =
        node.reshape (waitingToSuccess node).obligation (waitingToSuccess node).state ∧
      (node.state = .waiting ∧ (waitingToSuccess node).state = .success ∨
        node.state ≠ .waiting ∧ (waitingToSuccess node).state = node.state) := by
  unfold waitingToSuccess
  split
  case isTrue h => exact ⟨rfl,.inl ⟨h,rfl⟩⟩
  case isFalse h => exact ⟨rfl,.inr ⟨h,rfl⟩⟩

def pendingAbove (ns : List (Node O)) (k : Nat) (j : Nat) : Prop :=
  ∃ (i : Nat) (n : Node O), k ≤ i ∧ ns[i]? = some n ∧ n.state = .pending ∧ j ∈ n.dependents

def markPending (fuel : Nat) (ns : List (Node O)) (index : Nat) : Option (List (Node O)) := do
  let node ← ns[index]?
  if node.state = .pending then
    markDependentsAsWaiting fuel node.dependents ns
  else
    return ns

theorem markPending_spec (h : markPending fuel ns k = some ns')
    (hre : Restate toWaiting ns0 ns) (hup : Upward (· ≠ .success) (pendingAbove ns0 k) ns) :
    Upward (· ≠ .success) (pendingAbove ns0 (k + 1)) ns' ∧ Restate toWaiting ns0 ns' := by
  simp only [markPending,bind_iff] at h
  obtain ⟨node,hno,h⟩ := h
  obtain ⟨node0,hn0,heq,hs0⟩ := hre.back hno
  have hd : node.dependents = node0.dependents := by rw [heq]; rfl
  split at h
  case isTrue hs =>
    have ht : Upward (· ≠ .success) (fun j => j ∈ node.dependents ∨ pendingAbove ns0 (k + 1) j) ns := by
      refine hup.mono fun j m _ ⟨i,n,hi,hn,hp,hj⟩ => ?_
      rcases Nat.eq_or_lt_of_le hi with rfl | hi
      · cases hn0.symm.trans hn
        exact .inr (.inl (hd ▸ hj))
      · exact .inr (.inr ⟨i,n,hi,hn,hp,hj⟩)
    obtain ⟨hup',hre'⟩ := markDependentsAsWaiting_spec h ht
    exact ⟨hup',hre.trans hre' fun _ _ _ => toWaiting_trans⟩
  case isFalse hs =>
    obtain rfl : ns = ns' := by simpa using h
    refine ⟨hup.mono fun j m _ hj => ?_,hre⟩
    obtain ⟨i,n,hi,hn,hp,hj⟩ := hj
    rcases Nat.eq_or_lt_of_le hi with rfl | hi
    · cases hn0.symm.trans hn
      rcases hs0 with hsa | ⟨hsu,-⟩
      · exact absurd (hsa.trans hp) hs
      · simp [hp] at hsu
    · exact .inr ⟨i,n,hi,hn,hp,hj⟩

theorem markPending_fold (k : Nat) (h : (range' k m).foldlM (markPending fuel) ns = some ns')
    (hre : Restate toWaiting ns0 ns)
    (hup : Upward (· ≠ .success) (pendingAbove ns0 k) ns) :
    Upward (· ≠ .success) (pendingAbove ns0 (k + m)) ns' ∧ Restate toWaiting ns0 ns' := by
  induction m generalizing k ns with
  | zero =>
    cases h
    exact ⟨hup,hre⟩
  | succ m ih =>
    simp only [range'_succ,foldlM_cons,bind_iff] at h
    obtain ⟨ns1,ho,hr⟩ := h
    obtain ⟨hup1,hre1⟩ := markPending_spec ho hre hup
    simpa [Nat.add_right_comm,Nat.add_assoc] using ih (k + 1) hr hre1 hup1

def afterMark (a b : NodeState) : Prop := b = a ∨ (a = .success ∨ a = .waiting) ∧ (b = .success ∨ b = .waiting)

theorem afterMark_of_restart (h : a = .waiting ∧ b = .success ∨ a ≠ .waiting ∧ b = a) (h' : toWaiting b c) :
    afterMark a c := by
  rcases h with ⟨rfl,rfl⟩ | ⟨-,rfl⟩
  · rcases h' with rfl | ⟨-,rfl⟩
    · exact .inr ⟨.inr rfl,.inl rfl⟩
    · exact .inl rfl
  · rcases h' with rfl | ⟨rfl,rfl⟩
    · exact .inl rfl
    · exact .inr ⟨.inl rfl,.inr rfl⟩

theorem restate_waitingToSuccess (ns : List (Node O)) :
    Restate (fun a b => a = .waiting ∧ b = .success ∨ a ≠ .waiting ∧ b = a) ns (ns.map waitingToSuccess) := by
  refine ⟨length_map ..,fun i n n' hn hn' => ?_⟩
  obtain rfl : waitingToSuccess n = n' := by simpa [hn] using hn'
  exact waitingToSuccess_state n

theorem upward_waitingToSuccess (hup : Upward (· = .error) (fun _ => False) ns) (hd : ∀ n ∈ ns, n.state ≠ .done) :
    Upward (· ≠ .success) (pendingAbove (ns.map waitingToSuccess) 0) (ns.map waitingToSuccess) := by
  intro i n j m hn hp hj hm
  obtain ⟨n0,hn0,heq,hst⟩ := (restate_waitingToSuccess ns).back hn
  obtain ⟨m0,hm0,-,hst'⟩ := (restate_waitingToSuccess ns).back hm
  have hj0 : j ∈ n0.dependents := by
    rw [heq] at hj
    exact hj
  rcases hst with ⟨-,hs⟩ | ⟨hw,hs⟩
  · exact absurd hs hp
  cases hc : n.state with
  | pending => exact .inr ⟨i,n,Nat.zero_le _,hn,hc,hj⟩
  | success => exact absurd hc hp
  | waiting => exact absurd (hs.symm.trans hc) hw
  | done => exact absurd (hs.symm.trans hc) (hd n0 (mem_of_getElem? hn0))
  | error =>
    have hme := (hup i n0 j m0 hn0 (hs.symm.trans hc) hj0 hm0).resolve_right id
    rcases hst' with ⟨hw',-⟩ | ⟨-,hs'⟩
    · simp [hme] at hw'
    · exact .inl (by simp [hs',hme])

theorem markSuccesses_spec {f f' : ObligationForest O E K} (h : f.markSuccesses = some f')
    (hup : Upward (· = .error) (fun _ => False) f.nodes) (hd : ∀ n ∈ f.nodes, n.state ≠ .done) :
    f' = { f with nodes := f'.nodes } ∧ Upward (· ≠ .success) (fun _ => False) f'.nodes ∧
    Restate afterMark f.nodes f'.nodes := by
  simp only [markSuccesses,bind_iff] at h
  obtain ⟨ns',hf,h⟩ := h
  obtain rfl : { f with nodes := ns' } = f' := by simpa using h
  rw [range_eq_range'] at hf
  obtain ⟨hup',hre⟩ := markPending_fold 0 hf (.refl toWaiting_refl _) (upward_waitingToSuccess hup hd)
  refine ⟨rfl,hup'.mono fun j m _ hj => ?_,(restate_waitingToSuccess f.nodes).trans hre fun _ _ _ =>
    afterMark_of_restart⟩
  obtain ⟨i,n,hi,hn,-⟩ := hj
  have hlt := lt_of_getElem? hn
  simp only [length_map] at hlt
  omega

end

section

variable {P : Processor σ O E}

def NoBackedgeError (log : List (Event O E)) : Prop := ∀ uids err backtrace, Event.error uids true err backtrace ∉ log

theorem NoBackedgeError.of_prefix {log log' : List (Event O E)} (h : NoBackedgeError log') (hp : log <+: log') :
    NoBackedgeError log :=
  fun uids err backtrace hm => h uids err backtrace (hp.subset hm)

def toDone (a b : NodeState) : Prop := b = a ∨ a = .success ∧ b = .done

theorem toDone_refl (a : NodeState) : toDone a a := .inl rfl

theorem toDone_trans (h : toDone a b) (h' : toDone b c) : toDone a c := by
  rcases h with rfl | ⟨rfl,rfl⟩
  · exact h'
  · rcases h' with rfl | ⟨hb,-⟩
    · exact .inr ⟨rfl,rfl⟩
    · simp at hb

structure Cycled (f f' : ObligationForest O E K) : Prop where
  grows : f.log <+: f'.log
  quiet : NoBackedgeError f'.log → f' = { f with nodes := f'.nodes } ∧ Restate toDone f.nodes f'.nodes

theorem Cycled.refl (f : ObligationForest O E K) : Cycled f f := ⟨prefix_rfl,fun _ => ⟨rfl,.refl toDone_refl _⟩⟩

variable {f f' : ObligationForest O E K} {index : Nat} {s s' : σ}

theorem Cycled.trans {f'' : ObligationForest O E K} (h : Cycled f f') (h' : Cycled f' f'') : Cycled f f'' := by
  refine ⟨h.grows.trans h'.grows,fun hno => ?_⟩
  obtain ⟨heq',hre'⟩ := h'.quiet hno
  obtain ⟨heq,hre⟩ := h.quiet (hno.of_prefix h'.grows)
  refine ⟨?_,hre.trans hre' fun _ _ _ => toDone_trans⟩
  rw [heq',heq]

theorem errorAt_log (h : f.errorAt index = some (trace,f')) : f'.log = f.log := by
  simp only [errorAt,bind_iff] at h
  obtain ⟨⟨ns,stack,trace'⟩,-,ns',-,h⟩ := h
  obtain ⟨-,rfl⟩ : trace' = trace ∧ { f with nodes := ns' } = f' := by simpa using h
  rfl

theorem cycled_processBackedge (h : f.processBackedge P s cycle index = some (f',s')) : Cycled f f' := by
  simp only [processBackedge,bind_iff] at h
  obtain ⟨members,-,h⟩ := h
  split at h
  · cases h
    exact .refl _
  simp only [bind_iff] at h
  obtain ⟨⟨backtrace,f1⟩,he,h⟩ := h
  cases h
  refine ⟨?_,fun hno => absurd (mem_append_right _ (mem_singleton_self _)) (hno _ _ _)⟩
  exact errorAt_log he ▸ prefix_append ..

theorem cycled_foldlM (l : List α)
    (hs : ∀ f s a f' s', step (f,s) a = some (f',s') → Cycled f f')
    (h : l.foldlM step (f,s) = some (f',s')) : Cycled f f' := by
  induction l generalizing f s with
  | nil =>
    cases h
    exact .refl _
  | cons a l ih =>
    simp only [foldlM_cons,bind_iff] at h
    obtain ⟨⟨f1,s1⟩,ho,hr⟩ := h
    exact (hs _ _ _ _ _ ho).trans (ih hr)

theorem cycled_findCyclesFromNode (h : findCyclesFromNode P fuel stack (f,s) index = some (f',s')) :
    Cycled f f' ∧ (rposition stack index = none → NoBackedgeError f'.log → ∀ n, f'.nodes[index]? = some n →
    n.state ≠ .success) := by
  induction fuel generalizing stack f f' s s' index with
  | zero => simp [findCyclesFromNode] at h
  | succ fuel ih =>
    simp only [findCyclesFromNode,bind_iff] at h
    obtain ⟨node,hnd,h⟩ := h
    split at h
    case isTrue hs =>
      split at h
      case h_1 hp =>
        simp only [bind_iff] at h
        obtain ⟨⟨f1,s1⟩,hf,h⟩ := h
        obtain ⟨rfl,-⟩ : f1.setState index .done = f' ∧ s1 = s' := by simpa using h
        have hd := cycled_foldlM _ (fun f s a f' s' ho => (ih ho).1) hf
        refine ⟨⟨hd.grows,fun hno => ?_⟩,fun _ _ n hn => ?_⟩
        · obtain ⟨heq,hre⟩ := hd.quiet hno
          have hse : Restate toDone f1.nodes (f1.setState index .done).nodes := by
            refine .modify toDone_refl index .done fun n hn => ?_
            obtain ⟨n0,hn0,-,hs'⟩ := hre.back hn
            cases hnd.symm.trans hn0
            rcases hs' with hsa | ⟨-,hdo⟩
            · exact .inr ⟨hsa.trans hs,rfl⟩
            · exact .inl hdo.symm
          exact ⟨by rw [heq]; rfl,hre.trans hse fun _ _ _ => toDone_trans⟩
        · simp only [setState,getElem?_modify_eq,Option.map_eq_map,Option.map_eq_some_iff] at hn
          obtain ⟨n0,-,rfl⟩ := hn
          simp [Node.setState]
      case h_2 rpos hp => exact ⟨cycled_processBackedge h,fun hnn => by simp [hp] at hnn⟩
    case isFalse hs =>
      obtain ⟨rfl,-⟩ : f = f' ∧ s = s' := by simpa using h
      refine ⟨.refl _,fun _ _ n hn => ?_⟩
      cases hnd.symm.trans hn
      exact hs

theorem processCycles_fold {fuel m : Nat} (k : Nat) (h : (range' k m).foldlM (fun fs index => do
      let node ← fs.1.nodes[index]?
      if node.state = .success then findCyclesFromNode P fuel [] fs index
      else return fs) (f,s) = some (f',s')) :
    Cycled f f' ∧ (NoBackedgeError f'.log → ∀ i n, k ≤ i → i < k + m → f'.nodes[i]? = some n → n.state ≠ .success) := by
  induction m generalizing k f s with
  | zero =>
    obtain ⟨rfl,-⟩ : f = f' ∧ s = s' := by simpa using h
    exact ⟨.refl _,fun _ i n hk hi => by omega⟩
  | succ m ih =>
    simp only [range'_succ,foldlM_cons,bind_iff] at h
    obtain ⟨⟨f1,s1⟩,⟨node,hnd,ho⟩,hr⟩ := h
    obtain ⟨hc,hl⟩ := ih (k + 1) hr
    have hf : Cycled f f1 ∧ (NoBackedgeError f1.log → ∀ n, f1.nodes[k]? = some n → n.state ≠ .success) := by
      split at ho
      case isTrue => exact (cycled_findCyclesFromNode ho).imp_right fun h => h rfl
      case isFalse hs =>
        obtain ⟨rfl,-⟩ : f = f1 ∧ s = s1 := by simpa using ho
        refine ⟨.refl _,fun _ n hn => ?_⟩
        cases hnd.symm.trans hn
        exact hs
    refine ⟨hf.1.trans hc,fun hno i n hk hi hn => ?_⟩
    rcases Nat.eq_or_lt_of_le hk with rfl | hk
    · obtain ⟨n1,hn1,-,hs⟩ := (hc.quiet hno).2.back hn
      have hne := hf.2 (hno.of_prefix hc.grows) n1 hn1
      rcases hs with hsa | ⟨hsu,-⟩
      · exact hsa ▸ hne
      · exact absurd hsu hne
    · exact hl hno i n hk (by omega) hn

theorem processCycles_spec (h : f.processCycles P s = some (f',s')) :
    f.log <+: f'.log ∧ (NoBackedgeError f'.log → f' = { f with nodes := f'.nodes } ∧
      Restate toDone f.nodes f'.nodes ∧ ∀ n ∈ f'.nodes, n.state ≠ .success) := by
  rw [processCycles,range_eq_range'] at h
  obtain ⟨hc,hnn⟩ := processCycles_fold 0 h
  refine ⟨hc.grows,fun hno => ?_⟩
  obtain ⟨heq,hre⟩ := hc.quiet hno
  refine ⟨heq,hre,fun n hn => ?_⟩
  obtain ⟨i,hi⟩ := mem_iff_getElem?.mp hn
  refine hnn hno i n (Nat.zero_le _) ?_ hi
  have hlt := lt_of_getElem? hi
  have hl := hre.1
  omega

end

end ObligationForest

end Frontend.Obligation
