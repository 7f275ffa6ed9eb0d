import Frontend.Library.Automaton
import Frontend.Transmute.EdgeSet

namespace Frontend.Transmute

open Library List IndexMap

def Within (lo hi : Nat) (s : State) : Prop := ∃ k, lo ≤ k ∧ k < hi ∧ s = State.new k

section

variable {lo lo' mid hi hi' : Nat} {s t : State}

theorem Within.mono (h : Within lo hi s) (hlo : lo' ≤ lo) (hhi : hi ≤ hi') : Within lo' hi' s := by
  obtain ⟨k,hk,hk',rfl⟩ := h
  exact ⟨k,hlo.trans hk,by omega,rfl⟩

theorem Within.ne (hs : Within lo mid s) (ht : Within mid hi t) (hbou : hi ≤ lo + 2 ^ 32) : s ≠ t := by
  obtain ⟨j,hj,hj',rfl⟩ := hs
  obtain ⟨k,hk,hk',rfl⟩ := ht
  intro heq
  have hm : j % 2 ^ 32 = k % 2 ^ 32 := heq
  omega

end

namespace Dfa

variable {R T : Type} {lo mid hi : Nat} {a b d : Dfa R T} {s t : State} {v : Nat} {u : List Nat}

def step (d : Dfa R T) (s : State) (v : Nat) : Option State := EdgeSet.find (d.byteEdges s) v

structure Sane (lo hi : Nat) (d : Dfa R T) : Prop where
  start : Within lo hi d.start
  accept : Within lo hi d.accept
  keys : ∀ e ∈ d.transitions, Within lo hi e.1
  targets : ∀ e ∈ d.transitions, ∀ run ∈ e.2.byteTransitions, Within lo hi run.2
  runs : ∀ e ∈ d.transitions, EdgeSet.Runs 0 e.2.byteTransitions
  refs : ∀ e ∈ d.transitions, e.2.refTransitions = []
  nodup : (d.transitions.map Prod.fst).Nodup
  noKey : d.accept ∉ d.transitions.map Prod.fst

theorem Sane.mono (h : Sane lo hi d) (hlo : lo' ≤ lo) (hhi : hi ≤ hi') : Sane lo' hi' d :=
  ⟨h.start.mono hlo hhi,h.accept.mono hlo hhi,fun e he => (h.keys e he).mono hlo hhi,
    fun e he run hr => (h.targets e he run hr).mono hlo hhi,h.runs,h.refs,h.nodup,h.noKey⟩

theorem byteEdges_cases (d : Dfa R T) (s : State) :
    d.byteEdges s = [] ∨ ∃ e ∈ d.transitions, e.1 = s ∧ d.byteEdges s = e.2.byteTransitions := by
  unfold byteEdges
  cases h : d.transitions.lookup s with
  | none => exact .inl rfl
  | some t => exact .inr ⟨(s,t),mem_of_lookup h,rfl,rfl⟩

theorem Sane.byteEdges_runs (h : Sane lo hi d) (s : State) : EdgeSet.Runs 0 (d.byteEdges s) := by
  rcases d.byteEdges_cases s with heq | ⟨e,he,-,heq⟩
  · exact heq ▸ trivial
  · exact heq ▸ h.runs e he

theorem find_mem (h : EdgeSet.find runs v = some dst) : ∃ range, (range,dst) ∈ runs := by
  obtain ⟨run,hr,rfl⟩ := Option.map_eq_some_iff.mp h
  exact ⟨run.1,mem_of_find?_eq_some hr⟩

theorem Sane.step_within (h : Sane lo hi d) (hs : d.step s v = some t) : Within lo hi t := by
  obtain ⟨range,hm⟩ := find_mem hs
  rcases d.byteEdges_cases s with heq | ⟨e,he,-,heq⟩
  · rw [heq] at hm
    cases hm
  · exact h.targets e he _ (heq ▸ hm)

theorem Sane.run_within (h : Sane lo hi d) (hr : runWord d.step d.start u = some s) : Within lo hi s := by
  induction u using List.reverseRecOn generalizing s with
  | nil => exact Option.some.inj hr ▸ h.start
  | append_singleton u v _ =>
    rw [runWord_concat] at hr
    obtain ⟨t,-,hs⟩ := Option.bind_eq_some_iff.mp hr
    exact h.step_within hs

theorem Sane.accept_halts (h : Sane lo hi d) (v : Nat) : d.step d.accept v = none := by
  rw [step,byteEdges,lookup_eq_none_iff.mpr h.noKey]
  rfl

def moved (fix : State → State) (e : State × Transitions R T) : State × Transitions R T :=
  (fix e.1,⟨EdgeSet.mapStates fix e.2.byteTransitions,e.2.refTransitions.map fun edge => (edge.1,fix edge.2)⟩)

theorem addTransitions_eq (fix : State → State) (rest transitions : List (State × Transitions R T))
    (hn : ((transitions ++ rest.map (moved fix)).map Prod.fst).Nodup) :
    addTransitions fix transitions rest = .ok (transitions ++ rest.map (moved fix)) := by
  induction rest generalizing transitions with
  | nil => simp [addTransitions]
  | cons e rest ih =>
    have hne : fix e.1 ∉ transitions.map Prod.fst := by
      intro hm
      rw [map_append,map_cons,map_cons] at hn
      exact (nodup_append.mp hn).2.2 _ hm _ (.head _) rfl
    have hs := ih (transitions ++ [moved fix e]) (by simpa using hn)
    rw [addTransitions,lookup_eq_none_iff.mpr hne,insert_of_notMem hne]
    simpa [moved] using hs

theorem fixState_start : fixState s t t = s := if_pos rfl

theorem fixState_of_ne (h : x ≠ t) : fixState s t x = x := if_neg h

theorem fixState_inj (ha : Sane lo mid a) (hbou : hi ≤ lo + 2 ^ 32) (hs : Within mid hi s) (ht : Within mid hi t)
    (heq : fixState a.accept b.start s = fixState a.accept b.start t) : s = t := by
  unfold fixState at heq
  split at heq
  case isTrue h =>
    split at heq
    case isTrue h' => exact h.trans h'.symm
    case isFalse => exact absurd heq (ha.accept.ne ht hbou)
  case isFalse =>
    split at heq
    case isTrue => exact absurd heq.symm (ha.accept.ne hs hbou)
    case isFalse => exact heq

theorem fixState_within (ha : Sane lo mid a) (hs : Within mid hi s) (hlo : lo ≤ mid) (hmid : mid ≤ hi) :
    Within lo hi (fixState a.accept b.start s) := by
  unfold fixState
  split
  · exact ha.accept.mono le_rfl hmid
  · exact hs.mono hlo le_rfl

theorem fixState_ne (hs : Within mid hi s) (ht : Within lo mid t)
    (hne : t ≠ a.accept) (hbou : hi ≤ lo + 2 ^ 32) : fixState a.accept b.start s ≠ t := by
  unfold fixState
  split
  · exact hne.symm
  · exact (ht.ne hs hbou).symm

def glue (a b : Dfa R T) : Dfa R T := ⟨a.transitions ++ b.transitions.map (moved (fixState a.accept b.start)),
    a.start,b.accept⟩

theorem glue_nodup (ha : Sane lo mid a) (hb : Sane mid hi b) (hbou : hi ≤ lo + 2 ^ 32) :
    ((glue a b).transitions.map Prod.fst).Nodup := by
  rw [glue,map_append,nodup_append]
  refine ⟨ha.nodup,?_,?_⟩
  · have hk : ((b.transitions.map Prod.fst).map (fixState a.accept b.start)).Nodup := by
      refine List.Nodup.map_on (fun s hs t ht => ?_) hb.nodup
      obtain ⟨e,he,rfl⟩ := mem_map.mp hs
      obtain ⟨e',he',rfl⟩ := mem_map.mp ht
      exact fixState_inj ha hbou (hb.keys e he) (hb.keys e' he')
    rw [map_map] at hk ⊢
    exact hk
  · rintro s hs t ht rfl
    obtain ⟨e,he,rfl⟩ := mem_map.mp hs
    obtain ⟨e',he',heq⟩ := mem_map.mp ht
    obtain ⟨e'',he'',rfl⟩ := mem_map.mp he'
    refine fixState_ne (hb.keys e'' he'') (ha.keys e he) (fun hac => ha.noKey ?_) hbou heq
    exact hac ▸ mem_map_of_mem he

section

variable (ha : Sane lo mid a) (hb : Sane mid hi b) (hlo : lo ≤ mid) (hmid : mid ≤ hi) (hbou : hi ≤ lo + 2 ^ 32)

include ha hb hlo hmid hbou

theorem glue_sane (hne : b.start ≠ b.accept) : Sane lo hi (glue a b) := by
  refine ⟨ha.start.mono le_rfl hmid,hb.accept.mono hlo le_rfl,fun e he => ?_,fun e he run hr => ?_,
    fun e he => ?_,fun e he => ?_,glue_nodup ha hb hbou,fun hm => ?_⟩
  · rcases mem_append.mp he with he | he
    · exact (ha.keys e he).mono le_rfl hmid
    · obtain ⟨e',he',rfl⟩ := mem_map.mp he
      exact fixState_within ha (hb.keys e' he') hlo hmid
  · rcases mem_append.mp he with he | he
    · exact (ha.targets e he run hr).mono le_rfl hmid
    · obtain ⟨e',he',rfl⟩ := mem_map.mp he
      obtain ⟨run',hr',rfl⟩ := mem_map.mp hr
      exact fixState_within ha (hb.targets e' he' run' hr') hlo hmid
  · rcases mem_append.mp he with he | he
    · exact ha.runs e he
    · obtain ⟨e',he',rfl⟩ := mem_map.mp he
      exact (hb.runs e' he').mapStates _
  · rcases mem_append.mp he with he | he
    · exact ha.refs e he
    · obtain ⟨e',he',rfl⟩ := mem_map.mp he
      simp [moved,hb.refs e' he']
  · rw [glue,map_append,mem_append] at hm
    rcases hm with hm | hm
    · obtain ⟨e,he,heq⟩ := mem_map.mp hm
      exact (ha.keys e he).ne hb.accept hbou heq
    obtain ⟨e,he,heq⟩ := mem_map.mp hm
    obtain ⟨e',he',rfl⟩ := mem_map.mp he
    have hac : fixState a.accept b.start b.accept = b.accept := fixState_of_ne hne.symm
    have hs := fixState_inj ha hbou (hb.keys e' he') hb.accept (heq.trans hac.symm)
    exact hb.noKey (hs ▸ mem_map_of_mem he')

theorem concat_spec : ∃ d, concat a b = .ok d ∧ Sane lo hi d ∧
      (d = if a.start = a.accept then b else if b.start = b.accept then a else glue a b) := by
  refine ⟨_,?_,?_,rfl⟩
  · unfold concat
    split
    case isTrue => rfl
    case isFalse =>
      split
      case isTrue => rfl
      case isFalse => rw [addTransitions_eq _ _ _ (glue_nodup ha hb hbou),glue]
  · split
    case isTrue => exact hb.mono hlo le_rfl
    case isFalse =>
      split
      case isTrue => exact ha.mono le_rfl hmid
      case isFalse hne => exact glue_sane ha hb hlo hmid hbou hne

end

section

variable {n m : Nat} {L M : Set (List Nat)}

theorem glue_step_left (hb : Sane mid hi b) (hbou : hi ≤ lo + 2 ^ 32)
    (hs : Within lo mid s) (hne : s ≠ a.accept) (v : Nat) : (glue a b).step s v = a.step s v := by
  have hn : (b.transitions.map (moved (fixState a.accept b.start))).lookup s = none := by
    rw [IndexMap.lookup_eq_none_iff]
    intro hm
    obtain ⟨e,he,heq⟩ := mem_map.mp hm
    obtain ⟨e',he',rfl⟩ := mem_map.mp he
    exact fixState_ne (hb.keys e' he') hs hne hbou heq
  rw [step,step,byteEdges,byteEdges,glue,IndexMap.lookup_append,hn,Option.or_none]

section

variable (ha : Sane lo mid a) (hb : Sane mid hi b) (hbou : hi ≤ lo + 2 ^ 32)

include ha hb hbou

theorem glue_step_right (hs : Within mid hi s) (v : Nat) : (glue a b).step (fixState a.accept b.start s) v =
      (b.step s v).map (fixState a.accept b.start) := by
  have hn : a.transitions.lookup (fixState a.accept b.start s) = none := by
    rw [IndexMap.lookup_eq_none_iff]
    unfold fixState
    split
    case isTrue => exact ha.noKey
    case isFalse =>
      intro hm
      obtain ⟨e,he,heq⟩ := mem_map.mp hm
      exact (ha.keys e he).ne hs hbou heq
  have hl : (b.transitions.map (moved (fixState a.accept b.start))).lookup
      (fixState a.accept b.start s) = (b.transitions.lookup s).map fun t =>
        (moved (fixState a.accept b.start) (s,t)).2 := by
    refine lookup_map (fixState a.accept b.start)
      (fun t => (moved (fixState a.accept b.start) (s,t)).2) fun k hk heq => ?_
    obtain ⟨e,he,rfl⟩ := mem_map.mp hk
    exact fixState_inj ha hbou (hb.keys e he) hs heq
  rw [step,step,byteEdges,byteEdges,glue,IndexMap.lookup_append,hn,Option.none_or,hl]
  cases b.transitions.lookup s with
  | none => rfl
  | some t => exact EdgeSet.find_mapStates _

theorem glue_recognizes (hne : b.start ≠ b.accept) (hL : Recognizes a.step a.start a.accept n L)
    (hM : Recognizes b.step b.start b.accept m M) :
    Recognizes (glue a b).step (glue a b).start (glue a b).accept (n + m) {w | ∃ u ∈ L, ∃ v ∈ M, w = u ++ v} := by
  have hac : fixState a.accept b.start b.accept = b.accept := fixState_of_ne hne.symm
  have hg : Glued a.step b.step a.start a.accept b.start b.accept (glue a b).step id (fixState a.accept b.start) := by
    refine ⟨fun u s hu hs v => ?_,fun u s hu v => glue_step_right ha hb hbou (hb.run_within hu) v,
      fixState_start.symm,fun u s hu hs => ?_,fun u s hu heq => ?_⟩
    · rw [id,glue_step_left hb hbou (ha.run_within hu) hs,Option.map_id,id]
    · rw [hac]
      exact (ha.run_within hu).ne hb.accept hbou
    · exact fixState_inj ha hbou (hb.run_within hu) hb.accept heq
  have hr := hg.recognizes hL hM
  rwa [hac] at hr

theorem concat_recognizes (hL : Recognizes a.step a.start a.accept n L) (hM : Recognizes b.step b.start b.accept m M)
    (hd : d = if a.start = a.accept then b else if b.start = b.accept then a else glue a b) :
    Recognizes d.step d.start d.accept (n + m) {w | ∃ u ∈ L, ∃ v ∈ M, w = u ++ v} := by
  subst hd
  split
  case isTrue hu =>
    obtain rfl := hL.start_eq_accept_iff.mp hu
    simpa [hL.empty_word] using hM
  case isFalse =>
    split
    case isTrue hu =>
      obtain rfl := hM.start_eq_accept_iff.mp hu
      simpa [hM.empty_word] using hL
    case isFalse hne => exact glue_recognizes ha hb hbou hne hL hM

end

end

end Dfa

end Frontend.Transmute
