import Frontend.Scc.Status

namespace Frontend.Scc

open Relation List

variable {A : Type} {G : Graph} {st : Nat → Status} {f : VisitingNodeFrame A}
  {rest fs : List (VisitingNodeFrame A)} {ret : Option (WalkReturn A)} {ss : List Nat}
  {succs : List (List Nat)}

section

variable (G : Graph)

section

variable (fs : List (VisitingNodeFrame A)) (ret : Option (WalkReturn A)) (ann : Annotations A) (n v w : Nat)

def Graph.Edge : Prop := w ∈ G.successors v

def Graph.Reach : Nat → Nat → Prop := ReflTransGen G.Edge

def VisitingNodeFrame.Entered (f : VisitingNodeFrame A) : Prop := f.successors.isSome

theorem VisitingNodeFrame.Entered.of_some (h : f.successors = some l) : f.Entered := by simp [Entered,h]

abbrev VisitingNodeFrame.opened (f : VisitingNodeFrame A) : VisitingNodeFrame A :=
  { f with successorsLen := n, successors := some (G.successors f.node) }

abbrev visit (xs : List Nat) (f : VisitingNodeFrame A) (rest : List (VisitingNodeFrame A)) :
    List (VisitingNodeFrame A) :=
  .new ann w (f.depth + 1) :: { f with successors := some xs, successorNode := w } :: rest

def leftOf (waiting : Bool) (f : VisitingNodeFrame A) : List Nat :=
  (if waiting then [f.successorNode] else []) ++ f.successors.getD (G.successors f.node)

def Pending : Prop :=
  match fs with
  | [] => False
  | f :: rest => f.node = v ∧ w ∈ leftOf G ret.isSome f ∨ ∃ g ∈ rest, g.node = v ∧ w ∈ leftOf G true g

def Explored : Prop := G.Edge v w ∧ ¬ Pending G fs ret v w

end

end

section

variable (fs : List (VisitingNodeFrame A))

section

variable (ret : Option (WalkReturn A))

def Known (a m : Nat) : Prop :=
  (∃ f ∈ fs, a ≤ f.depth ∧ f.minDepth ≤ m) ∨ ∃ m' x, ret = some (.cycle m' x) ∧ m' ≤ m

def Block (a b : Nat) : Prop :=
  (a ≤ b → Known fs ret b a) ∧ (b ≤ a → Known fs ret a b)

def Pushed (p a : Nat) : Prop :=
  ∀ h ∈ fs, h.Entered → (h.depth ≤ a → h.successorsLen ≤ p) ∧ (h.successorsLen ≤ p → Known fs ret h.depth a)

end

end

structure Condensed (G : Graph) (st : Nat → Status) (succs : List (List Nat)) : Prop where
  lt : ∀ v s, st v = .done s → s < succs.length
  inhabited : ∀ s < succs.length, ∃ v, st v = .done s
  closed : ∀ v w s : Nat, st v = .done s → G.Edge v w → ∃ t, st w = .done t ∧
    (t = s ∨ ∃ l : List Nat, succs[s]? = some l ∧ t ∈ l)
  connected : ∀ v w s, st v = .done s → st w = .done s → G.Reach v w
  nodup : ∀ (s : Nat) (l : List Nat), succs[s]? = some l → l.Nodup
  sound : ∀ (s : Nat) (l : List Nat), succs[s]? = some l → ∀ t ∈ l, t < s ∧ ∃ v w, st v = .done s ∧ G.Edge v w ∧
    st w = .done t

structure Walking (G : Graph) (st : Nat → Status) (fs : List (VisitingNodeFrame A))
    (ret : Option (WalkReturn A)) (ss : List Nat) (succs : List (List Nat)) : Prop where
  depth : ∀ (i : Nat) (f : VisitingNodeFrame A), fs[i]? = some f → f.depth + i + 1 = fs.length
  entered : ∀ g ∈ fs.tail, g.Entered
  lt : ∀ f ∈ fs, f.node < G.numNodes
  gray : ∀ f ∈ fs, f.Entered → st f.node = .active f.depth
  fresh : ∀ f ∈ fs, ¬ f.Entered → st f.node = .white ∧ ret = none
  child : ∀ (i : Nat) (f g : VisitingNodeFrame A), fs[i]? = some f → fs[i + 1]? = some g → g.successorNode = f.node
  left : ∀ v w, Pending G fs ret v w → G.Edge v w
  path : fs.Pairwise fun f g => G.Reach g.node f.node
  active : ∀ v d, st v = .active d → ∃ f ∈ fs, f.Entered ∧ f.depth = d ∧ G.Reach v f.node ∧ G.Reach f.node v
  minLe : ∀ f ∈ fs, f.minDepth ≤ f.depth
  minRoot : ∀ f ∈ fs, f.minDepth < f.depth → G.Edge f.node f.minCycleRoot ∧ st f.minCycleRoot = .active f.minDepth
  returned : ∀ f ∈ fs.head?, ∀ walk ∈ ret, match walk with
    | .cycle m _ => st f.successorNode = .active m
    | .complete s _ => st f.successorNode = .done s
  explored : ∀ v a w, st v = .active a → Explored G fs ret v w → (∃ b, st w = .active b ∧ Block fs ret a b) ∨
      ∃ s p : Nat, st w = .done s ∧ ss[p]? = some s ∧ Pushed fs ret p a
  lens : ∀ g ∈ fs, g.Entered → g.successorsLen ≤ ss.length ∧ ∀ h ∈ fs, h.Entered → g.depth ≤ h.depth →
    g.successorsLen ≤ h.successorsLen
  pushed : ∀ (p s : Nat), ss[p]? = some s → ∃ v a w, st v = .active a ∧ G.Edge v w ∧ st w = .done s ∧ Pushed fs ret p a
  condensed : Condensed G st succs

section

theorem depth_head (h : Walking G st (f :: rest) ret ss succs) : f.depth = rest.length := by
  have hd := h.depth 0 f rfl
  simp only [length_cons] at hd
  omega

variable {g : VisitingNodeFrame A} {v : Nat}

section

variable (h : Walking G st (f :: rest) ret ss succs)

include h

theorem depth_tail (hg : g ∈ rest) : g.depth < f.depth := by
  obtain ⟨i,hi⟩ := mem_iff_getElem?.mp hg
  have hd := h.depth (i + 1) g (by simpa using hi)
  rw [depth_head h]
  simp only [length_cons] at hd
  omega

theorem depth_le (hg : g ∈ f :: rest) : g.depth ≤ f.depth := by
  rcases mem_cons.mp hg with rfl | hg
  · exact Nat.le_refl _
  · exact Nat.le_of_lt (depth_tail h hg)

theorem eq_head_of_depth (hg : g ∈ f :: rest) (hd : f.depth ≤ g.depth) : g = f := by
  rcases mem_cons.mp hg with rfl | hg
  · rfl
  · have hlt := depth_tail h hg
    omega

theorem active_le (hv : st v = .active d) : d ≤ f.depth := by
  obtain ⟨g,hg,-,rfl,-⟩ := h.active v d hv
  exact depth_le h hg

theorem mem_tail_of_active (hv : st v = .active d) (hd : d ≠ f.depth) :
    ∃ g ∈ rest, g.Entered ∧ g.depth = d ∧ G.Reach v g.node ∧ G.Reach g.node v := by
  obtain ⟨g,hg,he,hgd,hr⟩ := h.active v d hv
  rcases mem_cons.mp hg with rfl | hg
  · exact absurd hgd.symm hd
  · exact ⟨g,hg,he,hgd,hr⟩

end

theorem Known.self (h : Walking G st fs ret ss succs) (hg : g ∈ fs) (ha : g.depth ≤ a) : Known fs ret g.depth a :=
  .inl ⟨g,hg,Nat.le_refl _,Nat.le_trans (h.minLe g hg) ha⟩

theorem known_top (h : Walking G st (f :: rest) none ss succs) (hk : Known (f :: rest) none f.depth a) :
    f.minDepth ≤ a := by
  rcases hk with ⟨g,hg,hd,hm⟩ | ⟨m',x,hr,-⟩
  · obtain rfl := eq_head_of_depth h hg hd
    exact hm
  · simp at hr

theorem Condensed.congr (h : Condensed G st succs)
    (hd : ∀ v s, st' v = .done s ↔ st v = .done s) : Condensed G st' succs := by
  constructor
  case lt => exact fun v s hv => h.lt v s ((hd v s).mp hv)
  case inhabited =>
    intro s hs
    obtain ⟨v,hv⟩ := h.inhabited s hs
    exact ⟨v,(hd v s).mpr hv⟩
  case closed =>
    intro v w s hv he
    obtain ⟨t,ht,hor⟩ := h.closed v w s ((hd v s).mp hv) he
    exact ⟨t,(hd w t).mpr ht,hor⟩
  case connected => exact fun v w s hv hw => h.connected v w s ((hd v s).mp hv) ((hd w s).mp hw)
  case nodup => exact h.nodup
  case sound =>
    intro s l hl t ht
    obtain ⟨hlt,v,w,hv,he,hw⟩ := h.sound s l hl t ht
    exact ⟨hlt,v,w,(hd v s).mpr hv,he,(hd w t).mpr hw⟩

theorem Condensed.reach_le (h : Condensed G st succs) (hv : st v = .done s) (hr : G.Reach v w) :
    ∃ t, st w = .done t ∧ t ≤ s := by
  induction hr with
  | refl => exact ⟨s,hv,Nat.le_refl _⟩
  | tail _ he ih =>
    obtain ⟨t,ht,hle⟩ := ih
    obtain ⟨t',ht',hor⟩ := h.closed _ _ t ht he
    refine ⟨t',ht',?_⟩
    rcases hor with rfl | ⟨l,hl,hm⟩
    · exact hle
    · exact Nat.le_trans (Nat.le_of_lt (h.sound t l hl t' hm).1) hle

end

end Frontend.Scc
