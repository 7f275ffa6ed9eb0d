import Frontend.Mir.Body

namespace Frontend.Mir

open Library List

variable {Place Operand Statement : Type}

-- The successor iterators are read from the back, so they are kept reversed.
structure Postorder (body : Body Place Operand Statement) where
  visited : Finset body.BasicBlock
  visitStack : List (body.BasicBlock × List body.BasicBlock)

namespace Postorder

variable {body : Body Place Operand Statement}

def visit (po : Postorder body) (bb : body.BasicBlock) : Postorder body :=
  if bb ∈ po.visited then po
  else
    { visited := insert bb po.visited
      visitStack := (bb,(body.successors bb).reverse) :: po.visitStack }

section

variable (po : Postorder body)

def traverseStep : Option (Postorder body) :=
  match po.visitStack with
  | (top,bb :: iter) :: stack => some (visit { po with visitStack := (top,iter) :: stack } bb)
  | _ => none

def work : Nat :=
  (po.visitStack.map fun entry => entry.2.length).sum + ∑ bb ∈ Finset.univ.filter (· ∉ po.visited),
    (body.successors bb).length

def traverseSuccessor : Postorder body := exhaust traverseStep po.work po

def new (root : body.BasicBlock) : Postorder body := traverseSuccessor (visit { visited := ∅, visitStack := [] } root)

def next : Option (body.BasicBlock × Postorder body) :=
  match po.visitStack with
  | [] => none
  | (bb,_) :: stack => some (bb,traverseSuccessor { po with visitStack := stack })

end

def collect : Nat → Postorder body → List body.BasicBlock
  | 0, _ => []
  | fuel + 1, po =>
    match po.next with
    | none => []
    | some (bb,po) => bb :: collect fuel po

structure Searching (soon out : List body.BasicBlock) (po : Postorder body) : Prop where
  nodup : (po.visitStack.map Prod.fst ++ out).Nodup
  visited : ∀ b, b ∈ po.visited ↔ b ∈ po.visitStack.map Prod.fst ∨ b ∈ out
  start : body.startBlock ∈ po.visited ∨ body.startBlock ∈ soon
  reachable : ∀ b, b ∈ po.visited ∨ b ∈ soon → body.Reachable b
  iter : ∀ e ∈ po.visitStack, e.2 ⊆ body.successors e.1
  pending : ∀ e ∈ po.visitStack, ∀ c ∈ body.successors e.1, c ∈ po.visited ∨ c ∈ soon ∨ c ∈ e.2
  closed : ∀ b ∈ out, ∀ c ∈ body.successors b, c ∈ po.visited ∨ c ∈ soon

section

variable {soon out : List body.BasicBlock} {po po' : Postorder body} {bb : body.BasicBlock}

theorem mem_visit : b ∈ (po.visit bb).visited ↔ b ∈ po.visited ∨ b = bb := by
  unfold visit
  split
  case isTrue h =>
    constructor
    · exact .inl
    · rintro (hb | rfl)
      · exact hb
      · exact h
  case isFalse => simp [or_comm]

theorem Searching.visit (h : Searching [bb] out po) : Searching [] out (po.visit bb) := by
  have hm : ∀ c, c ∈ po.visited ∨ c ∈ [bb] ↔ c ∈ (po.visit bb).visited ∨ c ∈ [] := by simp [mem_visit]
  refine ⟨?_,fun b => ?_,(hm _).mp h.start,fun b hb => h.reachable b ((hm b).mpr hb),?_,?_,
    fun b hb c hc => (hm c).mp (h.closed b hb c hc)⟩
  all_goals simp only [Postorder.visit]
  all_goals split
  case refine_1.isTrue => exact h.nodup
  case refine_2.isTrue => exact h.visited b
  case refine_3.isTrue => exact h.iter
  case refine_4.isTrue ho =>
    intro e he c hc
    rcases h.pending e he c hc with hc | hc | hc
    · exact .inl hc
    · exact .inl (mem_singleton.mp hc ▸ ho)
    · exact .inr (.inr hc)
  case refine_1.isFalse hn =>
    refine nodup_cons.mpr ⟨fun hm => hn ?_,h.nodup⟩
    exact (h.visited bb).mpr (mem_append.mp hm)
  case refine_2.isFalse => simp [h.visited b,or_assoc]
  case refine_3.isFalse => exact forall_mem_cons.mpr ⟨fun c hc => mem_reverse.mp hc,h.iter⟩
  case refine_4.isFalse =>
    intro e he c hc
    rcases mem_cons.mp he with rfl | he
    · exact .inr (.inr (mem_reverse.mpr hc))
    rcases h.pending e he c hc with hc | hc | hc
    · exact .inl (Finset.mem_insert_of_mem hc)
    · exact .inl (Finset.mem_insert.mpr (.inl (mem_singleton.mp hc)))
    · exact .inr (.inr hc)

theorem visit_work : (po.visit bb).work ≤ po.work := by
  unfold visit
  split
  case isTrue => exact le_rfl
  case isFalse hn =>
    have hf : Finset.univ.filter (· ∉ insert bb po.visited) = (Finset.univ.filter (· ∉ po.visited)).erase bb := by
      ext b
      simp
    have hs := Finset.sum_erase_add (Finset.univ.filter (· ∉ po.visited))
      (fun b => (body.successors b).length) (a := bb) (by simpa using hn)
    simp only [work,hf,map_cons,sum_cons,length_reverse]
    omega

theorem Searching.step (h : Searching [] out po) (hs : po.traverseStep = some po') :
    Searching [] out po' ∧ po'.work < po.work := by
  unfold traverseStep at hs
  split at hs
  case h_2 => cases hs
  rename_i top bb iter stack hst
  cases hs
  have ht : (top,bb :: iter) ∈ po.visitStack := hst ▸ (.head _)
  have ho e (he : e ∈ stack) : e ∈ po.visitStack := hst ▸ .tail _ he
  have hm : po.visitStack.map Prod.fst = top :: stack.map Prod.fst := by rw [hst,map_cons]
  have hed := h.iter _ ht (.head _)
  have hr := h.reachable top (.inl ((h.visited top).mpr (.inl (by simp [hm]))))
  refine ⟨Searching.visit ⟨?_,fun b => ?_,h.start.imp_right (by simp),fun b hb => ?_,fun e he => ?_,
    fun e he c hc => ?_,fun b hb c hc => (h.closed b hb c hc).imp_right (by simp)⟩,
      lt_of_le_of_lt visit_work (by simp [work,hst])⟩
  · simpa [hm] using h.nodup
  · simpa [hm] using h.visited b
  · rcases hb with hb | hb
    · exact h.reachable b (.inl hb)
    · exact mem_singleton.mp hb ▸ hr.tail hed
  · rcases mem_cons.mp he with rfl | he
    · exact fun c hc => h.iter _ ht (.tail _ hc)
    · exact h.iter e (ho e he)
  · rcases mem_cons.mp he with rfl | he
    · have := h.pending _ ht c hc
      simpa using this
    · exact (h.pending e (ho e he) c hc).imp_right (.imp_left (by simp))

theorem Searching.traverseSuccessor (h : Searching [] out po) :
    Searching [] out po.traverseSuccessor ∧ po.traverseSuccessor.traverseStep = none :=
  exhaust_spec work (fun _ _ => Searching.step) _ h le_rfl

theorem Searching.new (body : Body Place Operand Statement) : Searching [] [] (new body.startBlock) ∧
    (Postorder.new body.startBlock).traverseStep = none := by
  refine Searching.traverseSuccessor (Searching.visit ⟨?_,?_,?_,?_,?_,?_,?_⟩)
  all_goals simp
  exact .refl

theorem Searching.next (h : Searching [] out po) (hd : po.traverseStep = none)
    (hn : po.next = some (bb,po')) : Searching [] (bb :: out) po' ∧ po'.traverseStep = none := by
  unfold Postorder.next at hn
  split at hn
  · cases hn
  rename_i top iter stack hs
  obtain ⟨rfl,rfl⟩ := Prod.mk.inj (Option.some.inj hn)
  obtain rfl : iter = [] := by
    cases iter with
    | nil => rfl
    | cons => simp [traverseStep,hs] at hd
  have ht := hs ▸ mem_cons_self
  have ho e (he : e ∈ stack) : e ∈ po.visitStack := hs ▸ mem_cons_of_mem _ he
  have hm : po.visitStack.map Prod.fst = top :: stack.map Prod.fst := by rw [hs,map_cons]
  refine Searching.traverseSuccessor ⟨?_,fun b => ?_,h.start,h.reachable,
    fun e he => h.iter e (ho e he),fun e he => h.pending e (ho e he),fun b hb c hc => ?_⟩
  · refine (perm_middle.symm.nodup_iff).mp ?_
    simpa [hm] using h.nodup
  · simp [h.visited b,hm,or_assoc,or_left_comm]
  · rcases mem_cons.mp hb with rfl | hb
    · simpa using h.pending _ ht c hc
    · exact h.closed b hb c hc

theorem Searching.finished (h : Searching [] out po) (he : po.visitStack = []) : out.Nodup ∧ ∀ b, b ∈ out ↔
    body.Reachable b := by
  have hv b : b ∈ po.visited ↔ b ∈ out := by
    simp [h.visited b,he]
  refine ⟨by simpa [he] using h.nodup,fun b => ⟨fun hb => ?_,fun hb => ?_⟩⟩
  · exact h.reachable b (.inl ((hv b).mpr hb))
  · unfold Body.Reachable at hb
    induction hb with
    | refl => exact (hv _).mp (by simpa using h.start)
    | tail _ hed ih => exact (hv _).mp (by simpa using h.closed _ ih _ hed)

theorem Searching.collect (fuel : Nat) (h : Searching [] out po) (hd : po.traverseStep = none)
    (hf : body.numBlocks ≤ fuel + out.length) :
    ((po.collect fuel).reverse ++ out).Nodup ∧ ∀ b, b ∈ (po.collect fuel).reverse ++ out ↔ body.Reachable b := by
  induction fuel generalizing out po with
  | zero =>
    have hc := h.nodup.length_le_card
    rw [length_append,Fintype.card_fin,length_map] at hc
    simpa [Postorder.collect] using h.finished (eq_nil_of_length_eq_zero (by omega))
  | succ fuel ih =>
    cases hn : po.next with
    | none =>
      have he : po.visitStack = [] := by
        unfold Postorder.next at hn
        split at hn
        case h_1 hs => exact hs
        case h_2 => cases hn
      simpa [Postorder.collect,hn] using h.finished he
    | some entry =>
      obtain ⟨bb,po'⟩ := entry
      obtain ⟨h',hd'⟩ := h.next hd hn
      simpa [Postorder.collect,hn] using ih h' hd' (by rw [length_cons]; omega)

end

end Postorder

namespace Body

variable (body : Body Place Operand Statement)

def reversePostorder : List body.BasicBlock := ((Postorder.new body.startBlock).collect body.numBlocks).reverse

theorem reversePostorder_spec : body.reversePostorder.Nodup ∧ ∀ b, b ∈ body.reversePostorder ↔ body.Reachable b := by
  obtain ⟨h,hd⟩ := Postorder.Searching.new body
  simpa [reversePostorder] using h.collect body.numBlocks hd (by simp)

end Body

end Frontend.Mir
