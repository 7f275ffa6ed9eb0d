import Frontend.Dataflow.Model

namespace Frontend.Dataflow

open Mir List

inductive Effect
  | early
  | primary
  deriving DecidableEq, Ord

structure EffectIndex where
  statementIndex : Nat
  effect : Effect
  deriving DecidableEq

namespace Direction

def firstIndex (n : Nat) : Direction → EffectIndex
  | .forward => ⟨0,.early⟩
  | .backward => ⟨n,.early⟩

def nextIndex : Direction → EffectIndex → Option EffectIndex
  | _, ⟨i,.early⟩ => some ⟨i,.primary⟩
  | .forward, ⟨i,.primary⟩ => some ⟨i + 1,.early⟩
  | .backward, ⟨i + 1,.primary⟩ => some ⟨i,.early⟩
  | .backward, ⟨0,.primary⟩ => none

def order (dir : Direction) (x y : EffectIndex) : Ordering :=
  let ord := compare x.statementIndex y.statementIndex
  (if dir = .backward then ord.swap else ord).then (compare x.effect y.effect)

-- The effects of a block with `n` statements.
def effects (dir : Direction) (n : Nat) : List EffectIndex :=
  let statements := match dir with
    | .forward => range' 0 (n + 1)
    | .backward => (range (n + 1)).reverse
  statements.flatMap fun i => [⟨i,.early⟩,⟨i,.primary⟩]

variable {dir : Direction} {x y : EffectIndex} {n : Nat}

theorem mem_effects : x ∈ dir.effects n ↔ x.statementIndex ≤ n := by
  obtain ⟨i,e⟩ := x
  cases dir <;> cases e <;> simp [effects]

theorem length_effects (dir : Direction) (n : Nat) : (dir.effects n).length = 2 * (n + 1) := by
  cases dir <;> simp [effects,Nat.mul_comm]

theorem effects_chain (dir : Direction) (n : Nat) : (∃ post, dir.effects n = dir.firstIndex n :: post) ∧
    (dir.effects n).IsChain fun x y => dir.nextIndex x = some y := by
  cases dir with
  | forward =>
    have h : ∀ k s, ((range' s k).flatMap fun i => [⟨i,.early⟩,⟨i,.primary⟩]).IsChain fun x y =>
        forward.nextIndex x = some y := by
      intro k
      induction k with
      | zero => simp
      | succ k ih =>
        intro s
        have hi := ih (s + 1)
        cases k <;> simp_all [range'_succ,nextIndex]
    exact ⟨⟨_,rfl⟩,h (n + 1) 0⟩
  | backward =>
    refine ⟨⟨_,by simp [effects,range_succ,firstIndex]; rfl⟩,?_⟩
    induction n with
    | zero => simp [effects,nextIndex]
    | succ n ih => simp_all [effects,range_succ,nextIndex]

theorem effects_pairwise : (dir.effects n).Pairwise fun x y => dir.order x y = .lt ∧ dir.order y x = .gt := by
  refine pairwise_flatMap.mpr ⟨fun i _ => by cases dir <;> simp [order] <;> decide,?_⟩
  have hlt : ∀ i j : Nat, i < j → compare i j = .lt ∧ compare j i = .gt :=
    fun i j h => ⟨Nat.compare_eq_lt.mpr h,Nat.compare_eq_gt.mpr h⟩
  cases dir with
  | forward => exact (pairwise_lt_range' 1).imp fun h => by simp [order,hlt _ _ h]
  | backward => exact pairwise_reverse.mpr (pairwise_lt_range.imp fun h => by simp [order,hlt _ _ h])

theorem split_of_order (h : dir.effects n = pre ++ x :: post) (hy : y.statementIndex ≤ n) :
    (dir.order x y = .eq → x = y) ∧ (dir.order x y = .lt → y ∈ post) := by
  have hp : (dir.effects n).Pairwise _ := effects_pairwise
  have hm : y ∈ dir.effects n := mem_effects.mpr hy
  rw [h] at hp hm
  obtain ⟨-,hpo,hpr⟩ := pairwise_append.mp hp
  rcases mem_append.mp hm with hm | hm
  · simp [(hpr y hm x (.head _)).2]
  · rcases mem_cons.mp hm with rfl | hm
    · obtain ⟨i,e⟩ := y
      cases dir <;> cases e <;> simp [order] <;> nofun
    · simp [(rel_of_pairwise_cons hpo hm).1,hm]

end Direction

variable {Place Operand Statement D : Type} {body : Body Place Operand Statement} [SemilatticeSup D]

structure Results (body : Body Place Operand Statement) (D : Type) [SemilatticeSup D] where
  analysis : Analysis body D
  direction : Direction
  entryStates : body.BasicBlock → D

structure CursorPosition (B : Type) where
  block : B
  currEffectIndex : Option EffectIndex

structure ResultsCursor (body : Body Place Operand Statement) (D : Type) where
  state : D
  pos : CursorPosition body.BasicBlock
  stateNeedsReset : Bool

inductive Call (body : Body Place Operand Statement) (D : Type) [SemilatticeSup D]
  | seekToBlockStart (block : body.BasicBlock)
  | seekToBlockEnd (block : body.BasicBlock)
  | seekBeforePrimaryEffect (target : Location body.BasicBlock)
  | seekAfterPrimaryEffect (target : Location body.BasicBlock)
  | applyCustomEffect (f : Analysis body D → D → D)

def terminatorIndex (block : body.BasicBlock) : Nat := (body.basicBlocks block).statements.length

namespace Results

variable (r : Results body D)

def applyEffect (block : body.BasicBlock) (state : D) (idx : EffectIndex) : Option D :=
  let data := body.basicBlocks block
  let loc : Location body.BasicBlock := ⟨block,idx.statementIndex⟩
  if idx.statementIndex = terminatorIndex block then
    match idx.effect with
    | .early => some (r.analysis.applyEarlyTerminatorEffect state data.terminator loc)
    | .primary => some (r.analysis.applyPrimaryTerminatorEffect state data.terminator loc)
  else
    data.statements[idx.statementIndex]?.map fun statement =>
      match idx.effect with
      | .early => r.analysis.applyEarlyStatementEffect state statement loc
      | .primary => r.analysis.applyPrimaryStatementEffect state statement loc

def applyThrough (block : body.BasicBlock) (target : EffectIndex) : Nat → EffectIndex → D → Option D
  | 0, _, _ => none
  | fuel + 1, idx, state => do
    let state ← r.applyEffect block state idx
    if idx = target then return state
    applyThrough block target fuel (← r.direction.nextIndex idx) state

def newCursor : ResultsCursor body D := ⟨r.analysis.bottomValue,⟨body.startBlock,none⟩,true⟩

def seekToBlockEntry (block : body.BasicBlock) : ResultsCursor body D := ⟨r.entryStates block,⟨block,none⟩,false⟩

def advance (block : body.BasicBlock) (target : EffectIndex) (c : ResultsCursor body D) :
    Option (ResultsCursor body D) := do
  let next ← c.pos.currEffectIndex.elim (some (r.direction.firstIndex (terminatorIndex block))) r.direction.nextIndex
  let state ← r.applyThrough block target (2 * (terminatorIndex block + 1)) next c.state
  return { c with state := state, pos := ⟨block,some target⟩ }

def seekAfter (target : Location body.BasicBlock) (effect : Effect) (c : ResultsCursor body D) :
    Option (ResultsCursor body D) :=
  let idx := ⟨target.statementIndex,effect⟩
  let reset := r.seekToBlockEntry target.block
  if terminatorIndex target.block < target.statementIndex then none
  else if c.stateNeedsReset ∨ c.pos.block ≠ target.block then r.advance target.block idx reset
  else
    match c.pos.currEffectIndex with
    | none => r.advance target.block idx c
    | some curr =>
      match r.direction.order curr idx with
      | .eq => some c
      | .gt => r.advance target.block idx reset
      | .lt => r.advance target.block idx c

def seekToBlockStart (block : body.BasicBlock) (c : ResultsCursor body D) : Option (ResultsCursor body D) :=
  match r.direction with
  | .forward => some (r.seekToBlockEntry block)
  | .backward => r.seekAfter ⟨block,0⟩ .primary c

def seekToBlockEnd (block : body.BasicBlock) (c : ResultsCursor body D) : Option (ResultsCursor body D) :=
  match r.direction with
  | .backward => some (r.seekToBlockEntry block)
  | .forward => r.seekAfter ⟨block,terminatorIndex block⟩ .primary c

def seekBeforePrimaryEffect (target : Location body.BasicBlock) (c : ResultsCursor body D) :
    Option (ResultsCursor body D) :=
  r.seekAfter target .early c

def seekAfterPrimaryEffect (target : Location body.BasicBlock) (c : ResultsCursor body D) :
    Option (ResultsCursor body D) :=
  r.seekAfter target .primary c

def applyCustomEffect (f : Analysis body D → D → D) (c : ResultsCursor body D) : ResultsCursor body D :=
  { c with state := f r.analysis c.state, stateNeedsReset := true }

def call (c : ResultsCursor body D) : Call body D → Option (ResultsCursor body D)
  | .seekToBlockStart block => r.seekToBlockStart block c
  | .seekToBlockEnd block => r.seekToBlockEnd block c
  | .seekBeforePrimaryEffect target => r.seekBeforePrimaryEffect target c
  | .seekAfterPrimaryEffect target => r.seekAfterPrimaryEffect target c
  | .applyCustomEffect f => some (r.applyCustomEffect f c)

-- Where a seek leaves the cursor.
def target : Call body D → Option (CursorPosition body.BasicBlock)
  | .seekToBlockStart block => some ⟨block,if r.direction = .forward then none else some ⟨0,.primary⟩⟩
  | .seekToBlockEnd block => some ⟨block,if r.direction = .backward then none else some ⟨terminatorIndex block,.primary⟩⟩
  | .seekBeforePrimaryEffect target => some ⟨target.block,some ⟨target.statementIndex,.early⟩⟩
  | .seekAfterPrimaryEffect target => some ⟨target.block,some ⟨target.statementIndex,.primary⟩⟩
  | .applyCustomEffect _ => none

def Reached (pos : CursorPosition body.BasicBlock) (state : D) : Prop :=
  match pos.currEffectIndex with
  | none => state = r.entryStates pos.block
  | some idx => ∃ pre post, r.direction.effects (terminatorIndex pos.block) = pre ++ idx :: post ∧
      (pre ++ [idx]).foldlM (r.applyEffect pos.block) (r.entryStates pos.block) = some state

def At (pos : CursorPosition body.BasicBlock) (c : ResultsCursor body D) : Prop := c.pos = pos ∧ r.Reached pos c.state

def Lands (x : Call body D) (c : ResultsCursor body D) : Prop :=
  (r.target x).elim (c.stateNeedsReset = true) fun pos => r.At pos c

def InRange (pos : CursorPosition body.BasicBlock) : Prop := ∀ idx ∈ pos.currEffectIndex,
    idx.statementIndex ≤ terminatorIndex pos.block

def Valid (c : ResultsCursor body D) : Prop := c.stateNeedsReset = true ∨ r.Reached c.pos c.state

variable {r} {block : body.BasicBlock} {c c' : ResultsCursor body D} {idx target x : EffectIndex}

theorem exists_applyEffect (h : idx.statementIndex ≤ terminatorIndex block) (s : D) :
    ∃ s', r.applyEffect block s idx = some s' := by
  rw [applyEffect]
  split
  case isTrue => split <;> exact ⟨_,rfl⟩
  case isFalse hne => exact ⟨_,by rw [getElem?_eq_getElem (lt_of_le_of_ne h hne)]; rfl⟩

theorem applyThrough_spec (hc : (x :: l).IsChain fun x y => r.direction.nextIndex x = some y)
    (hl : ∀ y ∈ x :: l, y.statementIndex ≤ terminatorIndex block) (ht : target ∈ x :: l) (hf : l.length < fuel) (s : D) :
    ∃ pre post s', x :: l = pre ++ target :: post ∧ r.applyThrough block target fuel x s = some s' ∧
      (pre ++ [target]).foldlM (r.applyEffect block) s = some s' := by
  induction fuel generalizing l x s with
  | zero => cases hf
  | succ fuel ih =>
    obtain ⟨t,hs⟩ := exists_applyEffect (r := r) (hl x (.head _)) s
    rcases eq_or_ne x target with rfl | hne
    · exact ⟨[],l,t,rfl,by simp [applyThrough,hs]⟩
    have ht := (mem_cons.mp ht).resolve_left hne.symm
    cases l with
    | nil => cases ht
    | cons y l =>
      obtain ⟨hy,hc⟩ := isChain_cons_cons.mp hc
      obtain ⟨pre,post,s',he,ha,hfo⟩ := ih hc (forall_mem_cons.mp hl).2 ht (Nat.lt_of_succ_lt_succ hf) t
      refine ⟨x :: pre,post,s',by rw [he]; rfl,?_,?_⟩
      · simpa [applyThrough,hs,hne,hy] using ha
      · rw [cons_append,foldlM_cons,hs]
        exact hfo

theorem advance_spec (pre : List EffectIndex)
    (he : r.direction.effects (terminatorIndex block) = pre ++ x :: rest)
    (hx : c.pos.currEffectIndex.elim (some (r.direction.firstIndex (terminatorIndex block))) r.direction.nextIndex =
    some x)
    (hs : pre.foldlM (r.applyEffect block) (r.entryStates block) = some c.state) (ht : target ∈ x :: rest) :
    ∃ c', r.advance block target c = some c' ∧ r.At ⟨block,some target⟩ c' := by
  have hc := (r.direction.effects_chain (terminatorIndex block)).2
  have hn := r.direction.length_effects (terminatorIndex block)
  have hl : ∀ y ∈ pre ++ x :: rest, y.statementIndex ≤ terminatorIndex block :=
    fun y hy => Direction.mem_effects.mp (he ▸ hy)
  rw [he] at hc hn
  have hf : rest.length < 2 * (terminatorIndex block + 1) := by
    rw [← hn,length_append,length_cons]
    omega
  obtain ⟨l,post,s,hr,ha,hfo⟩ := applyThrough_spec hc.right_of_append (forall_mem_append.mp hl).2 ht hf c.state
  refine ⟨⟨s,_,c.stateNeedsReset⟩,by simp [advance,hx,ha],rfl,pre ++ l,post,by rw [he,hr,append_assoc],?_⟩
  rw [append_assoc,foldlM_append,hs]
  exact hfo

theorem seekAfter_spec (hv : r.Valid c) (h : idx.statementIndex ≤ terminatorIndex block) :
    ∃ c', r.seekAfter ⟨block,idx.statementIndex⟩ idx.effect c = some c' ∧ r.At ⟨block,some idx⟩ c' := by
  obtain ⟨⟨post,he⟩,hn⟩ := r.direction.effects_chain (terminatorIndex block)
  have hs := advance_spec [] (c := r.seekToBlockEntry block) he rfl rfl (he ▸ Direction.mem_effects.mpr h)
  rw [seekAfter,if_neg (Nat.not_lt.mpr h)]
  split
  case isTrue => exact hs
  case isFalse hb =>
    obtain ⟨st,⟨bl,cu⟩,b⟩ := c
    obtain ⟨hb,hc⟩ := not_or.mp hb
    have hv := hv.resolve_left hb
    cases not_not.mp hc
    cases cu with
    | none =>
      obtain rfl : st = r.entryStates block := hv
      exact advance_spec [] he rfl rfl (he ▸ Direction.mem_effects.mpr h)
    | some curr =>
      obtain ⟨pre,post,he,hf⟩ := hv
      obtain ⟨heq,hlt⟩ := Direction.split_of_order he h
      dsimp only
      split
      case h_1 ho =>
        cases heq ho
        exact ⟨_,rfl,rfl,pre,post,he,hf⟩
      case h_2 => exact hs
      case h_3 ho =>
        have hm := hlt ho
        obtain ⟨y,post,rfl⟩ := exists_cons_of_ne_nil (ne_nil_of_mem hm)
        rw [append_cons] at he
        rw [he,append_assoc] at hn
        exact advance_spec _ he (isChain_cons_cons.mp hn.right_of_append).1 hf hm

theorem call_spec (hv : r.Valid c) (x : Call body D) (h : ∀ pos ∈ r.target x, InRange pos) :
    ∃ c', r.call c x = some c' ∧ r.Lands x c' := by
  obtain ⟨a,dir,e⟩ := r
  cases x with
  | seekBeforePrimaryEffect t => exact seekAfter_spec hv (h _ rfl _ rfl)
  | seekAfterPrimaryEffect t => exact seekAfter_spec hv (h _ rfl _ rfl)
  | applyCustomEffect f => exact ⟨_,rfl,rfl⟩
  | seekToBlockStart block =>
    cases dir with
    | forward => exact ⟨_,rfl,rfl,rfl⟩
    | backward => exact seekAfter_spec hv (h _ rfl _ rfl)
  | seekToBlockEnd block =>
    cases dir with
    | forward => exact seekAfter_spec hv (h _ rfl _ rfl)
    | backward => exact ⟨_,rfl,rfl,rfl⟩

theorem run_valid (hv : r.Valid c) (calls : List (Call body D)) (h : ∀ x ∈ calls, ∀ pos ∈ r.target x, InRange pos) :
    ∃ c', calls.foldlM r.call c = some c' ∧ r.Valid c' := by
  induction calls generalizing c with
  | nil => exact ⟨c,rfl,hv⟩
  | cons x calls ih =>
    obtain ⟨hx,h⟩ := forall_mem_cons.mp h
    obtain ⟨c',hc,hl⟩ := call_spec hv x hx
    have hv : r.Valid c' := by
      rw [Lands] at hl
      cases ht : r.target x with
      | none => exact .inl (by simpa [ht] using hl)
      | some pos =>
        obtain ⟨rfl,hr⟩ : r.At pos c' := by simpa [ht] using hl
        exact .inr hr
    obtain ⟨d,hd,hv⟩ := ih hv h
    exact ⟨d,by simp [hc,hd],hv⟩

theorem inRange_of_seekAfter {target : Location body.BasicBlock} {effect : Effect}
    (h : r.seekAfter target effect c = some c') : target.statementIndex ≤ terminatorIndex target.block := by
  by_contra hlt
  rw [seekAfter,if_pos (Nat.lt_of_not_le hlt)] at h
  cases h

theorem inRange_of_call {x : Call body D} (h : r.call c x = some c') (pos : CursorPosition body.BasicBlock)
    (hp : pos ∈ r.target x) : InRange pos := by
  obtain ⟨a,dir,e⟩ := r
  rintro idx hi
  cases x with
  | seekBeforePrimaryEffect t | seekAfterPrimaryEffect t =>
    cases hp
    cases hi
    exact inRange_of_seekAfter h
  | applyCustomEffect f => cases hp
  | seekToBlockStart block =>
    cases hp
    cases dir <;> cases hi
    exact Nat.zero_le _
  | seekToBlockEnd block =>
    cases hp
    cases dir <;> cases hi
    exact le_rfl

theorem inRange_of_run (calls : List (Call body D)) (h : calls.foldlM r.call c = some c') :
    ∀ y ∈ calls, ∀ pos ∈ r.target y, InRange pos := by
  induction calls generalizing c with
  | nil => simp
  | cons y calls ih =>
    rw [foldlM_cons] at h
    obtain ⟨d,hy,hd⟩ := Option.bind_eq_some_iff.mp h
    exact forall_mem_cons.mpr ⟨inRange_of_call hy,ih hd⟩

theorem seek_ignores_history (r : Results body D) (calls : List (Call body D)) (x : Call body D) :
    ((∃ c, (calls ++ [x]).foldlM r.call r.newCursor = some c) ↔
      ∀ y ∈ calls ++ [x], ∀ pos ∈ r.target y, InRange pos) ∧
    ∀ c, (calls ++ [x]).foldlM r.call r.newCursor = some c → r.Lands x c := by
  have hrun (h : ∀ y ∈ calls ++ [x], ∀ pos ∈ r.target y, InRange pos) :
      ∃ c, (calls ++ [x]).foldlM r.call r.newCursor = some c ∧ r.Lands x c := by
    obtain ⟨c,hc,hv⟩ := run_valid (c := r.newCursor) (.inl rfl) calls fun y hy => h y (mem_append_left _ hy)
    obtain ⟨d,hd,hl⟩ := call_spec hv x (h x (mem_append_right _ (.head _)))
    exact ⟨d,by simp [hc,hd],hl⟩
  refine ⟨⟨?_,fun h => ?_⟩,fun c hc => ?_⟩
  · rintro ⟨c,hc⟩
    exact inRange_of_run _ hc
  · obtain ⟨c,hc,-⟩ := hrun h
    exact ⟨c,hc⟩
  · obtain ⟨d,hd,hl⟩ := hrun (inRange_of_run _ hc)
    cases hc.symm.trans hd
    exact hl

def twoStatements : Body Unit Unit Unit where
  numBlocks := 1
  basicBlocks := ![⟨[(),()],.return⟩]
  nonempty := Nat.one_pos

-- The binary digits of the state say which effects were applied.
def recorder : Analysis twoStatements Nat where
  bottomValue := 0
  initializeStartBlock := id
  applyEarlyStatementEffect := fun d _ _ => 2 * d
  applyPrimaryStatementEffect := fun d _ _ => 2 * d + 1
  applyEarlyTerminatorEffect := fun d _ _ => 2 * d
  getTerminatorEdges := fun _ k _ => k.edges
  applyPrimaryTerminatorEffect := fun d _ _ => 2 * d + 1
  applyCallReturnEffect := fun d _ _ => d
  SwitchIntData := Empty
  getSwitchIntData := fun _ _ _ => none
  applySwitchIntEdgeEffect := fun d _ _ => d
  bottom_le := le_rfl
  edges_subset := fun _ k _ => k.edges_targets_subset

def recorded : Results twoStatements Nat := ⟨recorder,.backward,fun _ => 1⟩

theorem recorded_seek : ∃ c, [Call.seekAfterPrimaryEffect ⟨(0 : Fin 1),0⟩,.applyCustomEffect fun _ d => d + 7,
      .seekBeforePrimaryEffect ⟨(0 : Fin 1),1⟩].foldlM recorded.call recorded.newCursor = some c ∧ c.state = 10 ∧
    recorded.At ⟨(0 : Fin 1),some ⟨1,.early⟩⟩ c := by
  refine ⟨_,rfl,rfl,?_⟩
  exact (seek_ignores_history recorded [.seekAfterPrimaryEffect ⟨(0 : Fin 1),0⟩,.applyCustomEffect fun _ d => d + 7]
    (.seekBeforePrimaryEffect ⟨(0 : Fin 1),1⟩)).2 _ rfl

end Results

end Frontend.Dataflow
