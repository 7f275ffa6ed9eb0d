import Frontend.Facts.Control

namespace Frontend.Facts

open Control List Outcome

-- The search for breaks finds every break that the walk through the command meets and `p` asks for.
structure Seen (p : Option String → Prop) (c : Ctl String) (walk : Labels → List (Labels × Option String)) : Prop where
  finds : ∀ {labels t}, p t → breakTargetsStart labels t → c.walk.exits (.brk t) → ∃ b ∈ walk labels,
    breakTargetsStart b.1 b.2

abbrev SeenAll (c : Ctl String) (walk : Labels → List (Labels × Option String)) : Prop := Seen (fun _ => True) c walk

namespace Seen

variable {p : Option String → Prop} {a b : Ctl String} {f g : Labels → List (Labels × Option String)}

theorem of_no_break (h : ∀ t, a.walk.exits (.brk t) = false) : Seen p a f := ⟨fun _ _ hm => by simp [h] at hm⟩

theorem skip : Seen p .skip f := of_no_break fun _ => rfl

theorem stuck : Seen p .stuck f := of_no_break fun _ => rfl

theorem within (h : SeenAll a f) : Seen p a f := ⟨fun _ => h.finds trivial⟩

theorem left (h : Seen p a f) : Seen p a fun labels => f labels ++ g labels :=
  ⟨fun hp ht hm => (h.finds hp ht hm).imp fun _ hb => ⟨mem_append_left _ hb.1,hb.2⟩⟩

theorem right (h : Seen p a g) : Seen p a fun labels => f labels ++ g labels :=
  ⟨fun hp ht hm => (h.finds hp ht hm).imp fun _ hb => ⟨mem_append_right _ hb.1,hb.2⟩⟩

theorem seqPassed (ha : Seen p a f) (hb : a.walk.passes → Seen p b f) : Seen p (.seq a b) f := by
  refine ⟨fun hp ht hm => ?_⟩
  simp only [Ctl.walk,Bool.or_eq_true,Bool.and_eq_true] at hm
  exact hm.elim (ha.finds hp ht) fun h => (hb h.1).finds hp ht h.2

theorem seq (ha : Seen p a f) (hb : Seen p b f) : Seen p (.seq a b) f := ha.seqPassed fun _ => hb

theorem choice (ha : Seen p a f) (hb : Seen p b f) : Seen p (.choice a b) f := by
  refine ⟨fun hp ht hm => ?_⟩
  exact (Bool.or_eq_true_iff.mp hm).elim (ha.finds hp ht) (hb.finds hp ht)

variable {label : Option String}

theorem loop_labels (h : breakTargetsStart labels t)
    (ho : ¬ (brk t).caught label) : breakTargetsStart ((label,true) :: labels) t := by
  cases t with
  | none => exact absurd rfl ho
  | some name =>
    have hne : label ≠ some name := by simpa [caught] using ho
    simpa [breakTargetsStart,targetsStart,hne] using h

theorem loop (h : Seen (fun t => ¬ (brk t).caught label) a f) :
    Seen p (.loop label a) fun labels => f ((label,true) :: labels) := by
  refine ⟨fun {_ t} _ ht hm => ?_⟩
  obtain ⟨hm,ho⟩ := Bool.and_eq_true_iff.mp hm
  have ho : ¬ (brk t).caught label := by simpa using ho
  exact h.finds ho (loop_labels ht ho) hm

theorem ends : Seen (fun t => ¬ (brk t).caught label) (.jump (.brk none)) f := by
  refine ⟨fun hp _ hm => ?_⟩
  obtain rfl := brk.inj (of_decide_eq_true hm)
  exact absurd rfl hp

theorem beforeLoop (h : SeenAll a f) (hn : a.walk.exits (.brk none) = false) (hna : a.walk.exits (.brk label) = false) :
    Seen p a fun labels => f ((label,true) :: labels) := by
  refine ⟨fun {_ t} _ ht hm => h.finds trivial (loop_labels ht fun hc => ?_) hm⟩
  cases t with
  | none => simp [hn] at hm
  | some name =>
    have hl : label = some name := by simpa [caught] using hc
    simp [hl ▸ hna] at hm

theorem block {label : String} (h : SeenAll a f) :
    Seen p (.block label a) fun labels => f ((some label,false) :: labels) := by
  refine ⟨fun {_ t} _ ht hm => ?_⟩
  obtain ⟨hm,ho⟩ := Bool.and_eq_true_iff.mp hm
  refine h.finds trivial ?_ hm
  cases t with
  | none => simpa [breakTargetsStart,targetsStart] using ht
  | some name =>
    have hne : label ≠ name := fun heq => by simp [heq] at ho
    simpa [breakTargetsStart,targetsStart,hne] using ht

theorem handle (h : Seen p a f) : Seen p (.handle a) f := ⟨fun hp ht hm => h.finds hp ht (Bool.and_eq_true_iff.mp hm).1⟩

end Seen

theorem UnaryKind.seen (kind : UnaryKind) : SeenAll kind.control f := by
  refine .of_no_break fun t => ?_
  cases kind <;> simp [UnaryKind.control]

theorem passedTo_iff {expr : Expr} : passedTo expr rest ↔ (expr.control.walk.passes → rest = true) := by
  cases h : expr.control.walk.passes <;> simp [passedTo,h]

mutual
theorem Expr.seen : (e : Expr) → e.seesExits → SeenAll e.control (e.walk breakFinder)
  | .unary _ kind value, h => .seq (value.seen h) kind.seen
  | .binary _ kind left right, h => by
    obtain ⟨hl,hr⟩ := Bool.and_eq_true_iff.mp h
    cases kind with
    | op op =>
      simp only [Expr.control]
      split
      · exact .seq (.left (left.seen hl)) (.choice .skip (.right (right.seen hr)))
      · exact .seq (.left (left.seen hl)) (.right (right.seen hr))
    | assign => exact .seq (.right (right.seen hr)) (.left (left.seen hl))
    | assignOp =>
      exact .choice (.seq (.left (left.seen hl)) (.right (right.seen hr)))
        (.seq (.right (right.seen hr)) (.left (left.seen hl)))
    | index => exact .seq (.left (left.seen hl)) (.right (right.seen hr))
  | .repeat _ value _, h => .left (value.seen h)
  | .group _ _ values, h => seen_exprs values h
  | .call _ _ head args, h => by
    obtain ⟨hh,ha⟩ := Bool.and_eq_true_iff.mp h
    exact .seq (.left (head.seen hh)) (.right (seen_exprs args ha))
  | .structLit _ fields base, h => by
    obtain ⟨hf,hb⟩ := Bool.and_eq_true_iff.mp h
    exact .seq (.left (seen_exprs fields hf)) (.right (seen_option base hb))
  | .range _ first last, h => by
    obtain ⟨hf,hl⟩ := Bool.and_eq_true_iff.mp h
    exact .seq (.left (seen_option first hf)) (.right (seen_option last hl))
  | .exit _ kind value, h => by
    have hv := seen_option value h
    cases kind with
    | «break» label =>
      refine .seq (.right (f := fun labels => [(labels,label)]) hv) ⟨fun _ ht hm => ?_⟩
      obtain rfl := brk.inj (of_decide_eq_true hm)
      exact ⟨_,mem_cons_self,ht⟩
    | ret => exact .seq hv (.of_no_break fun _ => rfl)
    | yeet => exact .seq hv (.of_no_break fun _ => rfl)
    | yield => exact .seq hv .skip
  | .continue _ _, _ => .of_no_break fun _ => rfl
  | .letCond _ _ value, h => .right (value.seen h)
  | .ite _ cond thenBlock otherwise, h => by
    simp only [Expr.seesExits,Bool.and_eq_true] at h
    exact .seq (.left (.left (cond.seen h.1.1)))
      (.choice (.left (.right (thenBlock.seen h.1.2))) (.right (seen_option otherwise h.2)))
  | .while _ _ attrs cond body, h => by
    obtain ⟨hc,hb⟩ := Bool.and_eq_true_iff.mp h
    exact .loop (f := fun labels => walkExprs breakFinder labels attrs ++ cond.walk breakFinder labels ++
      body.walk breakFinder labels)
      (.seq (.left (.right (cond.seen hc).within)) (.choice (.right (body.seen hb).within) .ends))
  | .loop _ _ _ body, h => .right (.loop (body.seen h).within)
  | .forLoop _ _ _ _ iter body, h => by
    simp only [Expr.seesExits,Bool.and_eq_true,Bool.not_eq_true'] at h
    exact .seq (.left (.right (.beforeLoop (iter.seen h.1.1.1) h.1.2 h.2)))
      (.right (.loop (.choice (body.seen h.1.1.2).within .ends)))
  | .matchOn _ scrutinee arms, h => by
    obtain ⟨hs,ha⟩ := Bool.and_eq_true_iff.mp h
    exact .seq (.left (scrutinee.seen hs)) (.right (seen_arms arms ha))
  | .block _ none _ block, h => .right (block.seen h)
  | .block _ (some _) _ block, h => .right (.block (block.seen (Bool.and_eq_true_iff.mp h).1))
  | .tryBlock _ block, h => .handle (block.seen (Bool.and_eq_true_iff.mp h).1)
  | .annotated _ expr, h => .right (expr.seen h)
  | .macCall _ _, h => by simp [Expr.seesExits] at h
  | .leaf _ _, _ | .closure _, _ | .gen _, _ | .constBlock _ _, _ => .skip

theorem seen_option : (e : Option Expr) → seesExitsOption e → SeenAll (controlOption e) (walkOption breakFinder · e)
  | none, _ => .skip
  | some value, h => value.seen h

theorem seen_body : (e : Option Expr) → seesExitsOption e → SeenAll (controlBody e) (walkOption breakFinder · e)
  | none, _ => .stuck
  | some value, h => value.seen h

theorem seen_exprs : (es : List Expr) → seesExitsExprs es → SeenAll (controlExprs es) (walkExprs breakFinder · es)
  | [], _ => .skip
  | value :: values, h => by
    obtain ⟨hv,hs⟩ := Bool.and_eq_true_iff.mp h
    exact .seq (.left (value.seen hv)) (.right (seen_exprs values hs))

theorem Block.seen : (b : Block) → b.seesExits → SeenAll b.control (b.walk breakFinder)
  | .mk _ stmts, h => seen_stmts stmts h

theorem seen_stmts : (ss : List Stmt) → seesExitsStmts ss → SeenAll (controlStmts ss) (walkStmts breakFinder · ss)
  | [], _ => .skip
  | .decl _ _ :: stmts, h | .item :: stmts, h | .empty :: stmts, h => .right (seen_stmts stmts h)
  | .init _ _ init :: stmts, h => by
    obtain ⟨hi,hs⟩ := Bool.and_eq_true_iff.mp h
    exact .seqPassed (.left (.right (init.seen hi))) fun hp => .right (seen_stmts stmts (passedTo_iff.mp hs hp))
  | .initElse _ _ init els :: stmts, h => by
    obtain ⟨hi,hr⟩ := Bool.and_eq_true_iff.mp h
    refine .seqPassed (.left (.left (.right (init.seen hi)))) fun hp => ?_
    obtain ⟨he,hs⟩ := Bool.and_eq_true_iff.mp (passedTo_iff.mp hr hp)
    exact .choice (.right (seen_stmts stmts hs)) (.seq (.left (.right (els.seen he))) .stuck)
  | .expr expr :: stmts, h | .semi expr :: stmts, h => by
    obtain ⟨he,hs⟩ := Bool.and_eq_true_iff.mp h
    exact .seqPassed (.left (expr.seen he)) fun hp => .right (seen_stmts stmts (passedTo_iff.mp hs hp))
  | .macCall _ _ :: _, h => by simp [seesExitsStmts] at h

theorem seen_arms : (arms : List Arm) → seesExitsArms arms → SeenAll (controlArms arms) (walkArms breakFinder · arms)
  | [], _ => .stuck
  | .mk attrs pat guard body :: arms, h => by
    simp only [seesExitsArms,Bool.and_eq_true] at h
    have hr : SeenAll (controlArms arms) (walkArms breakFinder · (.mk attrs pat guard body :: arms)) :=
      .right (seen_arms arms h.2)
    exact .choice (.seq (.left (.left (.right (seen_option guard h.1.1))))
      (.choice (.left (.right (seen_body body h.1.2))) hr)) hr
end

theorem sequenceDiverges_true (hr : result ≠ .known true) (h : sequenceDiverges facts result = .known true) :
    .known true ∈ facts := by
  by_contra hm
  simp only [sequenceDiverges,if_neg hm] at h
  split at h
  case h_1 => exact hr rfl
  case h_2 => split at h <;> simp at h
  case h_3 => split at h <;> simp at h

theorem lazyDiverges_true (h : lazyDiverges left right = .known true) : left = .known true := by
  by_contra hl
  simp only [lazyDiverges,if_neg hl] at h
  split at h
  case isTrue => simp at h
  case isFalse => split at h <;> simp at h

theorem iteDiverges_true (h : iteDiverges condition thenResult elseResult = .known true) :
    condition = .known true ∨ thenResult = .known true ∧ elseResult = .known true := by
  unfold iteDiverges at h
  split at h
  case h_1 => exact .inl rfl
  case h_2 =>
    split at h
    case isTrue hb => exact .inr hb
    case isFalse => split at h <;> simp at h
  case h_3 =>
    split at h
    case isTrue hb => exact .inr hb
    case isFalse => simp at h

theorem UnaryKind.result_ne (kind : UnaryKind) : kind.result ≠ .known true := by cases kind <;> simp [UnaryKind.result]

theorem CallKind.result_ne (kind : CallKind) : kind.result ≠ .known true := by cases kind <;> simp [CallKind.result]

theorem loop_blocked (h : body.seesExits) (hbr : ¬ loopHasBreak body label) :
    (Ctl.loop label body.control).walk.passes = false := by
  have hn : ∀ t, breakTargetsStart [(label,true)] t → body.control.walk.exits (.brk t) = false := fun t ht => by
    by_contra hm
    exact hbr (any_eq_true.mpr ((body.seen h).finds trivial ht (Bool.not_eq_false _ ▸ hm)))
  have hl : breakTargetsStart [(label,true)] label := by cases label <;> simp [breakTargetsStart,targetsStart]
  simp [hn none rfl,hn label hl]

theorem expressionTypes_empty : EffectEvidence.empty.expressionTypes = [] := rfl

theorem seq_blocked_left (h : a.walk.passes = false) : (Ctl.seq a b : Ctl String).walk.passes = false := by
  simp [h]

theorem seq_blocked_right (h : b.walk.passes = false) : (Ctl.seq a b : Ctl String).walk.passes = false := by
  simp [h]

theorem seq_blocked (h : a.walk.passes → b.walk.passes = false) : (Ctl.seq a b : Ctl String).walk.passes = false := by
  cases ha : a.walk.passes <;> simp [ha]
  exact h ha

theorem choice_blocked (ha : a.walk.passes = false) (hb : b.walk.passes = false) :
    (Ctl.choice a b : Ctl String).walk.passes = false := by
  simp [ha,hb]

theorem pair_diverges (h : sequenceDiverges [left,right] (.known false) = .known true) :
    left = .known true ∨ right = .known true :=
  (mem_pair.mp (sequenceDiverges_true (by simp) h)).imp .symm .symm

theorem stmts_diverge (h : stmtsDiverge .empty unresolved (stmt :: stmts) = .known true) :
    stmtDiverges .empty stmt = some (.known true) ∨ ∃ unresolved,
    stmtsDiverge .empty unresolved stmts = .known true := by
  simp only [stmtsDiverge] at h
  split at h
  case h_1 => exact .inr ⟨_,h⟩
  case h_2 heq => exact .inl heq
  case h_3 =>
    split at h
    case isTrue => simp at h
    case isFalse => exact .inr ⟨_,h⟩
  case h_4 =>
    split at h
    case isTrue => split at h <;> simp at h
    case isFalse => exact .inr ⟨_,h⟩

mutual
theorem Expr.blocked_of_diverges : (e : Expr) → e.seesExits → expressionDiverges .empty e = .known true →
    e.control.walk.passes = false
  | .leaf _ kind, _, hd => by cases kind <;> simp [expressionDiverges,leafDiverges,EffectEvidence.empty] at hd
  | .unary _ kind value, h, hd => by
    refine seq_blocked_left (value.blocked_of_diverges h ?_)
    cases kind with
    | paren => exact hd
    | _ => exact (mem_singleton.mp (sequenceDiverges_true (UnaryKind.result_ne _) hd)).symm
  | .binary _ kind left right, h, hd => by
    obtain ⟨hl,hr⟩ := Bool.and_eq_true_iff.mp h
    have hbl := left.blocked_of_diverges hl
    have hbr := right.blocked_of_diverges hr
    cases kind with
    | op op =>
      simp only [expressionDiverges,expressionTypes_empty,find?_nil] at hd
      simp only [Expr.control]
      split at hd
      case isTrue hla =>
        rw [if_pos hla]
        exact seq_blocked_left (hbl (lazyDiverges_true hd))
      case isFalse hla =>
        rw [if_neg hla]
        exact (pair_diverges hd).elim (seq_blocked_left <| hbl ·) (seq_blocked_right <| hbr ·)
    | assign => exact (pair_diverges hd).elim (seq_blocked_right <| hbl ·) (seq_blocked_left <| hbr ·)
    | assignOp =>
      rcases pair_diverges hd with hd | hd
      · exact choice_blocked (seq_blocked_left (hbl hd)) (seq_blocked_right (hbl hd))
      · exact choice_blocked (seq_blocked_right (hbr hd)) (seq_blocked_left (hbr hd))
    | index =>
      simp only [expressionDiverges,expressionTypes_empty,find?_nil] at hd
      rcases mem_pair.mp (sequenceDiverges_true (by simp) hd) with hd | hd
      · exact seq_blocked_left (hbl hd.symm)
      · exact seq_blocked_right (hbr hd.symm)
  | .repeat _ value _, h, hd => value.blocked_of_diverges h (mem_singleton.mp (sequenceDiverges_true (by simp) hd)).symm
  | .group _ _ values, h, hd => blocked_exprs values h (sequenceDiverges_true (by simp) hd)
  | .call _ kind head args, h, hd => by
    obtain ⟨hh,ha⟩ := Bool.and_eq_true_iff.mp h
    rcases mem_cons.mp (sequenceDiverges_true kind.result_ne hd) with hd | hd
    · exact seq_blocked_left (head.blocked_of_diverges hh hd.symm)
    · exact seq_blocked_right (blocked_exprs args ha hd)
  | .range _ first last, h, hd => by
    obtain ⟨hf,hl⟩ := Bool.and_eq_true_iff.mp h
    rcases mem_append.mp (sequenceDiverges_true (by simp) hd) with hd | hd
    · exact seq_blocked_left (blocked_option first hf hd)
    · exact seq_blocked_right (blocked_option last hl hd)
  | .exit _ kind value, h, hd => by
    refine seq_blocked_left (blocked_option value h ?_)
    cases kind <;> simp only [expressionDiverges,expressionTypes_empty,find?_nil] at hd
    case yield => simp at hd
    all_goals exact sequenceDiverges_true (by simp) hd
  | .letCond _ _ value, h, hd => value.blocked_of_diverges h (mem_singleton.mp (sequenceDiverges_true (by simp) hd)).symm
  | .ite _ cond thenBlock otherwise, h, hd => by
    simp only [Expr.seesExits,Bool.and_eq_true] at h
    rcases iteDiverges_true hd with hc | ⟨ht,he⟩
    · exact seq_blocked_left (cond.blocked_of_diverges h.1.1 hc)
    refine seq_blocked_right (choice_blocked (thenBlock.blocked_of_diverges h.1.2 ht) ?_)
    cases otherwise with
    | none => simp [otherwiseDiverges] at he
    | some otherwise => exact otherwise.blocked_of_diverges h.2 he
  | .loop _ label _ body, h, hd => by
    simp only [expressionDiverges,expressionTypes_empty,find?_nil] at hd
    split at hd
    case isTrue => simp at hd
    case isFalse hb => exact loop_blocked h hb
  | .block _ none _ block, h, hd => block.blocked_of_diverges h hd
  | .block _ (some label) _ block, h, hd => by
    simp only [Expr.seesExits,Bool.and_eq_true,Bool.not_eq_true'] at h
    simp [Expr.control,block.blocked_of_diverges h.1 hd,h.2]
  | .tryBlock _ block, h, hd => by
    simp only [Expr.seesExits,Bool.and_eq_true,Bool.not_eq_true'] at h
    simp [Expr.control,block.blocked_of_diverges h.1 hd,h.2]
  | .annotated _ expr, h, hd => expr.blocked_of_diverges h hd
  | .macCall _ _, _, hd => by simp [expressionDiverges,macroDivergence,EffectEvidence.empty] at hd
  | .structLit _ _ _, _, hd | .continue _ _, _, hd | .while _ _ _ _ _, _, hd | .forLoop _ _ _ _ _ _, _, hd
  | .matchOn _ _ _, _, hd | .closure _, _, hd | .gen _, _, hd | .constBlock _ _, _, hd => by
    simp [expressionDiverges,expressionTypes_empty] at hd

theorem blocked_option : (e : Option Expr) → seesExitsOption e → .known true ∈ optionDiverges .empty e →
    (controlOption e).walk.passes = false
  | none, _, hd => by simp [optionDiverges] at hd
  | some value, h, hd => value.blocked_of_diverges h (mem_singleton.mp hd).symm

theorem blocked_exprs : (es : List Expr) → seesExitsExprs es → .known true ∈ expressionsDiverge .empty es →
    (controlExprs es).walk.passes = false
  | [], _, hd => by simp [expressionsDiverge] at hd
  | value :: values, h, hd => by
    obtain ⟨hv,hs⟩ := Bool.and_eq_true_iff.mp h
    rcases mem_cons.mp hd with hd | hd
    · exact seq_blocked_left (value.blocked_of_diverges hv hd.symm)
    · exact seq_blocked_right (blocked_exprs values hs hd)

theorem Block.blocked_of_diverges : (b : Block) → b.seesExits → blockDiverges .empty b = .known true →
    b.control.walk.passes = false
  | .mk _ stmts, h, hd => blocked_stmts stmts false h hd

theorem blocked_stmts : (ss : List Stmt) → (unresolved : Bool) → seesExitsStmts ss →
    stmtsDiverge .empty unresolved ss = .known true → (controlStmts ss).walk.passes = false
  | [], unresolved, _, hd => by cases unresolved <;> simp [stmtsDiverge] at hd
  | stmt :: stmts, unresolved, h, hd => by
    have hr := fun unresolved h => blocked_stmts stmts unresolved h
    have hc := stmts_diverge hd
    cases stmt with
    | decl | item | empty =>
      obtain ⟨unresolved,hd⟩ := hc.resolve_left (by simp [stmtDiverges])
      exact hr unresolved h hd
    | initElse _ _ init els =>
      obtain ⟨hi,hs⟩ := Bool.and_eq_true_iff.mp h
      rcases hc with hd | ⟨unresolved,hd⟩
      · exact seq_blocked_left (init.blocked_of_diverges hi (Option.some.inj hd))
      · refine seq_blocked fun hp => choice_blocked (hr unresolved ?_ hd) (seq_blocked_right rfl)
        exact (Bool.and_eq_true_iff.mp (passedTo_iff.mp hs hp)).2
    | init _ _ expr | expr expr | semi expr =>
      obtain ⟨he,hs⟩ := Bool.and_eq_true_iff.mp h
      rcases hc with hd | ⟨unresolved,hd⟩
      · exact seq_blocked_left (expr.blocked_of_diverges he (Option.some.inj hd))
      · exact seq_blocked fun hp => hr unresolved (passedTo_iff.mp hs hp) hd
    | macCall => simp [seesExitsStmts] at h
end

end Frontend.Facts
