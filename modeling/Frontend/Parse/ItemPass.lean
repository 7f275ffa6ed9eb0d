import Frontend.Parse.Frame

namespace Frontend.Parse

open Ast Library List ParseEffects Post

variable {L : Type} {w₀ w w' : World L} {es : List (Event L)} {jobs : List (BodyJob L)}
  {effects : ParseEffects L} {start at' stop : UInt32}

def effectOf : Event L → Option (Effect L)
  | .effect effect => some effect
  | .attrId => none
  | .deferred => none

def effectsOf (es : List (Event L)) : List (Effect L) := es.filterMap effectOf

def isAttrId : Event L → Bool
  | .attrId => true
  | _ => false

def attrIds (es : List (Event L)) : Nat := es.countP isAttrId

def isDeferred : Event L → Bool
  | .deferred => true
  | _ => false

def sourceOrder (bodies : Nat → List (Event L)) : Nat → List (Event L) → List (Event L)
  | _, [] => []
  | i, .deferred :: es => bodies i ++ sourceOrder bodies (i + 1) es
  | i, .effect effect :: es => .effect effect :: sourceOrder bodies i es
  | i, .attrId :: es => .attrId :: sourceOrder bodies i es

inductive Pass (start : UInt32) : List (Event L) → List (BodyJob L) → ParseEffects L → UInt32 → Prop
  | start : Pass start [] [] .empty start
  | effect {es : List (Event L)} {jobs : List (BodyJob L)} {effects effects' : ParseEffects L}
      {stop : UInt32} {e : Effect L} : Pass start es jobs effects stop →
      effects.record e = some effects' → Pass start (es ++ [.effect e]) jobs effects' stop
  | attrId {es : List (Event L)} {jobs : List (BodyJob L)} {effects : ParseEffects L} {stop : UInt32} :
      Pass start es jobs effects stop →
      Pass start (es ++ [.attrId]) jobs effects (stop + 1)
  | deferred {es : List (Event L)} {jobs : List (BodyJob L)} {job : BodyJob L} :
      Pass start es jobs job.before job.attrStart →
      Pass start (es ++ [.deferred]) (jobs ++ [job]) .empty job.attrEnd

structure Untouched (w w' : World L) : Prop where
  parser : w'.parser = w.parser
  caller : w'.session .caller = w.session .caller
  original : w'.spans .original = w.spans .original

theorem Untouched.refl (w : World L) : Untouched w w := ⟨rfl,rfl,rfl⟩

theorem Untouched.trans (h : Untouched w w') (h' : Untouched w' w'') : Untouched w w'' :=
  ⟨h'.parser.trans h.parser,h'.caller.trans h.caller,h'.original.trans h.original⟩

theorem Untouched.setSession (h : Untouched w w') (id : SessionId) (hid : id ≠ .caller)
    (psess : ParseSess L) : Untouched w (w'.setSession id psess) :=
  ⟨h.parser,(Function.update_of_ne hid.symm _ _).trans h.caller,h.original⟩

theorem Frame.untouched (h : Frame context w w') (hs : context.psess ≠ .caller) (ht : context.globals ≠ .original) :
    Untouched w w' :=
  ⟨h.parser,h.session _ hs.symm,h.spans _ ht.symm⟩

structure ItemPass (start : UInt32) (w₀ w : World L) : Prop where
  untouched : Untouched w₀ w
  fork : w₀.spans .fork <+: w.spans .fork
  pass : ∃ es, w.log = w₀.log ++ es.map (Prod.mk SessionId.item) ∧ Pass start es w.jobs (w.session .item).effects
    (w.session .item).attrId

theorem ItemPass.action (h : ItemPass start w₀ w) (hf : Frame itemPass w w') (hl : Logged .item w w') :
    ItemPass start w₀ w' := by
  obtain ⟨es,hlo,hp⟩ := h.pass
  refine ⟨h.untouched.trans (hf.untouched (by decide) (by decide)),h.fork.trans hf.grown,?_⟩
  rw [hf.jobs]
  cases hl with
  | silent hl' he ha =>
    refine ⟨es,hl'.trans hlo,?_⟩
    rw [he,ha]
    exact hp
  | effect e hl' he ha =>
    refine ⟨es ++ [.effect e],by simp [hl',hlo],?_⟩
    rw [ha]
    exact hp.effect he
  | attrId hl' he ha =>
    refine ⟨es ++ [.attrId],by simp [hl',hlo],?_⟩
    rw [he,ha]
    exact hp.attrId

theorem ItemPass.act (h : ItemPass start w₀ w) (action : Action L) (state : State) :
    Post (fun _ => ItemPass start w₀) (fun _ => Untouched w₀) (action.run itemPass state) w :=
  (action.run_spec itemPass state w).mono (fun _ _ hs => h.action hs.1 hs.2)
    (fun _ _ hf => h.untouched.trans (hf.1.untouched (by decide) (by decide)))

theorem ItemPass.actions (h : ItemPass start w₀ w) (actions : List (Action L)) (state : State) :
    Post (fun _ => ItemPass start w₀) (fun _ => Untouched w₀) (runActions itemPass actions state) w :=
  foldlM (fun state action _ _ h => h.act action state) h

theorem post_reserve {Q : Option UInt32 → World L → Prop} {E : Stop → World L → Prop} {id : SessionId}
    (hs : Q (some (w.session id).attrId) (w.setSession id
    { w.session id with attrId := (w.session id).attrId + UInt32.ofNat n }))
    (hn : Q none w) : Post Q E (reserve id n) w := by
  simp only [reserve,bind_iff,post_getSession]
  split
  · have ha : UInt32.ofNat ((w.session id).attrId.toNat + n) = (w.session id).attrId + UInt32.ofNat n := by
      simp [UInt32.ofNat_add]
    rw [ha]
    exact hs
  · exact hn

section

variable (h : ItemPass start w₀ w)

include h

theorem ItemPass.deferred (hb : job.before = (w.session .item).effects)
    (hst : job.attrStart = (w.session .item).attrId) (he : psess.effects = .empty)
    (hen : psess.attrId = job.attrEnd) :
    ItemPass start w₀ (World.addLog { w.setSession .item psess with jobs := w.jobs ++ [job] } .item .deferred) := by
  obtain ⟨es,hl,hp⟩ := h.pass
  have hs := h.untouched.setSession .item (by decide) psess
  refine ⟨⟨hs.parser,hs.caller,hs.original⟩,h.fork,es ++ [.deferred],by simp [World.addLog,World.setSession,hl],?_⟩
  rw [← hb,← hst] at hp
  have hse : (w.setSession .item psess).session .item = psess := setSession_session_self ..
  simp only [World.addLog,hse,he,hen]
  exact hp.deferred

theorem ItemPass.deferAdmitted (d : Deferral L) (tree : TokenTree) (stream : TokenStream) (state : State) :
    Post (fun _ => ItemPass start w₀) (fun _ => Untouched w₀) (deferAdmitted d tree stream state) w := by
  unfold Parse.deferAdmitted
  rw [bind_iff]
  refine post_ofOption (fun counts _ => ?_) h.untouched
  rw [bind_iff]
  refine post_ofOption (fun endBumps _ => ?_) h.untouched
  rw [bind_iff,post_position,bind_iff]
  refine post_ofOption (fun state _ => ?_) h.untouched
  rw [bind_iff]
  refine (h.actions d.innerAttributes state).mono (fun state w h => ?_) (fun _ _ h => h)
  split
  · exact h
  rw [bind_iff,post_position,bind_iff]
  refine post_ofOption (fun remainingAttrs _ => ?_) h.untouched
  rw [bind_iff]
  refine post_reserve ?_ h.untouched
  have hs (psess : ParseSess L) := h.untouched.setSession .item (by decide) psess
  rw [bind_iff]
  refine post_ofOption (fun attrStart ha => ?_) (hs _)
  rw [bind_iff]
  refine post_ofOption (fun cursor _ => ?_) (hs _)
  rw [bind_iff,post_takeParseEffects,bind_iff]
  refine post_ofOption (fun state _ => ?_) ((hs _).setSession .item (by decide) _)
  rw [bind_iff]
  refine post_ofOption (fun _ _ => ?_) ((hs _).setSession .item (by decide) _)
  rw [bind_iff]
  refine post_ofOption (fun state _ => ?_) ((hs _).setSession .item (by decide) _)
  cases ha
  rw [setSession_setSession]
  exact h.deferred (by simp) rfl rfl (by simp)

theorem ItemPass.deferFunctionBody (facts : SpanFacts) (d : Deferral L) (state : State) :
    Post (fun _ => ItemPass start w₀) (fun _ => Untouched w₀) (deferFunctionBody facts d state) w := by
  unfold Parse.deferFunctionBody
  split
  · exact h
  rw [bind_iff]
  refine post_ofOption (fun tree _ => ?_) h.untouched
  split
  · exact h
  · exact h.deferAdmitted d tree _ state

theorem ItemPass.step (facts : SpanFacts) (step : ItemStep L) (state : State) :
    Post (fun _ => ItemPass start w₀) (fun _ => Untouched w₀) (step.run facts state) w := by
  cases step with
  | act action => exact h.act action state
  | deferBody d => exact h.deferFunctionBody facts d state

theorem ItemPass.steps (facts : SpanFacts) (steps : List (ItemStep L)) (state : State) :
    Post (fun _ => ItemPass start w₀) (fun _ => Untouched w₀)
    (steps.foldlM (fun state step => step.run facts state) state) w :=
  foldlM (fun state step _ _ h => h.step facts step state) h

end

theorem sourceOrder_append (bodies : Nat → List (Event L)) (i : Nat) (es fs : List (Event L)) :
    sourceOrder bodies i (es ++ fs) = sourceOrder bodies i es ++ sourceOrder bodies (i + es.countP isDeferred) fs := by
  induction es generalizing i with
  | nil => rfl
  | cons e es ih =>
    cases e with
    | effect e => simp [sourceOrder,ih,isDeferred]
    | attrId => simp [sourceOrder,ih,isDeferred]
    | deferred =>
      have hc : (Event.deferred :: es).countP isDeferred = es.countP isDeferred + 1 := countP_cons_of_pos rfl
      simp only [cons_append,sourceOrder,ih,append_assoc]
      rw [hc,Nat.add_right_comm,Nat.add_assoc]

theorem Pass.deferrals (h : Pass start es jobs effects stop) : es.countP isDeferred = jobs.length := by
  induction h with
  | start => rfl
  | effect _ _ ih => simp [ih,isDeferred]
  | attrId _ ih => simp [ih,isDeferred]
  | deferred _ ih => simp [ih,isDeferred]

def interleave (jobs : List (BodyJob L)) (bodies : List (ParseEffects L)) : List (ParseEffects L) :=
  (jobs.zip bodies).flatMap fun entry => [entry.1.before,entry.2]

theorem effectsOf_append (es fs : List (Event L)) : effectsOf (es ++ fs) = effectsOf es ++ effectsOf fs :=
  filterMap_append

theorem attrIds_append (es fs : List (Event L)) : attrIds (es ++ fs) = attrIds es + attrIds fs := countP_append

def appendAll (effects : ParseEffects L) (parts : List (ParseEffects L)) : ParseEffects L := parts.foldl append effects

theorem Pass.distinct (h : Pass start es jobs effects stop) : effects.Distinct := by
  induction h with
  | start => exact .empty
  | effect _ hr ih => exact ih.record hr
  | attrId _ ih => exact ih
  | deferred => exact .empty

theorem interleave_concat (h : bodies.length = jobs.length) (job : BodyJob L) (body : ParseEffects L) :
    interleave (jobs ++ [job]) (bodies ++ [body]) = interleave jobs bodies ++ [job.before,body] := by
  simp [interleave,zip_append h.symm]

theorem Pass.sourceOrder_snoc (h : Pass start es jobs effects stop) (bodies : Nat → List (Event L)) (e : Event L) :
    sourceOrder bodies 0 (es ++ [e]) = sourceOrder bodies 0 es ++ sourceOrder bodies jobs.length [e] := by
  rw [sourceOrder_append,h.deferrals,Nat.zero_add]

theorem Pass.attrIds_eq (h : Pass start es jobs effects stop)
    (hb : ∀ (i : Nat) (job : BodyJob L), jobs[i]? = some job → job.attrStart + UInt32.ofNat
    (attrIds (bodies i)) = job.attrEnd) :
    start + UInt32.ofNat (attrIds (sourceOrder bodies 0 es)) = stop := by
  induction h with
  | start => simp [sourceOrder,attrIds]
  | effect h _ ih =>
    rw [h.sourceOrder_snoc,attrIds_append]
    simpa [sourceOrder,attrIds,isAttrId] using ih hb
  | attrId h ih =>
    rw [h.sourceOrder_snoc,attrIds_append,UInt32.ofNat_add,← UInt32.add_assoc,ih hb]
    simp [sourceOrder,attrIds,isAttrId]
  | @deferred es jobs job h ih =>
    have hjo := hb jobs.length job (by simp)
    have hj := ih fun i job hi => hb i job (by rw [getElem?_append_left] <;> grind)
    rw [h.sourceOrder_snoc,attrIds_append,UInt32.ofNat_add,← UInt32.add_assoc,hj]
    simpa [sourceOrder] using hjo

theorem Pass.replay_eq (h : Pass start es jobs effects stop) (hl : accepted.length = jobs.length)
    (hb : ∀ (i : Nat) (body : ParseEffects L), accepted[i]? = some body →
      empty.replay (effectsOf (bodies i)) = some body) (before : ParseEffects L) :
    before.replay (effectsOf (sourceOrder bodies 0 es)) =
    some ((appendAll before (interleave jobs accepted)).append effects) := by
  induction h generalizing accepted with
  | start => simp [sourceOrder,effectsOf,interleave,appendAll,append_empty,replay]
  | @effect es jobs effects effects' stop e h hr ih =>
    rw [h.sourceOrder_snoc,effectsOf_append,replay_append,ih hl hb]
    have hrc := record_append (a := appendAll before (interleave jobs accepted)) h.distinct hr
    simpa [sourceOrder,effectsOf,effectOf,replay] using hrc
  | attrId h ih =>
    rw [h.sourceOrder_snoc,effectsOf_append,replay_append,ih hl hb]
    rfl
  | @deferred es jobs job h ih =>
    obtain ⟨accepted,body,rfl⟩ : ∃ rest last, accepted = rest ++ [last] := by
      rcases eq_nil_or_concat' accepted with rfl | h
      · simp at hl
      · exact h
    have hl' : accepted.length = jobs.length := by simpa using hl
    have hbo := hb jobs.length body (by simp [← hl'])
    have hre := ih hl' fun i body hi => hb i body (by rw [getElem?_append_left] <;> grind)
    rw [h.sourceOrder_snoc,effectsOf_append,replay_append,hre,interleave_concat hl']
    have hs := replay_of_empty ((appendAll before (interleave jobs accepted)).append job.before) hbo
    simpa [sourceOrder,appendAll,append_empty] using hs

end Frontend.Parse
