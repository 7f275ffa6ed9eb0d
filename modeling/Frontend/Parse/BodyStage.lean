import Frontend.Parse.ItemPass

namespace Frontend.Parse

open Ast Library List Post

variable {L : Type} {w₁ w w' : World L} {es fs : List (Event L)} {job : BodyJob L}
  {jobs : List (BodyJob L)} {phase : Phase L} {phases : Phases L} {psess : ParseSess L} {i j : Nat}

def eventsOf (id : SessionId) (log : List (SessionId × Event L)) : List (Event L) :=
  log.filterMap fun entry => if entry.1 = id then some entry.2 else none

theorem eventsOf_append (id : SessionId) (l m : List (SessionId × Event L)) :
    eventsOf id (l ++ m) = eventsOf id l ++ eventsOf id m := filterMap_append

theorem eventsOf_map_self (id : SessionId) (es : List (Event L)) : eventsOf id (es.map (Prod.mk id)) = es := by
  induction es with
  | nil => rfl
  | cons e es _ => simp [eventsOf]

theorem eventsOf_eq_nil {id : SessionId} {l : List (SessionId × Event L)} (h : ∀ entry ∈ l, entry.1 ≠ id) :
    eventsOf id l = [] := by
  simp only [eventsOf,filterMap_eq_nil_iff]
  intro entry he
  simp [h entry he]

theorem eventsOf_map_of_ne {id id' : SessionId} (h : id' ≠ id) (es : List (Event L)) :
    eventsOf id (es.map (Prod.mk id')) = [] := by
  refine eventsOf_eq_nil fun entry he => ?_
  obtain ⟨e,-,rfl⟩ := mem_map.1 he
  exact h

def BodyRun (job : BodyJob L) (es : List (Event L)) : Phase L → ParseSess L → Prop
  | .waiting, _ => es = []
  | .running _, psess => ParseEffects.empty.replay (effectsOf es) = some psess.effects ∧
      psess.attrId = job.attrStart + UInt32.ofNat (attrIds es)
  | .returned (some body), _ => ParseEffects.empty.replay (effectsOf es) = some body.effects ∧
      job.attrStart + UInt32.ofNat (attrIds es) = job.attrEnd
  | .returned none, _ => True
  | .panicked, _ => True

theorem Logged.bodyRun {id : SessionId} (hl : Logged id w w') (h : BodyRun job es (.running state) (w.session id)) :
    ∃ fs : List (Event L), w'.log = w.log ++ fs.map (Prod.mk id) ∧ BodyRun job (es ++ fs) (.running state')
    (w'.session id) := by
  obtain ⟨hef,hat⟩ := h
  cases hl with
  | silent hlo he ha =>
    refine ⟨[],by simpa using hlo,?_,?_⟩
    · simpa [he] using hef
    · simpa [ha] using hat
  | effect e hlo he ha =>
    refine ⟨[.effect e],hlo,?_,?_⟩
    · have hs : effectsOf (es ++ [.effect e]) = effectsOf es ++ [e] := by
        simp [effectsOf,effectOf]
      rw [hs,ParseEffects.replay_append,hef,← he]
      simp [ParseEffects.replay]
    · rw [ha,hat]
      simp [attrIds,isAttrId]
  | attrId hlo he ha =>
    refine ⟨[.attrId],hlo,?_,?_⟩
    · have hs : effectsOf (es ++ [.attrId]) = effectsOf es := by
        simp [effectsOf,effectOf]
      rw [hs,he,hef]
    · have hc : attrIds (es ++ [.attrId]) = attrIds es + 1 := by
        simp [attrIds,isAttrId]
      rw [ha,hat,hc,UInt32.ofNat_add,← UInt32.add_assoc]
      rfl

def StepDone (job : BodyJob L) (i : Nat) (es : List (Event L)) (w : World L) (phase : Phase L) (w' : World L) : Prop :=
  Frame (bodyPass i) w w' ∧ ∃ fs : List (Event L), w'.log = w.log ++ fs.map (Prod.mk (.body i)) ∧
    BodyRun job (es ++ fs) phase (w'.session (.body i))

theorem StepDone.quiet (hf : Frame (bodyPass i) w w') (hl : w'.log = w.log)
    (h : BodyRun job es phase (w'.session (.body i))) : StepDone job i es w phase w' :=
  ⟨hf,[],by simpa using hl,by simpa using h⟩

theorem finishBody_spec (h : BodyRun job es (.running state) (w.session (.body i))) :
    Post (fun body => StepDone job i es w (.returned body)) (fun _ _ => False) (finishBody job i state result) w := by
  have hs (psess : ParseSess L) : Frame (bodyPass i) w (w.setSession (.body i) psess) :=
    Frame.setSession (bodyPass i) w psess
  unfold finishBody
  cases result with
  | none => exact .quiet (Frame.refl _ w) rfl trivial
  | some block =>
    dsimp only
    rw [bind_iff,post_position]
    split
    · exact .quiet (Frame.refl _ w) rfl trivial
    rename_i hok
    rw [bind_iff,post_clean]
    split
    · exact .quiet (hs _) rfl trivial
    have he : (w.session (.body i)).attrId = job.attrEnd := by
      by_contra hne
      exact hok (by simp [hne])
    refine .quiet ((hs _).trans (Frame.setSession (bodyPass i) _ _)) rfl ?_
    refine ⟨?_,h.2.symm.trans he⟩
    simpa [ParseSess.emitStashedDiagnostics] using h.1

theorem post_speculateParse {Q : Option α → World L → Prop} {E F : Stop → World L → Prop}
    (h : Post (fun a => Q (some a)) E f w)
    (hr : ∀ stop w', E stop w' → Q none w') (hp : ∀ stop w', E stop w' → F stop w') :
    Post Q F (speculateParse f) w := by
  unfold Post at h ⊢
  unfold speculateParse
  cases hf : f w with
  | ok a w' =>
    rw [hf] at h
    exact h
  | error stop w' =>
    rw [hf] at h
    cases stop with
    | retryParseSerial => exact hr _ _ h
    | fatal => exact hr _ _ h
    | panic => exact hp _ _ h
    | unfinished => exact hp _ _ h

theorem post_attempt {Q : Phase L → World L → Prop} {E F : Stop → World L → Prop}
    (h : Post (fun state => Q (.running state)) E f w)
    (hr : ∀ stop w', E stop w' → Q (.returned none) w')
    (hp : ∀ stop w', E stop w' → Q .panicked w') : Post Q F (attempt f) w := by
  have hs : Post (fun state? => Q (state?.elim (.returned none) .running)) (fun _ => Q .panicked)
      (speculateParse f) w := post_speculateParse h hr hp
  unfold Post at hs ⊢
  unfold attempt
  cases hf : speculateParse f w with
  | ok state? w' =>
    rw [hf] at hs
    cases state? <;> exact hs
  | error stop w' =>
    rw [hf] at hs
    exact hs

theorem BodyStep.run_spec (h : BodyRun job es phase (w.session (.body i))) (step : BodyStep L) :
    Post (StepDone job i es w) (fun _ _ => False) (step.run job i phase) w := by
  have idle : StepDone job i es w phase w := .quiet (Frame.refl _ w) rfl h
  unfold BodyStep.run
  split
  · obtain rfl : es = [] := h
    rw [bind_iff,post_setSession,pure_iff]
    refine .quiet (Frame.setSession (bodyPass i) w _) rfl ?_
    simp [BodyRun,effectsOf,attrIds,ParseSess.session,ParseEffects.replay]
  · rename_i state action
    exact post_attempt ((action.run_spec (bodyPass i) state w).mono (fun _ _ hs => ⟨hs.1,hs.2.bodyRun h⟩)
      (fun _ _ hs => hs))
      (fun _ _ hs => .quiet hs.1 hs.2 trivial) (fun _ _ hs => .quiet hs.1 hs.2 trivial)
  · rw [bind_iff]
    exact finishBody_spec h
  · exact idle

structure BodyStage (jobs : List (BodyJob L)) (w₁ : World L) (phases : Phases L) (w : World L) : Prop where
  untouched : Untouched w₁ w
  item : w.session .item = w₁.session .item
  fork : w.spans .fork = w₁.spans .fork
  log : ∃ l, w.log = w₁.log ++ l ∧ (∀ entry ∈ l, entry.1 ≠ .item) ∧ ∀ (i : Nat) (job : BodyJob L), jobs[i]? = some job →
      BodyRun job (eventsOf (.body i) l) (phases i) (w.session (.body i))

theorem BodyStage.start (jobs : List (BodyJob L)) (w : World L) : BodyStage jobs w (fun _ => .waiting) w :=
  ⟨Untouched.refl w,rfl,rfl,[],by simp,by simp,fun _ _ _ => rfl⟩

theorem BodyStage.step (h : BodyStage jobs w₁ phases w) (step : Nat × BodyStep L) :
    Post (BodyStage jobs w₁) (fun _ => Untouched w₁) (bodyStep jobs phases step) w := by
  obtain ⟨i,step⟩ := step
  obtain ⟨l,hlo,hl,hb⟩ := h.log
  unfold bodyStep
  dsimp only
  cases hj : jobs[i]? with
  | none => exact h
  | some job =>
    dsimp only
    rw [bind_iff]
    refine (BodyStep.run_spec (hb i job hj) step).mono (fun phase w' hd => ?_) (fun _ _ h => h.elim)
    obtain ⟨hf,fs,hl',hr⟩ := hd
    refine ⟨h.untouched.trans (hf.untouched (fun h => by cases h) fun h => by cases h),
      (hf.session _ fun h => by cases h).trans h.item,(hf.fixed rfl).trans h.fork,
      l ++ fs.map (Prod.mk (.body i)),by rw [hl',hlo,append_assoc],?_,?_⟩
    · exact forall_mem_append.mpr ⟨hl,forall_mem_map.mpr fun e _ h => by cases h⟩
    · intro j job' hj'
      by_cases hij : j = i
      · subst hij
        obtain rfl : job = job' := Option.mem_unique hj hj'
        rw [eventsOf_append,eventsOf_map_self,Function.update_self]
        exact hr
      · have hne : SessionId.body i ≠ .body j := fun h => hij (SessionId.body.inj h).symm
        rw [eventsOf_append,eventsOf_map_of_ne hne,append_nil,Function.update_of_ne hij,hf.session _ hne.symm]
        exact hb j job' hj'

theorem BodyStage.run (h : BodyStage jobs w₁ phases w) (schedule : List (Nat × BodyStep L)) :
    Post (BodyStage jobs w₁) (fun _ => Untouched w₁) (schedule.foldlM (bodyStep jobs) phases) w :=
  foldlM (fun _ step _ _ h => h.step step) h

theorem post_outputs (phases : Phases L) (l : List Nat) (w : World L) :
    Post (fun output w' => w' = w ∧ l.map phases = output.map Phase.returned)
      (fun _ w' => w' = w) (l.mapM fun index => (phases index).output) w := by
  induction l with
  | nil => exact ⟨rfl,rfl⟩
  | cons i l ih =>
    rw [mapM_cons,bind_iff]
    cases hp : phases i with
    | waiting => exact rfl
    | running state => exact rfl
    | panicked => exact rfl
    | returned body =>
      rw [Phase.output,pure_iff,bind_iff]
      refine ih.mono (fun output w' h => ?_) (fun _ _ h => h)
      exact ⟨h.1,by simp [hp,h.2]⟩

theorem runBodies_spec (jobs : List (BodyJob L)) (schedule : List (Nat × BodyStep L)) (w : World L) :
    Post (fun output w' => output.length = jobs.length ∧ ∃ phases, BodyStage jobs w phases w' ∧
          ∀ (i : Nat) (body : Option (Body L)), output[i]? = some body → phases i = .returned body)
      (fun _ => Untouched w) (runBodies jobs schedule) w := by
  unfold runBodies
  rw [bind_iff]
  refine ((BodyStage.start jobs w).run schedule).mono (fun phases w' h => ?_) (fun _ _ h => h)
  refine (post_outputs phases (List.range jobs.length) w').mono (fun output w'' ho => ?_)
    (fun _ _ ho => ho ▸ h.untouched)
  obtain ⟨rfl,ho⟩ := ho
  have hl : output.length = jobs.length := by simpa using (congrArg List.length ho).symm
  refine ⟨hl,phases,h,fun i body hi => ?_⟩
  have hg := congrArg (·[i]?) ho
  have hlt : i < jobs.length := by
    rw [← hl]
    exact (List.getElem?_eq_some_iff.1 hi).1
  simpa [hi,hlt] using hg

end Frontend.Parse
