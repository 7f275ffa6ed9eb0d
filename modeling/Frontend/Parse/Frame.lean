import Frontend.Parse.Parallel

namespace Frontend.Parse

open Ast Library
open SpanEncoding (SpanInterner SpanData)

variable {L : Type} {context : Context} {w w' w'' : World L}

structure Frame (context : Context) (w w' : World L) : Prop where
  parser : w'.parser = w.parser
  jobs : w'.jobs = w.jobs
  session : ∀ id, id ≠ context.psess → w'.session id = w.session id
  spans : ∀ id, id ≠ context.globals → w'.spans id = w.spans id
  grown : w.spans context.globals <+: w'.spans context.globals
  fixed : context.access.spans = false → w'.spans context.globals = w.spans context.globals

inductive Logged (id : SessionId) (w w' : World L) : Prop where
  | silent : w'.log = w.log → (w'.session id).effects = (w.session id).effects →
      (w'.session id).attrId = (w.session id).attrId → Logged id w w'
  | effect (e : Effect L) : w'.log = w.log ++ [(id,.effect e)] → (w.session id).effects.record e =
      some (w'.session id).effects →
      (w'.session id).attrId = (w.session id).attrId → Logged id w w'
  | attrId : w'.log = w.log ++ [(id,.attrId)] → (w'.session id).effects = (w.session id).effects →
      (w'.session id).attrId = (w.session id).attrId + 1 → Logged id w w'

theorem Frame.refl (context : Context) (w : World L) : Frame context w w :=
  ⟨rfl,rfl,fun _ _ => rfl,fun _ _ => rfl,List.prefix_rfl,fun _ => rfl⟩

theorem Frame.setSession (context : Context) (w : World L) (psess : ParseSess L) :
    Frame context w (w.setSession context.psess psess) :=
  ⟨rfl,rfl,fun _ hid => Function.update_of_ne hid _ _,fun _ _ => rfl,List.prefix_rfl,fun _ => rfl⟩

variable {id : SessionId} {E : Stop → World L → Prop}

theorem Frame.addLog (h : Frame context w w') : Frame context w (w'.addLog id event) :=
  ⟨h.parser,h.jobs,h.session,h.spans,h.grown,h.fixed⟩

theorem Frame.setSpans {spans : SpanInterner} (hg : w.spans context.globals <+: spans)
    (hf : context.access.spans = false → spans = w.spans context.globals) :
    Frame context w (w.setSpans context.globals spans) := by
  refine ⟨rfl,rfl,fun _ _ => rfl,fun _ hid => Function.update_of_ne hid _ _,?_,?_⟩
  · simpa [World.setSpans] using hg
  · simpa [World.setSpans] using hf

@[simp] theorem setSession_session_self (w : World L) (id : SessionId) (psess : ParseSess L) :
    (w.setSession id psess).session id = psess :=
  Function.update_self ..

@[simp] theorem setSession_setSession (w : World L) (id : SessionId) (p q : ParseSess L) :
    (w.setSession id p).setSession id q = w.setSession id q := by
  simp [World.setSession]

theorem Frame.trans (h : Frame context w w') (h' : Frame context w' w'') : Frame context w w'' :=
  ⟨h'.parser.trans h.parser,h'.jobs.trans h.jobs,fun id hid => (h'.session id hid).trans (h.session id hid),
    fun id hid => (h'.spans id hid).trans (h.spans id hid),h.grown.trans h'.grown,
    fun ha => (h'.fixed ha).trans (h.fixed ha)⟩

@[simp] theorem post_getSession : Post Q E (getSession id) w ↔ Q (w.session id) w := Iff.rfl

@[simp] theorem post_setSession : Post Q E (setSession id psess) w ↔ Q () (w.setSession id psess) := Iff.rfl

@[simp] theorem post_position : Post Q E (position id) w ↔ Q (w.session id).attrId w := Iff.rfl

@[simp] theorem post_takeParseEffects : Post Q E (takeParseEffects id) w ↔
      Q (w.session id).effects (w.setSession id { w.session id with effects := .empty }) := Iff.rfl

@[simp] theorem post_clean : Post Q E (clean id) w ↔
      Q (w.session id).emitStashedDiagnostics.isClean (w.setSession id (w.session id).emitStashedDiagnostics) := Iff.rfl

theorem post_ofOption (hQ : ∀ a, o = some a → Q a w) (hE : E stop w) : Post Q E (ofOption stop o) w := by
  cases o with
  | none => exact hE
  | some a => exact hQ a rfl

theorem Action.run_spec (context : Context) (state : State) (action : Action L) (w : World L) :
    Post (fun _ w' => Frame context w w' ∧ Logged context.psess w w')
      (fun _ w' => Frame context w w' ∧ w'.log = w.log) (action.run context state) w := by
  have quiet (psess : ParseSess L) (he : psess.effects = (w.session context.psess).effects)
      (ha : psess.attrId = (w.session context.psess).attrId) :
      Frame context w (w.setSession context.psess psess) ∧ Logged context.psess w (w.setSession context.psess psess) :=
    ⟨Frame.setSession context w psess,.silent rfl (by simp [he]) (by simp [ha])⟩
  cases action with
  | bump => exact post_ofOption (fun _ _ => ⟨Frame.refl context w,.silent rfl rfl rfl⟩) ⟨Frame.refl context w,rfl⟩
  | move state => exact ⟨Frame.refl context w,.silent rfl rfl rfl⟩
  | newSpan lo hi ctxt parent =>
    simp only [Action.run,Post.bind_iff,Post.get_iff]
    split
    · exact ⟨Frame.refl context w,rfl⟩
    rename_i h
    refine ⟨Frame.setSpans SpanEncoding.prefix_new fun ha => ?_,.silent rfl rfl rfl⟩
    by_contra hne
    exact h ⟨hne,ha⟩
  | internSymbol known =>
    simp only [Action.run]
    split
    · exact ⟨Frame.refl context w,rfl⟩
    · exact ⟨Frame.refl context w,.silent rfl rfl rfl⟩
  | mkAttrId =>
    simp only [Action.run,Parse.mkAttrId,Post.bind_iff,post_getSession,post_setSession]
    split
    · exact ⟨Frame.setSession context w _,rfl⟩
    · exact ⟨(Frame.setSession context w _).addLog,.attrId rfl (by simp [World.addLog]) (by simp [World.addLog])⟩
  | record effect =>
    simp only [Action.run,recordEffect,Post.bind_iff,post_getSession]
    refine post_ofOption (fun effects hef => ?_) ⟨Frame.refl context w,rfl⟩
    exact ⟨(Frame.setSession context w _).addLog,.effect effect rfl (by simpa [World.addLog] using hef)
      (by simp [World.addLog])⟩
  | emit error => exact quiet _ rfl rfl
  | stash => exact quiet _ rfl rfl
  | steal => exact quiet _ rfl rfl
  | raise stop => exact ⟨Frame.refl context w,rfl⟩

end Frontend.Parse
