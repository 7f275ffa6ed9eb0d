import Frontend.Parse.BodyStage

namespace Frontend.Parse

open Ast Library List Post
open SpanEncoding (SpanInterner SpanData)

variable {L : Type} {w₀ w w' : World L} {jobs : List (BodyJob L)}

def sourceEvents (log : List (SessionId × Event L)) : List (Event L) :=
  sourceOrder (fun i => eventsOf (.body i) log) 0 (eventsOf .item log)

theorem sourceEvents_eq (es : List (Event L)) (hl : ∀ entry ∈ l, entry.1 ≠ .item) :
    sourceEvents (es.map (Prod.mk .item) ++ l) = sourceOrder (fun i => eventsOf (.body i) l) 0 es := by
  have hit : eventsOf .item (es.map (Prod.mk .item) ++ l) = es := by
    rw [eventsOf_append,eventsOf_map_self,eventsOf_eq_nil hl,append_nil]
  have hb (i : Nat) : eventsOf (.body i) (es.map (Prod.mk .item) ++ l) = eventsOf (.body i) l := by
    rw [eventsOf_append,eventsOf_map_of_ne (by simp),nil_append]
  simp [sourceEvents,hit,hb]

theorem Gathered.add_spec {g g' : Gathered L} (h : g.add (job,output) = some g') :
    ∃ body, output = some body ∧ g'.effects = g.effects ++ [job.before,body.effects] := by
  simp only [Gathered.add,Option.bind_eq_bind,Option.bind_eq_some_iff] at h
  obtain ⟨body,hb,h⟩ := h
  split at h
  · cases h
  · cases h
    exact ⟨body,hb,rfl⟩

theorem Gathered.fold_spec (hl : output.length = jobs.length) (h : (jobs.zip output).foldlM Gathered.add g = some g') :
    ∃ bodies : List (Body L), output = bodies.map some ∧ g'.effects = g.effects ++ interleave jobs
    (bodies.map Body.effects) := by
  induction jobs generalizing output g with
  | nil =>
    obtain rfl := length_eq_zero_iff.1 hl
    cases h
    exact ⟨[],rfl,by simp [interleave]⟩
  | cons job jobs ih =>
    rcases output with _ | ⟨out,output⟩
    · simp at hl
    simp only [zip_cons_cons,foldlM_cons,Option.bind_eq_bind,Option.bind_eq_some_iff] at h
    obtain ⟨g1,ha,h⟩ := h
    obtain ⟨body,rfl,hg1⟩ := Gathered.add_spec ha
    obtain ⟨bodies,rfl,hg'⟩ := ih (by simpa using hl) h
    exact ⟨body :: bodies,rfl,by simp [hg',hg1,interleave]⟩

structure Speculated (attrStart : UInt32) (w₀ : World L) (c : Candidate L) (w : World L) : Prop where
  untouched : Untouched w₀ w
  fork : w₀.spans .fork <+: w.spans .fork
  attrEnd : (w.session .item).attrId = c.attrEnd
  log : ∃ log, w.log = w₀.log ++ log ∧ attrStart + UInt32.ofNat (attrIds (sourceEvents log)) = c.attrEnd ∧
    ∀ before : ParseEffects L, before.replay (effectsOf (sourceEvents log)) = some (appendAll before c.effects)

def Outcome (attrStart : UInt32) (w₀ : World L) : Option (Candidate L) → World L → Prop
  | none => Untouched w₀
  | some c => Speculated attrStart w₀ c

theorem buildCandidate_spec (h : ItemPass attrStart w₀ w) (run : Run L) (state : State) (krate : Crate) :
    Post (Outcome attrStart w₀) (fun _ => Untouched w₀) (buildCandidate run state krate w.jobs) w := by
  unfold buildCandidate
  rw [bind_iff]
  refine (runBodies_spec w.jobs run.schedule w).mono (fun output w1 hr => ?_) (fun _ _ hu => h.untouched.trans hu)
  obtain ⟨hle,phases,hs,hph⟩ := hr
  have hu := h.untouched.trans hs.untouched
  split
  · exact hu
  cases hg : (w.jobs.zip output).foldlM Gathered.add ⟨[],[]⟩ with
  | none => exact hu
  | some gathered =>
    dsimp only
    split
    · exact hu
    obtain ⟨bodies,rfl,he⟩ := Gathered.fold_spec hle hg
    obtain ⟨es,hlo,hp⟩ := h.pass
    obtain ⟨l,hl1,hl,hb⟩ := hs.log
    have hc : bodies.length = w.jobs.length := by simpa using hle
    have ha (i : Nat) (hi : i < bodies.length) :
        BodyRun (w.jobs[i]) (eventsOf (.body i) l) (.returned (some bodies[i])) (w1.session (.body i)) := by
      have hr := hb i w.jobs[i] (getElem?_eq_getElem _)
      rw [hph i (some bodies[i]) (by simp [hi])] at hr
      exact hr
    rw [bind_iff,post_takeParseEffects,bind_iff,post_position,pure_iff]
    rw [← hs.item] at hp
    refine ⟨hu.setSession .item (by decide) _,hs.fork.symm ▸ h.fork,rfl,es.map (Prod.mk .item) ++ l,
      ?_,?_,fun before => ?_⟩
    · exact hl1.trans (by rw [hlo,append_assoc])
    · rw [sourceEvents_eq es hl,setSession_session_self]
      refine hp.attrIds_eq fun i job hj => ?_
      obtain ⟨hi,rfl⟩ := List.getElem?_eq_some_iff.1 hj
      exact (ha i (hc ▸ hi)).2
    · have hre (i : Nat) (body : ParseEffects L) (hi : (bodies.map Body.effects)[i]? = some body) :
          ParseEffects.empty.replay (effectsOf (eventsOf (.body i) l)) = some body := by
        obtain ⟨hlt,rfl⟩ := List.getElem?_eq_some_iff.1 hi
        rw [length_map] at hlt
        simpa using (ha i hlt).1
      rw [sourceEvents_eq es hl,hp.replay_eq (by simpa using hle) hre before]
      simp [appendAll,he]

theorem candidate_spec (facts : SpanFacts) (run : Run L) (attrStart : UInt32) (initial : State) (w : World L) :
    Post (Outcome attrStart w) (fun _ => Untouched w) (candidate facts run attrStart initial) w := by
  have hu : Untouched w ({ w.setSession .item (.session attrStart) with jobs := [] }) :=
    have hs := (Untouched.refl w).setSession .item (by decide) (.session attrStart)
    ⟨hs.parser,hs.caller,hs.original⟩
  have hst : ItemPass attrStart w ({ w.setSession .item (.session attrStart) with jobs := [] }) :=
    ⟨hu,prefix_rfl,[],by simp [World.setSession],by simpa [World.setSession,ParseSess.session] using Pass.start⟩
  unfold candidate
  rw [bind_iff,post_setSession,bind_iff,modify_iff,bind_iff]
  refine (hst.steps facts run.items initial).mono (fun state w' h => ?_) (fun _ _ h => h)
  cases run.parsed with
  | none => exact h.untouched
  | some krate =>
    dsimp only
    rw [bind_iff,post_clean]
    have hu' := h.untouched.setSession .item (by decide) (w'.session .item).emitStashedDiagnostics
    have h' : ItemPass attrStart w (w'.setSession .item (w'.session .item).emitStashedDiagnostics) := by
      obtain ⟨es,hl,hp⟩ := h.pass
      exact ⟨hu',h.fork,es,hl,by rwa [setSession_session_self]⟩
    split
    · exact hu'
    split
    · exact hu'
    rw [bind_iff,get_iff]
    split
    · exact hu'
    split
    · exact hu'
    · exact buildCandidate_spec h' run state krate

theorem post_appendAll {Q : Unit → World L → Prop} {E : Stop → World L → Prop} {id : SessionId}
    (h : Q () (w.setSession id { w.session id with effects := appendAll (w.session id).effects parts })) :
    Post Q E (parts.forM (appendParseEffects id)) w := by
  induction parts generalizing w with
  | nil =>
    have hs : w.setSession id (w.session id) = w := by simp [World.setSession,Function.update_eq_self]
    rw [← hs]
    exact h
  | cons part parts ih =>
    rw [forM_eq_forM,forM_cons,bind_iff]
    refine ih ?_
    simpa [appendAll] using h

structure Published (w : World L) (c : Candidate L) (w' : World L) : Prop where
  parser : w'.parser = { w.parser with state := c.state }
  item : w'.session .item = w.session .item
  log : w'.log = w.log
  spans : w'.spans .original = w.spans .fork
  attrId : (w'.session .caller).attrId = c.attrEnd
  effects : (w'.session .caller).effects = appendAll (w.session .caller).effects c.effects

def Committed (w : World L) (c : Candidate L) : Option Crate → World L → Prop
  | none => fun w' => w' = w
  | some krate => fun w' => krate = c.krate ∧ Published w c w'

theorem commit_spec (run : Run L) (attrStart : UInt32) (baseline : Nat) (c : Candidate L) (w : World L) :
    Post (Committed w c) (fun _ _ => True) (commit run attrStart baseline c) w := by
  unfold commit
  rw [bind_iff,post_position]
  split
  · exact rfl
  rw [bind_iff]
  unfold commitParseSpans
  rw [bind_iff,get_iff]
  split
  · exact rfl
  rw [bind_iff,modify_iff,pure_iff,if_neg (by decide)]
  unfold interfere commitAttrIds
  rw [bind_iff,modify_iff,bind_iff,bind_iff,post_getSession]
  split
  · rw [bind_iff,post_setSession,pure_iff,if_neg (by decide),bind_iff]
    refine post_appendAll ⟨rfl,rfl,rfl,rfl,?_,?_,?_⟩
    · simp [World.setSession,World.setSpans]
    · simp
    · simp [World.setSpans]
  · exact trivial

structure Shared (L : Type) where
  parser : Parser
  attrId : UInt32
  effects : ParseEffects L
  spans : SpanInterner

def World.shared (w : World L) : Shared L := ⟨w.parser,(w.session .caller).attrId,(w.session .caller).effects,
    w.spans .original⟩

def Shared.interfered (s : Shared L) (spans : List SpanData) (attrs : UInt32) : Shared L :=
  { s with attrId := s.attrId + attrs, spans := s.spans ++ spans }

theorem Untouched.shared (h : Untouched w w') : w'.shared = w.shared := by
  simp [World.shared,h.parser,h.caller,h.original]

def AllOrNothing (run : Run L) (w : World L) : Option Crate → World L → Prop
  | none => fun w' => w'.shared = w.shared ∨ w'.shared = w.shared.interfered run.foreignSpans run.foreignAttrs
  | some _ => fun w' =>
      (∀ (span : SpanEncoding.Span) (data : SpanData), span.dataUntracked (w.spans .original) = some data →
          span.dataUntracked (w'.spans .original) = some data) ∧
      (w'.session .caller).attrId = (w'.session .item).attrId ∧
      ∃ log, w'.log = w.log ++ log ∧ (w'.session .caller).attrId =
          (w.session .caller).attrId + UInt32.ofNat (attrIds (sourceEvents log)) ∧
        (w.session .caller).effects.replay (effectsOf (sourceEvents log)) = some (w'.session .caller).effects

theorem Speculated.allOrNothing (h : Speculated (w.session .caller).attrId w1 c w2)
    (hs : w1.shared = w.shared.interfered run.foreignSpans run.foreignAttrs)
    (hf : w1.spans .fork = w.spans .original) (hl : w1.log = w.log) :
    ∀ {result : Option Crate}, Committed w2 c result w' → AllOrNothing run w result w' := by
  have hu := h.untouched.shared.trans hs
  intro result hc
  cases result with
  | none =>
    obtain rfl : w' = w2 := hc
    exact .inr hu
  | some krate =>
    obtain ⟨-,hp⟩ := hc
    obtain ⟨log,hl',ha,hr⟩ := h.log
    have he : (w2.session .caller).effects = (w.session .caller).effects := congrArg Shared.effects hu
    refine ⟨fun span data hd => ?_,?_,log,?_,?_,?_⟩
    · rw [hp.spans]
      exact SpanEncoding.dataUntracked_mono (hf ▸ h.fork) hd
    · rw [hp.attrId,hp.item,h.attrEnd]
    · rw [hp.log,hl',hl]
    · rw [hp.attrId,ha]
    · rw [hp.effects,he,hr]

theorem parseParallelBodies_spec (facts : SpanFacts) (run : Run L) (w : World L) :
    Post (AllOrNothing run w) (fun _ _ => True) (parseParallelBodies facts run) w := by
  unfold parseParallelBodies
  rw [bind_iff,get_iff]
  split
  · exact .inl rfl
  rw [bind_iff,post_position]
  split
  · exact .inl rfl
  unfold forkForParse interfere
  rw [bind_iff,bind_iff,get_iff,bind_iff,modify_iff,pure_iff,bind_iff,modify_iff]
  set w1 : World L := ((w.setSpans .fork (w.spans .original)).setSpans .original _).setSession .caller _ with hw1
  have hs : w1.shared = w.shared.interfered run.foreignSpans run.foreignAttrs := by
    simp [hw1,World.shared,Shared.interfered,World.setSession,World.setSpans]
  have hf : w1.spans .fork = w.spans .original := by simp [hw1,World.setSession,World.setSpans]
  have hl : w1.log = w.log := rfl
  have hn {w' : World L} (hu : Untouched w1 w') : AllOrNothing run w none w' := .inr (hu.shared.trans hs)
  rw [bind_iff]
  refine post_speculateParse ((candidate_spec facts run _ _ w1).mono (fun c w2 hc => ?_)
    (fun _ _ hu => hu)) (fun _ _ hu => hn hu) (fun _ _ _ => trivial)
  cases c with
  | none => exact hn hc
  | some c => exact (commit_spec run _ _ c w2).mono (fun _ _ hco => hc.allOrNothing hs hf hl hco) (fun _ _ _ => trivial)

theorem speculative_parse_all_or_nothing (facts : SpanFacts) (run : Run L) {w w' : World L}
    {result : Option Crate} (h : parseParallelBodies facts run w = .ok result w') :
    AllOrNothing run w result w' :=
  (parseParallelBodies_spec facts run w).of_ok h

def rootSpans : SpanFacts := ⟨fun _ => true,fun _ => false⟩

def emptyGroup (at' : Nat) : TokenTree := .Delimited ⟨⟨at',at' + 1⟩,⟨at' + 1,at' + 2⟩⟩ ⟨.Alone,.Alone⟩ .Brace []

def fnToken (at' : Nat) : TokenTree := .Token ⟨.Ident ['f', 'n'] .No,⟨at',at' + 2⟩⟩ .Alone

def twoGroups : TokenStream := [fnToken 1,emptyGroup 4,fnToken 7,emptyGroup 10]

def twoBodiesWorld : World Nat where
  parser := ⟨(State.newWithCursor (.new twoGroups) none).getD (State.new (.new []) none),false⟩
  session := fun _ => .session 7
  spans := fun _ => []
  jobs := []
  log := []

def bodyEnd (bumps : UInt32) : Action Nat :=
  .move { State.new (.new []) none with token := Token.eof, numBumpCalls := bumps, inFnBody := true }

def lint (n : Nat) : Action Nat := .record (.lint n)

def twoBodiesRun : Run Nat where
  parallelHere := true
  canShare := true
  items :=
    [.act (lint 0),.act .bump,.deferBody ⟨⟨['a'],⟨10,11⟩⟩,[],true⟩,
      .act (lint 2),.act .bump,.act .mkAttrId,.deferBody ⟨⟨['b'],⟨20,21⟩⟩,[],true⟩,.act (lint 4)]
  parsed := some [.fn false ⟨10,11⟩ [] none,.fn false ⟨20,21⟩ [] none]
  jobsShared := false
  forkShared := true
  schedule :=
    [(1,.enter),(1,.act (lint 3)),(0,.enter),(1,.act (bodyEnd 6)),(1,.leave (some [])),
      (0,.act (lint 1)),(0,.act (bodyEnd 3)),(0,.leave (some []))]
  inputShared := false
  foreignSpans := []
  foreignAttrs := 0
  lateAttrs := 0

def committedWith (lints : List Nat) (attrId : UInt32) : EStateM.Result Stop (World Nat) (Option Crate) → Bool
  | .ok (some _) w => (w.session .caller).effects.lints = lints ∧ (w.session .caller).attrId = attrId
  | _ => false

theorem two_bodies_commit : ∃ krate w', parseParallelBodies rootSpans twoBodiesRun twoBodiesWorld = .ok (some krate) w' ∧
      (w'.session .caller).effects.lints = [0,1,2,3,4] ∧ (w'.session .caller).attrId = 8 ∧
      AllOrNothing twoBodiesRun twoBodiesWorld (some krate) w' := by
  have hr : committedWith [0,1,2,3,4] 8 (parseParallelBodies rootSpans twoBodiesRun twoBodiesWorld) = true := by
    decide +kernel
  cases hre : parseParallelBodies rootSpans twoBodiesRun twoBodiesWorld with
  | error stop w' => simp [hre,committedWith] at hr
  | ok result w' =>
    cases result with
    | none => simp [hre,committedWith] at hr
    | some krate =>
      simp only [hre,committedWith,decide_eq_true_eq] at hr
      exact ⟨krate,w',rfl,hr.1,hr.2,speculative_parse_all_or_nothing rootSpans twoBodiesRun hre⟩

end Frontend.Parse
