import Frontend.Library.Run
import Frontend.Library.Tally

namespace Frontend.Sync.Pool

open Library Tally Option

inductive Call where
  | load
  | test (current : Nat)
  | exchange (current : Nat)
  | fetchAdd
  | launch
  | returned (submitted : Bool)
deriving DecidableEq

inductive Job where
  | queued
  | running
  | ended (panicked : Bool)
  | released (panicked : Bool)
deriving DecidableEq

structure State where
  inFlight : Nat
  calls : List Call
  jobs : List Job
deriving DecidableEq

def start : State := ⟨0,[],[]⟩

-- `compare_exchange_weak` may fail although the count is the expected one.
def Call.step (limit : Nat) (spurious : Bool) (inFlight : Nat) : Call → Nat × Call × List Job
  | .load => (inFlight,.test inFlight,[])
  | .test current => (inFlight,if limit ≤ current then .returned false else .exchange current,[])
  | .exchange current =>
    if inFlight = current ∧ spurious = false then (inFlight + 1,.launch,[]) else (inFlight,.test inFlight,[])
  | .fetchAdd => (inFlight + 1,.launch,[])
  | .launch => (inFlight,.returned true,[.queued])
  | .returned submitted => (inFlight,.returned submitted,[])

def Job.step (panics : Bool) (inFlight : Nat) : Job → Nat × Job
  | .queued => (inFlight,.running)
  | .running => (inFlight,.ended panics)
  | .ended panicked => (inFlight - 1,.released panicked)
  | .released panicked => (inFlight,.released panicked)

inductive Act where
  | trySubmit
  | submitContinuation
  | call (i : Nat) (spurious : Bool)
  | job (i : Nat) (panics : Bool)

def step (limit : Nat) (s : State) : Act → Option State
  | .trySubmit => some { s with calls := s.calls ++ [.load] }
  | .submitContinuation => some { s with calls := s.calls ++ [.fetchAdd] }
  | .call i spurious => s.calls[i]?.map fun call =>
    let next := call.step limit spurious s.inFlight
    ⟨next.1,s.calls.set i next.2.1,s.jobs ++ next.2.2⟩
  | .job i panics => s.jobs[i]?.map fun job =>
    let next := job.step panics s.inFlight
    ⟨next.1,s.calls,s.jobs.set i next.2⟩

def Run (limit : Nat) : State → Prop := Reachable (· = start) fun s t => ∃ act, step limit s act = some t

def Call.admitted : Call → Nat
  | .launch => 1
  | _ => 0

def Job.unreleased : Job → Nat
  | .released _ => 0
  | _ => 1

variable {limit : Nat} {s t : State}

structure Inv (limit : Nat) (s : State) : Prop where
  count : s.inFlight = tally Call.admitted s.calls + tally Job.unreleased s.jobs
  below : ∀ current, Call.exchange current ∈ s.calls → current < limit

theorem Call.step_place (limit : Nat) (spurious : Bool) (n : Nat) (call : Call) :
    (call.step limit spurious n).1 + call.admitted =
      n + (call.step limit spurious n).2.1.admitted + tally Job.unreleased (call.step limit spurious n).2.2 := by
  cases call <;> simp only [Call.step] <;> (try split) <;> simp [Call.admitted,Job.unreleased]

theorem Call.step_below {spurious : Bool} {n current : Nat} {call : Call}
    (h : (call.step limit spurious n).2.1 = .exchange current) : current < limit := by
  cases call <;> simp only [Call.step] at h <;> (try split at h) <;> cases h
  omega

theorem Job.step_place (panics : Bool) {n : Nat} {job : Job} (h : job.unreleased ≤ n) :
    (job.step panics n).1 + job.unreleased = n + (job.step panics n).2.unreleased := by
  cases job <;> simp only [Job.step,Job.unreleased] at h ⊢
  omega

theorem Inv.called (h : Inv limit s) (call : Call) (hp : call.admitted = 0) (hne : ∀ current, call ≠ .exchange current) :
    Inv limit { s with calls := s.calls ++ [call] } := by
  refine ⟨by simpa [hp] using h.count,fun current hm => ?_⟩
  rcases List.mem_append.mp hm with hm | hm
  · exact h.below current hm
  · exact absurd (List.mem_singleton.mp hm).symm (hne current)

theorem Inv.step {act : Act} (h : Inv limit s) (hs : step limit s act = some t) : Inv limit t := by
  have hc := h.count
  cases act with
  | trySubmit =>
    cases hs
    exact h.called .load rfl nofun
  | submitContinuation =>
    cases hs
    exact h.called .fetchAdd rfl nofun
  | call i spurious =>
    obtain ⟨call,hi,rfl⟩ := map_eq_some_iff.mp hs
    have hp := Call.step_place limit spurious s.inFlight call
    have hse := tally_set Call.admitted hi (call.step limit spurious s.inFlight).2.1
    refine ⟨?_,fun current hm => ?_⟩
    · simp only [tally_append]
      omega
    · rcases List.mem_or_eq_of_mem_set hm with hm | heq
      · exact h.below current hm
      · exact Call.step_below heq.symm
  | job i panics =>
    obtain ⟨job,hi,rfl⟩ := map_eq_some_iff.mp hs
    have hle := le_tally Job.unreleased hi
    have hp := job.step_place panics (n := s.inFlight) (by omega)
    have hse := tally_set Job.unreleased hi (job.step panics s.inFlight).2
    refine ⟨?_,h.below⟩
    simp only
    omega

theorem Run.inv (h : Run limit s) : Inv limit s := by
  refine h.invariant ?_ fun _ _ hi ⟨_,hs⟩ => hi.step hs
  rintro _ rfl
  exact ⟨rfl,nofun⟩

theorem Inv.admits (h : Inv limit s) {i current : Nat} {act : Act} (hi : s.calls[i]? = some (.exchange current))
    (hs : Pool.step limit s act = some t) (ht : t.calls[i]? = some .launch) :
    s.inFlight < limit ∧ t.inFlight = s.inFlight + 1 := by
  have hlt := h.below current (List.mem_of_getElem? hi)
  obtain ⟨hl,-⟩ := List.getElem_of_getElem? hi
  cases act with
  | trySubmit | submitContinuation =>
    cases hs
    rw [List.getElem?_append_left hl,hi] at ht
    cases ht
  | job j panics =>
    obtain ⟨job,-,rfl⟩ := map_eq_some_iff.mp hs
    cases hi.symm.trans ht
  | call j spurious =>
    obtain ⟨call,hj,rfl⟩ := map_eq_some_iff.mp hs
    by_cases heq : j = i
    · subst heq
      cases hj.symm.trans hi
      simp only [List.getElem?_set_self hl,Call.step,some_inj] at ht ⊢
      split at ht
      case isTrue hc => rw [if_pos hc]; exact ⟨hc.1 ▸ hlt,rfl⟩
      case isFalse => cases ht
    · simp only [List.getElem?_set_ne heq,hi] at ht
      cases ht

theorem pool_budget_conserved (h : Run limit s) :
    s.inFlight = tally Call.admitted s.calls + tally Job.unreleased s.jobs ∧
    (∀ (i : Nat) (panicked : Bool), s.jobs[i]? = some (.ended panicked) → 0 < s.inFlight) ∧
    ((∀ call ∈ s.calls, ∃ submitted, call = .returned submitted) →
      (∀ job ∈ s.jobs, ∃ panicked, job = .released panicked) → s.inFlight = 0) ∧
    ∀ (i current : Nat) (act : Act) (t : State), s.calls[i]? = some (.exchange current) →
      step limit s act = some t → t.calls[i]? = some .launch → s.inFlight < limit ∧ t.inFlight = s.inFlight + 1 := by
  have hin := h.inv
  have hc := hin.count
  refine ⟨hc,fun i panicked hi => ?_,fun hca hj => ?_,fun i current act t hi hs ht => hin.admits hi hs ht⟩
  · have hle : 1 ≤ tally Job.unreleased s.jobs := le_tally Job.unreleased hi
    omega
  · rw [hc,tally_eq_zero,tally_eq_zero]
    · intro job hm
      obtain ⟨panicked,rfl⟩ := hj job hm
      rfl
    · intro call hm
      obtain ⟨submitted,rfl⟩ := hca call hm
      rfl

def runActs (limit : Nat) : List Act → State → Option State
  | [], s => some s
  | act :: acts, s => (step limit s act).bind (runActs limit acts)

theorem Run.acts {acts : List Act} (h : Run limit s) (ha : runActs limit acts s = some t) : Run limit t := by
  induction acts generalizing s with
  | nil => exact some.inj ha ▸ h
  | cons act acts ih =>
    obtain ⟨s',hs,hr⟩ := bind_eq_some_iff.mp ha
    exact ih (h.tail ⟨act,hs⟩) hr

def admission : List Act := [.trySubmit,.call 0 false,.call 0 false,.call 0 false]

def panickingJob : List Act := admission ++ [.call 0 false,.job 0 false,.job 0 true,.job 0 false]

theorem panickingJob_gives_back : ∃ s, Run 1 s ∧ s.jobs = [.released true] ∧ s.inFlight = 0 := by
  have hr : Run 1 ⟨0,[.returned true],[.released true]⟩ :=
    Run.acts (s := start) (.start rfl) (show runActs 1 panickingJob start = _ by decide +kernel)
  exact ⟨_,hr,rfl,(pool_budget_conserved hr).2.2.1 (by simp) (by simp)⟩

theorem admitted_before_launched : ∃ s, Run 1 s ∧ s.jobs = [] ∧ s.inFlight ≠ tally Job.unreleased s.jobs := by
  have hr : Run 1 ⟨1,[.launch],[]⟩ := Run.acts (s := start) (.start rfl)
    (show runActs 1 admission start = _ by decide +kernel)
  exact ⟨_,hr,rfl,by decide⟩

end Frontend.Sync.Pool
