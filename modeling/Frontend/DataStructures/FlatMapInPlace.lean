import Mathlib.Data.List.Basic

namespace Frontend.FlatMapInPlace

open List

variable {T : Type}

-- A slot that was moved out of holds `none`; `calls` lists the arguments of `f` so far.
structure State (T : Type) where
  slots : List (Option T)
  readI : Nat
  writeI : Nat
  calls : List T

-- Reading a moved-out slot, writing over a live one and inserting past the end are faults.
def read (s : State T) : Option (T × State T) :=
  match s.slots[s.readI]? with
  | some (some e) => some (e,{ s with slots := s.slots.set s.readI none, readI := s.readI + 1, calls := s.calls ++ [e] })
  | _ => none

def put (s : State T) (e : T) : Option (State T) :=
  if s.writeI < s.readI then
    match s.slots[s.writeI]? with
    | some none => some { s with slots := s.slots.set s.writeI (some e), writeI := s.writeI + 1 }
    | _ => none
  else if s.writeI ≤ s.slots.length then
    some { s with
      slots := s.slots.take s.writeI ++ some e :: s.slots.drop s.writeI
      readI := s.readI + 1
      writeI := s.writeI + 1 }
  else none

def loop (f : T → List T) : (fuel : Nat) → State T → Option (State T)
  | 0, s => if s.readI < s.slots.length then none else some s
  | fuel + 1, s =>
    if s.readI < s.slots.length then do
      let (e,s) ← read s
      let s ← (f e).foldlM put s
      loop f fuel s
    else some s

def flatMapInPlace (f : T → List T) (vec : List T) : Option (List (Option T) × List T) := do
  let s ← loop f vec.length ⟨vec.map some,0,0,[]⟩
  some (s.slots.take s.writeI,s.calls)

-- What was written, the holes behind it and the unread tail.
def laid (written : List T) (holes : Nat) (unread calls : List T) : State T where
  slots := written.map some ++ (replicate holes none ++ unread.map some)
  readI := written.length + holes
  writeI := written.length
  calls := calls

theorem read_laid (written : List T) (holes : Nat) (e : T) (unread calls : List T) :
    read (laid written holes (e :: unread) calls) = some (e,laid written (holes + 1) unread (calls ++ [e])) := by
  simp [read,laid,set_append_right,replicate_succ',Nat.add_assoc]

theorem put_laid (written : List T) (holes : Nat) (unread calls : List T) (e : T) :
    put (laid written holes unread calls) e = some (laid (written ++ [e]) (holes - 1) unread calls) := by
  cases holes with
  | zero => simp [put,laid]
  | succ holes =>
    have hlt : written.length < holes + (written.length + 1) := by omega
    simp [put,laid,set_append_right,replicate_succ,hlt,Nat.add_comm,Nat.add_left_comm]

theorem foldlM_put_laid (out : List T) (written : List T) (holes : Nat) (unread calls : List T) :
    ∃ holes', out.foldlM put (laid written holes unread calls) = some (laid (written ++ out) holes' unread calls) := by
  induction out generalizing written holes with
  | nil => exact ⟨holes,by simp⟩
  | cons e out ih =>
    obtain ⟨holes',hh⟩ := ih (written ++ [e]) (holes - 1)
    exact ⟨holes',by simpa [foldlM_cons,put_laid] using hh⟩

theorem loop_laid (f : T → List T) (unread written : List T) (holes : Nat) (calls : List T) :
    ∃ holes', loop f unread.length (laid written holes unread calls) =
    some (laid (written ++ unread.flatMap f) holes' [] (calls ++ unread)) := by
  induction unread generalizing written holes calls with
  | nil => exact ⟨holes,by simp [loop,laid]⟩
  | cons e unread ih =>
    obtain ⟨holes₁,hp⟩ := foldlM_put_laid (f e) written (holes + 1) unread (calls ++ [e])
    obtain ⟨holes₂,hl⟩ := ih (written ++ f e) holes₁ (calls ++ [e])
    refine ⟨holes₂,?_⟩
    rw [length_cons,loop,if_pos (by simp [laid]),read_laid]
    simpa [hp] using hl

theorem flatMapInPlace_eq_flatMap (f : T → List T) (vec : List T) :
    flatMapInPlace f vec = some ((vec.flatMap f).map some,vec) := by
  obtain ⟨holes,hl⟩ := loop_laid f vec [] 0 []
  have hi : laid [] 0 vec [] = ⟨vec.map some,0,0,[]⟩ := by simp [laid]
  rw [flatMapInPlace,← hi,hl]
  simp [laid]

end Frontend.FlatMapInPlace
