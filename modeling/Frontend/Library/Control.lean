import Mathlib.Data.List.Basic

namespace Frontend.Control

open List

variable {L : Type}

inductive Outcome (L : Type)
  | normal
  | ret
  | raise
  | brk (label : Option L)
  | cont (label : Option L)
  deriving DecidableEq

inductive Ctl (L : Type)
  | skip
  | stuck
  | any
  | jump (o : Outcome L)
  | seq (a b : Ctl L)
  | choice (a b : Ctl L)
  | loop (label : Option L) (body : Ctl L)
  | block (label : L) (body : Ctl L)
  | handle (body : Ctl L)

namespace Outcome

end Outcome

section

variable [DecidableEq L]

def Outcome.caught (label : Option L) : Outcome L → Bool
  | .brk none | .cont none => true
  | .brk (some l) | .cont (some l) => label = some l
  | _ => false

-- A walk through a command in evaluation order: whether it gets to the end, and the exits it meets
-- on the way. It stops at a loop unless an exit that it meets in the body leaves that loop.
structure Walk (L : Type) where
  passes : Bool
  exits : Outcome L → Bool

@[simp] def Ctl.walk : Ctl L → Walk L
  | .skip => ⟨true,fun _ => false⟩
  | .stuck => ⟨false,fun _ => false⟩
  | .any => ⟨true,fun _ => true⟩
  | .jump o => ⟨o = .normal,fun x => x = o⟩
  | .seq a b => ⟨a.walk.passes && b.walk.passes,fun x => a.walk.exits x || a.walk.passes && b.walk.exits x⟩
  | .choice a b => ⟨a.walk.passes || b.walk.passes,fun x => a.walk.exits x || b.walk.exits x⟩
  | .loop label body => ⟨body.walk.exits (.brk none) || body.walk.exits (.brk label),
      fun x => body.walk.exits x && !x.caught label⟩
  | .block label body => ⟨body.walk.passes || body.walk.exits (.brk (some label)),
      fun x => body.walk.exits x && x ≠ .brk (some label)⟩
  | .handle body => ⟨body.walk.passes || body.walk.exits .raise,fun x => body.walk.exits x && x ≠ .raise⟩

variable {a b body c : Ctl L} {o : Outcome L}

end

end Frontend.Control
