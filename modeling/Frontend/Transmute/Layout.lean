import Mathlib

namespace Frontend.Transmute

-- Values `start` to `end`, exclusive; 256 stands for an uninitialised byte.
structure Byte where
  start : Nat
  «end» : Nat
  deriving DecidableEq

namespace Byte

def uninitValue : Nat := 256

def new (lo hi : Nat) : Byte := ⟨lo,hi + 1⟩

def isEmpty (b : Byte) : Bool := b.start == b.end

def containsUninit (b : Byte) : Bool := b.start ≤ uninitValue && uninitValue < b.end

def Mem (b : Byte) (v : Nat) : Prop := b.start ≤ v ∧ v < b.end

instance (b : Byte) (v : Nat) : Decidable (b.Mem v) := inferInstanceAs (Decidable (_ ∧ _))

def Valid (b : Byte) : Prop := b.start < b.end ∧ b.end ≤ uninitValue + 1

instance (b : Byte) : Decidable b.Valid := inferInstanceAs (Decidable (_ ∧ _))

end Byte

structure Reference (R T : Type) where
  region : R
  isMut : Bool
  referent : T
  referentSize : Nat
  referentAlign : Nat
  deriving DecidableEq

inductive Tree (D R T : Type)
  | seq (elts : List (Tree D R T))
  | alt (alts : List (Tree D R T))
  | «def» (d : D)
  | ref (r : Reference R T)
  | byte (b : Byte) (valid : b.Valid)

namespace Tree

variable {D R T : Type}

def uninhabited : Tree D R T := .alt []

def unit : Tree D R T := .seq []

def isUninhabited : Tree D R T → Bool
  | .alt [] => true
  | _ => false

def andThen : Tree D R T → Tree D R T → Tree D R T
  | .seq [], other => other
  | other, .seq [] => other
  | .seq lhs, .seq rhs => .seq (lhs ++ rhs)
  | .seq lhs, rhs => .seq (lhs ++ [rhs])
  | lhs, .seq rhs => .seq (lhs :: rhs)
  | lhs, rhs => .seq [lhs,rhs]

def or : Tree D R T → Tree D R T → Tree D R T
  | .alt [], other => other
  | other, .alt [] => other
  | .alt lhs, .alt rhs => .alt (lhs ++ rhs)
  | .alt alts, other => .alt (alts ++ [other])
  | other, .alt alts => .alt (alts ++ [other])
  | lhs, rhs => .alt [lhs,rhs]

mutual

def prune (f : D → Bool) : Tree D R T → Tree Empty R T
  | .seq elts => pruneSeq f unit elts
  | .alt alts => pruneAlt f uninhabited alts
  | .byte b valid => .byte b valid
  | .ref r => .ref r
  | .def d => if f d then uninhabited else unit

def pruneSeq (f : D → Bool) (acc : Tree Empty R T) : List (Tree D R T) → Tree Empty R T
  | [] => acc
  | elt :: elts =>
    let elt := prune f elt
    if elt.isUninhabited then uninhabited else pruneSeq f (acc.andThen elt) elts

def pruneAlt (f : D → Bool) (acc : Tree Empty R T) : List (Tree D R T) → Tree Empty R T
  | [] => acc
  | t :: alts => pruneAlt f (acc.or (prune f t)) alts

end

mutual

def isInhabited : Tree D R T → Bool
  | .seq elts => allInhabited elts
  | .alt alts => anyInhabited alts
  | .byte .. | .ref _ | .def _ => true

def allInhabited : List (Tree D R T) → Bool
  | [] => true
  | elt :: elts => isInhabited elt && allInhabited elts

def anyInhabited : List (Tree D R T) → Bool
  | [] => false
  | t :: alts => isInhabited t || anyInhabited alts

end

mutual

def refFree : Tree D R T → Prop
  | .seq elts => refFreeAll elts
  | .alt alts => refFreeAll alts
  | .byte .. | .def _ => True
  | .ref _ => False

def refFreeAll : List (Tree D R T) → Prop
  | [] => True
  | t :: ts => refFree t ∧ refFreeAll ts

end

mutual

def strings : Tree D R T → Set (List Nat)
  | .seq elts => stringsSeq elts
  | .alt alts => stringsAlt alts
  | .byte b _ => {w | ∃ v, b.Mem v ∧ w = [v]}
  | .ref _ => ∅
  | .def _ => {[]}

def stringsSeq : List (Tree D R T) → Set (List Nat)
  | [] => {[]}
  | elt :: elts => {w | ∃ u ∈ strings elt, ∃ v ∈ stringsSeq elts, w = u ++ v}

def stringsAlt : List (Tree D R T) → Set (List Nat)
  | [] => ∅
  | t :: alts => strings t ∪ stringsAlt alts

end

end Tree

end Frontend.Transmute
