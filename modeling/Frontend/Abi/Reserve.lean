import Frontend.Abi.Univariant

namespace Frontend.Abi

namespace Niche

variable (n : Niche) (dl : TargetDataLayout) (count : Nat)

def moveStart : Nat × Scalar :=
  let start := wrappingSub n.validRange.start count &&& Size.unsignedIntMax (n.value.size dl)
  (start,.initialized n.value (n.validRange.withStart start))

def moveEnd : Nat × Scalar :=
  let start := wrappingAdd n.validRange.end 1 &&& Size.unsignedIntMax (n.value.size dl)
  let «end» := wrappingAdd n.validRange.end count &&& Size.unsignedIntMax (n.value.size dl)
  (start,.initialized n.value (n.validRange.withEnd «end»))

def movesStart : Bool :=
  let v := n.validRange
  let size := n.value.size dl
  let maxValue := Size.unsignedIntMax size
  let distanceEndZero := wrappingSub maxValue v.end
  if count = 1 ∧ v ≠ ⟨0,1⟩ then
    let nextUp := (Size.signExtend size (wrappingAdd v.end 1)).natAbs
    let nextDown := (Size.signExtend size (wrappingSub v.start 1)).natAbs
    nextDown ≤ nextUp
  else if v.start > v.end then false
  else if v.start ≤ distanceEndZero then count ≤ v.start
  else
    let «end» := wrappingAdd v.end count &&& maxValue
    1 ≤ «end» && «end» ≤ v.end

def reserve : LayoutResult (Option (Nat × Scalar)) :=
  if count = 0 then .error .panic
  else
    let available := wrappingSub (wrappingSub n.validRange.start n.validRange.end) 1 &&& Size.unsignedIntMax
      (n.value.size dl)
    if count > available then .ok none
    else .ok (some (if n.movesStart dl count then n.moveStart dl count else n.moveEnd dl count))

end Niche

namespace WrappingRange

def narrowest (size : Nat) (best : WrappingRange) : List WrappingRange → WrappingRange
  | [] => best
  | r :: ranges => narrowest size (if r.width size < best.width size then r else best) ranges

def wraparoundRanges : List Nat → List WrappingRange
  | e :: s :: values => (if s ≠ e then [⟨s,e⟩] else []) ++ wraparoundRanges (s :: values)
  | _ => []

def smallestRangeContaining (values : List Nat) (size : Nat) : LayoutResult (Option WrappingRange) :=
  match values.min?, values.max? with
  | some min, some max =>
    if max > Size.unsignedIntMax size then .error .panic
    else if max - min ≤ 2 ^ (Size.bits size - 1) then .ok (some ⟨min,max⟩)
    else .ok (some (narrowest size ⟨min,max⟩ (wraparoundRanges (values.insertionSort (· ≤ ·)))))
  | _, _ => .ok none

end WrappingRange

end Frontend.Abi
