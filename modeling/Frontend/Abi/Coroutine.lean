import Frontend.Abi.Univariant

namespace Frontend.Abi.Coroutine

inductive SavedLocalEligibility
  | unassigned
  | assigned (variant : Nat)
  | ineligible (field : Option Nat)
  deriving DecidableEq

structure Eligibility where
  ineligible : Nat → Bool
  assignments : Nat → SavedLocalEligibility

namespace Eligibility

def start : Eligibility := ⟨fun _ => false,fun _ => .unassigned⟩

def assign (e : Eligibility) (l : Nat) (a : SavedLocalEligibility) : Eligibility :=
  { e with assignments := Function.update e.assignments l a }

def remove (e : Eligibility) (l : Nat) : Eligibility :=
  ⟨Function.update e.ineligible l true,Function.update e.assignments l (.ineligible none)⟩

end Eligibility

section

variable (nbLocals : Nat) (variantFields : List (List Nat)) (conflicts : Nat → Nat → Bool)

def assignLocal (variant : Nat) (e : Eligibility) (l : Nat) : Eligibility :=
  match e.assignments l with
  | .unassigned => e.assign l (.assigned variant)
  | .assigned _ => e.remove l
  | .ineligible _ => e

section

variable (e : Eligibility)

def assignVariants : Eligibility := variantFields.zipIdx.foldl (fun e v => v.1.foldl (assignLocal v.2) e) e

def conflictsOf (l : Nat) : List Nat := (List.range nbLocals).filter (conflicts l)

def resolvePair (a : Nat) (e : Eligibility) (b : Nat) : Eligibility :=
  if e.ineligible b || e.assignments a = e.assignments b then e
  else e.remove (if (conflictsOf nbLocals conflicts a).length > (conflictsOf nbLocals conflicts b).length then a else b)

def resolveRow (a : Nat) : Eligibility :=
  if e.ineligible a then e
  else (conflictsOf nbLocals conflicts a).foldl (resolvePair nbLocals conflicts a) e

def resolveConflicts : Eligibility := (List.range nbLocals).foldl (resolveRow nbLocals conflicts) e

def usedVariants : List Nat :=
  (List.range variantFields.length).filter fun v => (List.range nbLocals).any fun l => e.assignments l = .assigned v

def promoteUnshared : Eligibility :=
  if (usedVariants nbLocals variantFields e).length < 2 then
    ⟨fun l => decide (l < nbLocals),fun _ => .ineligible none⟩
  else e

def ineligibleLocals : List Nat := (List.range nbLocals).filter e.ineligible

def numberLocals : Eligibility :=
  (ineligibleLocals nbLocals e).zipIdx.foldl (fun e p => e.assign p.1 (.ineligible (some p.2))) e

end

def coroutineSavedLocalEligibility : Eligibility :=
  numberLocals nbLocals (promoteUnshared nbLocals variantFields
    (resolveConflicts nbLocals conflicts (assignVariants variantFields .start)))

end

def invertBijectiveMapping (mapping : List Nat) : List Nat :=
  mapping.zipIdx.foldl (fun inverse p => inverse.set p.1 p.2) (List.replicate mapping.length 0)

structure Split where
  outerOffsets : List Nat
  outerOrder : List Nat
  promotedOffsets : List Nat
  promotedMemoryIndex : List Nat

def splitPrefix (bStart : Nat) (offsets order : List Nat) : Split where
  outerOffsets := offsets.take bStart
  outerOrder := order.filter (· < bStart)
  promotedOffsets := offsets.drop bStart
  promotedMemoryIndex := invertBijectiveMapping (order.filterMap fun i => if bStart ≤ i then some (i - bStart) else none)

def variantOnly (e : Eligibility) (index : Nat) : List Nat → LayoutResult (List Nat)
  | [] => .ok []
  | l :: ls =>
    match e.assignments l with
    | .unassigned => .error .unreachable
    | .assigned v =>
      if v = index then (variantOnly e index ls).map (l :: ·) else .error .unreachable
    | .ineligible _ => variantOnly e index ls

-- The offsets of a variant's fields from `i` on; each field is written to its slot of the memory order.
def stitch (e : Eligibility) (split : Split) : Nat → List Nat → List (Nat × Nat) → List Nat →
    LayoutResult (List Nat × List Nat)
  | _, [], _, combined => .ok ([],combined)
  | i, l :: ls, pairs, combined =>
    match e.assignments l, pairs with
    | .unassigned, _ => .error .unreachable
    | .assigned _, [] => .error .panic
    | .assigned _, (offset,memoryIndex) :: pairs =>
      (stitch e split (i + 1) ls pairs (combined.set (split.promotedMemoryIndex.length + memoryIndex) i)).map fun r =>
        (offset :: r.1,r.2)
    | .ineligible none, _ => .error .panic
    | .ineligible (some field), pairs =>
      match split.promotedOffsets[field]?, split.promotedMemoryIndex[field]? with
      | some offset, some memoryIndex => (stitch e split (i + 1) ls pairs (combined.set memoryIndex i)).map fun r =>
          (offset :: r.1,r.2)
      | _, _ => .error .panic

variable (dl : TargetDataLayout) (localLayouts : List LayoutData)

def layoutsOf (locals : List Nat) : List LayoutData := locals.filterMap (localLayouts[·]?)

def fromLayout (layout : LayoutData) (offsets order : List Nat) : VariantLayout :=
  ⟨layout.size,layout.backendRepr,offsets,order,layout.largestNiche,layout.uninhabited⟩

def variantLayout (e : Eligibility) (split : Split) (prefixSize : Nat) (prefixAlign : Align) (index : Nat)
    (fields : List Nat) : LayoutResult (VariantLayout × Align) :=
  match variantOnly e index fields with
  | .error err => .error err
  | .ok only =>
    match univariant dl (layoutsOf localLayouts only) .default (.prefixed prefixSize prefixAlign) with
    | .error err => .error err
    | .ok variant =>
      match variant.fields with
      | .arbitrary offsets order =>
        let memoryIndex := invertBijectiveMapping order
        let invalid := split.promotedMemoryIndex.length + memoryIndex.length
        match stitch e split 0 fields (offsets.zip memoryIndex) (List.replicate invalid invalid) with
        | .error err => .error err
        | .ok (combinedOffsets,combined) => .ok (fromLayout variant combinedOffsets (combined.filter (· ≠ invalid)),
            variant.align)
      | _ => .error .unreachable

def variantLayouts (e : Eligibility) (split : Split) (prefixSize : Nat) (prefixAlign : Align) :
    Nat → List (List Nat) → LayoutResult (List (VariantLayout × Align))
  | _, [] => .ok []
  | index, fields :: rest =>
    match variantLayout dl localLayouts e split prefixSize prefixAlign index fields with
    | .error err => .error err
    | .ok variant => (variantLayouts e split prefixSize prefixAlign (index + 1) rest).map (variant :: ·)

def coroutineTag (variants : Nat) : Scalar :=
  let maxDiscr := Size.wrappingSub variants 1
  .initialized (.int (.fitUnsigned maxDiscr) false) ⟨0,maxDiscr⟩

def layout (prefixLayouts : List LayoutData) (variantFields : List (List Nat)) (conflicts : Nat → Nat → Bool)
    (tagToLayout : Scalar → LayoutData) : LayoutResult LayoutData :=
  if variantFields.any fun fields => fields.any fun l => decide (localLayouts.length ≤ l) then .error .panic
  else
    let e := coroutineSavedLocalEligibility localLayouts.length variantFields conflicts
    let tag := coroutineTag variantFields.length
    let promoted := layoutsOf localLayouts (ineligibleLocals localLayouts.length e)
    match univariant dl (prefixLayouts ++ tagToLayout tag :: promoted) .default .alwaysSized with
    | .error err => .error err
    | .ok pre =>
      match pre.fields with
      | .arbitrary offsets order =>
        let split := splitPrefix (prefixLayouts.length + 1) offsets order
        match variantLayouts dl localLayouts e split pre.size pre.align 0 variantFields with
        | .error err => .error err
        | .ok variants =>
          let align := (variants.map Prod.snd).foldl max pre.align
          .ok {
            fields := .arbitrary split.outerOffsets split.outerOrder
            variants := .multiple tag .direct prefixLayouts.length (variants.map Prod.fst)
            backendRepr := .memory true
            largestNiche := none
            uninhabited := pre.uninhabited || variants.all fun v => v.1.uninhabited
            align := align
            size := Size.alignTo ((variants.map fun v => v.1.size).foldl max pre.size) align
            maxReprAlign := none
            unadjustedAbiAlign := align
            randomizationSeed := 0 }
      | _ => .error .unreachable

end Frontend.Abi.Coroutine
