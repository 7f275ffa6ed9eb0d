import Frontend.Abi.Reserve

namespace Frontend.Abi

open LayoutData

def IntegerType.isSigned : IntegerType → Bool
  | .pointer signed => signed
  | .fixed _ signed => signed

instance : LinearOrder Integer := LinearOrder.lift' Integer.size fun a b h => by
  cases a <;> cases b <;> first | rfl | cases h

def Integer.fromAttr (dl : TargetDataLayout) : IntegerType → Integer
  | .pointer _ => dl.ptrSizedInteger
  | .fixed i _ => i

-- The sum of two sizes; the source panics where it does not fit in a `u64`.
def Size.add (a b : Nat) : LayoutResult Nat := if a + b < 2 ^ 64 then .ok (a + b) else .error .panic

def VariantLayout.fromLayout (layout : LayoutData) : LayoutResult VariantLayout :=
  match layout.fields with
  | .arbitrary offsets order => .ok ⟨layout.size,layout.backendRepr,offsets,order,layout.largestNiche,layout.uninhabited⟩
  | _ => .error .panic

-- A panic is not caught where an error is.
def LayoutCalculatorError.aborts : LayoutCalculatorError → Bool
  | .panic => true
  | .unreachable => true
  | _ => false

namespace Enum

def absent (fields : List LayoutData) : Bool := fields.any uninhabited && fields.all is1zst

variable (dl : TargetDataLayout) (repr : ReprOptions)

def variantStructs (kind : StructKind) : List (List LayoutData) → LayoutResult (List (LayoutData × VariantLayout))
  | [] => .ok []
  | fields :: variants =>
    match univariant dl fields repr kind with
    | .error err => .error err
    | .ok st =>
      match VariantLayout.fromLayout st with
      | .error err => .error err
      | .ok variant => (variantStructs kind variants).map ((st,variant) :: ·)

structure Combined where
  align : Align
  maxReprAlign : Option Align
  unadjustedAbiAlign : Align
  seed : UInt64

def combine (structs : List LayoutData) : Combined where
  align := (structs.map align).foldl max dl.aggregateAlign
  maxReprAlign := (structs.map maxReprAlign).foldl maxAlign repr.align
  unadjustedAbiAlign := (structs.map unadjustedAbiAlign).foldl max dl.aggregateAlign
  seed := (structs.map randomizationSeed).foldl (· + ·) repr.fieldShuffleSeed

def largestVariant : List (Nat × Nat) → Option (Nat × Nat) → Option (Nat × Nat)
  | [], best => best
  | (size,i) :: sizes, none => largestVariant sizes (some (size,i))
  | (size,i) :: sizes, some best => largestVariant sizes (if best.1 ≤ size then some (size,i) else some best)

def needsDisc (variants : List (List LayoutData)) (largest : Nat) (i : Nat) : Bool :=
  i ≠ largest && !absent (variants.getD i [])

def shiftOffsets (delta : Nat) : List Nat → LayoutResult (List Nat)
  | [] => .ok []
  | offset :: offsets =>
    match Size.add offset delta with
    | .error err => .error err
    | .ok offset => (shiftOffsets delta offsets).map (offset :: ·)

-- A variant before the niche, or moved behind it; `none` if it does not fit.
def fitVariant (nicheOffset nicheSize size : Nat) (align : Align) (layout : VariantLayout) :
    LayoutResult (Option VariantLayout) :=
  let layout := { layout with largestNiche := none }
  if layout.size ≤ nicheOffset then .ok (some layout)
  else
    match Size.add nicheOffset nicheSize with
    | .error err => .error err
    | .ok nicheEnd =>
      let thisOffset := Size.alignTo nicheEnd align
      match Size.add thisOffset layout.size with
      | .error err => .error err
      | .ok last =>
        if last > size then .ok none
        else
          match shiftOffsets thisOffset layout.fieldOffsets with
          | .error err => .error err
          | .ok offsets =>
            .ok (some { layout with
              fieldOffsets := offsets
              backendRepr := if layout.uninhabited then layout.backendRepr else .memory true
              size := last })

def fitVariants (nicheOffset nicheSize size largest : Nat) : Nat → List (LayoutData × VariantLayout) →
    LayoutResult (Option (List VariantLayout))
  | _, [] => .ok (some [])
  | i, (st,layout) :: variants =>
    match if i = largest then .ok (some layout) else fitVariant nicheOffset nicheSize size st.align layout with
    | .error err => .error err
    | .ok none => .ok none
    | .ok (some layout) => (fitVariants nicheOffset nicheSize size largest (i + 1) variants).map (·.map (layout :: ·))

def nicheAbi (nicheOffset : Nat) (nicheScalar : Scalar) : BackendRepr → BackendRepr
  | .scalar _ => .scalar nicheScalar
  | .scalarPair a b bOffset =>
    if nicheOffset = 0 then .scalarPair nicheScalar b.toUnion bOffset
    else .scalarPair a.toUnion nicheScalar bOffset
  | _ => .memory true

def isMemory : BackendRepr → Bool
  | .memory _ => true
  | _ => false

-- The variants are stored beside the largest one, which is recognised by its niche.
def fillNiche (combined : Combined) (structs : List (LayoutData × VariantLayout)) (largest : Nat)
    (largestStruct : LayoutData) (nicheVariants : Nat × Nat) (niche : Niche) (nicheStart : Nat) (nicheScalar : Scalar) :
    LayoutResult (Option LayoutData) :=
  let size := Size.alignTo largestStruct.size combined.align
  match fitVariants niche.offset (niche.value.size dl) size largest 0 structs with
  | .error err => .error err
  | .ok none => .ok none
  | .ok (some variants) =>
    let othersZst := variants.zipIdx.all fun v => v.2 = largest || v.1.size = 0
    let sameSize := size = largestStruct.size
    let sameAlign := combined.align = largestStruct.align
    .ok (some {
      fields := .arbitrary [niche.offset] [0]
      variants := .multiple nicheScalar (.niche largest nicheVariants nicheStart) 0 variants
      backendRepr := if sameSize ∧ sameAlign ∧ othersZst then nicheAbi niche.offset nicheScalar largestStruct.backendRepr
        else .memory true
      largestNiche := Niche.fromScalar dl niche.offset nicheScalar
      uninhabited := variants.all VariantLayout.uninhabited
      align := combined.align
      size := size
      maxReprAlign := combined.maxReprAlign
      unadjustedAbiAlign := combined.unadjustedAbiAlign
      randomizationSeed := combined.seed })

-- The variants from the first to the last that needs a tag take values of the largest niche of the largest variant.
def reserveNiche (structs : List (LayoutData × VariantLayout)) (largest first last : Nat) :
    LayoutResult (Option LayoutData) :=
  match structs[largest]? with
  | none => .error .panic
  | some (largestStruct,_) =>
    match largestStruct.largestNiche with
    | none => .ok none
    | some niche =>
      (niche.reserve dl (last - first + 1)).bind fun reserved =>
        match reserved with
        | none => .ok none
        | some (nicheStart,nicheScalar) =>
          fillNiche dl (combine dl repr (structs.map Prod.fst)) structs largest largestStruct
            (first,last) niche nicheStart nicheScalar

def nicheVariants (variants : List (List LayoutData)) (largest : Nat) : Option (Nat × Nat) :=
  let indices := List.range variants.length
  match indices.find? (needsDisc variants largest), indices.reverse.find? (needsDisc variants largest) with
  | some first, some last => some (first,last)
  | _, _ => none

def calculateNicheFillingLayout (variants : List (List LayoutData)) : LayoutResult (Option LayoutData) :=
  if repr.inhibitEnumLayoutOpt || decide (variants.length < 2) then .ok none
  else
    match variantStructs dl repr .alwaysSized variants with
    | .error err => if err.aborts then .error err else .ok none
    | .ok structs =>
      match largestVariant (structs.zipIdx.map fun s => (s.1.2.size,s.2)) none with
      | none => .ok none
      | some (_,largest) =>
        match nicheVariants variants largest with
        | none => .error .panic
        | some (first,last) => reserveNiche dl repr structs largest first last

section

variable (variants : List (List LayoutData)) (discriminants : List (Nat × Nat))

def necessaryDiscriminants : List Nat :=
  (discriminants.filter fun p => repr.c || (variants.getD p.1 []).all fun f => !f.uninhabited).map Prod.snd

def discriminantBounds (discrType : IntegerType) (discrSize : Nat) (discriminants : List Nat) : Int × Nat :=
  if discrType.isSigned then
    (discriminants.map (Size.signExtend discrSize)).foldl
      (fun acc val => if 0 ≤ val then (acc.1,max acc.2 val.toNat) else (min acc.1 val,acc.2)) (0,0)
  else (0,discriminants.max?.getD 0)

def prefixAlign (minIty : Integer) : Align :=
  if repr.c then (variants.flatten.map align).foldl max (minIty.align dl) else minIty.align dl

def firstAlign (fields : List LayoutData) (variant : VariantLayout) : Option Align :=
  ((variant.fieldsInMemoryOrder.filterMap (fields[·]?)).find? fun f => !f.is1zst).map align

def startAlign (structs : List VariantLayout) : Align :=
  ((variants.zip structs).filterMap fun v => firstAlign v.1 v.2).foldl min ⟨8⟩

def tagInteger (minIty : Integer) (startAlign : Align) : Integer :=
  let ity := if repr.c || repr.int.isSome then minIty else (Integer.forAlign dl startAlign).getD minIty
  if ity ≤ minIty then minIty else ity

def patchOffsets (old new : Nat) : List Nat → LayoutResult (List Nat)
  | [] => .ok []
  | offset :: offsets =>
    if offset < old then .error .panic
    else (patchOffsets old new offsets).map ((if offset = old then new else offset) :: ·)

def patchVariants (old new : Nat) : List VariantLayout → LayoutResult (List VariantLayout)
  | [] => .ok []
  | variant :: variants =>
    match patchOffsets old new variant.fieldOffsets with
    | .error err => .error err
    | .ok offsets => (patchVariants old new variants).map
        ({ variant with fieldOffsets := offsets, size := if variant.size ≤ old then new else variant.size } :: ·)

def commonWith (old new : Primitive) : Option Primitive :=
  if old = new then some old
  else
    match old, new with
    | .int x signed, .int y _ => if x = y then some (.int x signed) else none
    | .pointer a, .int i signed =>
      if (Primitive.pointer a).size dl = (Primitive.int i signed).size dl ∧
        (Primitive.pointer a).defaultAlign dl = (Primitive.int i signed).defaultAlign dl then some (.pointer a) else none
    | .int i signed, .pointer a =>
      if (Primitive.pointer a).size dl = (Primitive.int i signed).size dl ∧
        (Primitive.pointer a).defaultAlign dl = (Primitive.int i signed).defaultAlign dl then some (.pointer a) else none
    | _, _ => none

-- The primitive that all the variants share at one offset, and whether it is initialised in all of them.
def commonPrim : List (List LayoutData × VariantLayout) → Option (Primitive × Nat) → Bool →
    Option (Primitive × Nat) × Bool
  | [], common, initialized => (common,initialized)
  | (fields,variant) :: variants, common, initialized =>
    match (fields.zip variant.fieldOffsets).filter fun p => !p.1.isZst with
    | [] => commonPrim variants common false
    | [(field,offset)] =>
      match field.backendRepr with
      | .scalar scalar =>
        let initialized := initialized && match scalar with
          | .initialized .. => true
          | .union _ => false
        match common with
        | none => commonPrim variants (some (scalar.primitive,offset)) initialized
        | some (old,commonOffset) =>
          if offset ≠ commonOffset then (none,initialized)
          else
            match commonWith dl old scalar.primitive with
            | none => (none,initialized)
            | some prim => commonPrim variants (some (prim,commonOffset)) initialized
      | _ => (none,initialized)
    | _ => (none,initialized)

def taggedAbi (tag : Scalar) (align : Align) (size : Nat) (structs : List VariantLayout) : LayoutResult BackendRepr :=
  if tag.size dl = size then .ok (.scalar tag)
  else
    match commonPrim dl (variants.zip structs) none true with
    | (some (prim,offset),initialized) =>
      let primScalar : Scalar := if initialized then .initialized prim (.full (prim.size dl)) else .union prim
      (pairAbi dl tag primScalar 0 offset align size).map fun abi => abi.getD (.memory true)
    | (none,_) => .ok (.memory true)

def adjustVariant (abi : BackendRepr) (size : Nat) (variant : VariantLayout) : VariantLayout :=
  match abi with
  | .scalar _ | .scalarPair .. =>
    if isMemory variant.backendRepr && variant.hasFields then
      { variant with backendRepr := abi, size := max variant.size size }
    else variant
  | _ => variant

def enlargeTag (minIty ity : Integer) (structs : List VariantLayout) : LayoutResult (List VariantLayout) :=
  if ity = minIty then .ok structs else patchVariants minIty.size ity.size structs

def taggedLayout (discrRangeOfRepr : Int → Nat → Integer × Bool) : LayoutResult LayoutData :=
  let discrType := repr.discrType
  if !repr.c && discriminants.any fun p => decide (variants.length ≤ p.1) then .error .panic
  else
    let necessary := necessaryDiscriminants repr variants discriminants
    let bounds := discriminantBounds discrType (Integer.fromAttr dl discrType).size necessary
    let (minIty,signed) := discrRangeOfRepr bounds.1 bounds.2
    if (Integer.forAlign dl ⟨8⟩).isSome then .error .panic
    else
      match variantStructs dl repr (.prefixed minIty.size (prefixAlign dl repr variants minIty)) variants with
      | .error err => .error err
      | .ok structs =>
        let combined := combine dl repr (structs.map Prod.fst)
        let size := Size.alignTo ((structs.map fun s => s.1.size).foldl max 0) combined.align
        if size ≥ dl.objSizeBound then .error .sizeOverflow
        else if Integer.fromAttr dl discrType < minIty then .error .panic
        else
          let ity := tagInteger dl repr minIty (startAlign variants (structs.map Prod.snd))
          match enlargeTag minIty ity (structs.map Prod.snd) with
          | .error err => .error err
          | .ok layouts =>
            match WrappingRange.smallestRangeContaining (necessary.map (Size.truncate ity.size)) ity.size with
            | .error err => .error err
            | .ok range =>
              let tag : Scalar := .initialized (.int ity signed) (range.getD ⟨0,0⟩)
              match taggedAbi dl variants tag combined.align size layouts with
              | .error err => .error err
              | .ok abi =>
                .ok {
                  fields := .arbitrary [0] [0]
                  variants := .multiple tag .direct 0 (layouts.map (adjustVariant abi size))
                  backendRepr := abi
                  largestNiche := Niche.fromScalar dl 0 tag
                  uninhabited := layouts.all VariantLayout.uninhabited
                  align := combined.align
                  size := size
                  maxReprAlign := combined.maxReprAlign
                  unadjustedAbiAlign := combined.unadjustedAbiAlign
                  randomizationSeed := combined.seed }

end

def bestLayout (tagged niche : LayoutData) : LayoutData :=
  if niche.size < tagged.size then niche
  else if niche.size = tagged.size ∧ tagged.nicheAvailable dl < niche.nicheAvailable dl then niche
  else tagged

def layoutOfEnum (variants : List (List LayoutData)) (discrRangeOfRepr : Int → Nat → Integer × Bool)
    (discriminants : List (Nat × Nat)) : LayoutResult LayoutData :=
  if repr.packed then .error .reprConflict
  else
    match calculateNicheFillingLayout dl repr variants with
    | .error err => .error err
    | .ok niche =>
      match taggedLayout dl repr variants discriminants discrRangeOfRepr with
      | .error err => .error err
      | .ok tagged => .ok (niche.elim tagged (bestLayout dl tagged))

end Enum

end Frontend.Abi
