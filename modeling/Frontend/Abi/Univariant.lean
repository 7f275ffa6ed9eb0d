import Frontend.Abi.Data

namespace Frontend.Abi

inductive NicheBias
  | start
  | «end»
  deriving DecidableEq

abbrev LayoutResult (A : Type) := Except LayoutCalculatorError A

section

variable (dl : TargetDataLayout) (pack : Option Align) (bias : NicheBias)

structure FieldStats where
  maxFieldAlign : Nat
  largestNicheSize : Nat

def fieldStats (fields : List LayoutData) : FieldStats where
  maxFieldAlign := (fields.map fun f => f.align.bytes).max?.getD 1
  largestNicheSize := (fields.filterMap fun f => f.largestNiche.map fun n => n.available dl).max?.getD 0

section

variable (stats : FieldStats)

def alignmentGroupKey (layout : LayoutData) : Nat :=
  match pack with
  | some pack => (min layout.align pack).bytes
  | none =>
    let align := layout.align.bytes
    let sizeAsAlign := Size.trailingZeros (max align layout.size)
    if stats.largestNicheSize > 0 then
      match bias with
      | .start => min (Size.trailingZeros stats.maxFieldAlign) sizeAsAlign
      | .end =>
        if layout.nicheAvailable dl = stats.largestNicheSize then Size.trailingZeros align else sizeAsAlign
    else sizeAsAlign

def nicheSizeKey (layout : LayoutData) : Nat :=
  match bias with
  | .start => 2 ^ 128 - 1 - layout.nicheAvailable dl
  | .end => layout.nicheAvailable dl

def innerNicheOffsetKey (layout : LayoutData) : Nat :=
  match bias with
  | .start => layout.largestNiche.elim 0 Niche.offset
  | .end => layout.largestNiche.elim 0 fun n => Size.not
      (Size.wrappingSub (Size.wrappingSub layout.size (n.value.size dl)) n.offset)

def unprefixedLe (f g : LayoutData) : Bool :=
  let key (l : LayoutData) := (alignmentGroupKey dl pack bias stats l,nicheSizeKey dl bias l,
    innerNicheOffsetKey dl bias l)
  (key g).1 < (key f).1 || ((key f).1 == (key g).1 &&
    ((key f).2.1 < (key g).2.1 || ((key f).2.1 == (key g).2.1 && (key f).2.2 ≤ (key g).2.2)))

def prefixedLe (f g : LayoutData) : Bool :=
  let key (l : LayoutData) := (alignmentGroupKey dl pack bias stats l,l.nicheAvailable dl)
  (key f).1 < (key g).1 || ((key f).1 == (key g).1 && (key f).2 ≤ (key g).2)

end

def StructKind.fieldLe (kind : StructKind) : FieldStats → LayoutData → LayoutData → Bool :=
  match kind with
  | .alwaysSized | .maybeUnsized => unprefixedLe dl pack bias
  | .prefixed .. => prefixedLe dl pack bias

def inMemoryOrder (fields : List LayoutData) (repr : ReprOptions) (kind : StructKind) : List Nat :=
  let indices := List.range fields.length
  let last := if kind = .maybeUnsized then fields.length - 1 else fields.length
  if !repr.inhibitStructFieldReordering && fields.length > 1 then
    let stats := fieldStats dl (fields.take last)
    let le (i j : Nat) : Bool := (fields[i]?.bind fun f => fields[j]?.map fun g =>
      kind.fieldLe dl repr.pack bias stats f g).getD true
    (indices.take last).insertionSort (fun i j => le i j) ++ indices.drop last
  else indices

end

section

structure Placing where
  align : Align
  maxReprAlign : Option Align
  unsizedField : Option LayoutData
  offsets : List Nat
  offset : Nat
  largestNiche : Option Niche
  largestNicheAvailable : Nat

variable (dl : TargetDataLayout) (pack : Option Align) (kind : StructKind) (bias : NicheBias)

def checkedAdd (a b : Nat) : Option Nat := if a + b < dl.objSizeBound then some (a + b) else none

def packedAlign (align : Align) : Align := pack.elim align (min align)

def prefersNewNiche (available largestNicheAvailable : Nat) : Bool :=
  match bias with
  | .start => available > largestNicheAvailable
  | .end => available ≥ largestNicheAvailable

def takeNiche (field : LayoutData) (offset : Nat) (s : Placing) : LayoutResult Placing :=
  match field.largestNiche with
  | none => .ok s
  | some niche =>
    if prefersNewNiche bias (niche.available dl) s.largestNicheAvailable then
      if niche.offset + offset < 2 ^ 64 then
        .ok { s with
          largestNicheAvailable := niche.available dl
          largestNiche := some { niche with offset := niche.offset + offset } }
      else .error .panic
    else .ok s

def placeField (fields : List LayoutData) (s : Placing) (i : Nat) : LayoutResult Placing :=
  match fields[i]? with
  | none => .error .panic
  | some field =>
    match s.unsizedField with
    | some unsizedField => .error (.unexpectedUnsized unsizedField)
    | none =>
      if field.isUnsized && kind ≠ .maybeUnsized then .error (.unexpectedUnsized field)
      else
        let fieldAlign := packedAlign pack field.align
        let offset := Size.alignTo s.offset fieldAlign
        match takeNiche dl bias field offset { s with
            unsizedField := if field.isUnsized then some field else none
            align := max s.align fieldAlign
            maxReprAlign := maxAlign s.maxReprAlign field.maxReprAlign
            offsets := s.offsets.set i offset } with
        | .error e => .error e
        | .ok s =>
          match checkedAdd dl offset field.size with
          | none => .error .sizeOverflow
          | some offset => .ok { s with offset := offset }

def placeFields (fields : List LayoutData) : List Nat → Placing → LayoutResult Placing
  | [], s => .ok s
  | i :: order, s =>
    match placeField dl pack kind bias fields s i with
    | .error e => .error e
    | .ok s => placeFields fields order s

def startPlacing (fields : List LayoutData) (repr : ReprOptions) : Placing :=
  let align := if repr.pack.isSome then dl.i8Align else dl.aggregateAlign
  let s : Placing :=
    { align := align
      maxReprAlign := repr.align
      unsizedField := none
      offsets := List.replicate fields.length 0
      offset := 0
      largestNiche := none
      largestNicheAvailable := 0 }
  match kind with
  | .prefixed prefixSize prefixAlign =>
    let prefixAlign := packedAlign repr.pack prefixAlign
    { s with align := max align prefixAlign, offset := Size.alignTo prefixSize prefixAlign }
  | _ => s

end

section

variable (dl : TargetDataLayout)

def rotateRight16 (x : UInt64) : UInt64 := x >>> 16 ||| x <<< 48

def scalar (s : Scalar) : LayoutData :=
  let size := s.size dl
  let align := s.defaultAlign dl
  let range := s.validRange dl
  let kind : UInt64 :=
    match s.primitive with
    | .int _ true => 1
    | .int _ false => 2
    | .float _ => 3
    | .pointer _ => 4
  { fields := .primitive
    variants := .single 0
    backendRepr := .scalar s
    largestNiche := Niche.fromScalar dl 0 s
    uninhabited := false
    align := align
    size := size
    maxReprAlign := none
    unadjustedAbiAlign := align
    randomizationSeed := UInt64.ofNat size + kind <<< 32 + rotateRight16 (UInt64.ofNat range.start) +
      rotateRight16 (UInt64.ofNat range.end) }

def scalarPair (a b : Scalar) : LayoutData :=
  let bAlign := b.defaultAlign dl
  let align := max (max (a.defaultAlign dl) bAlign) dl.aggregateAlign
  let bOffset := Size.alignTo (a.size dl) bAlign
  let size := Size.alignTo (bOffset + b.size dl) align
  -- The last maximum of the two wins.
  let largestNiche :=
    match Niche.fromScalar dl bOffset b, Niche.fromScalar dl 0 a with
    | some n, some m => if m.available dl < n.available dl then some n else some m
    | some n, none => some n
    | none, m => m
  { fields := .arbitrary [0,bOffset] [0,1]
    variants := .single 0
    backendRepr := .scalarPair a b bOffset
    largestNiche := largestNiche
    uninhabited := false
    align := align
    size := size
    maxReprAlign := none
    unadjustedAbiAlign := align
    randomizationSeed := UInt64.ofNat (a.size dl) + UInt64.ofNat (b.size dl) }

def pairAbi (a b : Scalar) (aOffset bOffset : Nat) (align : Align) (size : Nat) : LayoutResult (Option BackendRepr) :=
  let pair := scalarPair dl a b
  match pair.fields with
  | .arbitrary [pairA,pairB] [0,1] =>
    if aOffset = pairA ∧ bOffset = pairB ∧ align = pair.align ∧ size = pair.size then .ok (some pair.backendRepr)
    else .ok none
  | _ => .error .panic

section

variable (fields : List LayoutData)

def nonZstFields : List (Nat × LayoutData) :=
  ((List.range fields.length).zip fields).filter fun p => !p.2.isZst

def newtypeAbi (optimizeAbi : Bool) (field : LayoutData) (sized : Bool) : BackendRepr :=
  match field.backendRepr with
  | .scalar s => if optimizeAbi then .scalar s else .memory sized
  | .simdVector element count => if optimizeAbi then .simdVector element count else .memory sized
  | .scalarPair a b bOffset => .scalarPair a b bOffset
  | _ => .memory sized

def structAbi (repr : ReprOptions) (offsets : List Nat) (align : Align) (size : Nat)
    (sized : Bool) : LayoutResult BackendRepr :=
  if sized && size > 0 then
    match nonZstFields fields with
    | [(i,field)] =>
      if offsets[i]? = some 0 ∧ align = field.align ∧ size = field.size then
        .ok (newtypeAbi (!repr.inhibitNewtypeAbiOptimization) field sized)
      else .ok (.memory sized)
    | [(i,a),(j,b)] =>
      match a.backendRepr, b.backendRepr, offsets[i]?, offsets[j]? with
      | .scalar a, .scalar b, some aOffset, some bOffset =>
        let pair := if aOffset < bOffset then pairAbi dl a b aOffset bOffset align size
          else pairAbi dl b a bOffset aOffset align size
        pair.map fun abi => abi.getD (.memory sized)
      | _, _, _, _ => .ok (.memory sized)
    | _ => .ok (.memory sized)
  else .ok (.memory sized)

def singleNonZstField (size : Nat) (sized : Bool) : Option LayoutData :=
  if sized && size > 0 then
    match nonZstFields fields with
    | [(_,field)] => some field
    | _ => none
  else none

end

end

variable (dl : TargetDataLayout)

section

variable (fields : List LayoutData) (repr : ReprOptions) (kind : StructKind)

def univariantBiased (bias : NicheBias) : LayoutResult LayoutData :=
  if kind = .maybeUnsized ∧ fields = [] then .error .panic
  else
    let order := inMemoryOrder dl bias fields repr kind
    let last := if kind = .maybeUnsized then fields.length - 1 else fields.length
    let fieldSeed := (fields.take last).foldl (fun acc f => acc + f.randomizationSeed) 0
    match placeFields dl repr.pack kind bias fields order (startPlacing dl kind fields repr) with
    | .error e => .error e
    | .ok s =>
      let align := repr.align.elim s.align (max s.align)
      let size := Size.alignTo s.offset align
      if size ≥ dl.objSizeBound then .error .sizeOverflow
      else
        let sized := s.unsizedField.isNone
        match structAbi dl fields repr s.offsets align size sized with
        | .error e => .error e
        | .ok abi =>
          .ok {
            fields := .arbitrary s.offsets order
            variants := .single 0
            backendRepr := abi
            largestNiche := s.largestNiche
            uninhabited := fields.any LayoutData.uninhabited
            align := align
            size := size
            maxReprAlign := s.maxReprAlign
            unadjustedAbiAlign :=
              if repr.transparent then
                (singleNonZstField fields size sized).elim align LayoutData.unadjustedAbiAlign
              else s.align
            randomizationSeed := fieldSeed + repr.fieldShuffleSeed }

-- A second run biased to the end, if the niche has room on both sides of it.
def univariant : LayoutResult LayoutData :=
  match univariantBiased dl fields repr kind .start with
  | .error e => .error e
  | .ok layout =>
    match layout.largestNiche with
    | none => .ok layout
    | some niche =>
      let headSpace := niche.offset
      let tailSpace := Size.wrappingSub (Size.wrappingSub layout.size headSpace) (niche.value.size dl)
      if kind ≠ .maybeUnsized ∧ fields.length > 1 ∧ headSpace ≠ 0 ∧ tailSpace > 0 then
        match univariantBiased dl fields repr kind .end with
        | .error _ => .error .panic
        | .ok altLayout =>
          match altLayout.largestNiche with
          | none => .error .panic
          | some altNiche =>
            if altNiche.offset > headSpace ∧ altNiche.offset > tailSpace then .ok altLayout else .ok layout
      else .ok layout

end

end Frontend.Abi
