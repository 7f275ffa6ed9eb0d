import Mathlib
import Frontend.Library.Align

namespace Frontend.Abi

instance neZeroThirty : NeZero 30 := ⟨by decide⟩

-- A power of two, at most 2 ^ 29.
structure Align where
  pow2 : Fin 30
  deriving DecidableEq

namespace Align

instance : LinearOrder Align := LinearOrder.lift' Align.pow2 fun a b h => by cases a; cases b; cases h; rfl

def one : Align := ⟨0⟩

def bytes (a : Align) : Nat := 2 ^ a.pow2.val

end Align

def maxAlign : Option Align → Option Align → Option Align
  | none, b => b
  | a, none => a
  | some a, some b => some (max a b)

-- Sizes and offsets are in bytes, each a `u64`.
namespace Size

def alignTo (s : Nat) (a : Align) : Nat :=
  let mask := BitVec.twoPow 64 a.pow2.val - 1#64
  ((BitVec.ofNat 64 s + mask) &&& ~~~mask).toNat

def wrappingSub (a b : Nat) : Nat := (a + 2 ^ 64 - b) % 2 ^ 64

-- The bitwise complement of a `u64`.
def not (a : Nat) : Nat := 2 ^ 64 - 1 - a

def trailingZeros (a : Nat) : Nat := ((List.range 64).find? a.testBit).getD 64

def bits (s : Nat) : Nat := 8 * s

def unsignedIntMax (s : Nat) : Nat := 2 ^ bits s - 1

def truncate (s value : Nat) : Nat := value % 2 ^ bits s

def signExtend (s value : Nat) : Int := (BitVec.ofNat (bits s) value).toInt

end Size

def wrappingAdd (a b : Nat) : Nat := (a + b) % 2 ^ 128

def wrappingSub (a b : Nat) : Nat := (a + 2 ^ 128 - b) % 2 ^ 128

inductive Integer
  | i8 | i16 | i32 | i64 | i128
  deriving DecidableEq

inductive Float
  | f16 | f32 | f64 | f128
  deriving DecidableEq

abbrev AddressSpace := Nat

inductive Primitive
  | int (i : Integer) (signed : Bool)
  | float (f : Float)
  | pointer (a : AddressSpace)
  deriving DecidableEq

inductive PointerSize
  | bits16 | bits32 | bits64
  deriving DecidableEq

def PointerSize.bytes : PointerSize → Nat
  | .bits16 => 2
  | .bits32 => 4
  | .bits64 => 8

structure PointerSpec where
  pointerSize : PointerSize
  pointerAlign : Align
  pointerOffset : PointerSize

structure TargetDataLayout where
  i8Align : Align
  i16Align : Align
  i32Align : Align
  i64Align : Align
  i128Align : Align
  f16Align : Align
  f32Align : Align
  f64Align : Align
  f128Align : Align
  aggregateAlign : Align
  defaultAddressSpace : AddressSpace
  pointerSpecIn : AddressSpace → PointerSpec

namespace TargetDataLayout

variable (dl : TargetDataLayout)

def objSizeBound : Nat :=
  match (dl.pointerSpecIn dl.defaultAddressSpace).pointerSize with
  | .bits16 => 2 ^ 15
  | .bits32 => 2 ^ 31
  | .bits64 => 2 ^ 61

def ptrSizedInteger : Integer :=
  match (dl.pointerSpecIn dl.defaultAddressSpace).pointerOffset with
  | .bits16 => .i16
  | .bits32 => .i32
  | .bits64 => .i64

end TargetDataLayout

namespace Integer

def size : Integer → Nat
  | .i8 => 1
  | .i16 => 2
  | .i32 => 4
  | .i64 => 8
  | .i128 => 16

def align (i : Integer) (dl : TargetDataLayout) : Align :=
  match i with
  | .i8 => dl.i8Align
  | .i16 => dl.i16Align
  | .i32 => dl.i32Align
  | .i64 => dl.i64Align
  | .i128 => dl.i128Align

def fitUnsigned (x : Nat) : Integer :=
  if x ≤ 0xff then .i8
  else if x ≤ 0xffff then .i16
  else if x ≤ 0xffffffff then .i32
  else if x ≤ 0xffffffffffffffff then .i64
  else .i128

def forAlign (dl : TargetDataLayout) (wanted : Align) : Option Integer :=
  [Integer.i8,.i16,.i32,.i64,.i128].find? fun candidate => decide (wanted = candidate.align dl ∧
    wanted.bytes = candidate.size)

end Integer

namespace Float

def size : Float → Nat
  | .f16 => 2
  | .f32 => 4
  | .f64 => 8
  | .f128 => 16

def align (f : Float) (dl : TargetDataLayout) : Align :=
  match f with
  | .f16 => dl.f16Align
  | .f32 => dl.f32Align
  | .f64 => dl.f64Align
  | .f128 => dl.f128Align

end Float

namespace Primitive

def size (p : Primitive) (dl : TargetDataLayout) : Nat :=
  match p with
  | .int i _ => i.size
  | .float f => f.size
  | .pointer a => (dl.pointerSpecIn a).pointerSize.bytes

def defaultAlign (p : Primitive) (dl : TargetDataLayout) : Align :=
  match p with
  | .int i _ => i.align dl
  | .float f => f.align dl
  | .pointer a => (dl.pointerSpecIn a).pointerAlign

end Primitive

structure WrappingRange where
  start : Nat
  «end» : Nat
  deriving DecidableEq

namespace WrappingRange

def full (size : Nat) : WrappingRange := ⟨0,Size.unsignedIntMax size⟩

section

variable (r : WrappingRange)

def contains (v : Nat) : Bool :=
  if r.start ≤ r.end then r.start ≤ v && v ≤ r.end else r.start ≤ v || v ≤ r.end

def withStart (start : Nat) : WrappingRange := { r with start := start }

def withEnd («end» : Nat) : WrappingRange := { r with «end» := «end» }

def width (size : Nat) : Nat := Size.truncate size (wrappingSub r.end r.start)

end

end WrappingRange

inductive Scalar
  | initialized (value : Primitive) (validRange : WrappingRange)
  | union (value : Primitive)
  deriving DecidableEq

namespace Scalar

def primitive : Scalar → Primitive
  | .initialized value _ => value
  | .union value => value

def size (s : Scalar) (dl : TargetDataLayout) : Nat := s.primitive.size dl

def defaultAlign (s : Scalar) (dl : TargetDataLayout) : Align := s.primitive.defaultAlign dl

def toUnion (s : Scalar) : Scalar := .union s.primitive

def validRange (s : Scalar) (dl : TargetDataLayout) : WrappingRange :=
  match s with
  | .initialized _ validRange => validRange
  | .union value => .full (value.size dl)

end Scalar

inductive BackendRepr
  | scalar (s : Scalar)
  | scalarPair (a b : Scalar) (bOffset : Nat)
  | simdScalableVector (element : Scalar) (count numberOfVectors : Nat)
  | simdVector (element : Scalar) (count : Nat)
  | memory (sized : Bool)
  deriving DecidableEq

def BackendRepr.isUnsized : BackendRepr → Bool
  | .memory sized => !sized
  | _ => false

structure Niche where
  offset : Nat
  value : Primitive
  validRange : WrappingRange
  deriving DecidableEq

namespace Niche

def available (n : Niche) (dl : TargetDataLayout) : Nat :=
  wrappingSub n.validRange.start (wrappingAdd n.validRange.end 1) &&& Size.unsignedIntMax (n.value.size dl)

def fromScalar (dl : TargetDataLayout) (offset : Nat) : Scalar → Option Niche
  | .initialized value validRange =>
    let niche : Niche := ⟨offset,value,validRange⟩
    if niche.available dl > 0 then some niche else none
  | .union _ => none

end Niche

inductive FieldsShape
  | primitive
  | union (count : Nat)
  | array (stride : Nat) (count : Nat)
  | arbitrary (offsets : List Nat) (inMemoryOrder : List Nat)
  deriving DecidableEq

inductive TagEncoding
  | direct
  | niche (untaggedVariant : Nat) (nicheVariants : Nat × Nat) (nicheStart : Nat)
  deriving DecidableEq

structure VariantLayout where
  size : Nat
  backendRepr : BackendRepr
  fieldOffsets : List Nat
  fieldsInMemoryOrder : List Nat
  largestNiche : Option Niche
  uninhabited : Bool
  deriving DecidableEq

def VariantLayout.hasFields (v : VariantLayout) : Bool := 0 < v.fieldOffsets.length

inductive Variants
  | empty
  | single (index : Nat)
  | multiple (tag : Scalar) (tagEncoding : TagEncoding) (tagField : Nat) (variants : List VariantLayout)
  deriving DecidableEq

structure LayoutData where
  fields : FieldsShape
  variants : Variants
  backendRepr : BackendRepr
  largestNiche : Option Niche
  uninhabited : Bool
  align : Align
  size : Nat
  maxReprAlign : Option Align
  unadjustedAbiAlign : Align
  randomizationSeed : UInt64
  deriving DecidableEq

namespace LayoutData

variable (l : LayoutData)

def isUnsized : Bool := l.backendRepr.isUnsized

def is1zst : Bool := !l.isUnsized && l.size == 0 && l.align.bytes == 1

def isZst : Bool :=
  match l.backendRepr with
  | .memory sized => sized && l.size == 0
  | _ => false

def nicheAvailable (dl : TargetDataLayout) : Nat := l.largestNiche.elim 0 fun n => n.available dl

end LayoutData

inductive StructKind
  | alwaysSized
  | maybeUnsized
  | prefixed (size : Nat) (align : Align)
  deriving DecidableEq

inductive IntegerType
  | pointer (signed : Bool)
  | fixed (i : Integer) (signed : Bool)
  deriving DecidableEq

structure ReprFlags where
  isC : Bool
  isSimd : Bool
  isTransparent : Bool
  isLinear : Bool
  isScalable : Bool
  deriving DecidableEq

structure ReprOptions where
  int : Option IntegerType
  align : Option Align
  pack : Option Align
  flags : ReprFlags
  fieldShuffleSeed : UInt64
  deriving DecidableEq

namespace ReprOptions

def default : ReprOptions := ⟨none,none,none,⟨false,false,false,false,false⟩,0⟩

variable (repr : ReprOptions)

def c : Bool := repr.flags.isC

def packed : Bool := repr.pack.isSome

def transparent : Bool := repr.flags.isTransparent

def discrType : IntegerType := repr.int.getD (.pointer true)

def inhibitEnumLayoutOpt : Bool := repr.c || repr.int.isSome

def inhibitNewtypeAbiOptimization : Bool := repr.flags.isC || repr.flags.isSimd

def inhibitStructFieldReordering : Bool :=
  repr.flags.isC || repr.flags.isSimd || repr.flags.isScalable || repr.flags.isLinear || repr.int.isSome

end ReprOptions

inductive LayoutCalculatorError
  | unexpectedUnsized (field : LayoutData)
  | sizeOverflow
  | reprConflict
  | panic
  | unreachable
  deriving DecidableEq

end Frontend.Abi
