import Mathlib
import Frontend.Library.Align

namespace Frontend.Arena

open Library

inductive Target where
  | bits32
  | bits64
deriving DecidableEq, Repr

namespace Target

def wordLog : Target → Nat
  | bits32 => 2
  | bits64 => 3

def bits : Target → Nat
  | bits32 => 32
  | bits64 => 64

end Target

variable {t : Target}

abbrev Usize (t : Target) := BitVec t.bits

def alignDown (val align : Usize t) : Usize t := val &&& ~~~(align - 1#t.bits)

def alignUp (val align : Usize t) : Usize t := (val + align - 1#t.bits) &&& ~~~(align - 1#t.bits)

def droplessAlignment (t : Target) : Usize t := BitVec.twoPow t.bits t.wordLog

def page (t : Target) : Usize t := BitVec.twoPow t.bits 12

def hugePage (t : Target) : Usize t := BitVec.twoPow t.bits 21

structure Layout (t : Target) where
  size : Usize t
  alignLog : Nat
  align_lt : alignLog < t.bits
  size_le : size.toNat + 2 ^ alignLog ≤ 2 ^ (t.bits - 1)

def Layout.align (layout : Layout t) : Usize t := BitVec.twoPow t.bits layout.alignLog

structure ArenaChunk (t : Target) where
  start : Usize t
  len : Usize t

def ArenaChunk.stop (chunk : ArenaChunk t) : Usize t := chunk.start + chunk.len

structure Range (t : Target) where
  address : Usize t
  layout : Layout t

structure DroplessArena (t : Target) where
  start : Usize t
  stop : Usize t
  chunks : List (ArenaChunk t)

namespace DroplessArena

def default : DroplessArena t := ⟨0#t.bits,0#t.bits,[]⟩

def maxUsize (a b : Usize t) : Usize t := if a ≤ b then b else a

def minUsize (a b : Usize t) : Usize t := if a ≤ b then a else b

section

variable (arena : DroplessArena t)

def newCap (layout : Layout t) : Usize t :=
  let additional := layout.size + maxUsize (droplessAlignment t) layout.align - 1#t.bits
  let doubled := match arena.chunks.getLast? with
    | some lastChunk => minUsize lastChunk.len (hugePage t / 2#t.bits) * 2#t.bits
    | none => page t
  alignUp (maxUsize additional doubled) (page t)

def grow (layout : Layout t) (base : Usize t) : DroplessArena t :=
  let chunk : ArenaChunk t := ⟨base,arena.newCap layout⟩
  { start := chunk.start
    stop := alignDown chunk.stop (droplessAlignment t)
    chunks := arena.chunks ++ [chunk] }

def bump (layout : Layout t) : Option (Usize t) :=
  let bytes := alignUp layout.size (droplessAlignment t)
  if bytes ≤ arena.stop then
    let newEnd := alignDown (arena.stop - bytes) layout.align
    if arena.start ≤ newEnd then some newEnd else none
  else none

end

-- one base address for each chunk the global allocator is asked for
def allocLoop (layout : Layout t) : List (Usize t) → DroplessArena t → Option (Usize t × DroplessArena t)
  | bases, arena =>
    match arena.bump layout with
    | some address => some (address,{ arena with stop := address })
    | none =>
      match bases with
      | [] => none
      | base :: bases => allocLoop layout bases (arena.grow layout base)

def allocRaw (arena : DroplessArena t) (layout : Layout t) (bases : List (Usize t)) :
    Option (Usize t × DroplessArena t) :=
  if layout.size = 0#t.bits then none else allocLoop layout bases arena

structure Call (t : Target) where
  layout : Layout t
  bases : List (Usize t)

def run : List (Call t) → DroplessArena t → Option (DroplessArena t × List (Range t))
  | [], arena => some (arena,[])
  | call :: calls, arena => do
    let (address,arena) ← arena.allocRaw call.layout call.bases
    let (arena,ranges) ← run calls arena
    some (arena,⟨address,call.layout⟩ :: ranges)

end DroplessArena

end Frontend.Arena
