import Frontend.Symbol.Strs

namespace Frontend.Symbol

open Library.Probing

def symbolIndicesFirstSlots : Nat := 4096

def slotTag (hash : Nat) : Nat := hash >>> 32
def slotEntry (hash index : Nat) : Nat := slotTag hash <<< 32 ||| (index + 1)
def slotLocal (entry : Nat) : Nat := entry % 2 ^ 32 - 1

structure SymbolMiss where
  table : Option Nat
  slot : Nat
deriving DecidableEq, Repr

inductive Probed where
  | found (index : Nat)
  | miss (slot : Nat)
deriving DecidableEq, Repr

def probeVisit (strs : SymbolStrs) (slots : List Nat) (bytes : Bytes) (hash slot : Nat) : Option (Option Probed) :=
  match slots[slot]? with
  | none => some none
  | some entry =>
    if entry = 0 then some (some (.miss slot))
    else if entry >>> 32 = slotTag hash then
      match strs.get (slotLocal entry) with
      | none => some none
      | some other => if other = bytes then some (some (.found (slotLocal entry))) else none
    else none

def probe (strs : SymbolStrs) (slots : List Nat) (bytes : Bytes) (hash slot : Nat) : Option Probed :=
  (walk (slots.length - 1) (probeVisit strs slots bytes hash) slots.length slot).join

structure Session where
  strs : SymbolStrs
  tables : List (List Nat)
  current : Option Nat

namespace Session

def withSourceLen (sourceLen extraSymbolCount : Nat) : Session :=
  let estimatedSlots := max (sourceLen / 128) (extraSymbolCount * 2)
  let slots := nextPowerOfTwo (max estimatedSlots symbolIndicesFirstSlots)
  if slots ≠ symbolIndicesFirstSlots then ⟨.new,[List.replicate slots 0],some 0⟩
  else ⟨.new,[],none⟩

section

variable (m : Session)

section

variable (bytes : Bytes)

def find (hash : Nat) : Option (Except SymbolMiss Nat) :=
  match m.current with
  | none => some (.error ⟨none,0⟩)
  | some table => do
    let slots ← m.tables[table]?
    match ← probe m.strs slots bytes hash (hash &&& (slots.length - 1)) with
    | .found index => return .ok index
    | .miss slot => return .error ⟨table,slot⟩

def search (hash : Nat) (miss : SymbolMiss) : Option (Except (Option Nat) Nat) :=
  match m.current with
  | none => some (.error none)
  | some table => do
    let slots ← m.tables[table]?
    let start := if miss.table = some table then miss.slot else hash &&& (slots.length - 1)
    match ← probe m.strs slots bytes hash start with
    | .found index => return .ok index
    | .miss slot => return .error (some slot)

def emptyVisit (slots : List Nat) (slot : Nat) : Option (Option Nat) :=
  match slots[slot]? with
  | none => some none
  | some entry => if entry = 0 then some (some slot) else none

def rehash (strs : SymbolStrs) (fresh : List Nat) (entry : Nat) : Option (List Nat) :=
  if entry = 0 then some fresh
  else do
    let hash := symbolHash (← strs.get (slotLocal entry))
    let mask := fresh.length - 1
    let slot ← (walk mask (emptyVisit fresh) fresh.length (hash &&& mask)).join
    return fresh.set slot entry

def currentSlots : Option (List Nat) :=
  match m.current with
  | none => some []
  | some table => m.tables[table]?

def grow : Option (Nat × Session) := do
  let old ← m.currentSlots
  let len := if old.length = 0 then symbolIndicesFirstSlots else old.length * 2
  let fresh ← old.foldlM (rehash m.strs) (List.replicate len 0)
  return (m.tables.length,{ m with tables := m.tables ++ [fresh], current := some m.tables.length })

def makeRoom (hash : Nat) (slot : Option Nat) : Option (Session × Nat × Nat) := do
  let old ← m.currentSlots
  if (m.strs.len + 1) * 2 > old.length then
    let (table,m) ← m.grow
    let slots ← m.tables[table]?
    match ← probe m.strs slots bytes hash (hash &&& (slots.length - 1)) with
    | .found _ => none
    | .miss slot => return (m,table,slot)
  else return (m,← m.current,← slot)

def pushStr : Option (Nat × Session) := do
  let (index,strs) ← m.strs.push bytes
  return (index,{ m with strs := strs })

def storeSlot (table slot hash index : Nat) : Option Session :=
  if index + 1 < 2 ^ 32 then do
    let slots ← m.tables[table]?
    return { m with tables := m.tables.set table (slots.set slot (slotEntry hash index)) }
  else none

def findOrInsert (hash : Nat) (miss : SymbolMiss) : Option (Nat × Session) := do
  match ← m.search bytes hash miss with
  | .ok index => return (index,m)
  | .error slot =>
    let (m,table,slot) ← m.makeRoom bytes hash slot
    let (index,m) ← m.pushStr bytes
    return (index,← m.storeSlot table slot hash index)

end

end

end Session

def globalIndex (base index : Nat) : Option Nat :=
  if base + index < 2 ^ 32 then some (base + index) else none

def symbolIndexMax : Nat := 0xFFFFFF00

def symbolNew (n : Nat) : Option Nat := if n ≤ symbolIndexMax then some n else none

namespace Interner

section

variable (p : PredefinedSymbols)

def addExtra (m : Session) (conflicting : List Bytes) (bytes : Bytes) : Option (Session × List Bytes) := do
  let hash := symbolHash bytes
  match ← p.find bytes hash with
  | some _ => return (m,conflicting ++ [bytes])
  | none =>
    match ← m.find bytes hash with
    | .ok _ => return (m,conflicting ++ [bytes])
    | .error miss =>
      let (index,m) ← m.findOrInsert bytes hash miss
      let _ ← globalIndex p.base index
      return (m,conflicting)

def addExtras (p : PredefinedSymbols) : List Bytes → Session × List Bytes → Option (Session × List Bytes)
  | [], acc => some acc
  | bytes :: extra, (m,conflicting) => do addExtras p extra (← addExtra p m conflicting bytes)

def new (extra : List Bytes) (sourceLen : Nat) : Option Session := do
  let (m,conflicting) ← addExtras p extra (.withSourceLen sourceLen extra.length,[])
  if conflicting.isEmpty then some m else none

def getInner (m : Session) (index : Nat) : Option Bytes :=
  if index < p.strs.length then p.strs[index]? else m.strs.get (index - p.strs.length)

end

end Interner

end Frontend.Symbol
