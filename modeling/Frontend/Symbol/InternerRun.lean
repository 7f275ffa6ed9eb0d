import Frontend.Library.Run
import Frontend.Symbol.Interner

namespace Frontend.Symbol

namespace Interner

structure SourceText where
  arc : Nat
  address : Nat
  len : Nat
deriving DecidableEq, Repr

structure InternerInner where
  arena : List Bytes
  sources : List SourceText

structure Call where
  bytes : Bytes
  address : Nat
  owner : Option SourceText
  symbolInserts : Bool

def Call.hash (call : Call) : Nat := symbolHash call.bytes

def Call.inside (call : Call) (owner : SourceText) : Bool :=
  call.bytes.length ≤ owner.len && owner.address ≤ call.address && call.address - owner.address ≤
    owner.len - call.bytes.length

def InternerInner.alloc (inner : InternerInner) (call : Call) : Bytes × InternerInner :=
  (call.bytes,{ inner with arena := inner.arena ++ [call.bytes] })

def InternerInner.store (inner : InternerInner) (call : Call) : Bytes × InternerInner :=
  if call.bytes.isEmpty then ([],inner)
  else match call.owner with
    | none => inner.alloc call
    | some owner =>
      if call.inside owner then
        if inner.sources.any (·.arc == owner.arc) then (call.bytes,inner)
        else (call.bytes,{ inner with sources := inner.sources ++ [owner] })
      else inner.alloc call

theorem InternerInner.store_bytes (inner : InternerInner) (call : Call) : (inner.store call).1 = call.bytes := by
  simp only [store]
  split
  · simp_all
  split
  · rfl
  · split
    · split <;> rfl
    · rfl

inductive Fault where
  | retry
  | overflow
  | broken
deriving DecidableEq, Repr

inductive Pc where
  | idle
  | find (call : Call)
  | probe (call : Call) (table slot passed : Nat)
  | compare (call : Call) (table slot passed index : Nat)
  | lock (call : Call) (miss : SymbolMiss)
  | locked (call : Call) (miss : SymbolMiss)
  | push (call : Call) (table slot : Nat)
  | store (call : Call) (table slot index : Nat)
  | unlock (call : Call) (index : Nat)
  | panicked (fault : Fault)

structure Config (T : Type) where
  mem : Session
  inner : InternerInner
  holder : Option T
  pc : T → Pc
  returned : List (Bytes × Nat)

namespace Config

variable {T : Type} [DecidableEq T] (p : PredefinedSymbols) (σ : Config T) (t : T)

def goto (pc : Pc) : Config T := { σ with pc := Function.update σ.pc t pc }

def release : Config T := { σ with holder := none }

section

variable (call : Call)

def finish (index : Nat) : Config T :=
  match symbolNew index with
  | some index => { σ.goto t .idle with returned := σ.returned ++ [(call.bytes,index)] }
  | none => σ.goto t (.panicked .overflow)

def intern : Config T :=
  match p.find call.bytes call.hash with
  | none => σ.goto t (.panicked .broken)
  | some (some index) => σ.finish t call index
  | some none => σ.goto t (.find call)

def loadCurrent : Config T :=
  match σ.mem.current with
  | none => σ.goto t (.lock call ⟨none,0⟩)
  | some table =>
    match σ.mem.tables[table]? with
    | none => σ.goto t (.panicked .broken)
    | some slots => σ.goto t (.probe call table (call.hash &&& (slots.length - 1)) 0)

def nextSlot (slots : List Nat) (table slot passed : Nat) : Config T :=
  σ.goto t (.probe call table ((slot + 1) &&& (slots.length - 1)) (passed + 1))

def loadSlot (table slot passed : Nat) : Config T :=
  match σ.mem.tables[table]? with
  | none => σ.goto t (.panicked .broken)
  | some slots =>
    match slots[slot]? with
    | none => σ.goto t (.panicked .broken)
    | some entry =>
      if entry = 0 then σ.goto t (.lock call ⟨some table,slot⟩)
      else if entry >>> 32 = slotTag call.hash then
        σ.goto t (.compare call table slot passed (slotLocal entry))
      else σ.nextSlot t call slots table slot passed

def compareString (table slot passed index : Nat) : Config T :=
  match σ.mem.tables[table]?, σ.mem.strs.get index with
  | some slots, some other =>
    if other = call.bytes then σ.finish t call ((p.base + index) % 2 ^ 32)
    else σ.nextSlot t call slots table slot passed
  | _, _ => σ.goto t (.panicked .broken)

def fail (fault : Fault) : Config T := (σ.goto t (.panicked fault)).release

def searchLocked (miss : SymbolMiss) : Config T :=
  match σ.mem.search call.bytes call.hash miss with
  | none => σ.fail t .broken
  | some (.ok index) => σ.goto t (.unlock call index)
  | some (.error slot) =>
    if call.symbolInserts then
      match σ.mem.makeRoom call.bytes call.hash slot with
      | none => σ.fail t .broken
      | some (mem,table,slot) => { σ.goto t (.push call table slot) with mem := mem }
    else σ.fail t .retry

def pushString (table slot : Nat) : Config T :=
  if call.symbolInserts then
    let (bytes,inner) := σ.inner.store call
    match σ.mem.pushStr bytes with
    | none => { σ.fail t .overflow with inner := inner }
    | some (index,mem) => { σ.goto t (.store call table slot index) with mem := mem, inner := inner }
  else σ.fail t .retry

def storeEntry (table slot index : Nat) : Config T :=
  match σ.mem.storeSlot table slot call.hash index with
  | none => σ.fail t .overflow
  | some mem => { σ.goto t (.unlock call index) with mem := mem }

def unlockReturn (index : Nat) : Config T :=
  match globalIndex p.base index with
  | none => σ.fail t .overflow
  | some index => σ.release.finish t call index

end

def act : Option (Config T) :=
  match σ.pc t with
  | .idle | .panicked _ => none
  | .find call => some (σ.loadCurrent t call)
  | .probe call table slot passed => some (σ.loadSlot t call table slot passed)
  | .compare call table slot passed index => some (σ.compareString p t call table slot passed index)
  | .lock call miss =>
    if σ.holder.isNone then some { σ.goto t (.locked call miss) with holder := some t } else none
  | .locked call miss => some (σ.searchLocked t call miss)
  | .push call table slot => some (σ.pushString t call table slot)
  | .store call table slot index => some (σ.storeEntry t call table slot index)
  | .unlock call index => some (σ.unlockReturn p t call index)

end Config

def atRest : Pc → Bool
  | .idle | .panicked _ => true
  | _ => false

inductive Step {T : Type} [DecidableEq T] (p : PredefinedSymbols) : Config T → Config T → Prop
  | intern {σ : Config T} (t : T) (call : Call) : atRest (σ.pc t) = true → Step p σ (σ.intern p t call)
  | act {σ σ' : Config T} (t : T) : σ.act p t = some σ' → Step p σ σ'

def Initial {T : Type} (p : PredefinedSymbols) (σ : Config T) : Prop :=
  ∃ extra sourceLen m, new p extra sourceLen = some m ∧ σ = ⟨m,⟨[],[]⟩,none,fun _ => .idle,[]⟩

def Occurs {T : Type} [DecidableEq T] (p : PredefinedSymbols) (σ : Config T) : Prop :=
  Library.Reachable (Initial p) (Step p) σ

end Interner

end Frontend.Symbol
