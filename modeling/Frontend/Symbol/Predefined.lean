import Frontend.Library.Probing

namespace Frontend.Symbol

open Library.Probing List

abbrev Bytes := List UInt8

def rotateLeft (x : UInt64) (k : UInt64) : UInt64 := (x <<< k) ||| (x >>> (64 - k))

def fxMultiplier : UInt64 := 0xf1357aea2e62a9c5

def fromLeBytes : Bytes → UInt64
  | [] => 0
  | b :: bytes => b.toUInt64 ||| (fromLeBytes bytes <<< 8)

def mixWord (h word : UInt64) : UInt64 := (rotateLeft h 5 ^^^ word) * fxMultiplier

def hashWords : UInt64 → UInt64 → Bytes → UInt64 × UInt64 × Bytes
  | h, bits, b0 :: b1 :: b2 :: b3 :: b4 :: b5 :: b6 :: b7 :: tail =>
    let word := fromLeBytes [b0,b1,b2,b3,b4,b5,b6,b7]
    hashWords (mixWord h word) (bits ||| word) tail
  | h, bits, rest => (h,bits,rest)

def tailWord (rest : Bytes) : UInt64 :=
  let (word,shift,rest) := match rest with
    | b0 :: b1 :: b2 :: b3 :: tail => (fromLeBytes [b0,b1,b2,b3],(32 : UInt64),tail)
    | rest => (0,0,rest)
  let (word,shift,rest) := match rest with
    | b0 :: b1 :: tail => (word ||| (fromLeBytes [b0,b1] <<< shift),shift + 16,tail)
    | rest => (word,shift,rest)
  match rest with
  | b0 :: _ => word ||| (b0.toUInt64 <<< shift)
  | [] => word

def symbolHashAndBits (bytes : Bytes) : UInt64 × UInt64 :=
  let (h,bits,rest) := hashWords (bytes.length.toUInt64 * fxMultiplier) 0 bytes
  let (h,bits) := if rest.isEmpty then (h,bits)
    else (mixWord h (tailWord rest),bits ||| tailWord rest)
  (rotateLeft h 26,bits)

def symbolHash (bytes : Bytes) : Nat := (symbolHashAndBits bytes).1.toNat

def emptySlot : Nat := 2 ^ 16 - 1
def emptyPredefinedSlot : Nat := 2 ^ 64 - 1

def predefinedTag (hash : Nat) : Nat := hash >>> 16

def nextPowerOfTwo (n : Nat) : Nat := 2 ^ Nat.clog 2 n

def isPowerOfTwo (n : Nat) : Bool := n != 0 && (n &&& (n - 1)) == 0

def predefinedSlotCount (n : Nat) : Nat := nextPowerOfTwo (if n * 2 < 16 then 16 else n * 2)

def predefinedEntry (hash index : Nat) : Nat := predefinedTag hash <<< 16 ||| index

def occupant (entry : Nat) : Nat := entry &&& 0xFFFF

section

variable (strs : List Bytes)

def fillVisit (slots : List Nat) (bytes : Bytes) (slot : Nat) : Option (Option Nat) :=
  match slots[slot]? with
  | none => some none
  | some entry =>
    if entry = emptyPredefinedSlot then some (some slot)
    else match strs[occupant entry]? with
      | none => some none
      | some other => if other = bytes then some none else none

def fillSlot (slots : List Nat) (index : Nat) (bytes : Bytes) : Option (List Nat) := do
  let mask := slots.length - 1
  let hash := symbolHash bytes
  let slot ← (walk mask (fillVisit strs slots bytes) slots.length (hash &&& mask)).join
  return slots.set slot (predefinedEntry hash index)

def fillFrom (strs : List Bytes) : Nat → List Bytes → List Nat → Option (List Nat)
  | _, [], slots => some slots
  | index, bytes :: rest, slots => do fillFrom strs (index + 1) rest (← fillSlot strs slots index bytes)

def fillPredefinedSlots (slots : List Nat) : Option (List Nat) :=
  if strs.length < emptySlot ∧ isPowerOfTwo slots.length ∧ strs.length * 2 ≤ slots.length then
    fillFrom strs 0 strs slots
  else none

end

structure PredefinedSymbols where
  strs : List Bytes
  slots : List Nat

namespace PredefinedSymbols

def new (strs : List Bytes) : Option PredefinedSymbols := do
  let slots := List.replicate (predefinedSlotCount strs.length) emptyPredefinedSlot
  return ⟨strs,← fillPredefinedSlots strs slots⟩

section

variable (p : PredefinedSymbols)

def visit (bytes : Bytes) (hash slot : Nat) : Option (Option (Option Nat)) :=
  match p.slots[slot]? with
  | none => some none
  | some entry =>
    if entry = emptyPredefinedSlot then some (some none)
    else if entry >>> 16 = predefinedTag hash then
      match p.strs[occupant entry]? with
      | none => some none
      | some other => if other = bytes then some (some (some (occupant entry))) else none
    else none

def find (bytes : Bytes) (hash : Nat) : Option (Option Nat) :=
  let mask := p.slots.length - 1
  (walk mask (p.visit bytes hash) p.slots.length (hash &&& mask)).join

def base : Nat := p.strs.length

end

end PredefinedSymbols

section

variable {index : Nat} (hash : Nat)

theorem predefinedEntry_eq (hin : index < 2 ^ 16) :
    predefinedEntry hash index = predefinedTag hash * 2 ^ 16 + index := by
  rw [predefinedEntry,← Nat.shiftLeft_add_eq_or_of_lt hin,Nat.shiftLeft_eq]

theorem occupant_predefinedEntry (hin : index < 2 ^ 16) : occupant (predefinedEntry hash index) = index := by
  rw [occupant,show 0xFFFF = 2 ^ 16 - 1 from rfl,Nat.and_two_pow_sub_one_eq_mod,predefinedEntry_eq hash hin]
  omega

theorem tag_predefinedEntry (hin : index < 2 ^ 16) : predefinedEntry hash index >>> 16 = predefinedTag hash := by
  rw [predefinedEntry_eq hash hin,Nat.shiftRight_eq_div_pow]
  omega

theorem lt_of_lt_emptySlot (h : index < emptySlot) : index < 2 ^ 16 := by
  simp only [emptySlot] at h
  omega

theorem predefinedEntry_ne_empty (hin : index < emptySlot) : predefinedEntry hash index ≠ emptyPredefinedSlot := by
  intro h
  have ho := occupant_predefinedEntry hash (lt_of_lt_emptySlot hin)
  rw [h] at ho
  have hl : occupant emptyPredefinedSlot = emptySlot := by decide
  omega

end

def predefinedKey (strs : List Bytes) (entry : Nat) : Option Bytes :=
  if entry = emptyPredefinedSlot then none else strs[occupant entry]?

theorem predefinedKey_entry (strs : List Bytes) (hash : Nat) (hin : index < emptySlot) :
    predefinedKey strs (predefinedEntry hash index) = strs[index]? := by
  simp [predefinedKey,predefinedEntry_ne_empty hash hin,occupant_predefinedEntry hash (lt_of_lt_emptySlot hin)]

structure Filled (strs : List Bytes) (slots : List Nat) (count : Nat) : Prop where
  table : Table symbolHash (predefinedKey strs) slots
  fill_le : fill (predefinedKey strs) slots ≤ count
  entries : ∀ (i : Nat) entry, slots[i]? = some entry → entry ≠ emptyPredefinedSlot →
    ∃ index bytes, index < count ∧ strs[index]? = some bytes ∧ entry = predefinedEntry (symbolHash bytes) index
  complete : ∀ (index : Nat) bytes, index < count → strs[index]? = some bytes →
    ∃ i < slots.length, slots[i]? = some (predefinedEntry (symbolHash bytes) index)

namespace Filled

variable {strs : List Bytes} {slots : List Nat} {count : Nat} {bytes : Bytes} {slot : Nat}

section

variable (h : Filled strs slots count)

include h

section

variable (hs : strs.length < emptySlot)

include hs

theorem entry_cases (hsl : slot < slots.length) :
    (slots[slot]? = some emptyPredefinedSlot ∧ view (predefinedKey strs) slots slot = none) ∨
    ∃ index bytes, slots[slot]? = some (predefinedEntry (symbolHash bytes) index) ∧
      index < count ∧ index < emptySlot ∧ strs[index]? = some bytes ∧
      view (predefinedKey strs) slots slot = some bytes := by
  have hg := getElem?_eq_getElem hsl
  by_cases he : slots[slot] = emptyPredefinedSlot
  · rw [he] at hg
    exact .inl ⟨hg,by simp [view,hg,predefinedKey]⟩
  obtain ⟨index,bytes,hc,hb,heq⟩ := h.entries slot _ hg he
  have hin := (List.getElem_of_getElem? hb).1
  rw [heq] at hg
  exact .inr ⟨index,bytes,hg,hc,hin.trans hs,hb,by simp [view,hg,predefinedKey_entry _ _ (hin.trans hs),hb]⟩

theorem empty_of_next (hn : strs.Nodup) (hb : strs[count]? = some bytes) (hsl : slot < slots.length)
    (hst : view (predefinedKey strs) slots slot = none ∨ view (predefinedKey strs) slots slot = some bytes) :
    slots[slot]? = some emptyPredefinedSlot ∧ view (predefinedKey strs) slots slot = none := by
  rcases h.entry_cases hs hsl with he | ⟨index,other,_,hin,_,ho,hv⟩
  · exact he
  obtain rfl : other = bytes := by simpa [hv] using hst
  have h1 := List.getElem_of_getElem? ho
  have h2 := List.getElem_of_getElem? hb
  have hsa := (List.Nodup.getElem_inj_iff hn).mp (h1.2.trans h2.2.symm)
  omega

theorem fillVisit_passed (hsl : slot < slots.length) (ho : view (predefinedKey strs) slots slot = some other)
    (hne : other ≠ bytes) : fillVisit strs slots bytes slot = none := by
  rcases h.entry_cases hs hsl with ⟨_,hn⟩ | ⟨index,_,hg,_,hin,hb,hv⟩
  · simp [hn] at ho
  · cases hv.symm.trans ho
    simp [fillVisit,hg,predefinedEntry_ne_empty _ hin,occupant_predefinedEntry _ (lt_of_lt_emptySlot hin),hb,hne]

theorem set (hro : strs.length * 2 ≤ slots.length) (hb : strs[count]? = some bytes)
    (hp : Passed slots.length symbolHash (view (predefinedKey strs) slots) bytes d)
    (hg : slots[(symbolHash bytes + d) % slots.length]? = some emptyPredefinedSlot)
    (hem : view (predefinedKey strs) slots ((symbolHash bytes + d) % slots.length) = none) :
    Filled strs (slots.set ((symbolHash bytes + d) % slots.length) (predefinedEntry (symbolHash bytes) count))
    (count + 1) := by
  have hc := (List.getElem_of_getElem? hb).1
  have hr := h.table.ring_lt (symbolHash bytes + d)
  have hf := h.fill_le
  have hk : predefinedKey strs (predefinedEntry (symbolHash bytes) count) = some bytes := by
    rw [predefinedKey_entry _ _ (hc.trans hs),hb]
  refine ⟨h.table.insert hp hem hk (by omega),?_,?_,?_⟩
  · rw [fill_set hr hem (by simp [hk])]
    omega
  · intro i entry he hne
    rw [getElem?_set] at he
    split at he
    · rw [Option.some.injEq] at he
      subst he
      exact ⟨count,bytes,by omega,hb,rfl⟩
    · obtain ⟨index,other,hin,ho,rfl⟩ := h.entries i entry he hne
      exact ⟨index,other,by omega,ho,rfl⟩
  · intro index other hin ho
    rcases Nat.lt_succ_iff_lt_or_eq.mp hin with hlt | rfl
    · obtain ⟨i,hi,hol⟩ := h.complete index other hlt ho
      refine ⟨i,by simpa using hi,?_⟩
      rw [getElem?_set_ne ?_]
      · exact hol
      · rintro rfl
        rw [hg,Option.some.injEq] at hol
        exact predefinedEntry_ne_empty _ ((hlt.trans hc).trans hs) hol.symm
    · cases hb.symm.trans ho
      exact ⟨_,by simpa using hr,by simp [hr]⟩

theorem fillSlot (hr : strs.length * 2 ≤ slots.length) (hn : strs.Nodup) (hb : strs[count]? = some bytes) :
    ∃ slots', fillSlot strs slots count bytes = some slots' ∧ Filled strs slots' (count + 1) ∧
    slots'.length = slots.length := by
  obtain ⟨d,hp,hst,hw⟩ := h.table.walk_stop (k := bytes) passed_zero fun slot hsl other ho hne =>
    h.fillVisit_passed hs hsl ho hne
  obtain ⟨hg,he⟩ := h.empty_of_next hs hn hb (h.table.ring_lt _) hst
  have hv := hw (some ((symbolHash bytes + d) % slots.length)) (by simp [fillVisit,hg])
  refine ⟨_,?_,h.set hs hr hb hp hg he,length_set ..⟩
  simp only [Symbol.fillSlot,h.table.start,hv]
  rfl

theorem fillFrom (hr : strs.length * 2 ≤ slots.length) (hno : strs.Nodup) (hre : strs.drop count = rest) :
    ∃ slots', fillFrom strs count rest slots = some slots' ∧ Filled strs slots' (count + rest.length) := by
  induction rest generalizing count slots with
  | nil => exact ⟨slots,rfl,h⟩
  | cons bytes rest ih =>
    have hb : strs[count]? = some bytes := by
      have := congrArg head? hre
      simpa [head?_drop] using this
    have hn : strs.drop (count + 1) = rest := by rw [← tail_drop,hre,tail_cons]
    obtain ⟨slots',hsl,hfi,hl⟩ := h.fillSlot hs hr hno hb
    obtain ⟨slots'',hf,hd⟩ := ih hfi (hl ▸ hr) hn
    refine ⟨slots'',?_,?_⟩
    · simpa [Symbol.fillFrom,hsl] using hf
    · simpa [Nat.add_assoc,Nat.add_comm 1] using hd

end

end

end Filled

namespace PredefinedSymbols

variable {strs : List Bytes} {p : PredefinedSymbols} {bytes : Bytes}

structure Built (p : PredefinedSymbols) : Prop where
  filled : Filled p.strs p.slots p.strs.length
  short : p.strs.length < emptySlot
  nodup : p.strs.Nodup

theorem new_built (hn : strs.Nodup) (hs : strs.length < emptySlot) : ∃ p, new strs = some p ∧ p.strs = strs ∧
    p.Built := by
  have hle : strs.length * 2 ≤ predefinedSlotCount strs.length := by
    have hc := Nat.le_pow_clog (by omega : 1 < 2) (if strs.length * 2 < 16 then 16 else strs.length * 2)
    refine le_trans ?_ hc
    split <;> omega
  have hp : isPowerOfTwo (predefinedSlotCount strs.length) = true := by
    simp [isPowerOfTwo,predefinedSlotCount,nextPowerOfTwo,Nat.and_two_pow_sub_one_eq_mod]
  have hst : Filled strs (replicate (predefinedSlotCount strs.length) emptyPredefinedSlot) 0 := by
    refine ⟨table_replicate (by simp [predefinedKey]),?_,?_,fun _ _ h => absurd h (Nat.not_lt_zero _)⟩
    · simp [fill,countP_replicate,predefinedKey]
    · intro i entry he hne
      rw [getElem?_replicate] at he
      split at he <;> simp_all
  obtain ⟨slots,hf,hfi⟩ := hst.fillFrom hs (by simpa using hle) hn rfl
  refine ⟨⟨strs,slots⟩,?_,rfl,by simpa using hfi,hs,hn⟩
  simp only [drop_zero] at hf
  simp [new,fillPredefinedSlots,hs,hp,hle,hf]

theorem Built.visit_passed (h : p.Built) (hs : slot < p.slots.length)
    (ho : view (predefinedKey p.strs) p.slots slot = some other) (hne : other ≠ bytes) :
    p.visit bytes (symbolHash bytes) slot = none := by
  rcases h.filled.entry_cases h.short hs with ⟨_,hn⟩ | ⟨index,_,hg,_,hin,hb,hv⟩
  · simp [hn] at ho
  · cases hv.symm.trans ho
    simp [visit,hg,predefinedEntry_ne_empty _ hin,occupant_predefinedEntry _ (lt_of_lt_emptySlot hin),hb,hne]

theorem Built.find_eq (h : p.Built) (bytes : Bytes) :
    (∃ index, p.find bytes (symbolHash bytes) = some (some index) ∧ p.strs[index]? = some bytes) ∨
      p.find bytes (symbolHash bytes) = some none ∧ bytes ∉ p.strs := by
  obtain ⟨d,hp,hs,hw⟩ := h.filled.table.walk_stop (k := bytes) passed_zero fun slot hsl other ho hne =>
    h.visit_passed hsl ho hne
  have hr := h.filled.table.ring_lt (symbolHash bytes + d)
  rcases h.filled.entry_cases h.short hr with
    ⟨hg,he⟩ | ⟨index,other,hg,_,hin,ho,hv⟩
  · have hv := hw (some none) (by simp [visit,hg])
    refine .inr ⟨by rw [find,h.filled.table.start,hv]; rfl,fun hm => ?_⟩
    obtain ⟨index,hlt',hin⟩ := getElem_of_mem hm
    obtain ⟨i,hi,hen⟩ := h.filled.complete index bytes hlt' (List.getElem?_eq_some_iff.mpr ⟨hlt',hin⟩)
    refine h.filled.table.linked.absent hp he i hi ?_
    simp [view,hen,predefinedKey_entry _ _ (hlt'.trans h.short),hin,hlt']
  · obtain rfl : other = bytes := by simpa [hv] using hs
    have ht := tag_predefinedEntry (symbolHash other) (lt_of_lt_emptySlot hin)
    have hoc := occupant_predefinedEntry (symbolHash other) (lt_of_lt_emptySlot hin)
    have hv := hw (some (some index)) (by simp [visit,hg,predefinedEntry_ne_empty _ hin,ht,hoc,ho])
    exact .inl ⟨index,by rw [find,h.filled.table.start,hv]; rfl,ho⟩

end PredefinedSymbols

end Frontend.Symbol
