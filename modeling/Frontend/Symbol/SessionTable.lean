import Frontend.Symbol.Session

namespace Frontend.Symbol

open Library.Probing List Session

theorem slotEntry_eq (hash : Nat) (h : index + 1 < 2 ^ 32) :
    slotEntry hash index = slotTag hash * 2 ^ 32 + (index + 1) := by
  rw [slotEntry,← Nat.shiftLeft_add_eq_or_of_lt h,Nat.shiftLeft_eq]

section

variable (strs : SymbolStrs)

def sessionKey (entry : Nat) : Option Bytes :=
  if entry = 0 then none else strs.get (slotLocal entry)

def EntryOf (entry index : Nat) (bytes : Bytes) : Prop :=
  strs.get index = some bytes ∧ index + 1 < 2 ^ 32 ∧ entry = slotEntry (symbolHash bytes) index

structure TableOk (strs : SymbolStrs) (slots : List Nat) : Prop where
  table : Table symbolHash (sessionKey strs) slots
  entries : ∀ entry ∈ slots, entry ≠ 0 → ∃ index bytes, EntryOf strs entry index bytes

section

variable (slots : List Nat) (bytes : Bytes)

def Reached (d : Nat) : Prop :=
  Passed slots.length symbolHash (view (sessionKey strs) slots) bytes d

def Holds : Prop := ∃ i < slots.length, view (sessionKey strs) slots i = some bytes

def Probes (r : Option Probed) : Prop :=
  (∃ index, r = some (.found index) ∧ strs.get index = some bytes) ∨
  ∃ d, r = some (.miss ((symbolHash bytes + d) % slots.length)) ∧ Reached strs slots bytes d ∧
    view (sessionKey strs) slots ((symbolHash bytes + d) % slots.length) = none

end

def Grown (strs' : SymbolStrs) : Prop := ∀ index bytes, strs.get index = some bytes → strs'.get index = some bytes

end

section

variable {strs strs' : SymbolStrs} {slots : List Nat} {bytes other : Bytes} {entry index slot d : Nat}

section

variable (h : EntryOf strs entry index bytes)

include h

theorem EntryOf.ne_zero : entry ≠ 0 := by
  rw [h.2.2,slotEntry_eq _ h.2.1]
  omega

theorem EntryOf.slotLocal : slotLocal entry = index := by
  have hl := h.2.1
  rw [Symbol.slotLocal,h.2.2,slotEntry_eq _ hl]
  omega

theorem EntryOf.tag : entry >>> 32 = slotTag (symbolHash bytes) := by
  have hl := h.2.1
  rw [h.2.2,slotEntry_eq _ hl,Nat.shiftRight_eq_div_pow]
  omega

theorem EntryOf.key : sessionKey strs entry = some bytes := by rw [sessionKey,if_neg h.ne_zero,h.slotLocal,h.1]

theorem EntryOf.mono (hs : Grown strs strs') : EntryOf strs' entry index bytes := ⟨hs _ _ h.1,h.2.1,h.2.2⟩

end

section

variable (h : TableOk strs slots)

include h

theorem TableOk.slot_cases (hs : slot < slots.length) :
    (slots[slot]? = some 0 ∧ view (sessionKey strs) slots slot = none) ∨
    ∃ entry index bytes, slots[slot]? = some entry ∧ EntryOf strs entry index bytes ∧
    view (sessionKey strs) slots slot = some bytes := by
  have hg := getElem?_eq_getElem hs
  by_cases hz : slots[slot] = 0
  · rw [hz] at hg
    exact .inl ⟨hg,by simp [view,hg,sessionKey]⟩
  · obtain ⟨index,bytes,he⟩ := h.entries _ (getElem_mem hs) hz
    exact .inr ⟨_,index,bytes,hg,he,by simp [view,hg,he.key]⟩

theorem TableOk.sessionKey_eq (hs : Grown strs strs') (he : entry ∈ slots) :
    sessionKey strs' entry = sessionKey strs entry := by
  by_cases hz : entry = 0
  · simp [sessionKey,hz]
  · obtain ⟨index,bytes,hof⟩ := h.entries entry he hz
    rw [hof.key,(hof.mono hs).key]

theorem TableOk.view_eq (hs : Grown strs strs') : view (sessionKey strs') slots = view (sessionKey strs) slots := by
  funext i
  simp only [view]
  cases hg : slots[i]? with
  | none => rfl
  | some entry => exact h.sessionKey_eq hs (mem_of_getElem? hg)

theorem TableOk.fill_eq (hs : Grown strs strs') : fill (sessionKey strs') slots = fill (sessionKey strs) slots := by
  simp only [fill]
  refine countP_congr fun entry he => ?_
  rw [h.sessionKey_eq hs he]

theorem TableOk.mono (hs : Grown strs strs') : TableOk strs' slots := by
  refine ⟨⟨h.table.size,?_,?_⟩,?_⟩
  · rw [h.view_eq hs]
    exact h.table.linked
  · rw [h.fill_eq hs]
    exact h.table.half
  · intro entry he hne
    obtain ⟨index,bytes,hof⟩ := h.entries entry he hne
    exact ⟨index,bytes,hof.mono hs⟩

theorem TableOk.ring_lt (x : Nat) : x % slots.length < slots.length := h.table.ring_lt x

theorem probeVisit_passed (hs : slot < slots.length) (ho : view (sessionKey strs) slots slot = some other)
    (hne : other ≠ bytes) :
    probeVisit strs slots bytes (symbolHash bytes) slot = none := by
  rcases h.slot_cases hs with ⟨_,hn⟩ | ⟨entry,index,_,hg,hof,hv⟩
  · simp [hn] at ho
  · cases hv.symm.trans ho
    simp [probeVisit,hg,hof.ne_zero,hof.slotLocal,hof.1,hne]

theorem probeVisit_found (hs : slot < slots.length) (hf : view (sessionKey strs) slots slot = some bytes) :
    ∃ index, probeVisit strs slots bytes (symbolHash bytes) slot = some (some (.found index)) ∧
    strs.get index = some bytes := by
  rcases h.slot_cases hs with ⟨_,hn⟩ | ⟨entry,index,_,hg,hof,hv⟩
  · simp [hn] at hf
  · cases hv.symm.trans hf
    exact ⟨index,by simp [probeVisit,hg,hof.ne_zero,hof.slotLocal,hof.tag,hof.1],hof.1⟩

theorem probeVisit_empty (hs : slot < slots.length) (he : view (sessionKey strs) slots slot = none) (bytes : Bytes) :
    probeVisit strs slots bytes (symbolHash bytes) slot = some (some (.miss slot)) := by
  rcases h.slot_cases hs with ⟨hg,_⟩ | ⟨_,_,_,_,_,hv⟩
  · simp [probeVisit,hg]
  · simp [he] at hv

theorem probe_spec (hd : Reached strs slots bytes d) :
    Probes strs slots bytes (probe strs slots bytes (symbolHash bytes) ((symbolHash bytes + d) % slots.length)) := by
  obtain ⟨d',hp,hs,hw⟩ := h.table.walk_stop hd fun slot hs other ho hne => probeVisit_passed h hs ho hne
  rcases hs with he | hf
  · have hv := hw _ (probeVisit_empty h (h.ring_lt _) he bytes)
    exact .inr ⟨d',by simp [probe,hv],hp,he⟩
  · obtain ⟨index,hv,hg⟩ := probeVisit_found h (h.ring_lt _) hf
    exact .inl ⟨index,by simp [probe,hw _ hv],hg⟩

theorem probe_home (bytes : Bytes) :
    Probes strs slots bytes (probe strs slots bytes (symbolHash bytes) (symbolHash bytes &&& (slots.length - 1))) := by
  rw [h.table.start]
  exact probe_spec h passed_zero

theorem TableOk.absent (hd : Reached strs slots bytes d)
    (he : view (sessionKey strs) slots ((symbolHash bytes + d) % slots.length) = none) :
    ¬ Holds strs slots bytes := by
  rintro ⟨i,hi,hv⟩
  exact h.table.linked.absent hd he i hi hv

theorem TableOk.set (hof : EntryOf strs entry index bytes) (hd : Reached strs slots bytes d)
    (he : view (sessionKey strs) slots ((symbolHash bytes + d) % slots.length) = none)
    (hr : 2 * (fill (sessionKey strs) slots + 1) ≤ slots.length) :
    TableOk strs (slots.set ((symbolHash bytes + d) % slots.length) entry) := by
  refine ⟨h.table.insert hd he hof.key hr,?_⟩
  intro x hx hne
  rcases mem_or_eq_of_mem_set hx with ho | rfl
  · exact h.entries x ho hne
  · exact ⟨index,bytes,hof⟩

end

theorem holds_set (hs : slot < slots.length) (he : view (sessionKey strs) slots slot = none)
    (hk : sessionKey strs entry = some bytes) :
    Holds strs (slots.set slot entry) other ↔ Holds strs slots other ∨ other = bytes := by
  simp only [Holds,length_set,view_set hs]
  constructor
  · rintro ⟨i,hi,hv⟩
    split at hv
    · exact .inr (by simpa [hk] using hv.symm)
    · exact .inl ⟨i,hi,hv⟩
  · rintro (⟨i,hi,hv⟩ | rfl)
    · refine ⟨i,hi,?_⟩
      rw [if_neg ?_,hv]
      rintro rfl
      simp [he] at hv
    · exact ⟨slot,hs,by simp [hk]⟩

end

section

variable {strs : SymbolStrs} {fresh : List Nat} {entry index : Nat} {bytes : Bytes}

theorem emptyVisit_full (h : TableOk strs fresh) (hs : slot < fresh.length)
    (ho : view (sessionKey strs) fresh slot = some other) :
    emptyVisit fresh slot = none := by
  rcases h.slot_cases hs with ⟨_,hn⟩ | ⟨entry,_,_,hg,hof,_⟩
  · simp [hn] at ho
  · simp [emptyVisit,hg,hof.ne_zero]

theorem rehash_spec (h : TableOk strs fresh) (hof : EntryOf strs entry index bytes) (ha : ¬ Holds strs fresh bytes)
    (hro : 2 * (fill (sessionKey strs) fresh + 1) ≤ fresh.length) :
    ∃ fresh', rehash strs fresh entry = some fresh' ∧ TableOk strs fresh' ∧ fresh'.length = fresh.length ∧
      fill (sessionKey strs) fresh' = fill (sessionKey strs) fresh + 1 ∧
      ∀ x, Holds strs fresh' x ↔ Holds strs fresh x ∨ x = bytes := by
  obtain ⟨d,hp,hs,hw⟩ := h.table.walk_stop (k := bytes) passed_zero fun slot hs other ho _ => emptyVisit_full h hs ho
  have hr := h.ring_lt (symbolHash bytes + d)
  have he := hs.resolve_right fun hf => ha ⟨_,hr,hf⟩
  have hvi : emptyVisit fresh ((symbolHash bytes + d) % fresh.length) =
      some (some ((symbolHash bytes + d) % fresh.length)) := by
    rcases h.slot_cases hr with ⟨hg,_⟩ | ⟨_,_,_,_,_,hv⟩
    · simp [emptyVisit,hg]
    · simp [he] at hv
  refine ⟨_,?_,h.set hof hp he hro,length_set ..,?_,?_⟩
  · simp only [rehash,if_neg hof.ne_zero,hof.slotLocal,hof.1,Option.bind_eq_bind,Option.bind_some,h.table.start,hw _ hvi]
    rfl
  · exact fill_set hr he (by simp [hof.key])
  · exact fun x => holds_set hr he hof.key

theorem rehashAll_spec (h : TableOk strs fresh) (he : ∀ entry ∈ rest, entry ≠ 0 → ∃ index bytes,
    EntryOf strs entry index bytes)
    (hd : rest.Pairwise fun a b => ∀ x, sessionKey strs a = some x → sessionKey strs b ≠ some x)
    (ha : ∀ entry ∈ rest, ∀ x, sessionKey strs entry = some x → ¬ Holds strs fresh x)
    (hro : 2 * (fill (sessionKey strs) fresh + fill (sessionKey strs) rest) ≤ fresh.length) :
    ∃ fresh', rest.foldlM (rehash strs) fresh = some fresh' ∧ TableOk strs fresh' ∧ fresh'.length = fresh.length ∧
      fill (sessionKey strs) fresh' = fill (sessionKey strs) fresh + fill (sessionKey strs) rest ∧
      ∀ x, Holds strs fresh' x ↔ Holds strs fresh x ∨ ∃ entry ∈ rest, sessionKey strs entry = some x := by
  induction rest generalizing fresh with
  | nil => exact ⟨fresh,rfl,h,rfl,by simp [fill],by simp⟩
  | cons entry rest ih =>
    obtain ⟨hhe,ht⟩ := pairwise_cons.mp hd
    have hr x (hx : x ∈ rest) : x ≠ 0 → ∃ index bytes, EntryOf strs x index bytes := he x (.tail _ hx)
    by_cases hz : entry = 0
    · have hk : sessionKey strs entry = none := by simp [sessionKey,hz]
      have hf : fill (sessionKey strs) (entry :: rest) = fill (sessionKey strs) rest := by simp [fill,hk]
      obtain ⟨fresh',hru,hok,hl,hc,hh⟩ := ih h hr ht (fun x hx => ha x (.tail _ hx)) (hf ▸ hro)
      refine ⟨fresh',?_,hok,hl,hf ▸ hc,fun x => ?_⟩
      · simpa [rehash,hz] using hru
      · rw [hh]
        simp [hk]
    · obtain ⟨index,bytes,hof⟩ := he entry (.head _) hz
      have hf : fill (sessionKey strs) (entry :: rest) = fill (sessionKey strs) rest + 1 := by simp [fill,hof.key]
      obtain ⟨fresh1,hs,hok1,hlen1,hco1,hho1⟩ := rehash_spec h hof (ha entry (.head _) bytes hof.key) (by omega)
      have hab1 : ∀ x ∈ rest, ∀ key, sessionKey strs x = some key → ¬ Holds strs fresh1 key := by
        intro x hx key hk hhl
        rcases (hho1 key).mp hhl with ho | rfl
        · exact ha x (.tail _ hx) key hk ho
        · exact hhe x hx key hof.key hk
      obtain ⟨fresh',hru,hok,hl,hc,hh⟩ := ih hok1 hr ht hab1 (by omega)
      refine ⟨fresh',?_,hok,hl.trans hlen1,by omega,fun x => ?_⟩
      · simp [hs,hru]
      · rw [hh,hho1]
        simp only [exists_mem_cons_iff,hof.key,Option.some.injEq,or_assoc,eq_comm]

end

end Frontend.Symbol
