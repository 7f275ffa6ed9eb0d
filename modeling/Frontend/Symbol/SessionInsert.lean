import Frontend.Symbol.SessionTable

namespace Frontend.Symbol

open Library.Probing List Option

namespace Session

variable {p : PredefinedSymbols} {m m' : Session} {bytes : Bytes} {table slot n : Nat}

section

variable (m : Session)

def Absent (bytes : Bytes) : Prop := ∀ index, m.strs.get index ≠ some bytes

structure Stores (strs : SymbolStrs) (n : Nat) (slots : List Nat) : Prop where
  fill_le : fill (sessionKey strs) slots ≤ n
  half : 2 * n ≤ slots.length
  held : ∀ index < n, ∀ bytes, strs.get index = some bytes → Holds strs slots bytes

structure Ok (p : PredefinedSymbols) (m : Session) (n : Nat) : Prop where
  tables : ∀ (table : Nat) slots, m.tables[table]? = some slots → TableOk m.strs slots
  inj : ∀ i j bytes, m.strs.get i = some bytes → m.strs.get j = some bytes → i = j
  apart : ∀ i bytes, m.strs.get i = some bytes → bytes ∉ p.strs
  bounded : n ≤ m.strs.len
  stored : ∃ slots, m.currentSlots = some slots ∧ Stores m.strs n slots

structure FreeSlot (m : Session) (bytes : Bytes) (table slot : Nat) (slots : List Nat) (d : Nat) : Prop where
  current : m.current = some table
  at_table : m.tables[table]? = some slots
  slot_eq : slot = (symbolHash bytes + d) % slots.length
  reached : Reached m.strs slots bytes d
  empty : view (sessionKey m.strs) slots slot = none

def Ready (n : Nat) (bytes : Bytes) (table slot : Nat) : Prop :=
  ∃ slots d, FreeSlot m bytes table slot slots d ∧ 2 * (n + 1) ≤ slots.length

def MissOk (bytes : Bytes) (miss : SymbolMiss) : Prop :=
  ∀ table, miss.table = some table → ∃ slots d, m.tables[table]? = some slots ∧
    miss.slot = (symbolHash bytes + d) % slots.length ∧ Reached m.strs slots bytes d

def SlotOk (bytes : Bytes) (slot : Option Nat) : Prop :=
  match slot with
  | none => m.current = none
  | some slot => ∃ table slots d, FreeSlot m bytes table slot slots d

end

structure Extends (m m' : Session) : Prop where
  strs : Grown m.strs m'.strs
  tables : ∀ (table : Nat) slots, m.tables[table]? = some slots →
    ∃ slots', m'.tables[table]? = some slots' ∧ slots'.length = slots.length ∧
      ∀ i x, view (sessionKey m.strs) slots i = some x → view (sessionKey m'.strs) slots' i = some x

theorem Extends.refl (m : Session) : Extends m m := ⟨fun _ _ h => h,fun _ slots h => ⟨slots,h,rfl,fun _ _ h => h⟩⟩

variable {slots old : List Nat} {miss : SymbolMiss} {strs : SymbolStrs}

theorem Extends.reached (h : Extends m m') (hs : m.tables[table]? = some slots) (hd : Reached m.strs slots bytes d) :
    ∃ slots', m'.tables[table]? = some slots' ∧ slots'.length = slots.length ∧ Reached m'.strs slots' bytes d := by
  obtain ⟨slots',hs',hl,hv⟩ := h.tables table slots hs
  refine ⟨slots',hs',hl,?_⟩
  rw [Reached,hl]
  exact Passed.mono hd hv

theorem MissOk.mono (h : MissOk m bytes miss) (he : Extends m m') : MissOk m' bytes miss := by
  intro table ht
  obtain ⟨slots,d,hsl,hs,hd⟩ := h table ht
  obtain ⟨slots',hs',hl,hd'⟩ := he.reached hsl hd
  exact ⟨slots',d,hs',hl ▸ hs,hd'⟩

theorem currentSlots_of_current (hc : m.current = some table) (hs : m.tables[table]? = some slots) :
    m.currentSlots = some slots := by
  rw [currentSlots,hc]
  exact hs

theorem Ok.absent_of_free (h : Ok p m m.strs.len) (hf : FreeSlot m bytes table slot slots d) : m.Absent bytes := by
  intro index hin
  obtain ⟨slots',hs',hs⟩ := h.stored
  obtain rfl : slots = slots' := by
    rw [currentSlots_of_current hf.current hf.at_table,some.injEq] at hs'
    exact hs'
  have he := hf.empty
  rw [hf.slot_eq] at he
  exact (h.tables _ _ hf.at_table).absent hf.reached he (hs.held index (SymbolStrs.lt_of_get hin) bytes hin)

theorem Ok.absent_of_null (h : Ok p m m.strs.len) (hc : m.current = none) : m.strs.len = 0 ∧ m.Absent bytes := by
  obtain ⟨slots,hs,hst⟩ := h.stored
  obtain rfl : slots = [] := by simpa [currentSlots,hc] using hs.symm
  have hl : m.strs.len = 0 := by simpa using hst.half
  refine ⟨hl,fun index hin => ?_⟩
  have := SymbolStrs.lt_of_get hin
  omega

theorem Ok.absent (h : Ok p m m.strs.len) {slot : Option Nat} (hs : SlotOk m bytes slot) : m.Absent bytes := by
  cases slot with
  | none => exact (h.absent_of_null hs).2
  | some slot =>
    obtain ⟨table,slots,d,hf⟩ := hs
    exact h.absent_of_free hf

theorem Ok.at_current (h : Ok p m n) (hc : m.current = some table) : ∃ slots, m.tables[table]? = some slots ∧
    TableOk m.strs slots := by
  obtain ⟨slots,hs,_⟩ := h.stored
  rw [currentSlots,hc] at hs
  exact ⟨slots,hs,h.tables table slots hs⟩

theorem search_spec (h : Ok p m n) (hm : MissOk m bytes miss) :
    (∃ index, m.search bytes (symbolHash bytes) miss = some (.ok index) ∧ m.strs.get index = some bytes) ∨
    ∃ slot, m.search bytes (symbolHash bytes) miss = some (.error slot) ∧ SlotOk m bytes slot := by
  cases hc : m.current with
  | none => exact .inr ⟨none,by simp [search,hc],hc⟩
  | some table =>
    obtain ⟨slots,hs,ht⟩ := h.at_current hc
    obtain ⟨d,hst,hd⟩ : ∃ d, (if miss.table = some table then miss.slot else symbolHash bytes &&& (slots.length - 1)) =
          (symbolHash bytes + d) % slots.length ∧ Reached m.strs slots bytes d := by
      split
      · obtain ⟨slots',d,hs',hsl,hd⟩ := hm table (by assumption)
        cases hs.symm.trans hs'
        exact ⟨d,hsl,hd⟩
      · exact ⟨0,ht.table.start _,passed_zero⟩
    rcases probe_spec ht hd with ⟨index,hp,hg⟩ | ⟨d',hp,hd',he⟩
    · exact .inl ⟨index,by simp [search,hc,hs,hst,hp],hg⟩
    · refine .inr ⟨some _,by simp [search,hc,hs,hst,hp]; rfl,?_⟩
      exact ⟨table,slots,d',hc,hs,rfl,hd',he⟩

theorem find_spec (h : Ok p m n) (bytes : Bytes) :
    (∃ index, m.find bytes (symbolHash bytes) = some (.ok index) ∧ m.strs.get index = some bytes) ∨
    ∃ miss slot, m.find bytes (symbolHash bytes) = some (.error miss) ∧ MissOk m bytes miss ∧ SlotOk m bytes slot := by
  cases hc : m.current with
  | none => exact .inr ⟨⟨none,0⟩,none,by simp [find,hc],fun _ h => by simp at h,hc⟩
  | some table =>
    obtain ⟨slots,hs,ht⟩ := h.at_current hc
    rcases probe_home ht bytes with ⟨index,hp,hg⟩ | ⟨d',hp,hd',he⟩
    · exact .inl ⟨index,by simp [find,hc,hs,hp],hg⟩
    refine .inr ⟨⟨some table,(symbolHash bytes + d') % slots.length⟩,some _,by simp [find,hc,hs,hp],
      ?_, table,slots,d',hc,hs,rfl,hd',he⟩
    intro table' ht'
    obtain rfl : table = table' := by simpa using ht'
    exact ⟨slots,d',hs,rfl,hd'⟩

theorem keys_distinct (h : TableOk strs slots) :
    slots.Pairwise fun a b => ∀ x, sessionKey strs a = some x → sessionKey strs b ≠ some x := by
  rw [pairwise_iff_getElem]
  intro i j hi hj hij x hx hy
  have hs := h.table.linked.unique i hi j hj x (by simpa [view,getElem?_eq_getElem hi] using hx)
    (by simpa [view,getElem?_eq_getElem hj] using hy)
  omega

theorem holds_iff : Holds strs slots x ↔ ∃ entry ∈ slots, sessionKey strs entry = some x := by
  constructor
  · rintro ⟨i,hi,hv⟩
    rw [view,getElem?_eq_getElem hi,bind_some] at hv
    exact ⟨_,getElem_mem hi,hv⟩
  · rintro ⟨entry,he,hk⟩
    obtain ⟨i,hi,rfl⟩ := getElem_of_mem he
    exact ⟨i,hi,by rw [view,getElem?_eq_getElem hi,bind_some,hk]⟩

theorem currentSlots_cases (h : Ok p m n) (ho : m.currentSlots = some old) : old = [] ∨ TableOk m.strs old := by
  cases hc : m.current with
  | none => exact .inl (by simpa [currentSlots,hc] using ho.symm)
  | some table =>
    rw [currentSlots,hc] at ho
    exact .inr (h.tables table old ho)

theorem grow_spec (h : Ok p m n) (ho : m.currentSlots = some old) : ∃ fresh, m.grow = some (m.tables.length,
        { m with tables := m.tables ++ [fresh], current := some m.tables.length }) ∧
      TableOk m.strs fresh ∧
      fresh.length = (if old.length = 0 then symbolIndicesFirstSlots else old.length * 2) ∧
      fill (sessionKey m.strs) fresh = fill (sessionKey m.strs) old ∧
      ∀ x, Holds m.strs fresh x ↔ Holds m.strs old x := by
  obtain ⟨k,hk⟩ : ∃ k, (if old.length = 0 then symbolIndicesFirstSlots else old.length * 2) = 2 ^ k := by
    rcases currentSlots_cases h ho with rfl | ht
    · exact ⟨12,rfl⟩
    · obtain ⟨k,hk⟩ := ht.table.size
      have hp := ht.table.pos
      exact ⟨k + 1,by rw [if_neg (by omega),hk,Nat.pow_succ]⟩
  have hz : sessionKey m.strs 0 = none := by simp [sessionKey]
  have hfr : TableOk m.strs (replicate (2 ^ k) 0) :=
    ⟨table_replicate hz,fun entry he hne => absurd (eq_of_mem_replicate he) hne⟩
  have hn : ∀ x, ¬ Holds m.strs (replicate (2 ^ k) 0) x := by
    intro x hx
    obtain ⟨entry,he,hke⟩ := holds_iff.mp hx
    rw [eq_of_mem_replicate he,hz] at hke
    cases hke
  have hf : fill (sessionKey m.strs) (replicate (2 ^ k) 0) = 0 := by simp [fill,countP_replicate,hz]
  obtain ⟨hen,hd,hha⟩ : (∀ entry ∈ old, entry ≠ 0 → ∃ index bytes, EntryOf m.strs entry index bytes) ∧
      (old.Pairwise fun a b => ∀ x, sessionKey m.strs a = some x → sessionKey m.strs b ≠ some x) ∧
      2 * fill (sessionKey m.strs) old ≤ old.length := by
    rcases currentSlots_cases h ho with rfl | ht
    · simp [fill]
    · exact ⟨ht.entries,keys_distinct ht,ht.table.half⟩
  have hr : 2 * (fill (sessionKey m.strs) (replicate (2 ^ k) 0) + fill (sessionKey m.strs) old) ≤
      (replicate (2 ^ k) 0).length := by
    rw [hf,length_replicate,← hk]
    split <;> omega
  obtain ⟨fresh,hru,hok,hl,hc,hh⟩ := rehashAll_spec hfr hen hd (fun _ _ x _ => hn x) hr
  refine ⟨fresh,?_,hok,?_,by omega,fun x => ?_⟩
  · simp only [grow,ho,bind_eq_bind,bind_some,hk,hru]
    rfl
  · rw [hl,length_replicate,hk]
  · rw [hh,← holds_iff,or_iff_right (hn x)]

theorem Stores.double (hs : Stores strs n old) :
    2 * (n + 1) ≤ (if old.length = 0 then symbolIndicesFirstSlots else old.length * 2) := by
  have hh := hs.half
  split
  · simp only [symbolIndicesFirstSlots]
    omega
  · omega

theorem Ok.append (h : Ok p m n) (hf : TableOk m.strs fresh) (hst : Stores m.strs n fresh) :
    Ok p { m with tables := m.tables ++ [fresh], current := some m.tables.length } n := by
  refine ⟨?_,h.inj,h.apart,h.bounded,fresh,by simp [currentSlots],hst⟩
  intro table slots hs
  rcases Nat.lt_trichotomy table m.tables.length with hlt | rfl | hlt
  · exact h.tables table slots (by simpa [getElem?_append_left hlt] using hs)
  · obtain rfl : fresh = slots := by simpa using hs
    exact hf
  · have hn : (m.tables ++ [fresh])[table]? = none := by simp; omega
    simp [hn] at hs

theorem makeRoom_spec (h : Ok p m m.strs.len) {slot : Option Nat} (hs : SlotOk m bytes slot) :
    ∃ m' table slot', m.makeRoom bytes (symbolHash bytes) slot = some (m',table,slot') ∧
      m'.strs = m.strs ∧ Extends m m' ∧ Ok p m' m.strs.len ∧ Ready m' m.strs.len bytes table slot' := by
  have ha := h.absent hs
  obtain ⟨old,ho,hst⟩ := h.stored
  by_cases hg : (m.strs.len + 1) * 2 > old.length
  · obtain ⟨fresh,hru,hfr,hl,hfi,hh⟩ := grow_spec h ho
    have hr := hst.double
    rw [← hl] at hr
    have hs' : Stores m.strs m.strs.len fresh := by
      refine ⟨hfi ▸ hst.fill_le,by omega,fun index hin x hx => ?_⟩
      exact (hh x).mpr (hst.held index hin x hx)
    rcases probe_home hfr bytes with ⟨index,_,hge⟩ | ⟨d,hp,hd,he⟩
    · exact absurd hge (ha index)
    refine ⟨{ m with tables := m.tables ++ [fresh], current := some m.tables.length },
      m.tables.length,(symbolHash bytes + d) % fresh.length,?_,rfl,
      ⟨fun _ _ h => h,fun _ slots hs => ⟨slots,by simpa [getElem?_append_left (List.getElem_of_getElem? hs).1]
        using hs,rfl,fun _ _ h => h⟩⟩,h.append hfr hs',fresh,d,
      ⟨rfl,by simp,rfl,hd,he⟩,hr⟩
    simp only [makeRoom,ho,bind_eq_bind,bind_some,if_pos hg,hru,getElem?_concat_length,hp]
    rfl
  · cases slot with
    | none =>
      have hc : m.current = none := hs
      obtain rfl : old = [] := by simpa [currentSlots,hc] using ho.symm
      simp at hg
    | some slot =>
      obtain ⟨table,slots,d,hf⟩ := hs
      obtain rfl : slots = old := by simpa [currentSlots_of_current hf.current hf.at_table] using ho
      refine ⟨m,table,slot,?_,rfl,.refl m,h,slots,d,hf,by omega⟩
      simp only [makeRoom,ho,bind_eq_bind,bind_some,if_neg hg,hf.current]
      rfl

theorem pushStr_spec (h : Ok p m m.strs.len) (ha : m.Absent bytes) (hp : bytes ∉ p.strs)
    (hre : Ready m m.strs.len bytes table slot) (hl : m.strs.len < 2 ^ 32) :
    ∃ m', m.pushStr bytes = some (m.strs.len,m') ∧ m'.strs.len = m.strs.len + 1 ∧
      m'.strs.get m.strs.len = some bytes ∧ Extends m m' ∧ Ok p m' m.strs.len ∧
      Ready m' m.strs.len bytes table slot := by
  obtain ⟨strs',hpu,hl',hge⟩ := SymbolStrs.push_eq hl bytes
  have hg : Grown m.strs strs' := by
    intro index x hx
    rw [hge,if_neg (SymbolStrs.lt_of_get hx).ne]
    exact hx
  have hc i x (hx : strs'.get i = some x) : (i = m.strs.len ∧ x = bytes) ∨ m.strs.get i = some x := by
    rw [hge] at hx
    split at hx
    · exact .inl ⟨by assumption,by simpa using hx.symm⟩
    · exact .inr hx
  refine ⟨{ m with strs := strs' },by simp [pushStr,hpu],hl',by simp [hge],?_,?_,?_⟩
  · refine ⟨hg,fun table slots hs => ⟨slots,hs,rfl,fun i x hx => ?_⟩⟩
    rw [(h.tables table slots hs).view_eq hg]
    exact hx
  · obtain ⟨slots,hs,hst⟩ := h.stored
    refine ⟨fun table slots hs => (h.tables table slots hs).mono hg,?_,?_,?_,slots,hs,?_⟩
    · intro i j x hi hj
      rcases hc i x hi with ⟨rfl,rfl⟩ | hi <;> rcases hc j x hj with ⟨rfl,hx⟩ | hj
      · rfl
      · exact absurd hj (ha j)
      · exact absurd (hx ▸ hi) (ha i)
      · exact h.inj i j x hi hj
    · intro i x hi
      rcases hc i x hi with ⟨_,rfl⟩ | hi
      · exact hp
      · exact h.apart i x hi
    · show m.strs.len ≤ strs'.len
      omega
    · rcases currentSlots_cases h hs with rfl | ht
      · refine ⟨by simp [fill],hst.half,fun index hin => ?_⟩
        have := hst.half
        simp only [length_nil] at this
        omega
      · refine ⟨(ht.fill_eq hg) ▸ hst.fill_le,hst.half,fun index hin x hx => ?_⟩
        rcases hc index x hx with ⟨rfl,_⟩ | hx
        · exact absurd hin (lt_irrefl _)
        · obtain ⟨i,hi,hv⟩ := hst.held index hin x hx
          exact ⟨i,hi,(ht.view_eq hg) ▸ hv⟩
  · obtain ⟨slots,d,hf,hr⟩ := hre
    have ht := h.tables table slots hf.at_table
    refine ⟨slots,d,⟨hf.current,hf.at_table,hf.slot_eq,?_,?_⟩,hr⟩
    · rw [Reached,ht.view_eq hg]
      exact hf.reached
    · rw [ht.view_eq hg]
      exact hf.empty

theorem storeSlot_spec (h : Ok p m n) (hl : m.strs.len = n + 1) (hg : m.strs.get n = some bytes)
    (hre : Ready m n bytes table slot) (hn : n + 1 < 2 ^ 32) :
    ∃ m', m.storeSlot table slot (symbolHash bytes) n = some m' ∧ m'.strs = m.strs ∧ Extends m m' ∧ Ok p m' (n + 1) := by
  obtain ⟨slots,d,hf,hro⟩ := hre
  have ht := h.tables table slots hf.at_table
  have hlt := (List.getElem_of_getElem? hf.at_table).1
  have hof : EntryOf m.strs (slotEntry (symbolHash bytes) n) n bytes := ⟨hg,hn,rfl⟩
  obtain ⟨slots',hs',hst⟩ := h.stored
  obtain rfl : slots = slots' := by simpa [currentSlots_of_current hf.current hf.at_table] using hs'
  have he := hf.empty
  rw [hf.slot_eq] at he
  have hr := ht.ring_lt (symbolHash bytes + d)
  have hfi := hst.fill_le
  have hse := ht.set hof hf.reached he (by omega)
  rw [← hf.slot_eq] at hse he hr
  refine ⟨{ m with tables := m.tables.set table (slots.set slot (slotEntry (symbolHash bytes) n)) },
    by rw [storeSlot,if_pos hn,hf.at_table]; rfl,rfl,?_,?_,h.inj,h.apart,hl.ge,
    slots.set slot (slotEntry (symbolHash bytes) n),?_,?_⟩
  · refine ⟨fun _ _ h => h,fun other oslots ho => ?_⟩
    by_cases hs : table = other
    · subst hs
      cases hf.at_table.symm.trans ho
      refine ⟨slots.set slot (slotEntry (symbolHash bytes) n),by simp [hlt],length_set ..,fun i x hx => ?_⟩
      rw [view_set hr,if_neg]
      · exact hx
      · rintro rfl
        simp [he] at hx
    · exact ⟨oslots,by simpa [hs] using ho,rfl,fun _ _ hx => hx⟩
  · intro other oslots ho
    by_cases hs : table = other
    · subst hs
      obtain rfl : _ = oslots := by simpa [hlt] using ho
      exact hse
    · exact h.tables other oslots (by simpa [hs] using ho)
  · exact currentSlots_of_current hf.current (by simp [hlt])
  · refine ⟨?_,by simpa using hro,fun index hin x hx => ?_⟩
    · rw [fill_set hr he (by simp [hof.key])]
      omega
    · rw [holds_set hr he hof.key]
      rcases Nat.lt_succ_iff_lt_or_eq.mp hin with hlt' | rfl
      · exact .inl (hst.held index hlt' x hx)
      · exact .inr (by simpa [hg] using hx.symm)

theorem findOrInsert_spec (h : Ok p m m.strs.len) (hm : MissOk m bytes miss) (hp : bytes ∉ p.strs) :
    (∃ index, m.findOrInsert bytes (symbolHash bytes) miss = some (index,m) ∧ m.strs.get index = some bytes) ∨
    m.Absent bytes ∧ ((∃ m', m.findOrInsert bytes (symbolHash bytes) miss = some (m.strs.len,m') ∧
        m'.strs.len = m.strs.len + 1 ∧ m'.strs.get m.strs.len = some bytes ∧
        Grown m.strs m'.strs ∧ Ok p m' m'.strs.len) ∨
      m.findOrInsert bytes (symbolHash bytes) miss = none ∧ 2 ^ 32 ≤ m.strs.len + 1) := by
  rcases search_spec h hm with ⟨index,hse,hg⟩ | ⟨slot,hse,hsl⟩
  · exact .inl ⟨index,by simp [findOrInsert,hse],hg⟩
  have ha := h.absent hsl
  obtain ⟨m1,table,slot',hro,hs,hext1,hok1,hre1⟩ := makeRoom_spec h hsl
  refine .inr ⟨ha,?_⟩
  by_cases hl : m.strs.len + 1 < 2 ^ 32
  · have hab1 : m1.Absent bytes := by rwa [Absent,hs]
    rw [← hs] at hok1 hre1
    obtain ⟨m2,hpu,hlen2,hget2,hext2,hok2,hre2⟩ := pushStr_spec hok1 hab1 hp hre1 (by rw [hs]; omega)
    rw [hs] at hpu hlen2 hget2 hok2 hre2
    obtain ⟨m3,hst,hst3,_,hok3⟩ := storeSlot_spec hok2 hlen2 hget2 hre2 hl
    refine .inl ⟨m3,?_,?_,?_,?_,?_⟩
    · simp [findOrInsert,hse,hro,hpu,hst]
    · rw [hst3,hlen2]
    · rw [hst3,hget2]
    · rw [hst3,← hs]
      exact hext2.strs
    · rw [hst3,hlen2]
      exact hok3
  · refine .inr ⟨?_,by omega⟩
    simp only [findOrInsert,hse,hro,bind_eq_bind,bind_some]
    cases hpu : m1.pushStr bytes with
    | none => rfl
    | some r =>
      obtain ⟨index,m2⟩ := r
      have hin : index = m.strs.len := by
        simp only [pushStr,bind_eq_bind,bind_eq_some_iff] at hpu
        obtain ⟨⟨index',strs'⟩,hr,heq⟩ := hpu
        have hin := SymbolStrs.push_index hr
        rw [hs] at hin
        simp only [Option.pure_def,some.injEq,Prod.mk.injEq] at heq
        exact heq.1.symm.trans hin
      subst hin
      have hge := hl
      simp only [bind_some,storeSlot,if_neg hge]
      rfl

end Session

end Frontend.Symbol
