import Frontend.Symbol.InternerInvariant

namespace Frontend.Symbol

namespace Interner

open Session List Option Config

variable {T : Type} [DecidableEq T] {p : PredefinedSymbols} {σ σ' : Config T} {t : T} {m m' : Session} {call : Call}

def StrsStep (strs strs' : SymbolStrs) : Prop := strs' = strs ∨ ∃ bytes index, strs.push bytes = some (index,strs')

theorem makeRoom_strs {hash table slot' : Nat} (h : m.makeRoom bytes hash slot = some (m',table,slot')) :
    m'.strs = m.strs := by
  simp only [makeRoom,bind_eq_bind,bind_eq_some_iff] at h
  obtain ⟨old,_,h⟩ := h
  split at h
  · simp only [bind_eq_some_iff] at h
    obtain ⟨⟨table1,m1⟩,hg,slots,_,probed,_,h⟩ := h
    cases probed with
    | found index => cases h
    | miss slot1 =>
      simp only [Option.pure_def,some.injEq,Prod.mk.injEq] at h
      simp only [grow,bind_eq_bind,bind_eq_some_iff,Option.pure_def,some.injEq,Prod.mk.injEq] at hg
      obtain ⟨old,_,fresh,_,_,rfl⟩ := hg
      exact h.1 ▸ rfl
  · simp only [bind_eq_some_iff,Option.pure_def,some.injEq,Prod.mk.injEq] at h
    obtain ⟨_,_,_,_,rfl,_⟩ := h
    rfl

theorem finish_mem (σ : Config T) (t : T) (call : Call) (index : Nat) : (σ.finish t call index).mem = σ.mem := by
  rw [finish]
  split <;> rfl

theorem searchLocked_strs (σ : Config T) (t : T) (call : Call) (miss : SymbolMiss) :
    (σ.searchLocked t call miss).mem.strs = σ.mem.strs := by
  rw [searchLocked]
  split
  · rfl
  · rfl
  · split
    · split
      · rfl
      · exact makeRoom_strs (by assumption)
    · rfl

theorem pushString_strs (σ : Config T) (t : T) (call : Call) (table slot : Nat) :
    StrsStep σ.mem.strs (σ.pushString t call table slot).mem.strs := by
  rw [pushString]
  split
  · simp only
    split
    · exact .inl rfl
    rename_i index mem hp
    simp only [pushStr,bind_eq_bind,bind_eq_some_iff,Option.pure_def,some.injEq,Prod.mk.injEq] at hp
    obtain ⟨⟨index',strs'⟩,hp,rfl,rfl⟩ := hp
    exact .inr ⟨_,_,hp⟩
  · exact .inl rfl

theorem storeEntry_strs (σ : Config T) (t : T) (call : Call) (table slot index : Nat) :
    (σ.storeEntry t call table slot index).mem.strs = σ.mem.strs := by
  rw [storeEntry]
  split
  · rfl
  rename_i mem hs
  rw [storeSlot] at hs
  split at hs
  · simp only [bind_eq_bind,bind_eq_some_iff,Option.pure_def,some.injEq] at hs
    obtain ⟨slots,_,rfl⟩ := hs
    rfl
  · cases hs

theorem act_strs (ha : σ.act p t = some σ') : StrsStep σ.mem.strs σ'.mem.strs := by
  rw [act] at ha
  generalize σ.pc t = pc at ha
  cases pc with
  | idle | panicked => cases ha
  | find =>
    cases ha
    rw [loadCurrent]
    split
    · exact .inl rfl
    · split <;> exact .inl rfl
  | probe =>
    cases ha
    rw [loadSlot]
    repeat' split
    all_goals exact .inl rfl
  | compare =>
    cases ha
    rw [compareString]
    split
    · split
      · exact .inl (by rw [finish_mem])
      · exact .inl rfl
    · exact .inl rfl
  | lock =>
    obtain ⟨-,ha⟩ := Option.ite_none_right_eq_some.mp ha
    cases ha
    exact .inl rfl
  | locked =>
    cases ha
    exact .inl (searchLocked_strs ..)
  | push =>
    cases ha
    exact pushString_strs ..
  | store =>
    cases ha
    exact .inl (storeEntry_strs ..)
  | unlock =>
    cases ha
    rw [unlockReturn]
    split
    · exact .inl rfl
    · exact .inl (by rw [finish_mem]; rfl)

theorem Step.strs (h : Step p σ σ') : StrsStep σ.mem.strs σ'.mem.strs := by
  cases h with
  | intern t call _ =>
    rw [Config.intern]
    split
    · exact .inl rfl
    · exact .inl (by rw [finish_mem])
    · exact .inl rfl
  | act t ha => exact act_strs ha

theorem StrsStep.grown {strs strs' : SymbolStrs} (h : StrsStep strs strs') : Grown strs strs' ∧
    strs.len ≤ strs'.len := by
  rcases h with rfl | ⟨bytes,index,hp⟩
  · exact ⟨fun _ _ h => h,le_rfl⟩
  have hlt : strs.len < 2 ^ 32 := by
    by_contra hge
    rw [SymbolStrs.push,dif_neg hge] at hp
    cases hp
  obtain ⟨strs'',hp',hl,hg⟩ := SymbolStrs.push_eq hlt bytes
  obtain ⟨_,rfl⟩ : strs.len = index ∧ strs'' = strs' := by simpa [hp] using hp'.symm
  refine ⟨fun i x hx => ?_,by omega⟩
  rw [hg,if_neg (SymbolStrs.lt_of_get hx).ne]
  exact hx

theorem run_grown (h : Relation.ReflTransGen (Step p) σ σ') : Grown σ.mem.strs σ'.mem.strs ∧
    σ.mem.strs.len ≤ σ'.mem.strs.len := by
  induction h with
  | refl => exact ⟨fun _ _ h => h,le_rfl⟩
  | tail _ hs ih =>
    obtain ⟨hg,hl⟩ := hs.strs.grown
    exact ⟨fun i x hx => hg i x (ih.1 i x hx),ih.2.trans hl⟩

theorem getInner_run (h : Relation.ReflTransGen (Step p) σ σ')
    (hg : getInner p σ.mem index = some bytes) : getInner p σ'.mem index = some bytes := by
  rw [getInner] at hg ⊢
  split
  · simpa [*] using hg
  · exact (run_grown h).1 _ _ (by simpa [*] using hg)

theorem Inv.step (hp : p.Built) (h : Inv p σ) (hl : σ.mem.strs.len < 2 ^ 32) (hs : Step p σ σ') : Inv p σ' := by
  cases hs with
  | intern t call hr => exact h.intern hp hr call
  | act t ha => exact h.act hl ha

theorem Inv.run (hp : p.Built) (h : Inv p σ) (hr : Relation.ReflTransGen (Step p) σ σ')
    (hl : σ'.mem.strs.len < 2 ^ 32) : Inv p σ' := by
  induction hr with
  | refl => exact h
  | tail _ hs ih =>
    have hle := hs.strs.grown.2
    exact (ih (by omega)).step hp (by omega) hs

theorem Occurs.inv (hp : p.Built) (h : Occurs p σ) (hl : σ.mem.strs.len < 2 ^ 32) : Inv p σ := by
  obtain ⟨σ0,hin,hr⟩ := h
  exact (Inv.initial hp hin).run hp hr hl

def fullSlots (slots : List Nat) : Nat := slots.countP (· ≠ 0)

theorem TableOk.half_full {strs : SymbolStrs} (h : TableOk strs slots) : 2 * fullSlots slots ≤ slots.length := by
  refine le_trans (Nat.mul_le_mul_left 2 ?_) h.table.half
  refine countP_mono_left fun entry he hne => ?_
  obtain ⟨index,bytes,hof⟩ := h.entries entry he (by simpa using hne)
  simp [hof.key]

omit [DecidableEq T] in
theorem Inv.injective (h : Inv p σ) (hi : σ.mem.strs.get i = some bytes) (hj : σ.mem.strs.get j = some bytes) :
    i = j ∧ bytes ∉ p.strs := by
  obtain ⟨n,hok⟩ := h.ok
  exact ⟨hok.inj i j bytes hi hj,hok.apart i bytes hi⟩

theorem getInner_isSome : (getInner p m index).isSome ↔ index < p.base + m.strs.len := by
  rw [getInner,PredefinedSymbols.base]
  split
  · rename_i hlt
    rw [getElem?_eq_getElem hlt]
    simp only [isSome_some,true_iff]
    omega
  · rw [SymbolStrs.get_isSome]
    omega

omit [DecidableEq T] in
theorem Inv.getInner_injective (hp : p.Built) (h : Inv p σ)
    (hi : getInner p σ.mem i = some bytes) (hj : getInner p σ.mem j = some bytes) : i = j := by
  rw [getInner] at hi hj
  split at hi <;> split at hj
  · have h1 := List.getElem_of_getElem? hi
    have h2 := List.getElem_of_getElem? hj
    exact (List.Nodup.getElem_inj_iff hp.nodup).mp (h1.2.trans h2.2.symm)
  · exact absurd (mem_of_getElem? hi) (h.injective hj hj).2
  · exact absurd (mem_of_getElem? hj) (h.injective hi hi).2
  · have := (h.injective hi hj).1
    omega

omit [DecidableEq T] in
theorem Inv.probing_lt (h : Inv p σ) (hp : Probing σ.mem bytes table slot passed slots) : passed < slots.length :=
  hp.reached.lt (h.tables hp.at_table).table.exists_free

structure Numbered (p : PredefinedSymbols) (σ : Config T) : Prop where
  same_iff : ∀ x ∈ σ.returned, ∀ y ∈ σ.returned, x.2 = y.2 ↔ x.1 = y.1
  get_returned : ∀ x ∈ σ.returned, ∀ σ', Relation.ReflTransGen (Step p) σ σ' → getInner p σ'.mem x.2 = some x.1
  dense : ∀ index, (getInner p σ.mem index).isSome ↔ index < p.base + σ.mem.strs.len
  distinct : ∀ i j bytes, getInner p σ.mem i = some bytes → getInner p σ.mem j = some bytes → i = j
  stable : ∀ σ', Relation.ReflTransGen (Step p) σ σ' → ∀ index bytes,
    getInner p σ.mem index = some bytes → getInner p σ'.mem index = some bytes
  predefined : ∀ (index : Nat) bytes, p.strs[index]? = some bytes →
    getInner p σ.mem index = some bytes ∧ ∀ x ∈ σ.returned, x.1 = bytes → x.2 = index
  half_full : ∀ (table : Nat) slots, σ.mem.tables[table]? = some slots → 2 * fullSlots slots ≤ slots.length
  probe_bounded : ∀ t call table slot passed, σ.pc t = .probe call table slot passed →
    ∃ slots, σ.mem.tables[table]? = some slots ∧ passed < slots.length
  unbroken : ∀ t, σ.pc t ≠ .panicked .broken

theorem Inv.numbered (hp : p.Built) (h : Inv p σ) (hc : p.base + σ.mem.strs.len ≤ 2 ^ 32) : Numbered p σ where
  same_iff x hx y hy := by
    have hgx := h.returned hc x hx
    have hgy := h.returned hc y hy
    constructor
    · intro hs
      rw [hs,hgy,some.injEq] at hgx
      exact hgx.symm
    · intro hs
      exact h.getInner_injective hp hgx (hs ▸ hgy)
  get_returned x hx σ' hr := getInner_run hr (h.returned hc x hx)
  dense _ := getInner_isSome
  distinct _ _ _ hi hj := h.getInner_injective hp hi hj
  stable _ hr _ _ hg := getInner_run hr hg
  predefined index bytes hin := by
    refine ⟨getInner_predefined hin,fun x hx hs => ?_⟩
    exact h.getInner_injective hp (h.returned hc x hx) (hs ▸ getInner_predefined hin)
  half_full _ _ hsl := TableOk.half_full (h.tables hsl)
  probe_bounded t call table slot passed hpc := by
    obtain ⟨_,slots,hpr⟩ := h.pcOk hpc
    exact ⟨slots,hpr.at_table,h.probing_lt hpr⟩
  unbroken t hpc := h.pcOk hpc rfl

theorem interner_numbers_strings {strs : List Bytes} (hnodup : strs.Nodup) (hshort : strs.length < emptySlot) :
    ∃ p, PredefinedSymbols.new strs = some p ∧ p.strs = strs ∧
      ∀ (T : Type) [DecidableEq T] (σ : Config T), Occurs p σ → σ.mem.strs.len < 2 ^ 32 →
        p.base + σ.mem.strs.len ≤ 2 ^ 32 → Numbered p σ := by
  obtain ⟨p,hn,hs,hp⟩ := PredefinedSymbols.new_built hnodup hshort
  exact ⟨p,hn,hs,fun _ _ _ ho hl hc => (ho.inv hp hl).numbered hp hc⟩

end Interner

end Frontend.Symbol
