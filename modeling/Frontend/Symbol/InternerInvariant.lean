import Frontend.Symbol.InternerRun

namespace Frontend.Symbol

namespace Interner

open Session

variable {T : Type} [DecidableEq T] {p : PredefinedSymbols} {σ σ' : Config T} {t : T} {m m' : Session}
  {pc : Pc} {call : Call}

def Pc.critical : Pc → Bool
  | .locked .. | .push .. | .store .. | .unlock .. => true
  | _ => false

section

variable (p : PredefinedSymbols) (m : Session)

structure Probing (bytes : Bytes) (table slot passed : Nat) (slots : List Nat) : Prop where
  at_table : m.tables[table]? = some slots
  slot_eq : slot = (symbolHash bytes + passed) % slots.length
  reached : Symbol.Reached m.strs slots bytes passed

def PcOk : Pc → Prop
  | .idle => True
  | .panicked fault => fault ≠ .broken
  | .find call => call.bytes ∉ p.strs
  | .probe call table slot passed => call.bytes ∉ p.strs ∧ ∃ slots, Probing m call.bytes table slot passed slots
  | .compare call table slot passed index =>
    call.bytes ∉ p.strs ∧ ∃ slots other, Probing m call.bytes table slot passed slots ∧
      Library.Probing.view (sessionKey m.strs) slots slot = some other ∧ m.strs.get index = some other
  | .lock call miss | .locked call miss => call.bytes ∉ p.strs ∧ MissOk m call.bytes miss
  | .push call _ _ => call.bytes ∉ p.strs
  | .store .. => True
  | .unlock call index => m.strs.get index = some call.bytes

def WriterOk : Pc → Prop
  | .push call table slot => Ok p m m.strs.len ∧ m.Absent call.bytes ∧ Ready m m.strs.len call.bytes table slot
  | .store call table slot index =>
    m.strs.len = index + 1 ∧ m.strs.get index = some call.bytes ∧ Ok p m index ∧ Ready m index call.bytes table slot
  | _ => Ok p m m.strs.len

structure Inv (σ : Config T) : Prop where
  threads : ∀ t, PcOk p σ.mem (σ.pc t)
  lock : ∀ t, (σ.pc t).critical = true ↔ σ.holder = some t
  free : σ.holder = none → Ok p σ.mem σ.mem.strs.len
  held : ∀ t, σ.holder = some t → WriterOk p σ.mem (σ.pc t)
  returned : p.base + σ.mem.strs.len ≤ 2 ^ 32 → ∀ x ∈ σ.returned, getInner p σ.mem x.2 = some x.1

end

variable {bytes : Bytes} {table slot passed index : Nat} {answers : List (Bytes × Nat)}

theorem Probing.mono (h : Probing m bytes table slot passed slots) (he : Extends m m') :
    ∃ slots', Probing m' bytes table slot passed slots' ∧ slots'.length = slots.length := by
  obtain ⟨slots',hs',hl,hd⟩ := he.reached h.at_table h.reached
  exact ⟨slots',⟨hs',hl ▸ h.slot_eq,hd⟩,hl⟩

theorem PcOk.mono (h : PcOk p m pc) (he : Extends m m') : PcOk p m' pc := by
  cases pc with
  | probe call table slot passed =>
    obtain ⟨hp,slots,hpr⟩ := h
    obtain ⟨slots',hp',_⟩ := hpr.mono he
    exact ⟨hp,slots',hp'⟩
  | compare call table slot passed index =>
    obtain ⟨hp,slots,other,hpr,hv,hg⟩ := h
    obtain ⟨slots',hs',hl,hvi⟩ := he.tables table slots hpr.at_table
    obtain ⟨slots'',hp',_⟩ := hpr.mono he
    obtain rfl : slots' = slots'' := by simpa [hp'.at_table] using hs'.symm
    exact ⟨hp,slots',other,hp',hvi slot other hv,he.strs _ _ hg⟩
  | lock call miss => exact ⟨h.1,h.2.mono he⟩
  | locked call miss => exact ⟨h.1,h.2.mono he⟩
  | unlock call index => exact he.strs _ _ h
  | _ => exact h

omit [DecidableEq T] in
theorem Inv.ok (h : Inv p σ) : ∃ n, Ok p σ.mem n := by
  cases hh : σ.holder with
  | none => exact ⟨_,h.free hh⟩
  | some t =>
    have hw := h.held t hh
    cases hpc : σ.pc t with
    | push call table slot => exact ⟨_,(hpc ▸ hw).1⟩
    | store call table slot index => exact ⟨_,(hpc ▸ hw).2.2.1⟩
    | _ => exact ⟨_,(hpc ▸ hw : Ok p σ.mem _)⟩

omit [DecidableEq T] in
theorem Inv.tables (h : Inv p σ) (hs : σ.mem.tables[table]? = some slots) : TableOk σ.mem.strs slots := by
  obtain ⟨n,hok⟩ := h.ok
  exact hok.tables table slots hs

theorem getInner_mono (he : Extends m m') (h : getInner p m index = some bytes) : getInner p m' index = some bytes := by
  rw [getInner] at h ⊢
  split
  · simpa [*] using h
  · exact he.strs _ _ (by simpa [*] using h)

theorem getInner_session (h : m.strs.get index = some bytes) : getInner p m (p.base + index) = some bytes := by
  simp [getInner,PredefinedSymbols.base,h]

theorem getInner_predefined (h : p.strs[index]? = some bytes) : getInner p m index = some bytes := by
  have hlt := (List.getElem_of_getElem? h).1
  simp [getInner,hlt,← h]

structure Moves (σ σ' : Config T) (t : T) (pc : Pc) (answers : List (Bytes × Nat)) : Prop where
  pc : σ'.pc = Function.update σ.pc t pc
  returned : σ'.returned = σ.returned ++ answers

theorem Moves.self (h : Moves σ σ' t pc answers) : σ'.pc t = pc := by rw [h.pc,Function.update_self]

theorem Moves.other (h : Moves σ σ' t pc answers) (hu : u ≠ t) : σ'.pc u = σ.pc u := by
  rw [h.pc,Function.update_of_ne hu]

theorem Inv.move (h : Inv p σ) (hm : Moves σ σ' t pc answers) (he : Extends σ.mem σ'.mem)
    (hle : σ.mem.strs.len ≤ σ'.mem.strs.len)
    (hpc : PcOk p σ'.mem pc)
    (hl : ∀ u, (σ'.pc u).critical = true ↔ σ'.holder = some u)
    (hf : σ'.holder = none → Ok p σ'.mem σ'.mem.strs.len)
    (hh : ∀ u, σ'.holder = some u → WriterOk p σ'.mem (σ'.pc u))
    (ha : p.base + σ'.mem.strs.len ≤ 2 ^ 32 → ∀ x ∈ answers, getInner p σ'.mem x.2 = some x.1) :
    Inv p σ' := by
  refine ⟨fun u => ?_,hl,hf,hh,fun hc x hx => ?_⟩
  · by_cases hu : u = t
    · rw [hu,hm.self]
      exact hpc
    · rw [hm.other hu]
      exact (h.threads u).mono he
  · rw [hm.returned,List.mem_append] at hx
    rcases hx with hx | hx
    · exact getInner_mono he (h.returned (by omega) x hx)
    · exact ha hc x hx

theorem Inv.outside (h : Inv p σ) (hmo : Moves σ σ' t pc answers) (hm : σ'.mem = σ.mem)
    (hh : σ'.holder = σ.holder) (ho : (σ.pc t).critical = false)
    (ho' : pc.critical = false) (hpc : PcOk p σ.mem pc)
    (ha : p.base + σ.mem.strs.len ≤ 2 ^ 32 → ∀ x ∈ answers, getInner p σ.mem x.2 = some x.1) :
    Inv p σ' := by
  have hne : ∀ u, σ.holder = some u → u ≠ t := by
    rintro u hu rfl
    rw [(h.lock u).mpr hu] at ho
    cases ho
  refine h.move hmo (hm ▸ .refl _) (by rw [hm]) (hm ▸ hpc) (fun u => ?_) (fun hn => ?_) (fun u hu => ?_) (hm ▸ ha)
  · rw [hh,← h.lock u]
    by_cases hu : u = t
    · rw [hu,hmo.self,ho,ho']
    · rw [hmo.other hu]
  · rw [hm]
    exact h.free (hh ▸ hn)
  · rw [hh] at hu
    rw [hm,hmo.other (hne u hu)]
    exact h.held u hu

theorem Inv.inside (h : Inv p σ) (hm : Moves σ σ' t pc []) (hc : (σ.pc t).critical = true)
    (he : Extends σ.mem σ'.mem) (hl : σ.mem.strs.len ≤ σ'.mem.strs.len)
    (hh : σ'.holder = σ.holder) (hc' : pc.critical = true) (hpc : PcOk p σ'.mem pc)
    (hw : WriterOk p σ'.mem pc) : Inv p σ' := by
  have hme := hh.trans ((h.lock t).mp hc)
  refine h.move hm he hl hpc (fun u => ?_) (fun hn => ?_) (fun u hu => ?_) (by simp)
  · by_cases hu : u = t
    · rw [hu,hm.self,hc',hme]
      simp
    · rw [hm.other hu,h.lock u,hh]
  · cases hme.symm.trans hn
  · cases hme.symm.trans hu
    rw [hm.self]
    exact hw

theorem Inv.leave (h : Inv p σ) (hmo : Moves σ σ' t pc answers)
    (hc : (σ.pc t).critical = true) (hm : σ'.mem = σ.mem) (hh : σ'.holder = none)
    (ho : pc.critical = false) (hpc : PcOk p σ.mem pc) (hok : Ok p σ.mem σ.mem.strs.len)
    (ha : p.base + σ.mem.strs.len ≤ 2 ^ 32 → ∀ x ∈ answers, getInner p σ.mem x.2 = some x.1) :
    Inv p σ' := by
  have hme := (h.lock t).mp hc
  refine h.move hmo (hm ▸ .refl _) (by rw [hm]) (hm ▸ hpc) (fun u => ?_) (fun _ => hm ▸ hok) (fun u hu => ?_) (hm ▸ ha)
  · by_cases hu : u = t
    · rw [hu,hmo.self,ho,hh]
      simp
    · rw [hmo.other hu,h.lock u,hme,hh]
      simp [Ne.symm hu]
  · cases hh.symm.trans hu

theorem goto_moves (σ : Config T) (t : T) (pc : Pc) : Moves σ (σ.goto t pc) t pc [] := ⟨rfl,by simp [Config.goto]⟩

theorem finish_moves (σ : Config T) (t : T) (call : Call) (index : Nat) :
    ∃ pc answers, Moves σ (σ.finish t call index) t pc answers ∧ pc.critical = false ∧
      PcOk p m pc ∧ (∀ x ∈ answers, x = (call.bytes,index)) ∧
      (σ.finish t call index).mem = σ.mem ∧ (σ.finish t call index).holder = σ.holder := by
  simp only [Config.finish,symbolNew]
  split
  · rename_i index' hin
    split at hin
    · cases hin
      exact ⟨.idle,[(call.bytes,index)],⟨rfl,rfl⟩,rfl,trivial,by simp,rfl,rfl⟩
    · cases hin
  · exact ⟨.panicked .overflow,[],goto_moves _ _ _,rfl,by simp [PcOk],by simp,rfl,rfl⟩

theorem Inv.finish (h : Inv p σ) (ho : (σ.pc t).critical = false)
    (hg : p.base + σ.mem.strs.len ≤ 2 ^ 32 → getInner p σ.mem index = some call.bytes) :
    Inv p (σ.finish t call index) := by
  obtain ⟨pc,answers,hm,hpc,hok,ha,hme,hh⟩ := finish_moves (p := p) (m := σ.mem) σ t call index
  refine h.outside hm hme hh ho hpc hok fun hc x hx => ?_
  rw [ha x hx]
  exact hg hc

theorem Inv.goto (h : Inv p σ) (ho : (σ.pc t).critical = false) (hpc : pc.critical = false)
    (hok : PcOk p σ.mem pc) : Inv p (σ.goto t pc) :=
  h.outside (goto_moves σ t pc) rfl rfl ho hpc hok (by simp)

theorem Inv.intern (hp : p.Built) (h : Inv p σ) (hr : atRest (σ.pc t) = true) (call : Call) :
    Inv p (σ.intern p t call) := by
  have ho : (σ.pc t).critical = false := by cases hpc : σ.pc t <;> simp_all [atRest,Pc.critical]
  rw [Config.intern,Call.hash]
  rcases hp.find_eq call.bytes with ⟨index,hf,hin⟩ | ⟨hf,hn⟩
  · rw [hf]
    exact h.finish ho fun _ => getInner_predefined hin
  · rw [hf]
    exact h.goto ho rfl hn

omit [DecidableEq T] in
theorem Inv.pcOk (h : Inv p σ) (hpc : σ.pc t = pc) : PcOk p σ.mem pc := hpc ▸ h.threads t

omit [DecidableEq T] in
theorem Inv.writer (h : Inv p σ) (hpc : σ.pc t = pc) (hc : pc.critical = true) : WriterOk p σ.mem pc :=
  hpc ▸ h.held t ((h.lock t).mp (hpc ▸ hc))

omit [DecidableEq T] in
theorem Inv.current_slots (h : Inv p σ) (hc : σ.mem.current = some table) :
    ∃ slots, σ.mem.tables[table]? = some slots := by
  obtain ⟨n,hok⟩ := h.ok
  obtain ⟨slots,hs,_⟩ := hok.at_current hc
  exact ⟨slots,hs⟩

theorem Inv.loadCurrent (h : Inv p σ) (hpc : σ.pc t = .find call) : Inv p (σ.loadCurrent t call) := by
  have ho : (σ.pc t).critical = false := by rw [hpc]; rfl
  have hn := h.pcOk hpc
  rw [Config.loadCurrent]
  cases hc : σ.mem.current with
  | none => exact h.goto ho rfl ⟨hn,fun _ ht => by simp at ht⟩
  | some table =>
    obtain ⟨slots,hs⟩ := h.current_slots hc
    simp only [hs]
    exact h.goto ho rfl ⟨hn,slots,hs,(h.tables hs).table.start _,Library.Probing.passed_zero⟩

theorem Probing.next (h : Probing m bytes table slot passed slots) (ht : TableOk m.strs slots)
    (hv : Library.Probing.view (sessionKey m.strs) slots slot = some other) (hne : other ≠ bytes) :
    Probing m bytes table ((slot + 1) &&& (slots.length - 1)) (passed + 1) slots := by
  obtain ⟨k,hk⟩ := ht.table.size
  refine ⟨h.at_table,?_,h.reached.succ (h.slot_eq ▸ hv) hne⟩
  rw [h.slot_eq,Library.Probing.next_slot hk]

section

variable (h : Inv p σ)

include h

theorem Inv.loadSlot (hpc : σ.pc t = .probe call table slot passed) : Inv p (σ.loadSlot t call table slot passed) := by
  have ho : (σ.pc t).critical = false := by rw [hpc]; rfl
  obtain ⟨hn,slots,hp⟩ := h.pcOk hpc
  have ht := h.tables hp.at_table
  have hs := hp.slot_eq ▸ ht.ring_lt _
  rw [Config.loadSlot,hp.at_table]
  rcases ht.slot_cases hs with ⟨hg,_⟩ | ⟨entry,index,other,hg,hof,hv⟩
  · simp only [hg,if_true]
    refine h.goto ho rfl ⟨hn,fun table' ht' => ?_⟩
    obtain rfl : table = table' := by simpa using ht'
    exact ⟨slots,passed,hp.at_table,hp.slot_eq,hp.reached⟩
  · simp only [hg,if_neg hof.ne_zero]
    split
    · refine h.goto ho rfl ⟨hn,slots,other,hp,hv,?_⟩
      rw [hof.slotLocal]
      exact hof.1
    · rename_i hta
      refine h.goto ho rfl ⟨hn,slots,hp.next ht hv ?_⟩
      rintro rfl
      exact hta hof.tag

theorem Inv.compareString (hpc : σ.pc t = .compare call table slot passed index) :
    Inv p (σ.compareString p t call table slot passed index) := by
  have ho : (σ.pc t).critical = false := by rw [hpc]; rfl
  obtain ⟨hn,slots,other,hp,hv,hg⟩ := h.pcOk hpc
  rw [Config.compareString,hp.at_table,hg]
  simp only
  split
  · rename_i hs
    refine h.finish ho fun hc => ?_
    have hlt := SymbolStrs.lt_of_get hg
    rw [Nat.mod_eq_of_lt (by omega)]
    exact getInner_session (hs ▸ hg)
  · rename_i hne
    exact h.goto ho rfl ⟨hn,slots,hp.next (h.tables hp.at_table) hv hne⟩

theorem Inv.acquire (hpc : σ.pc t = .lock call miss) (hf : σ.holder = none) :
    Inv p { σ.goto t (.locked call miss) with holder := some t } := by
  have hm : Moves σ { σ.goto t (.locked call miss) with holder := some t } t (.locked call miss) [] :=
    ⟨rfl,by simp [Config.goto]⟩
  have hok := h.pcOk hpc
  refine h.move hm (.refl _) le_rfl hok (fun u => ?_) (by simp) (fun u hu => ?_) (by simp)
  · by_cases hu : u = t
    · rw [hu,hm.self]
      simp [Pc.critical]
    · rw [hm.other hu,h.lock u,hf]
      simp [Ne.symm hu]
  · cases hu
    rw [hm.self]
    exact h.free hf

theorem Inv.fail (hc : (σ.pc t).critical = true) (hok : Ok p σ.mem σ.mem.strs.len) (hf : fault ≠ .broken) :
    Inv p (σ.fail t fault) := by
  have hm : Moves σ (σ.fail t fault) t (.panicked fault) [] := ⟨rfl,by simp [Config.fail,Config.release,Config.goto]⟩
  exact h.leave hm hc rfl rfl rfl hf hok (by simp)

theorem Inv.searchLocked (hpc : σ.pc t = .locked call miss) : Inv p (σ.searchLocked t call miss) := by
  have hc : (σ.pc t).critical = true := by rw [hpc]; rfl
  obtain ⟨hn,hm⟩ := h.pcOk hpc
  have hok := h.writer hpc rfl
  rw [Config.searchLocked,Call.hash]
  rcases search_spec hok hm with ⟨index,hse,hg⟩ | ⟨slot,hse,hsl⟩
  · simp only [hse]
    exact h.inside (goto_moves σ t _) hc (.refl _) le_rfl rfl rfl hg hok
  simp only [hse]
  split
  · obtain ⟨m',table,slot',hr,hs,he,hok',hre⟩ := makeRoom_spec hok hsl
    simp only [hr]
    have ha : m'.Absent call.bytes := by
      rw [Absent,hs]
      exact hok.absent hsl
    rw [← hs] at hok' hre
    have hmo : Moves σ { σ.goto t (.push call table slot') with mem := m' } t (.push call table slot') [] :=
      ⟨rfl,by simp [Config.goto]⟩
    refine h.inside hmo hc he ?_ rfl rfl hn ⟨hok',ha,hre⟩
    rw [hs]
  · exact h.fail hc hok (by simp)

theorem Inv.pushString (hpc : σ.pc t = .push call table slot) (hl : σ.mem.strs.len < 2 ^ 32) :
    Inv p (σ.pushString t call table slot) := by
  have hc : (σ.pc t).critical = true := by rw [hpc]; rfl
  have hn := h.pcOk hpc
  obtain ⟨hok,ha,hr⟩ := h.writer hpc rfl
  rw [Config.pushString]
  split
  · obtain ⟨m',hp,hl',hg,he,hok',hr'⟩ := pushStr_spec hok ha hn hr hl
    rw [← InternerInner.store_bytes σ.inner call] at hp
    simp only [hp]
    have hm : Moves σ { σ.goto t (.store call table slot σ.mem.strs.len) with
        mem := m', inner := (σ.inner.store call).2 } t (.store call table slot σ.mem.strs.len) [] :=
      ⟨rfl,by simp [Config.goto]⟩
    refine h.inside hm hc he ?_ rfl rfl trivial ⟨hl',hg,hok',hr'⟩
    show σ.mem.strs.len ≤ m'.strs.len
    omega
  · exact h.fail hc hok (by simp)

theorem Inv.storeEntry (hpc : σ.pc t = .store call table slot index)
    (hle : σ.mem.strs.len < 2 ^ 32) : Inv p (σ.storeEntry t call table slot index) := by
  have hc : (σ.pc t).critical = true := by rw [hpc]; rfl
  obtain ⟨hl,hg,hok,hr⟩ := h.writer hpc rfl
  obtain ⟨m',hst,hs,he,hok'⟩ := storeSlot_spec hok hl hg hr (by omega)
  rw [Config.storeEntry,Call.hash,hst]
  have hm : Moves σ { σ.goto t (.unlock call index) with mem := m' } t (.unlock call index) [] :=
    ⟨rfl,by simp [Config.goto]⟩
  refine h.inside hm hc he ?_ rfl rfl ?_ ?_
  · show σ.mem.strs.len ≤ m'.strs.len
    rw [hs]
  · show m'.strs.get index = some call.bytes
    rw [hs]
    exact hg
  · show Ok p m' m'.strs.len
    rw [hs,hl]
    exact hok'

theorem Inv.unlockReturn (hpc : σ.pc t = .unlock call index) : Inv p (σ.unlockReturn p t call index) := by
  have hc : (σ.pc t).critical = true := by rw [hpc]; rfl
  have hg := h.pcOk hpc
  have hok := h.writer hpc rfl
  rw [Config.unlockReturn,globalIndex]
  split
  · exact h.fail hc hok (by simp)
  rename_i index' hin
  split at hin
  · cases hin
    obtain ⟨pc,answers,hm,ho,hp,ha,hme,hh⟩ := finish_moves (p := p) (m := σ.mem) σ.release t call (p.base + index)
    have hm' : Moves σ (σ.release.finish t call (p.base + index)) t pc answers := ⟨hm.pc,hm.returned⟩
    refine h.leave hm' hc hme hh ho hp hok fun _ x hx => ?_
    rw [ha x hx]
    exact getInner_session hg
  · cases hin

theorem Inv.act (hl : σ.mem.strs.len < 2 ^ 32) (ha : σ.act p t = some σ') : Inv p σ' := by
  rw [Config.act] at ha
  generalize hpc : σ.pc t = pc at ha
  cases pc with
  | idle | panicked => cases ha
  | find =>
    cases ha
    exact h.loadCurrent hpc
  | probe =>
    cases ha
    exact h.loadSlot hpc
  | compare =>
    cases ha
    exact h.compareString hpc
  | lock =>
    obtain ⟨hf,ha⟩ := Option.ite_none_right_eq_some.mp ha
    cases ha
    exact h.acquire hpc (by simpa using hf)
  | locked =>
    cases ha
    exact h.searchLocked hpc
  | push =>
    cases ha
    exact h.pushString hpc hl
  | store =>
    cases ha
    exact h.storeEntry hpc hl
  | unlock =>
    cases ha
    exact h.unlockReturn hpc

end

omit [DecidableEq T] in
theorem Inv.initial (hp : p.Built) (h : Initial p σ) : Inv p σ := by
  obtain ⟨extra,sourceLen,m,hn,rfl⟩ := h
  obtain ⟨hok,_⟩ := new_ok hp hn
  exact ⟨fun _ => trivial,fun _ => by simp [Pc.critical],fun _ => hok,by simp,by simp⟩

end Interner

end Frontend.Symbol
