import Frontend.Symbol.Numbering

namespace Frontend.Symbol

namespace Interner

open Session List Config Relation PredefinedSymbols

variable {T : Type} [DecidableEq T] {p : PredefinedSymbols} {σ σ' : Config T} {t : T} {call : Call} {pc pc' : Pc}

theorem goto_goto (σ : Config T) (t : T) (pc pc' : Pc) : (σ.goto t pc).goto t pc' = σ.goto t pc' := by simp [goto]

theorem goto_finish (σ : Config T) (t : T) (pc : Pc) (call : Call) (index : Nat) :
    (σ.goto t pc).finish t call index = σ.finish t call index := by
  rw [finish,finish]
  cases symbolNew index with
  | none => exact goto_goto σ t pc _
  | some index => simp [goto]

@[simp] theorem goto_pc (σ : Config T) (t : T) (pc : Pc) : (σ.goto t pc).pc t = pc := by simp [goto]

theorem step_act (ha : σ.act p t = some σ') : ReflTransGen (Step p) σ σ' := .single (.act t ha)

def ProbeEnds (p : PredefinedSymbols) (σ : Config T) (t : T) (call : Call) (table : Nat) (slots : List Nat) : Prop :=
  (∃ slot, ReflTransGen (Step p) σ (σ.goto t (.lock call ⟨some table,slot⟩)) ∧ ¬ Holds σ.mem.strs slots call.bytes) ∨
  ∃ index, ReflTransGen (Step p) σ (σ.finish t call ((p.base + index) % 2 ^ 32)) ∧ σ.mem.strs.get index = some call.bytes

variable {table index slot : Nat} {slots : List Nat}

theorem ProbeEnds.goto (hru : ReflTransGen (Step p) σ (σ.goto t pc))
    (h : ProbeEnds p (σ.goto t pc) t call table slots) : ProbeEnds p σ t call table slots := by
  rcases h with ⟨slot,hr,ha⟩ | ⟨index,hr,hg⟩
  · rw [goto_goto] at hr
    exact .inl ⟨slot,hru.trans hr,ha⟩
  · rw [goto_finish] at hr
    exact .inr ⟨index,hru.trans hr,hg⟩

theorem compare_act (p : PredefinedSymbols) (σ : Config T) (t : T) (call : Call) (slot passed : Nat)
    (hs : σ.mem.tables[table]? = some slots)
    (hg : σ.mem.strs.get index = some other) :
    (σ.goto t (.compare call table slot passed index)).act p t =
      some (if other = call.bytes then σ.finish t call ((p.base + index) % 2 ^ 32)
        else σ.nextSlot t call slots table slot passed) := by
  have ht : (σ.goto t (.compare call table slot passed index)).mem.tables[table]? = some slots := hs
  have hst : (σ.goto t (.compare call table slot passed index)).mem.strs.get index = some other := hg
  simp only [act,goto_pc,compareString,ht,hst,goto_finish,nextSlot,goto_goto]

theorem probe_solo (h : Inv p σ) (hpc : σ.pc t = .probe call table slot passed)
    (hp : Probing σ.mem call.bytes table slot passed slots) :
    ProbeEnds p σ t call table slots := by
  have ht := h.tables hp.at_table
  have hlt := h.probing_lt hp
  induction hl : slots.length - passed generalizing σ slot passed with
  | zero => omega
  | succ left ih =>
    have hsl := hp.slot_eq ▸ ht.ring_lt _
    have ha : σ.act p t = some (σ.loadSlot t call table slot passed) := by simp [act,hpc]
    rw [loadSlot,hp.at_table] at ha
    rcases ht.slot_cases hsl with ⟨hg,he⟩ | ⟨entry,index,other,hg,hof,hv⟩
    · simp only [hg,if_true] at ha
      exact .inl ⟨slot,step_act ha,ht.absent hp.reached (hp.slot_eq ▸ he)⟩
    simp only [hg,if_neg hof.ne_zero,hof.slotLocal] at ha
    have hco (hne : other ≠ call.bytes) (hr : ReflTransGen (Step p) σ (σ.nextSlot t call slots table slot passed)) :
        ProbeEnds p σ t call table slots := by
      have hn := hp.next ht hv hne
      have ho : (σ.pc t).critical = false := by rw [hpc]; rfl
      have hin : Inv p (σ.nextSlot t call slots table slot passed) := h.goto ho rfl ⟨(h.pcOk hpc).1,slots,hn⟩
      exact .goto hr (ih hin (goto_pc _ _ _) hn ht (hin.probing_lt hn) (by omega))
    by_cases hta : entry >>> 32 = slotTag call.hash
    · rw [if_pos hta] at ha
      have hc := compare_act p σ t call slot passed hp.at_table hof.1
      by_cases hs : other = call.bytes
      · rw [if_pos hs] at hc
        exact .inr ⟨index,(step_act ha).trans (step_act hc),hs ▸ hof.1⟩
      · rw [if_neg hs] at hc
        exact hco hs ((step_act ha).trans (step_act hc))
    · rw [if_neg hta] at ha
      refine hco ?_ (step_act ha)
      rintro rfl
      exact hta hof.tag

theorem intern_absent (hp : p.Built) (σ : Config T) (t : T) (hn : call.bytes ∉ p.strs) :
    σ.intern p t call = σ.goto t (.find call) := by
  rcases hp.find_eq call.bytes with ⟨index,_,hid⟩ | ⟨hf,_⟩
  · exact absurd (mem_of_getElem? hid) hn
  · rw [intern,Call.hash,hf]

theorem find_act (hp : p.Built) (hre : atRest (σ.pc t) = true) (hn : call.bytes ∉ p.strs) :
    ReflTransGen (Step p) σ ((σ.goto t (.find call)).loadCurrent t call) := by
  have hst : Step p σ (σ.goto t (.find call)) := intern_absent hp σ t hn ▸ .intern t call hre
  exact (ReflTransGen.single hst).trans (step_act (t := t) (by simp [act]))

theorem find_without_table (hp : p.Built) (hre : atRest (σ.pc t) = true) (hn : call.bytes ∉ p.strs)
    (hc : σ.mem.current = none) : ReflTransGen (Step p) σ (σ.goto t (.lock call ⟨none,0⟩)) := by
  have hcu : (σ.goto t (.find call)).mem.current = none := hc
  have hr := find_act hp hre hn
  rwa [loadCurrent,hcu,goto_goto] at hr

theorem currentSlots_of_none {m : Session} (hc : m.current = none) (hs : m.currentSlots = some slots) : slots = [] := by
  simpa [currentSlots,hc] using hs.symm

theorem find_solo (hp : p.Built) (h : Inv p σ) (hre : atRest (σ.pc t) = true) (hn : call.bytes ∉ p.strs) :
    (∃ miss, ReflTransGen (Step p) σ (σ.goto t (.lock call miss)) ∧
      ∀ slots, σ.mem.currentSlots = some slots → ¬ Holds σ.mem.strs slots call.bytes) ∨
    ∃ index, ReflTransGen (Step p) σ (σ.finish t call ((p.base + index) % 2 ^ 32)) ∧
    σ.mem.strs.get index = some call.bytes := by
  cases hc : σ.mem.current with
  | none =>
    refine .inl ⟨_,find_without_table hp hre hn hc,fun slots hs => ?_⟩
    obtain rfl := currentSlots_of_none hc hs
    rintro ⟨i,hi,_⟩
    exact absurd hi (Nat.not_lt_zero i)
  | some table =>
    have hcu : (σ.goto t (.find call)).mem.current = some table := hc
    obtain ⟨slots,hs⟩ := h.current_slots hc
    have hs' : (σ.goto t (.find call)).mem.tables[table]? = some slots := hs
    have hst := find_act hp hre hn
    rw [loadCurrent,hcu] at hst
    simp only [hs',goto_goto] at hst
    have hpr : Probing σ.mem call.bytes table (call.hash &&& (slots.length - 1)) 0 slots :=
      ⟨hs,(h.tables hs).table.start _,Library.Probing.passed_zero⟩
    have hi' : Inv p (σ.goto t (.probe call table (call.hash &&& (slots.length - 1)) 0)) := by
      have ho : (σ.pc t).critical = false := by cases hpc : σ.pc t <;> simp_all [atRest,Pc.critical]
      exact h.goto ho rfl ⟨hn,slots,hpr⟩
    rcases probe_solo hi' (goto_pc _ _ _) hpr with ⟨slot',hr,ha⟩ | ⟨index,hr,hg⟩
    · refine .inl ⟨⟨some table,slot'⟩,?_,fun slots' hs'' => ?_⟩
      · rw [goto_goto] at hr
        exact hst.trans hr
      · rw [currentSlots,hc] at hs''
        cases hs.symm.trans hs''
        exact ha
    · refine .inr ⟨index,?_,hg⟩
      rw [goto_finish] at hr
      exact hst.trans hr

theorem searchLocked_absent (h : Inv p σ) (hpc : σ.pc t = .locked call miss)
    (ha : σ.mem.Absent call.bytes) (hin : call.symbolInserts = true) :
    ∃ m' table slot, m'.strs = σ.mem.strs ∧ σ.act p t = some { σ.goto t (.push call table slot) with mem := m' } := by
  have hok := h.writer hpc rfl
  rcases search_spec hok (h.pcOk hpc).2 with ⟨index,_,hg⟩ | ⟨slot,hse,hs⟩
  · exact absurd hg (ha index)
  · obtain ⟨m',table,slot',hr,hst,_⟩ := makeRoom_spec hok hs
    refine ⟨m',table,slot',hst,?_⟩
    simp [act,hpc,searchLocked,Call.hash,hse,hin,hr]

theorem pushString_act (h : Inv p σ) (hpc : σ.pc t = .push call table slot)
    (hin : call.symbolInserts = true) (hl : σ.mem.strs.len < 2 ^ 32) :
    ∃ m', m'.strs.len = σ.mem.strs.len + 1 ∧ m'.strs.get σ.mem.strs.len = some call.bytes ∧
      σ.act p t = some { σ.goto t (.store call table slot σ.mem.strs.len) with
        mem := m', inner := (σ.inner.store call).2 } := by
  obtain ⟨hok,ha,hr⟩ := h.writer hpc rfl
  obtain ⟨m',hp,hl',hg,_⟩ := pushStr_spec hok ha (h.pcOk hpc) hr hl
  rw [← InternerInner.store_bytes σ.inner call] at hp
  exact ⟨m',hl',hg,by simp [act,hpc,pushString,hin,hp]⟩

theorem storeEntry_act (h : Inv p σ) (hpc : σ.pc t = .store call table slot index) (hle : σ.mem.strs.len < 2 ^ 32) :
    ∃ m', m'.strs = σ.mem.strs ∧ σ.act p t = some { σ.goto t (.unlock call index) with mem := m' } := by
  obtain ⟨hl,hg,hok,hr⟩ := h.writer hpc rfl
  obtain ⟨m',hst,hs,_⟩ := storeSlot_spec hok hl hg hr (by omega)
  exact ⟨m',hs,by simp [act,hpc,storeEntry,Call.hash,hst]⟩

theorem insert_solo (hp : p.Built) (h : Inv p σ) (hr : atRest (σ.pc t) = true)
    (hf : σ.holder = none) (hno : call.bytes ∉ p.strs) (ha : σ.mem.Absent call.bytes)
    (hin : call.symbolInserts = true) (hl : σ.mem.strs.len + 1 < 2 ^ 32) :
    ∃ σ', ReflTransGen (Step p) σ σ' ∧ σ'.pc t = .unlock call σ.mem.strs.len ∧
      (∀ u ≠ t, σ'.pc u = σ.pc u) ∧ σ'.returned = σ.returned ∧ σ'.mem.strs.len = σ.mem.strs.len + 1 ∧
      σ'.mem.strs.get σ.mem.strs.len = some call.bytes := by
  rcases find_solo hp h hr hno with ⟨miss,hru,_⟩ | ⟨index,_,hg⟩
  · have h1 : Inv p (σ.goto t (.lock call miss)) :=
      h.run hp hru (by show σ.mem.strs.len < 2 ^ 32; omega)
    have hac : (σ.goto t (.lock call miss)).act p t = some { σ.goto t (.locked call miss) with holder := some t } := by
      have hn : (σ.goto t (.lock call miss)).holder = none := hf
      simp [act,hn,goto_goto]
    have h2 := h1.act (by show σ.mem.strs.len < 2 ^ 32; omega) hac
    obtain ⟨m3,table,slot,hst3,hs⟩ := searchLocked_absent h2 (goto_pc _ _ _) ha hin
    have h3 := h2.act (by show σ.mem.strs.len < 2 ^ 32; omega) hs
    have hlen3 : m3.strs.len = σ.mem.strs.len := congrArg SymbolStrs.len hst3
    obtain ⟨m4,hlen4,hget4,hpu⟩ := pushString_act h3 (goto_pc _ _ _) hin (by show m3.strs.len < 2 ^ 32; omega)
    have h4 := h3.act (by show m3.strs.len < 2 ^ 32; omega) hpu
    have hlen4' := hlen4.trans (congrArg (· + 1) hlen3)
    obtain ⟨m5,hst5,hst⟩ := storeEntry_act h4 (goto_pc _ _ _) (by show m4.strs.len < 2 ^ 32; omega)
    refine ⟨_,(((hru.trans (step_act hac)).trans (step_act hs)).trans (step_act hpu)).trans (step_act hst),
      ?_,?_,rfl,?_,?_⟩
    · rw [← hlen3]
      exact goto_pc _ _ _
    · intro u hu
      simp [goto,hu]
    · show m5.strs.len = _
      exact (congrArg SymbolStrs.len hst5).trans hlen4'
    · show m5.strs.get _ = _
      rw [hst5,← hlen3]
      exact hget4
  · exact absurd hg (ha index)

theorem lookup_solo (hp : p.Built) (h : Inv p σ) (hr : atRest (σ.pc t) = true) (hu : σ.pc u = .unlock other index)
    (hn : call.bytes ∉ p.strs) (hg : σ.mem.strs.get index = some call.bytes) :
    ReflTransGen (Step p) σ (σ.finish t call ((p.base + index) % 2 ^ 32)) := by
  have hok := h.writer hu rfl
  rcases find_solo hp h hr hn with ⟨miss,_,ha⟩ | ⟨index',hru,hg'⟩
  · obtain ⟨slots,hs,hst⟩ := hok.stored
    exact absurd (hst.held index (SymbolStrs.lt_of_get hg) call.bytes hg) (ha slots hs)
  · rwa [← hok.inj index' index call.bytes hg' hg]

def letterA : Bytes := [97]
def letterB : Bytes := [98]
def letterC : Bytes := [99]

def internCall (bytes : Bytes) : Call := ⟨bytes,0,none,true⟩

def extraStrings (n : Nat) : List Bytes := (List.range n).map fun i => List.replicate (i + 2) 97

theorem extraStrings_nodup (n : Nat) : (extraStrings n).Nodup := by
  refine List.Nodup.map (fun i j hij => ?_) nodup_range
  have hl := congrArg length hij
  simpa using hl

theorem not_mem_extraStrings (h : bytes.length < 2) (n : Nat) : bytes ∉ extraStrings n := by
  intro hm
  obtain ⟨i,_,rfl⟩ := mem_map.mp hm
  simp at h

theorem finish_eq (σ : Config T) (t : T) (call : Call) (h : index ≤ symbolIndexMax) :
    σ.finish t call index = { σ.goto t .idle with returned := σ.returned ++ [(call.bytes,index)] } := by
  simp [finish,symbolNew,h]

theorem finish_returned (σ : Config T) (t : T) (call : Call) (h : index ≤ symbolIndexMax) :
    (σ.finish t call index).returned = σ.returned ++ [(call.bytes,index)] ∧
    atRest ((σ.finish t call index).pc t) = true := by
  simp [finish_eq σ t call h,goto,atRest]

theorem intern_predefined (hp : p.Built) (σ : Config T) (t : T)
    (hin : p.strs[index]? = some call.bytes) : σ.intern p t call = σ.finish t call index := by
  rcases hp.find_eq call.bytes with ⟨index',hf,hi'⟩ | ⟨_,hn⟩
  · have h1 := List.getElem_of_getElem? hin
    have h2 := List.getElem_of_getElem? hi'
    obtain rfl := (List.Nodup.getElem_inj_iff hp.nodup).mp (h1.2.trans h2.2.symm)
    rw [intern,Call.hash,hf]
  · exact absurd (mem_of_getElem? hin) hn

theorem length_of_mem_letters (h : bytes ∈ [letterA,letterB]) : bytes.length < 2 := by
  rcases mem_cons.mp h with rfl | h
  · decide
  · rw [mem_singleton.mp h]
    decide

theorem overflowed_index_reuses_symbol : ∃ p, PredefinedSymbols.new [letterA,letterB] = some p ∧
    ∃ σ : Config Bool, Occurs p σ ∧
      (letterC,0) ∈ σ.returned ∧ (letterA,0) ∈ σ.returned ∧ letterC ≠ letterA := by
  obtain ⟨p,hn,hs,hp⟩ := new_built (show [letterA,letterB].Nodup by decide) (by decide)
  have hb : p.base = 2 := by rw [base,hs]; rfl
  have hA : p.strs[0]? = some (internCall letterA).bytes := by rw [hs]; rfl
  have hC : (internCall letterC).bytes ∉ p.strs := by rw [hs]; decide
  have hno : ∀ bytes ∈ extraStrings (2 ^ 32 - 2), bytes ∉ p.strs := fun bytes hby hme =>
    not_mem_extraStrings (length_of_mem_letters (hs ▸ hme)) _ hby
  obtain ⟨m,hm,hl,ha⟩ := new_complete hp 0 (extraStrings_nodup (2 ^ 32 - 2)) hno (by simp [extraStrings,hb])
    (by simp [extraStrings])
  have hl : m.strs.len = 2 ^ 32 - 2 := by simpa [extraStrings] using hl
  have hr : m.strs.len + 1 < 2 ^ 32 := by omega
  have hz : (p.base + m.strs.len) % 2 ^ 32 = 0 := by rw [hb,hl]; norm_num
  have hin : Initial (T := Bool) p ⟨m,⟨[],[]⟩,none,fun _ => .idle,[]⟩ := ⟨_,_,m,hm,rfl⟩
  obtain ⟨σ₁,hr₁,hpc₁,ho,_,hl₁,hg₁⟩ := insert_solo hp (Inv.initial hp hin) (t := false)
    rfl rfl hC (ha _ (not_mem_extraStrings (by decide) _)) rfl hr
  have h₁ := (Inv.initial hp hin).run hp hr₁ (by rw [hl₁]; exact hr)
  have hre₁ : atRest (σ₁.pc true) = true := by rw [ho true (by decide)]; rfl
  have hru₂ := lookup_solo hp h₁ hre₁ hpc₁ hC hg₁
  obtain ⟨hre₂,hr₂⟩ := finish_returned σ₁ true (internCall letterC)
    (show (p.base + m.strs.len) % 2 ^ 32 ≤ symbolIndexMax by rw [hz]; decide)
  have hit := intern_predefined hp (σ₁.finish true (internCall letterC) ((p.base + m.strs.len) % 2 ^ 32)) true hA
  refine ⟨p,hn,_,⟨_,hin,(hr₁.trans hru₂).tail (.intern true (internCall letterA) hr₂)⟩,?_,?_,by decide⟩
  · rw [hit,(finish_returned _ _ _ (by decide)).1,hre₂,hz]
    simp [internCall]
  · rw [hit,(finish_returned _ _ _ (by decide)).1]
    simp [internCall]

theorem unlock_act (hpc : σ.pc t = .unlock call index) (h : p.base + index ≤ symbolIndexMax) :
    σ.act p t = some { (σ.goto t .idle).release with returned := σ.returned ++ [(call.bytes,p.base + index)] } := by
  have hg : globalIndex p.base index = some (p.base + index) := if_pos (h.trans_lt (by decide))
  simp only [act,hpc,unlockReturn,hg,finish_eq _ _ _ h]
  rfl

theorem search_present (h : Ok p m m.strs.len) (hm : MissOk m bytes miss) (hg : m.strs.get index = some bytes) :
    m.search bytes (symbolHash bytes) miss = some (.ok index) := by
  obtain ⟨slots,hs,hst⟩ := h.stored
  have hh := hst.held index (SymbolStrs.lt_of_get hg) bytes hg
  rcases search_spec h hm with ⟨index',hse,hg'⟩ | ⟨slot,_,hsl⟩
  · rwa [h.inj index index' bytes hg hg']
  cases slot with
  | none =>
    have hc : m.current = none := hsl
    obtain rfl := currentSlots_of_none hc hs
    obtain ⟨i,hi,_⟩ := hh
    exact absurd hi (Nat.not_lt_zero i)
  | some slot =>
    obtain ⟨table,slots',d,hfr⟩ := hsl
    obtain rfl : slots' = slots := by simpa [currentSlots,hfr.current,hfr.at_table] using hs
    exact absurd hh ((h.tables table slots' hfr.at_table).absent hfr.reached (hfr.slot_eq ▸ hfr.empty))

-- A miss that the lock-free probe brings along from before the insertion does no harm.
theorem resume_solo (h : Inv p σ) (hpc : σ.pc t = .lock call miss) (hf : σ.holder = none) (hl : σ.mem.strs.len < 2 ^ 32)
    (hg : σ.mem.strs.get index = some call.bytes) (hi : p.base + index ≤ symbolIndexMax) :
    ReflTransGen (Step p) σ
    { (σ.goto t .idle).release with returned := σ.returned ++ [(call.bytes,p.base + index)] } := by
  have hac : σ.act p t = some { σ.goto t (.locked call miss) with holder := some t } := by simp [act,hpc,hf]
  have h₁ := h.act hl hac
  have hse := search_present (h₁.writer (goto_pc _ _ _) rfl) (h₁.pcOk (goto_pc _ _ _)).2 hg
  have hfo : Config.act p { σ.goto t (.locked call miss) with holder := some t } t =
      some { σ.goto t (.unlock call index) with holder := some t } := by
    simp only [act,goto_pc,searchLocked,Call.hash]
    rw [hse]
    simp [goto]
  have hun := unlock_act (p := p) (σ := { σ.goto t (.unlock call index) with holder := some t }) (goto_pc σ t _) hi
  refine ((step_act hac).trans (step_act hfo)).trans (step_act (t := t) ?_)
  rw [hun]
  simp [goto,release]

theorem current_of_stored (h : Ok p m m.strs.len) (hl : 0 < m.strs.len) : m.current.isSome := by
  obtain ⟨slots,hs,hst⟩ := h.stored
  cases hc : m.current with
  | some table => rfl
  | none =>
    obtain rfl := currentSlots_of_none hc hs
    have := hst.half
    simp at this
    omega

theorem withSourceLen_zero (p : PredefinedSymbols) :
    (withSourceLen 0 0).current = none ∧ (withSourceLen 0 0).strs.len = 0 := by
  refine ⟨?_,by rw [(withSourceLen_ok p 0 0).2]; rfl⟩
  have hm : max (max (0 / 128) (0 * 2)) symbolIndicesFirstSlots = 2 ^ 12 := by decide
  have hf : nextPowerOfTwo (2 ^ 12) = 2 ^ 12 := by rw [nextPowerOfTwo,Nat.clog_pow _ _ (by decide)]
  simp only [withSourceLen]
  rw [hm,hf]
  rfl

theorem letters_numbered : ∃ p, PredefinedSymbols.new [letterA,letterB] = some p ∧ ∃ σ σ' : Config Bool,
      Occurs p σ ∧ σ.mem.current = none ∧ σ.pc true = .lock (internCall letterC) ⟨none,0⟩ ∧ ReflTransGen (Step p) σ σ' ∧
      σ'.mem.current.isSome ∧ σ'.returned = [(letterC,2),(letterC,2)] ∧ Numbered p σ' := by
  obtain ⟨p,hn,hs,hnu⟩ := interner_numbers_strings (show [letterA,letterB].Nodup by decide) (by decide)
  obtain ⟨p',hn',_,hp⟩ := new_built (show [letterA,letterB].Nodup by decide) (by decide)
  obtain rfl : p' = p := Option.some.inj (hn'.symm.trans hn)
  have hb : p'.base = 2 := by rw [base,hs]; rfl
  have hC : (internCall letterC).bytes ∉ p'.strs := by rw [hs]; decide
  obtain ⟨hc,hl⟩ := withSourceLen_zero p'
  let σ₀ : Config Bool := ⟨withSourceLen 0 0,⟨[],[]⟩,none,fun _ => .idle,[]⟩
  have hin : Initial p' σ₀ := ⟨[],0,_,rfl,rfl⟩
  -- one thread misses while there is no table yet
  let σ₁ := σ₀.goto true (.lock (internCall letterC) ⟨none,0⟩)
  have hr₁ : ReflTransGen (Step p') σ₀ σ₁ := find_without_table hp rfl hC hc
  have h₁ : Inv p' σ₁ := (Inv.initial hp hin).run hp hr₁ (by show (withSourceLen 0 0).strs.len < _; omega)
  have hab : σ₁.mem.Absent letterC := fun index hg => by
    have hlt : index < (withSourceLen 0 0).strs.len := SymbolStrs.lt_of_get hg
    omega
  -- the other inserts, into the table it makes
  obtain ⟨σ₂,hr₂,hpc₂,ho₂,hre₂,hl₂,hg₂⟩ := insert_solo hp h₁ (t := false) rfl rfl hC hab rfl
    (by show (withSourceLen 0 0).strs.len + 1 < _; omega)
  replace hl₂ : σ₂.mem.strs.len = 1 := hl₂.trans (congrArg (· + 1) hl)
  rw [show σ₁.mem.strs.len = 0 from hl] at hpc₂ hg₂
  have h₂ := h₁.run hp hr₂ (by omega)
  have hi : p'.base + 0 ≤ symbolIndexMax := by rw [hb]; decide
  have hun := unlock_act hpc₂ hi
  have h₃ := h₂.act (by omega) hun
  have hpc₃ := (ho₂ true (by decide)).trans (goto_pc σ₀ true (.lock (internCall letterC) ⟨none,0⟩))
  have hr₄ := resume_solo (t := true) h₃ hpc₃ rfl (by show σ₂.mem.strs.len < _; omega) hg₂ hi
  have hr := (hr₂.trans (step_act hun)).trans hr₄
  refine ⟨p',hn,σ₁,_,⟨σ₀,hin,hr₁⟩,hc,goto_pc _ _ _,hr,?_,?_,?_⟩
  · show σ₂.mem.current.isSome
    exact current_of_stored (h₂.writer hpc₂ rfl) (by omega)
  · show σ₂.returned ++ [(letterC,p'.base + 0)] ++ [(letterC,p'.base + 0)] = _
    rw [hre₂,hb]
    rfl
  · refine hnu Bool _ ⟨σ₀,hin,hr₁.trans hr⟩ ?_ ?_
    · show σ₂.mem.strs.len < _
      omega
    · show p'.base + σ₂.mem.strs.len ≤ _
      omega

end Interner

end Frontend.Symbol
