import Frontend.Symbol.SessionInsert

namespace Frontend.Symbol

open List Option

namespace Interner

section

open Session

variable {p : PredefinedSymbols} {m m' : Session} {bytes : Bytes} (conflicting : List Bytes)

theorem withSourceLen_ok (p : PredefinedSymbols) (sourceLen extraSymbolCount : Nat) :
    Ok p (withSourceLen sourceLen extraSymbolCount) 0 ∧ (withSourceLen sourceLen extraSymbolCount).strs = .new := by
  rw [withSourceLen]
  split
  · have hz : sessionKey .new 0 = none := by simp [sessionKey]
    have ht : TableOk .new (List.replicate
        (nextPowerOfTwo (max (max (sourceLen / 128) (extraSymbolCount * 2)) symbolIndicesFirstSlots)) 0) :=
      ⟨Library.Probing.table_replicate hz,fun entry he hne => absurd (eq_of_mem_replicate he) hne⟩
    refine ⟨⟨?_,by simp,by simp,Nat.zero_le _,_,rfl,?_,Nat.zero_le _,by simp⟩,rfl⟩
    · intro table slots hs
      cases table with
      | zero =>
        rw [getElem?_cons_zero,some.injEq] at hs
        exact hs ▸ ht
      | succ table => simp at hs
    · simp [Library.Probing.fill,countP_replicate,sessionKey]
  · refine ⟨⟨by simp,by simp,by simp,Nat.zero_le _,[],rfl,?_,le_rfl,by simp⟩,rfl⟩
    simp [Library.Probing.fill]

theorem addExtra_cases (hp : p.Built) (h : Ok p m m.strs.len) (bytes : Bytes) :
    addExtra p m conflicting bytes = some (m,conflicting ++ [bytes]) ∧
    (bytes ∈ p.strs ∨ ∃ index, m.strs.get index = some bytes) ∨
    (∃ m', addExtra p m conflicting bytes = some (m',conflicting) ∧ m'.strs.len = m.strs.len + 1 ∧
    m'.strs.get m.strs.len = some bytes ∧
      Grown m.strs m'.strs ∧ Ok p m' m'.strs.len ∧ p.base + m'.strs.len ≤ 2 ^ 32) ∨
    addExtra p m conflicting bytes = none ∧ (2 ^ 32 ≤ m.strs.len + 1 ∨ 2 ^ 32 ≤ p.base + m.strs.len) := by
  rcases hp.find_eq bytes with ⟨index,hf,hid⟩ | ⟨hf,hn⟩
  · exact .inl ⟨by simp [addExtra,hf],.inl (mem_of_getElem? hid)⟩
  rcases find_spec h bytes with ⟨index,hs,hg⟩ | ⟨miss,slot,hs,hm,hsl⟩
  · exact .inl ⟨by simp [addExtra,hf,hs],.inr ⟨index,hg⟩⟩
  rcases findOrInsert_spec h hm hn with ⟨index,_,hg⟩ | ⟨_,hin⟩
  · exact absurd hg (h.absent hsl index)
  rcases hin with ⟨m',hin,hl,hg,hgr,hok⟩ | ⟨hin,hl⟩
  · by_cases hc : p.base + m.strs.len < 2 ^ 32
    · have hgl : globalIndex p.base m.strs.len = some (p.base + m.strs.len) := if_pos hc
      exact .inr (.inl ⟨m',by simp [addExtra,hf,hs,hin,hgl],hl,hg,hgr,hok,by omega⟩)
    · have hgl : globalIndex p.base m.strs.len = none := if_neg hc
      refine .inr (.inr ⟨?_,.inr (by omega)⟩)
      simp [addExtra,hf,hs,hin,hgl]
  · exact .inr (.inr ⟨by simp [addExtra,hf,hs,hin],.inl hl⟩)

variable {extra : List Bytes}

theorem addExtras_ok (hp : p.Built) (h : Ok p m m.strs.len) (hc : p.base + m.strs.len ≤ 2 ^ 32)
    (hr : addExtras p extra (m,conflicting) = some (m',conflicting')) :
    Ok p m' m'.strs.len ∧ p.base + m'.strs.len ≤ 2 ^ 32 := by
  induction extra generalizing m conflicting with
  | nil =>
    obtain ⟨rfl,_⟩ : m = m' ∧ conflicting = conflicting' := by simpa [addExtras] using hr
    exact ⟨h,hc⟩
  | cons bytes extra ih =>
    rcases addExtra_cases conflicting hp h bytes with
      ⟨ha,_⟩ | ⟨m1,ha,_,_,_,hok,hcap1⟩ | ⟨ha,_⟩
    · exact ih _ h hc (by simpa [addExtras,ha] using hr)
    · exact ih _ hok hcap1 (by simpa [addExtras,ha] using hr)
    · simp [addExtras,ha] at hr

theorem new_ok (hp : p.Built) (hn : new p extra sourceLen = some m) : Ok p m m.strs.len ∧
    p.base + m.strs.len ≤ 2 ^ 32 := by
  obtain ⟨hok,hs⟩ := withSourceLen_ok p sourceLen extra.length
  have hl : (withSourceLen sourceLen extra.length).strs.len = 0 := by rw [hs]; rfl
  simp only [new,bind_eq_bind,bind_eq_some_iff] at hn
  obtain ⟨⟨m',conflicting⟩,hr,hd⟩ := hn
  have hsh := hp.short
  have hb : p.base + (withSourceLen sourceLen extra.length).strs.len ≤ 2 ^ 32 := by
    simp only [hl,PredefinedSymbols.base,emptySlot] at hsh ⊢
    omega
  obtain rfl : m' = m := by
    simp only at hd
    split at hd
    · simpa using hd
    · cases hd
  exact addExtras_ok [] hp (hl ▸ hok) hb hr

theorem addExtras_complete (hp : p.Built) (h : Ok p m m.strs.len) (hno : extra.Nodup)
    (hn : ∀ bytes ∈ extra, bytes ∉ p.strs) (hf : ∀ bytes ∈ extra, m.Absent bytes)
    (hc : p.base + (m.strs.len + extra.length) ≤ 2 ^ 32)
    (hle : m.strs.len + extra.length < 2 ^ 32) :
    ∃ m', addExtras p extra (m,conflicting) = some (m',conflicting) ∧ m'.strs.len = m.strs.len + extra.length ∧
      ∀ bytes, m.Absent bytes → bytes ∉ extra → m'.Absent bytes := by
  induction extra generalizing m with
  | nil => exact ⟨m,rfl,rfl,fun _ h _ => h⟩
  | cons bytes extra ih =>
    obtain ⟨hh,ht⟩ := nodup_cons.mp hno
    simp only [length_cons] at hc hle
    rcases addExtra_cases conflicting hp h bytes with
      ⟨_,hm | ⟨index,hg⟩⟩ | ⟨m1,ha,hlen1,hget1,hgr,hok,_⟩ | ⟨_,hba | hba⟩
    · exact absurd hm (hn bytes (.head _))
    · exact absurd hg (hf bytes (.head _) index)
    · have hnw : ∀ other, m.Absent other → other ≠ bytes → m1.Absent other := by
        intro other ho hne index hin
        have hlt := SymbolStrs.lt_of_get hin
        by_cases hl : index = m.strs.len
        · rw [hl,hget1,some.injEq] at hin
          exact hne hin.symm
        obtain ⟨x,hx⟩ := Option.isSome_iff_exists.mp (SymbolStrs.get_isSome.mpr (show index < m.strs.len by omega))
        have hx' := hgr index x hx
        rw [hin,some.injEq] at hx'
        exact ho index (hx' ▸ hx)
      obtain ⟨m',hr,hl',hab⟩ := ih hok ht (fun b hb => hn b (.tail _ hb))
        (fun b hb => hnw b (hf b (.tail _ hb)) fun heq => hh (heq ▸ hb))
        (by omega) (by omega)
      refine ⟨m',by simpa [addExtras,ha] using hr,by simp only [length_cons]; omega,?_⟩
      intro other ho hm
      rw [mem_cons,not_or] at hm
      exact hab other (hnw other ho hm.1) hm.2
    · omega
    · omega

theorem new_complete (hp : p.Built) (sourceLen : Nat) (hno : extra.Nodup)
    (hnt : ∀ bytes ∈ extra, bytes ∉ p.strs) (hc : p.base + extra.length ≤ 2 ^ 32)
    (hl : extra.length < 2 ^ 32) :
    ∃ m, new p extra sourceLen = some m ∧ m.strs.len = extra.length ∧ ∀ bytes, bytes ∉ extra → m.Absent bytes := by
  obtain ⟨hok,hs⟩ := withSourceLen_ok p sourceLen extra.length
  have hz : (withSourceLen sourceLen extra.length).strs.len = 0 := by rw [hs]; rfl
  have hn : ∀ bytes, (withSourceLen sourceLen extra.length).Absent bytes := by
    intro bytes index
    rw [hs]
    simp
  obtain ⟨m,hr,hm,ha⟩ := addExtras_complete [] hp (hz ▸ hok) hno hnt (fun bytes _ => hn bytes) (by omega) (by omega)
  exact ⟨m,by simp [new,hr],by omega,fun bytes hb => ha bytes (hn bytes) hb⟩

end

end Interner

end Frontend.Symbol
