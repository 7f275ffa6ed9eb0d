import Frontend.Arena.Disjoint

namespace Frontend.Arena.DroplessArena

open DroplessArena

variable {t : Target} {layout : Layout t} {arena : DroplessArena t} {base : Usize t}

theorem mod_le_sub {W A x : Nat} (hW : W ∣ A) (hA : 0 < A) (hx : W ∣ x) : x % A + W ≤ A := by
  have hl := Nat.mod_lt x hA
  have hd : W ∣ A - x % A := Nat.dvd_sub hW ((Nat.dvd_mod_iff hW).mpr hx)
  have hle := Nat.le_of_dvd (Nat.sub_pos_of_lt hl) hd
  omega

theorem room_iff {W A F : Nat} (base : Nat) (hA : 0 < A) (hd : A ∣ W ∨ W ∣ A) (hW : 0 < W) (hF : W ∣ F)
    (hp : max W A ≤ F + W) :
    base % W + (base - base % W + F) % A ≤ F ↔ ¬ (F + W = max W A ∧ 0 < base % max W A ∧ base % max W A < W) := by
  have hr := Nat.mod_lt base hW
  have hb : W ∣ base - base % W := Nat.dvd_sub_mod base
  rcases hd with hd | hd
  · rw [max_eq_left (Nat.le_of_dvd hW hd),Nat.mod_eq_zero_of_dvd (hd.trans (Nat.dvd_add hb hF))]
    rcases Nat.eq_zero_or_pos F with rfl | hF0
    · omega
    · have hle := Nat.le_of_dvd hF0 hF
      omega
  · rw [max_eq_right (Nat.le_of_dvd hA hd)] at hp ⊢
    have hx := mod_le_sub hd hA (Nat.dvd_add hb hF)
    rcases Nat.lt_or_ge F A with hlt | hge
    · have hle := Nat.le_of_dvd (Nat.sub_pos_of_lt hlt) (Nat.dvd_sub hd hF)
      have hq := Nat.mod_lt base hA
      have hm : base % A % W = base % W := Nat.mod_mod_of_dvd base hd
      have hbase := Nat.div_add_mod base A
      rcases Nat.lt_or_ge (base % A) W with hqw | hqw
      · rw [Nat.mod_eq_of_lt hqw] at hm
        have he : base - base % W + F = A * (base / A) + F := by omega
        rw [he,Nat.mul_add_mod,Nat.mod_eq_of_lt hlt]
        omega
      · have hmw := Nat.mod_lt (base % A) hW
        have hc : W ≤ base % A - base % W := by
          have hpos : 0 < base % A - base % A % W := by omega
          exact hm ▸ Nat.le_of_dvd hpos (Nat.dvd_sub_mod _)
        have hlast : base % A - base % W - W < A := by omega
        have he : base - base % W + F = A * (base / A + 1) + (base % A - base % W - W) := by
          rw [Nat.mul_add]
          omega
        rw [he,Nat.mul_add_mod,Nat.mod_eq_of_lt hlast]
        generalize base % A = q at *
        omega
    · omega

def bytes (layout : Layout t) : Nat := (alignUp layout.size (droplessAlignment t)).toNat

-- The chunk is exactly as long as the padded request, nothing of the padding is spare, and the
-- storage starts a few bytes behind an aligned address.
def Tight (arena : DroplessArena t) (layout : Layout t) (base : Usize t) : Prop :=
  layout.size.toNat % 2 ^ t.wordLog = 1 ∧ 2 ^ 12 ∣ paddedSize layout ∧ arena.doubledLen ≤ paddedSize layout ∧
    0 < base.toNat % max (2 ^ t.wordLog) (2 ^ layout.alignLog) ∧
      base.toNat % max (2 ^ t.wordLog) (2 ^ layout.alignLog) < 2 ^ t.wordLog

theorem bump_isSome_iff : (arena.bump layout).isSome ↔ bytes layout ≤ arena.stop.toNat ∧
      arena.start.toNat + (arena.stop.toNat - bytes layout) % 2 ^ layout.alignLog ≤ arena.stop.toNat - bytes layout := by
  unfold bump
  dsimp only
  by_cases hb : alignUp layout.size (droplessAlignment t) ≤ arena.stop
  · have hb' : bytes layout ≤ arena.stop.toNat := BitVec.le_def.1 hb
    have hd := toNat_alignDown layout.align_lt (arena.stop - alignUp layout.size (droplessAlignment t))
    rw [BitVec.toNat_sub_of_le hb] at hd
    have hm := Nat.mod_le (arena.stop.toNat - bytes layout) (2 ^ layout.alignLog)
    rw [if_pos hb,Layout.align]
    simp only [Option.isSome_ite,BitVec.le_def,hd,hb',true_and]
    unfold bytes at hm ⊢
    omega
  · simp [if_neg hb,mt BitVec.le_def.2 hb,bytes]

theorem bytes_spec (layout : Layout t) : layout.size.toNat ≤ bytes layout ∧
    bytes layout < layout.size.toNat + 2 ^ t.wordLog ∧
      2 ^ t.wordLog ∣ bytes layout := by
  have hs := layout.size_le
  have hb := t.bits_bounds
  have ha := Nat.two_pow_pos layout.alignLog
  obtain ⟨hle,hd⟩ := layout.bytes_spec
  refine ⟨hle,?_,hd⟩
  rw [bytes,droplessAlignment,toNat_alignUp t.wordLog_lt (by omega)]
  omega

theorem bytes_max_iff (layout : Layout t) :
    bytes layout + 1 = layout.size.toNat + 2 ^ t.wordLog ↔ layout.size.toNat % 2 ^ t.wordLog = 1 := by
  obtain ⟨hle,hlt,q,hq⟩ := bytes_spec layout
  rw [hq] at hle hlt ⊢
  cases t <;> simp only [Target.wordLog] at * <;> omega

theorem newCap_eq_iff (arena : DroplessArena t) (layout : Layout t) :
    (arena.newCap layout).toNat = paddedSize layout ↔ 2 ^ 12 ∣ paddedSize layout ∧
    arena.doubledLen ≤ paddedSize layout := by
  obtain ⟨hp,hd,hlt,hc⟩ := newCap_spec arena layout
  constructor
  · intro he
    rw [he] at hd hc
    exact ⟨hc,hd⟩
  · rintro ⟨hc',hd'⟩
    rw [max_eq_left hd'] at hlt
    omega

theorem spare_iff (arena : DroplessArena t) (layout : Layout t) :
    (arena.newCap layout).toNat + 2 ^ t.wordLog = max (2 ^ t.wordLog) (2 ^ layout.alignLog) + bytes layout ↔
      layout.size.toNat % 2 ^ t.wordLog = 1 ∧ 2 ^ 12 ∣ paddedSize layout ∧ arena.doubledLen ≤ paddedSize layout := by
  obtain ⟨-,hlt,-⟩ := bytes_spec layout
  have hn := (newCap_spec arena layout).1
  rw [← bytes_max_iff,← newCap_eq_iff]
  rw [paddedSize] at hn ⊢
  omega

theorem grow_fits_iff (hf : base.toNat + (arena.newCap layout).toNat < 2 ^ t.bits) :
    ((arena.grow layout base).bump layout).isSome ↔ ¬ arena.Tight layout base := by
  obtain ⟨hs,hlt,hd⟩ := bytes_spec layout
  obtain ⟨hn,-,-,hp⟩ := newCap_spec arena layout
  have hW := Nat.two_pow_pos t.wordLog
  have hA := Nat.two_pow_pos layout.alignLog
  have hpd : 2 ^ t.wordLog ∣ (arena.newCap layout).toNat := (Nat.pow_dvd_pow 2 (by cases t <;> decide)).trans hp
  have hAW : 2 ^ layout.alignLog ∣ 2 ^ t.wordLog ∨ 2 ^ t.wordLog ∣ 2 ^ layout.alignLog :=
    (Nat.le_total layout.alignLog t.wordLog).imp (Nat.pow_dvd_pow 2) (Nat.pow_dvd_pow 2)
  have hsp := spare_iff arena layout
  rw [paddedSize] at hn
  have hroom := room_iff base.toNat hA hAW hW (Nat.dvd_sub hpd hd) (by omega)
  have ht : arena.Tight layout base ↔ (arena.newCap layout).toNat - bytes layout + 2 ^ t.wordLog = max
    (2 ^ t.wordLog) (2 ^ layout.alignLog) ∧
      0 < base.toNat % max (2 ^ t.wordLog) (2 ^ layout.alignLog) ∧ base.toNat % max (2 ^ t.wordLog)
          (2 ^ layout.alignLog) < 2 ^ t.wordLog := by
    have he : (arena.newCap layout).toNat - bytes layout + 2 ^ t.wordLog = max (2 ^ t.wordLog) (2 ^ layout.alignLog) ↔
      (arena.newCap layout).toNat + 2 ^ t.wordLog = max (2 ^ t.wordLog) (2 ^ layout.alignLog) + bytes layout := by omega
    rw [he,hsp,Tight,and_assoc,and_assoc]
  have hr := Nat.mod_le base.toNat (2 ^ t.wordLog)
  rw [bump_isSome_iff,toNat_stop_grow hf,ht,← hroom]
  change _ ∧ base.toNat + _ ≤ _ ↔ _
  generalize (arena.newCap layout).toNat = cap at *
  generalize bytes layout = b at *
  generalize base.toNat % 2 ^ t.wordLog = r at *
  rw [show base.toNat + cap - r - b = base.toNat - r + (cap - b) by omega]
  omega

theorem one_growth_suffices_iff (arena : DroplessArena t) (layout : Layout t) (base : Usize t)
    (hs : layout.size ≠ 0#t.bits)
    (hn : arena.bump layout = none) (hf : base.toNat + (arena.newCap layout).toNat < 2 ^ t.bits) :
    (arena.allocRaw layout [base]).isSome ↔ ¬ arena.Tight layout base := by
  rw [← grow_fits_iff hf,allocRaw,if_neg hs]
  cases h : (arena.grow layout base).bump layout <;> simp [allocLoop,hn,h]

theorem small_request_fits : ¬ default.Tight smallLayout 0x10003#64 ∧
    (default.allocRaw smallLayout [0x10003#64]).isSome :=
  have h : ¬ default.Tight smallLayout 0x10003#64 := by simp [Tight,smallLayout,Target.wordLog]
  ⟨h,(one_growth_suffices_iff .default smallLayout 0x10003#64 (by decide) (by decide) (by decide)).mpr h⟩

def nearPage : Layout .bits64 := ⟨4089#64,0,pageLayout.align_lt,by decide⟩

theorem near_page_request_grows_twice : default.bump nearPage = none ∧
      (default.grow nearPage 0x10001#64).bump nearPage = none ∧
      (0x10001#64).toNat + (default.newCap nearPage).toNat < 2 ^ 64 := by
  refine ⟨by decide,by decide,by decide⟩

end Frontend.Arena.DroplessArena
