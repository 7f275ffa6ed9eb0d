import Frontend.Library.PreorderTree

namespace Frontend.Library

open List

section

variable {α : Type*} {E : α → α → Prop} {P Q : α → Prop} {a b x y z : α}

inductive Route (E : α → α → Prop) : α → List α → α → Prop
  | nil (x : α) : Route E x [x] x
  | cons {x y z : α} {p : List α} : E x y → Route E y p z → Route E x (x :: p) z

inductive Until (E : α → α → Prop) (P : α → Prop) : α → α → Prop
  | refl (x : α) : Until E P x x
  | step {x y z : α} : P x → E x y → Until E P y z → Until E P x z

def Hop (E : α → α → Prop) (P : α → Prop) (x z : α) : Prop := ∃ y, E x y ∧ Until E P y z

def Dominates (E : α → α → Prop) (root a b : α) : Prop := ∀ p, Route E root p b → a ∈ p

namespace Until

theorem mono (h : Until E P x z) (hPQ : ∀ v, P v → Q v) : Until E Q x z := by
  induction h with
  | refl => exact .refl _
  | step hx he _ ih => exact .step (hPQ _ hx) he ih

theorem trans (h : Until E P x y) (h' : Until E P y z) : Until E P x z := by
  induction h with
  | refl => exact h'
  | step hx he _ ih => exact .step hx he (ih h')

theorem last (h : Until E P x z) : x = z ∨ ∃ y, Until E P x y ∧ P y ∧ E y z := by
  induction h with
  | refl => exact .inl rfl
  | @step x y z hx he _ ih =>
    rcases ih with rfl | ⟨v,hv,hP,hl⟩
    · exact .inr ⟨x,.refl x,hx,he⟩
    · exact .inr ⟨v,.step hx he hv,hP,hl⟩

theorem first (h : Until E P x z) (hz : Q z) : ∃ y, Q y ∧ (y = z ∨ P y) ∧ Until E (fun v => ¬ Q v ∧ P v) x y := by
  induction h with
  | refl z => exact ⟨z,hz,.inl rfl,.refl z⟩
  | @step x y z hx he _ ih =>
    by_cases hQ : Q x
    · exact ⟨x,hQ,.inr hx,.refl x⟩
    · obtain ⟨v,hv,hen,hb⟩ := ih hz
      exact ⟨v,hv,hen,.step ⟨hQ,hx⟩ he hb⟩

end Until

theorem Until.route (h : Until E P x z) : ∃ p, Route E x p z := by
  induction h with
  | refl x => exact ⟨[x],.nil x⟩
  | step _ he _ ih =>
    obtain ⟨p,hp⟩ := ih
    exact ⟨_,.cons he hp⟩

variable {p : List α} {root : α}

theorem Route.until_mem (h : Route E x p z) (ha : a ∈ p) : Until E (fun _ => True) x a := by
  induction h with
  | nil x =>
    obtain rfl := mem_singleton.mp ha
    exact .refl a
  | cons he _ ih =>
    rcases mem_cons.mp ha with rfl | ha
    · exact .refl a
    · exact .step trivial he (ih ha)

theorem Route.end_mem (h : Route E x p z) : z ∈ p := by
  induction h with
  | nil x => exact mem_singleton_self x
  | cons _ _ ih => exact .tail _ ih

theorem Route.upto (h : Route E x p z) (ha : a ∈ p) : ∃ q, Route E x q a ∧ q ⊆ p := by
  induction h with
  | nil x =>
    obtain rfl := mem_singleton.mp ha
    exact ⟨[a],.nil a,fun _ h => h⟩
  | @cons x y z p he _ ih =>
    rcases mem_cons.mp ha with rfl | ha
    · exact ⟨[a],.nil a,by simp⟩
    · obtain ⟨q,hq,hs⟩ := ih ha
      exact ⟨x :: q,.cons he hq,cons_subset_cons x hs⟩

theorem not_dominates_iff : ¬ Dominates E root a b ↔ b ≠ a ∧ Until E (fun v => v ≠ a) root b := by
  constructor
  · intro h
    simp only [Dominates,not_forall] at h
    obtain ⟨p,hp,ha⟩ := h
    induction hp with
    | nil x => exact ⟨fun hx => ha (by simp [hx]),.refl x⟩
    | @cons x y z p he _ ih =>
      obtain ⟨hne,hu⟩ := ih fun hp => ha (.tail _ hp)
      exact ⟨hne,.step (fun hx => ha (by simp [hx])) he hu⟩
  · rintro ⟨hne,hu⟩ h
    have hav : ∃ p, Route E root p b ∧ a ∉ p := by
      clear h
      induction hu with
      | refl x => exact ⟨[x],.nil x,by simpa using hne.symm⟩
      | @step x y z hx he _ ih =>
        obtain ⟨p,hp,ha⟩ := ih hne
        exact ⟨x :: p,.cons he hp,by simpa using ⟨hx.symm,ha⟩⟩
    obtain ⟨p,hp,ha⟩ := hav
    exact ha (h p hp)

theorem dominates_self : Dominates E root a a := by
  by_contra h
  exact (not_dominates_iff.mp h).1 rfl

theorem Dominates.trans (h : Dominates E root a b) (h' : Dominates E root b c) : Dominates E root a c := by
  intro p hp
  obtain ⟨q,hq,hs⟩ := hp.upto (h' p hp)
  exact hs (h q hq)

structure Immediate (E : α → α → Prop) (root d b : α) : Prop where
  ne : d ≠ b
  dominates : Dominates E root d b
  closest : ∀ a, a ≠ b → Dominates E root a b → Dominates E root a d

end

structure DfsTree (E : Nat → Nat → Prop) (parent : Nat → Nat) (m : Nat) : Prop where
  preorder : PreorderTree parent m
  bounds : ∀ u v, E u v → u < m ∧ v < m
  edge : ∀ v, 0 < v → v < m → E (parent v) v
  forward : ∀ u v, E u v → u < v → Ancestor parent u v

structure Semidominator (E : Nat → Nat → Prop) (s w : Nat) : Prop where
  hop : Hop E (fun v => w < v) s w
  least : ∀ x, Hop E (fun v => w < v) x w → s ≤ x

namespace DfsTree

variable {E : Nat → Nat → Prop} {parent : Nat → Nat} {m a d s t u v w x y z : Nat} {P Y : Nat → Prop}

theorem until_of_tree (T : DfsTree E parent m) (hv : v < m) (huv : Ancestor parent u v)
    (hP : ∀ x, Ancestor parent u x → Ancestor parent x v → x ≠ v → P x) : Until E P u v := by
  induction huv with
  | refl => exact .refl _
  | @up v hp hup ih =>
    have hlt := T.preorder.parent_lt hp hv
    have hpa : Ancestor parent (parent v) v := .of_parent hp
    refine (ih (hlt.trans hv) fun x hux hx _ => hP x hux (hx.trans hpa) ?_).trans ?_
    · exact Nat.ne_of_lt (Nat.lt_of_le_of_lt (T.preorder.le (hlt.trans hv) hx) hlt)
    · exact .step (hP _ hup hpa hlt.ne) (T.edge v hp hv) (.refl v)

theorem until_of_ancestor (T : DfsTree E parent m) (hv : v < m) (huv : Ancestor parent u v)
    (hP : ∀ x, u ≤ x → x < v → P x) : Until E P u v := by
  refine T.until_of_tree hv huv fun x hux hxv hne => ?_
  have hlt := Nat.lt_of_le_of_ne (T.preorder.le hv hxv) hne
  exact hP x (T.preorder.le (hlt.trans hv) hux) hlt

theorem until_above (T : DfsTree E parent m) (hc : ∀ y u, Y y → Ancestor parent u y → P u → Y u)
    (hy : Y y) (h : Until E (fun v => ¬ Y v ∧ P v) x y) : y ≤ x ∧ Until E (fun v => y < v) x y := by
  induction h with
  | refl => exact ⟨le_rfl,.refl _⟩
  | @step x z y hx he _ ih =>
    obtain ⟨hle,ha⟩ := ih hy
    have hxy : y < x := by
      by_contra hlt
      have hxz : x < z ∨ x = z := by omega
      rcases hxz with hxz | rfl
      · have hd := T.forward x z he hxz
        have hyx := T.preorder.interval (T.bounds x z he).2 hd (by omega) hle
        exact hx.1 (hc y x hy hyx hx.2)
      · exact hx.1 ((show y = x by omega) ▸ hy)
    exact ⟨hxy.le,.step hxy he ha⟩

theorem hop_of_until (T : DfsTree E parent m) (hc : ∀ y u, Y y → Ancestor parent u y → P u → Y u) (he : E x z)
    (h : Until E P z w) (hw : Y w) : ∃ y, Y y ∧ (y = w ∨ P y) ∧ Hop E (fun v => y < v) x y := by
  obtain ⟨y,hy,hen,hb⟩ := h.first hw
  exact ⟨y,hy,hen,z,he,(T.until_above hc hy hb).2⟩

theorem last_below (hsw : s < w) (h : Until E (fun v => v ≠ s) x w) :
    Until E (fun v => s < v) x w ∧ s < x ∨ ∃ y z, y < s ∧ E y z ∧ Until E (fun v => s < v) z w := by
  induction h with
  | refl => exact .inl ⟨.refl _,hsw⟩
  | @step x z w hx he _ ih =>
    rcases ih hsw with ⟨hr,-⟩ | hb
    · rcases Nat.lt_or_gt_of_ne hx with hlt | hgt
      · exact .inr ⟨x,z,hlt,he,hr⟩
      · exact .inl ⟨.step hgt he hr,hgt⟩
    · exact .inr hb

section

variable (T : DfsTree E parent m)

include T

theorem bypass (hsw : s < w) (h : Until E (fun v => v ≠ s) 0 w) :
    ∃ x y, x < s ∧ s < y ∧ Ancestor parent y w ∧ Hop E (fun v => y < v) x y := by
  rcases last_below hsw h with ⟨-,hlt⟩ | ⟨x,z,hx,he,hr⟩
  · exact absurd hlt (Nat.not_lt_zero s)
  have hc : ∀ y u, (s < y ∧ Ancestor parent y w) → Ancestor parent u y → s < u →
      s < u ∧ Ancestor parent u w := fun y u hy hu hsu => ⟨hsu,hu.trans hy.2⟩
  obtain ⟨y,⟨hsy,hyw⟩,-,hh⟩ := T.hop_of_until hc he hr ⟨hsw,.refl w⟩
  exact ⟨x,y,hx,hsy,hyw,hh⟩

theorem semi_lt (hp : 0 < w) (hw : w < m) (h : Semidominator E s w) :
    s < w := Nat.lt_of_le_of_lt (h.least _ ⟨w,T.edge w hp hw,.refl w⟩) (T.preorder.parent_lt hp hw)

theorem semi_of_min {semi : Nat → Nat} (hp : 0 < w) (hw : w < m)
    (hs : ∀ u, w < u → u < m → Semidominator E (semi u) u)
    (hed : ∀ v, E v w → v < w → s ≤ v)
    (ha : ∀ v u, E v w → w < u → Ancestor parent u v → s ≤ semi u)
    (hf : E s w ∨ ∃ v u, E v w ∧ w < u ∧ Ancestor parent u v ∧ semi u = s) :
    Semidominator E s w := by
  have hr : s < w := by
    have hlt := T.preorder.parent_lt hp hw
    exact Nat.lt_of_le_of_lt (hed _ (T.edge w hp hw) hlt) hlt
  refine ⟨?_,fun x hx => ?_⟩
  · rcases hf with he | ⟨v,u,he,hwu,huv,rfl⟩
    · exact ⟨w,he,.refl w⟩
    · have hv := (T.bounds v w he).1
      have hu := Nat.lt_of_le_of_lt (T.preorder.le hv huv) hv
      obtain ⟨z,hz,hun⟩ := (hs u hwu hu).hop
      have hd := T.until_of_ancestor hv huv fun x hux _ => hwu.trans_le hux
      have hl := hwu.trans_le (T.preorder.le hv huv)
      refine ⟨z,hz,((hun.mono fun x hx => hwu.trans hx).trans hd).trans ?_⟩
      exact .step hl he (.refl w)
  · obtain ⟨z,he,hun⟩ := hx
    rcases hun.last with rfl | ⟨v,hb,hwv,hl⟩
    · rcases Nat.lt_or_ge x z with hlt | hge
      · exact hed x he hlt
      · exact hr.le.trans hge
    · have hc y u (hy : Ancestor parent y v) (hu : Ancestor parent u y) (_ : w < u) : Ancestor parent u v := hu.trans hy
      obtain ⟨y,hyv,hen,hh⟩ := T.hop_of_until hc he hb (.refl v)
      have hwy : w < y := by
        rcases hen with rfl | hwy
        · exact hwv
        · exact hwy
      have hv := (T.bounds v w hl).1
      have hy := Nat.lt_of_le_of_lt (T.preorder.le hv hyv) hv
      exact Nat.le_trans (ha v y hl hwy hyv) ((hs y hwy hy).least x hh)

theorem dominates_ancestor (hw : w < m) (h : Dominates E 0 a w) : Ancestor parent a w := by
  by_contra hn
  have hne : w ≠ a := by
    rintro rfl
    exact hn (.refl w)
  refine not_dominates_iff.mpr ⟨hne,?_⟩ h
  refine T.until_of_tree hw (T.preorder.root hw) fun x _ hxw _ hxa => ?_
  exact hn (hxa ▸ hxw)

theorem dominates_le (hw : w < m) (h : Dominates E 0 a w) : a ≤ w := T.preorder.le hw (T.dominates_ancestor hw h)

theorem dominates_semi (hw : w < m) (hs : Semidominator E s w)
    (hne : a ≠ w) (h : Dominates E 0 a w) : Dominates E 0 a s := by
  by_contra hn
  obtain ⟨hsa,hu⟩ := not_dominates_iff.mp hn
  obtain ⟨z,he,hr⟩ := hs.hop
  have haw := Nat.lt_of_le_of_ne (T.dominates_le hw h) hne
  refine not_dominates_iff.mpr ⟨hne.symm,hu.trans (.step hsa he ?_)⟩ h
  exact hr.mono fun x hx => Nat.ne_of_gt (haw.trans hx)

theorem immediate_semi (hp : 0 < w) (hw : w < m) (hs : Semidominator E s w)
    (h : ∀ u, s < u → Ancestor parent u w → ∀ x, Hop E (fun v => u < v) x u → s ≤ x) :
    Immediate E 0 s w where
  ne := Nat.ne_of_lt (T.semi_lt hp hw hs)
  dominates := by
    by_contra hn
    obtain ⟨-,hu⟩ := not_dominates_iff.mp hn
    obtain ⟨x,y,hxs,hsy,hyw,hh⟩ := T.bypass (T.semi_lt hp hw hs) hu
    have hle := h y hsy hyw x hh
    omega
  closest := fun a hne ha => T.dominates_semi hw hs hne ha

theorem immediate_relative (hw : w < m) (hs : Semidominator E s w) (hsu : s < u) (huw : Ancestor parent u w)
    (ht : Semidominator E t u)
    (h : ∀ y, s < y → Ancestor parent y w → ∀ x, Hop E (fun v => y < v) x y → t ≤ x)
    (hd : Immediate E 0 d u) : Immediate E 0 d w := by
  have hle := T.preorder.le hw huw
  have hu : u < m := hle.trans_lt hw
  have hdu := Nat.lt_of_le_of_ne (T.dominates_le hu hd.dominates) hd.ne
  have hdw : d < w := hdu.trans_le hle
  refine ⟨Nat.ne_of_lt hdw,?_,fun a hne ha => hd.closest a ?_ ?_⟩
  · by_contra hn
    obtain ⟨-,hun⟩ := not_dominates_iff.mp hn
    obtain ⟨x,y,hxd,hdy,hyw,z,he,hr⟩ := T.bypass hdw hun
    rcases Nat.lt_or_ge s y with hsy | hys
    · have htx := h y hsy hyw x ⟨z,he,hr⟩
      have htu := T.semi_lt (by omega) hu ht
      have hdt := T.dominates_le (htu.trans hu) (T.dominates_semi hu ht hd.ne hd.dominates)
      omega
    · have hyu := T.preorder.of_both hw hyw huw (by omega)
      have hx := (T.bounds x z he).1
      refine not_dominates_iff.mpr ⟨hd.ne.symm,?_⟩ hd.dominates
      refine (T.until_of_ancestor hx (T.preorder.root hx) fun v _ hv => ?_).trans
        (.step hxd.ne he ((hr.mono fun v hv => ?_).trans (T.until_of_ancestor hu hyu fun v hv _ => ?_)))
      all_goals omega
  · have has := T.dominates_le (hsu.trans_le hu.le) (T.dominates_semi hw hs hne ha)
    omega
  · by_contra hn
    have has := T.dominates_le (hsu.trans_le hu.le) (T.dominates_semi hw hs hne ha)
    obtain ⟨-,hun⟩ := not_dominates_iff.mp hn
    refine not_dominates_iff.mpr ⟨hne.symm,hun.trans ?_⟩ ha
    exact T.until_of_ancestor hw huw fun v hv _ => by omega

end

end DfsTree

end Frontend.Library
