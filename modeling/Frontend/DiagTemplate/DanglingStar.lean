import Frontend.DiagTemplate.Scan

namespace Frontend.DiagTemplate

open Library List

variable {src : Bytes} {i j k m : Nat}

def Star (src : Bytes) (j : Nat) : Prop :=
  ∃ b k, b < k ∧ k < j ∧ src[b]? = some (byte '\n') ∧ src[k]? = some (byte '*') ∧ ∀ x, b < x → x < j →
    x ≠ k → src[x]? = some (byte ' ')

def Dangles (src : Bytes) (i j : Nat) : Prop := ∃ e, i ≤ e ∧ e < j ∧ src[e]? = some (byte '\x7d') ∧ Star src e

theorem dangles_append (him : i ≤ m) (hmj : m ≤ j) : Dangles src i j ↔ Dangles src i m ∨ Dangles src m j := by
  constructor
  · rintro ⟨e,h1,h2,h3⟩
    by_cases he : e < m
    · exact .inl ⟨e,h1,he,h3⟩
    · exact .inr ⟨e,by omega,h2,h3⟩
  · rintro (⟨e,h1,h2,h3⟩ | ⟨e,h1,h2,h3⟩)
    · exact ⟨e,h1,by omega,h3⟩
    · exact ⟨e,by omega,h2,h3⟩

theorem Free.not_dangles (h : Free src '\x7d' i j) : ¬Dangles src i j := by
  rintro ⟨e,h1,h2,h3,_⟩
  exact h e h1 h2 h3

theorem Free.dangles (h : Free src '\x7d' i m) (him : i ≤ m) : Dangles src i j ↔ Dangles src m j := by
  refine exists_congr fun e => ⟨fun ⟨h1,h2,h3,h4⟩ => ⟨?_,h2,h3,h4⟩,fun ⟨h1,h2⟩ => ⟨him.trans h1,h2⟩⟩
  by_contra he
  exact h e h1 (by omega) h3

theorem Free.star (h : Free src '*' i j) (hij : i ≤ j) (hs : Star src j) : Star src i := by
  obtain ⟨b,k,hbk,hkj,hb,hk,hsp⟩ := hs
  have hki : k < i := by
    by_contra hle
    exact h k (by omega) hkj hk
  exact ⟨b,k,hbk,hki,hb,hk,fun x h1 h2 => hsp x h1 (by omega)⟩

theorem Scans.star (h : Scans src (· = byte ' ') i j) (hs : Star src i) : Star src j := by
  obtain ⟨b,k,hbk,hki,hb,hk,hsp⟩ := hs
  have hle := h.le
  refine ⟨b,k,hbk,by omega,hb,hk,fun x h1 h2 hx => ?_⟩
  by_cases hxi : x < i
  · exact hsp x h1 hxi hx
  · obtain ⟨c,hc,rfl⟩ := h.bytes x (by omega) h2
    exact hc

theorem not_star_of_last (h : src[j - 1]? = some c) (hs : c ≠ byte ' ') (ht : c ≠ byte '*') : ¬Star src j := by
  rintro ⟨b,k,hbk,hkj,_,hk,hsp⟩
  by_cases hx : j - 1 = k
  · rw [hx,hk,Option.some.injEq] at h
    exact ht h.symm
  · rw [hsp (j - 1) (by omega) (by omega) hx,Option.some.injEq] at h
    exact hs h.symm

theorem LineHead.not_star (h : LineHead src j) : ¬Star src j := by
  obtain ⟨b,hbj,hb,hsp⟩ := h
  rintro ⟨b',k,hbk,hkj,_,hk,hsp'⟩
  rcases lt_trichotomy k b with hlt | rfl | hgt
  · exact absurd (hb.symm.trans (hsp' b (by omega) hbj hlt.ne')) (by decide)
  · exact absurd (hb.symm.trans hk) (by decide)
  · exact absurd (hk.symm.trans (hsp k hgt hkj)) (by decide)

theorem LineHead.star (h : LineHead src i) (hi : src[i]? = some (byte '*')) : Star src (i + 1) := by
  obtain ⟨b,hbi,hb,hsp⟩ := h
  exact ⟨b,i,hbi,by omega,hb,hi,fun x h1 h2 hx => hsp x h1 (by omega)⟩

theorem InLine.not_dangles (h : InLine src (i + 1) j) (hq : src[i]? = some (byte '"')) : ¬Dangles src i j := by
  rintro ⟨e,h1,h2,he,b,k,hbk,hke,hb,hk,hsp⟩
  have hei : e ≠ i := by
    rintro rfl
    exact absurd (hq.symm.trans he) (by decide)
  have hbi : i < b := by
    by_contra hle
    by_cases hbe : b = i
    · exact absurd (hq.symm.trans (hbe ▸ hb)) (by decide)
    by_cases hki : i = k
    · exact absurd (hq.symm.trans (hki ▸ hk)) (by decide)
    · exact absurd (hq.symm.trans (hsp i (by omega) (by omega) hki)) (by decide)
  obtain ⟨c,hc,hne⟩ := h.bytes b (by omega) (by omega)
  rw [hb,Option.some.injEq] at hc
  exact hne hc.symm

def GoodSelect (s : SelectExpr) : Prop := s.2.countP Variant.default = 1

def Bad (S : List SelectExpr) : Prop := ∃ s ∈ S, ¬GoodSelect s

theorem not_bad_nil : ¬Bad [] := by simp [Bad]

theorem bad_append : Bad (S ++ T) ↔ Bad S ∨ Bad T := by simp [Bad,or_and_right,exists_or]

theorem bad_cons : Bad (s :: S) ↔ ¬GoodSelect s ∨ Bad S := by simp [Bad]

def Draft.placeables (d : Draft) : List Expression :=
  d.elements.filterMap fun
    | .Placeable x => some x
    | .Text .. => none

def Draft.selects (d : Draft) : List SelectExpr := d.placeables.flatMap Expression.selects

def Draft.Keeps (d : Draft) : Prop := ∀ n x, d.elements[n]? = some (.Placeable x) →
    ∃ last, d.lastNonBlank = some last ∧ n ≤ last

theorem Draft.selects_start (role : Position) : (Draft.start role).selects = [] := rfl

theorem Draft.selects_pushPlaceable (d : Draft) (x : Expression) :
    (d.pushPlaceable x).selects = d.selects ++ x.selects := by
  simp [Draft.selects,Draft.placeables,Draft.pushPlaceable]

theorem Draft.keeps_pushPlaceable (d : Draft) (x : Expression) : (d.pushPlaceable x).Keeps := by
  intro n y h
  refine ⟨d.elements.length,rfl,?_⟩
  have hlt := lt_of_getElem? h
  simp only [Draft.pushPlaceable,List.length_append,List.length_singleton] at hlt
  omega

theorem Draft.selects_pushText (d : Draft) (a b c : Nat) (t : TextSlice) : (d.pushText a b c t).selects = d.selects := by
  unfold Draft.pushText
  dsimp only
  split
  · rfl
  · split
    · simp [Draft.selects,Draft.placeables]
    · rfl

theorem Draft.Keeps.pushText {d : Draft} (h : d.Keeps) (a b c : Nat) (t : TextSlice) : (d.pushText a b c t).Keeps := by
  unfold Draft.pushText
  dsimp only
  split
  · exact h
  split
  · intro n x hn
    rcases getElem?_concat.mp hn with hn | ⟨-,⟨⟩⟩
    · obtain ⟨last,hl,hle⟩ := h n x hn
      dsimp only
      split
      · exact ⟨_,rfl,(lt_of_getElem? hn).le⟩
      · exact ⟨last,hl,hle⟩
  · exact h

theorem Draft.role_pushText (d : Draft) (a b c : Nat) (t : TextSlice) (h : (d.pushText a b c t).role = .LineStart) :
    t.termination = .LineFeed ∨ t.termination = .Crlf := by
  unfold Draft.pushText at h
  dsimp only at h
  cases ht : t.termination with
  | LineFeed => exact .inl rfl
  | Crlf => exact .inr rfl
  | PlaceableStart => simp only [ht] at h; split at h <;> [skip; split at h] <;> cases h
  | Eof => simp only [ht] at h; split at h <;> [skip; split at h] <;> cases h

end Frontend.DiagTemplate
