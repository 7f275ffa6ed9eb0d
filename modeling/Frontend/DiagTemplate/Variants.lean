import Frontend.DiagTemplate.DanglingStar
import Frontend.DiagTemplate.Render

namespace Frontend.DiagTemplate

open Library List Inline

variable {src : Bytes} {i j k m : Nat}

def Placeholder.selects : Placeholder → List SelectExpr
  | .Placeable x => x.selects
  | .Text .. => []

theorem Draft.selects_eq (d : Draft) : d.selects = d.elements.flatMap Placeholder.selects := by
  unfold Draft.selects Draft.placeables
  induction d.elements with
  | nil => rfl
  | cons e es ih => cases e <;> simp [Placeholder.selects,ih]

theorem flatMap_mapIdx {f : Nat → α → β} {g : β → List γ} (hf : ∀ n a, g (f n a) = h a) (l : List α) :
    (l.mapIdx f).flatMap g = l.flatMap h := by
  induction l generalizing f with
  | nil => simp
  | cons a l ih => rw [mapIdx_cons,flatMap_cons,flatMap_cons,hf,ih fun n => hf (n + 1)]

theorem Draft.Keeps.selects_finish {d : Draft} (h : d.Keeps) (hp : d.finish src = some p) : p.selects = d.selects := by
  unfold Draft.finish at hp
  cases hl : d.lastNonBlank with
  | none => simp [hl] at hp
  | some last =>
    simp only [hl,Option.some.injEq] at hp
    subst hp
    have hd : (d.elements.drop (last + 1)).flatMap Placeholder.selects = [] := by
      rw [flatMap_eq_nil_iff]
      intro e he
      obtain ⟨n,hn⟩ := mem_iff_getElem?.mp he
      rw [getElem?_drop] at hn
      cases e with
      | Text => rfl
      | Placeable x =>
        obtain ⟨last',hl',hle⟩ := h _ x hn
        rw [hl,Option.some.injEq] at hl'
        omega
    rw [Pattern.selects,elementsSelects_eq_flatMap,d.selects_eq,
      flatMap_mapIdx (h := Placeholder.selects) fun n e => by
      cases e <;> simp [Draft.finishElement,Placeholder.selects,Element.selects]]
    conv_rhs => rw [← take_append_drop (last + 1) d.elements,flatMap_append,hd,append_nil]

def LineSpec (src : Bytes) (d : Draft) (i : Nat) : Line → Prop
  | .stop j => i ≤ j ∧ j ≤ src.length ∧ Free src '\x7d' i j ∧ (LineHead src j ∨ j = src.length)
  | .next d' j => i < j ∧ j ≤ src.length ∧ Free src '\x7d' i j ∧ d'.selects = d.selects ∧
      (d.Keeps → d'.Keeps) ∧ (d'.role = .LineStart → AtLine src j)

theorem textElement_outcome (hi : i < src.length) (hb : src[i]? ≠ some (byte '\x7b'))
    (hd : d.role = .LineStart → AtLine src i) :
    Outcome completes (LineSpec src d i) (textElement src d i) := by
  have hp {j a b c} (hij : i ≤ j) (hj : j < src.length) (hf : Free src '\x7d' i j) (hpr : j = i ∨ i < j) :
    Outcome completes (LineSpec src d i)
        (getTextSlice src j >>= fun text => pure (Line.next (d.pushText a b c text) text.ptr)) := by
    refine (getTextSlice_outcome hj).bind fun t ht => ?_
    refine ⟨?_,ht.le_length,hf.append ht.free,d.selects_pushText ..,fun h => h.pushText _ _ _ _,
      fun h => ht.line (d.role_pushText _ _ _ _ h)⟩
    have hle := ht.le
    rcases hpr with rfl | hlt
    · rcases ht.progress with h | h
      · exact h
      · exact absurd h hb
    · omega
  unfold textElement
  split
  · rename_i hr
    have hs := skipBlankInline_scans hi.le
    have hle := hs.le
    have hf : Free src '\x7d' i (skipBlankInline src i) := hs.free (by decide)
    dsimp only
    cases hc : src[skipBlankInline src i]? with
    | none =>
      have hl : skipBlankInline src i = src.length := by
        have := getElem?_eq_none_iff.mp hc
        have := hs.le_length
        omega
      exact ⟨hle,hs.le_length,hf,.inr hl⟩
    | some b =>
      dsimp only
      split
      · rename_i heq
        split
        · rename_i hne
          refine ⟨hle,hs.le_length,hf,.inl ?_⟩
          rw [heq] at hc ⊢
          rcases hd hr with h | h
          · exact h.lineHead
          · rw [hc,Option.some.injEq] at h
            exact absurd h hne.2
        · exact hp hle (lt_of_getElem? hc) hf (.inl heq)
      rename_i hne
      split
      · refine ⟨le_rfl,hi.le,.refl,.inl ?_⟩
        rcases hd hr with h | h
        · exact h.lineHead
        · obtain ⟨c,hc',rfl⟩ := hs.bytes i le_rfl (by omega)
          rw [hc',Option.some.injEq] at h
          exact absurd h (by decide)
      · exact hp hle (lt_of_getElem? hc) hf (.inr (by omega))
  · exact hp le_rfl hi .refl (.inl rfl)

section

variable (src : Bytes)

def InlineSpec (i : Nat) (r : Inline × Nat) : Prop :=
  i < r.2 ∧ r.2 ≤ src.length ∧ (Bad r.1.selects ↔ Dangles src i r.2) ∧ ¬Star src r.2

def ExpressionSpec (i : Nat) (r : Expression × Nat) : Prop :=
  i < r.2 ∧ r.2 ≤ src.length ∧ (r.2 < src.length → (Bad r.1.selects ↔ Dangles src i r.2 ∨ Star src r.2))

def PlaceableSpec (i : Nat) (r : Expression × Nat) : Prop :=
  i < r.2 ∧ r.2 ≤ src.length ∧ (Bad r.1.selects ↔ Dangles src i r.2) ∧ src[r.2 - 1]? = some (byte '\x7d')

def LoopSpec (d : Draft) (i : Nat) (r : Draft × Nat) : Prop :=
  i ≤ r.2 ∧ r.2 ≤ src.length ∧ r.1.Keeps ∧ (Bad r.1.selects ↔ Bad d.selects ∨ Dangles src i r.2) ∧
    (LineHead src r.2 ∨ r.2 = src.length)

def PatternSpec (i : Nat) (r : Option Pattern × Nat) : Prop :=
  i ≤ r.2 ∧ r.2 ≤ src.length ∧ (∀ p, r.1 = some p → (Bad p.selects ↔ Dangles src i r.2)) ∧
    (LineHead src r.2 ∨ r.2 = src.length)

def BadVariants (vs : List Variant) : Prop := vs.countP Variant.default ≠ 1 ∨ Bad (variantsSelects vs)

def VariantsSpec (vs : List Variant) (i : Nat) (r : List Variant × Nat) : Prop :=
  i ≤ r.2 ∧ r.2 ≤ src.length ∧ (r.2 < src.length →
    (BadVariants r.1 ↔ Bad (variantsSelects vs) ∨ Dangles src i r.2 ∨ Star src r.2))

def ArgumentsSpec (args : List Inline) (i : Nat) (r : List Inline × Nat) : Prop :=
  i ≤ r.2 ∧ r.2 ≤ src.length ∧ (Bad (r.1.flatMap selects) ↔ Bad (args.flatMap selects) ∨ Dangles src i r.2)

end

structure Specs (src : Bytes) (fuel : Nat) : Prop where
  pattern : ∀ {i}, i ≤ src.length → 8 * (src.length - i) + 2 ≤ fuel → Outcome completes (PatternSpec src i)
    (getPattern src fuel i)
  loop : ∀ {d i}, i ≤ src.length → d.Keeps → (d.role = .LineStart → AtLine src i) → 8 * (src.length - i) + 1 ≤ fuel →
    Outcome completes (LoopSpec src d i) (patternLoop src fuel d i)
  placeable : ∀ {i}, i ≤ src.length → 8 * (src.length - i) + 3 ≤ fuel → Outcome completes (PlaceableSpec src i)
    (getPlaceable src fuel i)
  expression : ∀ {i}, i ≤ src.length → 8 * (src.length - i) + 2 ≤ fuel →
    Outcome completes (ExpressionSpec src i) (getExpression src fuel i)
  variants : ∀ {vs hasDefault i}, i ≤ src.length → LineHead src i ∨ i = src.length →
    vs.countP Variant.default = hasDefault.toNat → 8 * (src.length - i) + 1 ≤ fuel →
    Outcome completes (VariantsSpec src vs i) (getVariants src fuel vs hasDefault i)
  inline : ∀ {i}, i ≤ src.length → 8 * (src.length - i) + 1 ≤ fuel → Outcome completes (InlineSpec src i)
    (getInlineExpression src fuel i)
  call : ∀ {start name i}, i ≤ src.length → 8 * (src.length - i) + 3 ≤ fuel →
    Outcome completes (InlineSpec src i) (getCall src fuel start name i)
  arguments : ∀ {args i}, i ≤ src.length → 8 * (src.length - i) + 2 ≤ fuel →
    Outcome completes (ArgumentsSpec src args i) (getArguments src fuel args i)

section

variable {fuel : Nat}

theorem blank_free (hi : i ≤ src.length) : Free src '\x7d' i (skipBlank src i) :=
  (skipBlank_scans hi).free (by unfold blankByte; decide)

theorem Specs.placeable_succ (h : Specs src fuel) (hi : i ≤ src.length) (hf : 8 * (src.length - i) + 3 ≤ fuel + 1) :
    Outcome completes (PlaceableSpec src i) (getPlaceable src (fuel + 1) i) := by
  have hb := skipBlank_scans hi
  have hle := hb.le
  unfold getPlaceable
  refine (h.expression hb.le_length (by omega)).bind fun r ⟨h1,h2,h3⟩ => ?_
  have hs := skipBlankInline_scans h2
  have hsl := hs.le
  refine (expectByte_outcome '\x7d').bind fun j hj => ?_
  obtain ⟨rfl,hc⟩ := hj
  have hlt := lt_of_getElem? hc
  refine ⟨by dsimp only; omega,hlt,?_,hc⟩
  dsimp only
  have hsr : Star src r.2 ↔ Dangles src (skipBlankInline src r.2) (skipBlankInline src r.2 + 1) := by
    constructor
    · intro hst
      exact ⟨_,le_rfl,by omega,hc,hs.star hst⟩
    · rintro ⟨e,he1,he2,_,hst⟩
      obtain rfl : e = skipBlankInline src r.2 := by omega
      exact Free.star (hs.free (by decide)) hsl hst
  rw [h3 (by omega),(blank_free hi).dangles hle,dangles_append h1.le (by omega : r.2 ≤ skipBlankInline src r.2 + 1),
    Free.dangles (hs.free (by decide)) hsl,hsr]

theorem Specs.loop_succ (h : Specs src fuel) (hi : i ≤ src.length) (hk : d.Keeps)
    (hl : d.role = .LineStart → AtLine src i) (hf : 8 * (src.length - i) + 1 ≤ fuel + 1) :
    Outcome completes (LoopSpec src d i) (patternLoop src (fuel + 1) d i) := by
  unfold patternLoop
  split
  · rename_i hlt
    split
    · rename_i hb
      refine (h.placeable (by omega : i + 1 ≤ src.length) (by omega)).bind fun r hr => ?_
      obtain ⟨h1,h2,h3,_⟩ := hr
      refine (h.loop h2 (d.keeps_pushPlaceable r.1) (fun hr => by cases hr) (by omega)).imp fun s ⟨h4,h5,h6,h7,h8⟩ => ?_
      refine ⟨by omega,h5,h6,?_,h8⟩
      rw [h7,Draft.selects_pushPlaceable,bad_append,h3,(Free.single hb (by decide)).dangles (by omega),
        dangles_append h1.le h4,or_assoc]
    · rename_i hb
      refine (textElement_outcome hlt hb hl).bind fun line hli => ?_
      cases line with
      | stop j =>
        obtain ⟨h1,h2,h3,h4⟩ := hli
        exact ⟨h1,h2,hk,by simp [h3.not_dangles],h4⟩
      | next d' j =>
        obtain ⟨h1,h2,h3,h4,h5,h6⟩ := hli
        refine (h.loop h2 (h5 hk) h6 (by omega)).imp fun s ⟨h7,h8,h9,h10,h11⟩ => ?_
        refine ⟨by omega,h8,h9,?_,h11⟩
        rw [h10,h4,h3.dangles h1.le]
  · rename_i hlt
    have hn : ¬Dangles src i i := Free.refl.not_dangles
    exact ⟨le_rfl,hi,hk,by simp [hn],.inr (by dsimp only; omega)⟩

theorem Specs.pattern_succ (h : Specs src fuel) (hi : i ≤ src.length) (hf : 8 * (src.length - i) + 2 ≤ fuel + 1) :
    Outcome completes (PatternSpec src i) (getPattern src (fuel + 1) i) := by
  have hs := skipBlankInline_scans hi
  have hsl := hs.le
  have hsf : Free src '\x7d' i (skipBlankInline src i) := hs.free (by decide)
  have hfi {role j} (hij : i ≤ j) (hj : j ≤ src.length) (hfr : Free src '\x7d' i j)
    (hro : role = Position.LineStart → AtLine src j) :
      Outcome completes (PatternSpec src i) (patternLoop src fuel (.start role) j >>= fun r => pure
          (r.1.finish src,r.2)) := by
    refine (h.loop hj (fun n x h => by simp [Draft.start] at h) hro (by omega)).bind fun r ⟨h1,h2,h3,h4,h5⟩ => ?_
    refine ⟨by dsimp only; omega,h2,fun p hp => ?_,h5⟩
    rw [h3.selects_finish hp,h4,Draft.selects_start,hfr.dangles hij]
    simp only [not_bad_nil,false_or]
  unfold getPattern
  rcases skipEol_spec src (skipBlankInline src i) with he | ⟨j,he,hlt,hj,hn⟩
  · simp only [he]
    exact hfi hsl hs.le_length hsf fun hr => by cases hr
  simp only [he]
  obtain ⟨h1,h2⟩ := skipBlankBlockLoop_spec src.length hj.le_length hn
  have hle := h1.le
  refine hfi (by unfold skipBlankBlock; omega) h1.le_length ?_ fun _ => .inl h2
  exact (hsf.append (hj.free (by unfold blankByte; decide))).append (h1.free (by unfold blankByte; decide))

theorem Specs.expression_succ (h : Specs src fuel) (hi : i ≤ src.length) (hf : 8 * (src.length - i) + 2 ≤ fuel + 1) :
    Outcome completes (ExpressionSpec src i) (getExpression src (fuel + 1) i) := by
  unfold getExpression
  refine (h.inline hi (by omega)).bind fun r ⟨h1,h2,h3,h4⟩ => ?_
  have hb := skipBlank_scans h2
  have hbl := hb.le
  dsimp only
  split
  · refine ⟨by dsimp only; omega,hb.le_length,fun _ => ?_⟩
    have hst : ¬Star src (skipBlank src r.2) :=
      fun hs => h4 (((skipBlank_scans h2).free (by unfold blankByte; decide)).star hbl hs)
    simp only [Expression.selects]
    rw [h3,dangles_append h1.le hbl]
    simp [(blank_free h2).not_dangles,hst]
  · rename_i ha
    simp only [not_not] at ha
    have har1 : Free src '\x7d' (skipBlank src r.2) (skipBlank src r.2 + 1) := .single ha.1 (by decide)
    have har2 : Free src '\x7d' (skipBlank src r.2 + 1) (skipBlank src r.2 + 2) := .single ha.2 (by decide)
    have hlt := lt_of_getElem? ha.2
    have hs := skipBlankInline_scans (by omega : skipBlank src r.2 + 2 ≤ src.length)
    have hsl := hs.le
    rcases skipEol_spec src (skipBlankInline src (skipBlank src r.2 + 2)) with
      he | ⟨j,he,hjl,hj,hn⟩
    · simp only [he]
      simp
    simp only [he]
    have hb' := skipBlank_scans hj.le_length
    have hb'le := hb'.le
    have hfr : Free src '\x7d' (skipBlank src r.2) (skipBlank src j) :=
      (((har1.append har2).append (hs.free (by decide))).append
        (hj.free (by unfold blankByte; decide))).append (blank_free hj.le_length)
    have hv : Outcome completes (VariantsSpec src [] (skipBlank src j))
      (getVariants src fuel [] false (skipBlank src j)) :=
      h.variants hb'.le_length (.inl (hn.lineHead.skipBlank hj.le_length)) rfl (by omega)
    refine hv.bind fun s ⟨h5,h6,h7⟩ => ?_
    refine ⟨by dsimp only; omega,h6,fun hlt => ?_⟩
    have h8 := h7 hlt
    simp only [BadVariants,variantsSelects,not_bad_nil,false_or] at h8
    simp only [Expression.selects,bad_cons,bad_append,GoodSelect]
    rw [h3,dangles_append (j := s.2) h1.le (by omega),(blank_free h2).dangles hbl,hfr.dangles (by omega),
      or_left_comm,h8,or_assoc]

theorem Specs.arguments_succ (h : Specs src fuel) (hi : i ≤ src.length) (hf : 8 * (src.length - i) + 2 ≤ fuel + 1) :
    Outcome completes (ArgumentsSpec src args i) (getArguments src (fuel + 1) args i) := by
  unfold getArguments
  split
  · refine (h.inline hi (by omega)).bind fun r ⟨h1,h2,h3,_⟩ => ?_
    have hb := skipBlank_scans h2
    have hbl := hb.le
    have hco : Free src '\x7d' (skipBlank src r.2) (takeByteIf src ',' (skipBlank src r.2)).2 ∧
        skipBlank src r.2 ≤ (takeByteIf src ',' (skipBlank src r.2)).2 ∧
        (takeByteIf src ',' (skipBlank src r.2)).2 ≤ src.length := by
      rcases takeByteIf_cases src ',' (skipBlank src r.2) with ⟨he,hc⟩ | ⟨he,_⟩
      · rw [he]
        exact ⟨.single hc (by decide),by simp,lt_of_getElem? hc⟩
      · rw [he]
        exact ⟨.refl,le_rfl,hb.le_length⟩
    obtain ⟨hc1,hc2,hc3⟩ := hco
    have hb' := skipBlank_scans hc3
    have hb'le := hb'.le
    refine (h.arguments hb'.le_length (by omega)).imp fun s ⟨h4,h5,h6⟩ => ?_
    refine ⟨by omega,h5,?_⟩
    rw [h6,flatMap_append,bad_append,flatMap_singleton,h3,dangles_append (j := s.2) h1.le (by omega),
      (((blank_free h2).append hc1).append (blank_free hc3)).dangles (by omega),or_assoc]
  · have hn : ¬Dangles src i i := Free.refl.not_dangles
    exact ⟨le_rfl,hi,by simp [hn]⟩

theorem Specs.call_succ (h : Specs src fuel) (hi : i ≤ src.length) (hf : 8 * (src.length - i) + 3 ≤ fuel + 1) :
    Outcome completes (InlineSpec src i) (getCall src (fuel + 1) start name i) := by
  have hb := skipBlank_scans hi
  have hbl := hb.le
  unfold getCall
  split
  · simp
  refine (h.arguments hb.le_length (by omega)).bind fun r ⟨h1,h2,h3⟩ => ?_
  refine (expectByte_outcome ')').bind fun j hj => ?_
  obtain ⟨rfl,hc⟩ := hj
  split
  · rename_i a b hab
    refine ⟨by dsimp only; omega,lt_of_getElem? hc,?_,not_star_of_last hc (by decide) (by decide)⟩
    dsimp only
    rw [(blank_free hi).dangles hbl,dangles_append (j := r.2 + 1) h1 (by omega)]
    simp only [hab,flatMap_cons,flatMap_nil,append_nil] at h3
    simp only [selects,h3,(Free.single hc (by decide)).not_dangles,not_bad_nil,false_or,or_false]
  · simp

-- What `get_variants` does after the `[` at `j`.
def enterVariant (src : Bytes) (fuel : Nat) (vs : List Variant) (hasDefault default : Bool) (j : Nat) :
    Parsed (List Variant × Nat) := do
  let (key,ptr) ← getVariantKey src (j + 1)
  match ← getPattern src fuel ptr with
  | (none,ptr) => fail ptr "a variant must have a value"
  | (some value,ptr) => getVariants src fuel (vs ++ [.mk key value default]) (default || hasDefault) (skipBlank src ptr)

theorem Specs.enterVariant_outcome {ha default : Bool} (h : Specs src fuel) (hd : vs.countP Variant.default = ha.toNat)
    (hf : 8 * (src.length - i) + 1 ≤ fuel + 1) (hij : i ≤ j) (hj : src[j]? = some (byte '[')) (hfr : Free src '\x7d' i j)
    (ho : ¬(default = true ∧ ha = true)) : Outcome completes (VariantsSpec src vs i)
    (enterVariant src fuel vs ha default j) := by
  refine (getVariantKey_outcome (lt_of_getElem? hj)).bind fun r hr => ?_
  obtain ⟨h1,h2,h3⟩ := hr
  refine (h.pattern h2 (by omega)).bind fun s hs => ?_
  obtain ⟨h4,h5,h6,h7⟩ := hs
  rcases s with ⟨_ | value,ptr⟩
  · simp
  have hb := skipBlank_scans h5
  have hbl := hb.le
  dsimp only at hb hbl h4 h5 h6 h7 ⊢
  have hh : LineHead src (skipBlank src ptr) ∨ skipBlank src ptr = src.length := by
    rcases h7 with hlh | heq
    · exact .inl (hlh.skipBlank h5)
    · have := hb.le_length
      exact .inr (by omega)
  have hco : (vs ++ [Variant.mk r.1 value default]).countP Variant.default = (default || ha).toNat := by
    cases default <;> cases ha <;> simp_all [Variant.default]
  refine (h.variants hb.le_length hh hco (by omega)).imp fun t ht => ?_
  obtain ⟨h8,h9,h10⟩ := ht
  refine ⟨by omega,h9,fun hlt => ?_⟩
  have hno := (hfr.append (Free.single hj (by decide))).append h3
  rw [h10 hlt,variantsSelects_eq_flatMap,flatMap_append,bad_append,
    ← variantsSelects_eq_flatMap,flatMap_singleton,Variant.selects,h6 value rfl,hno.dangles (by omega),
    dangles_append (j := t.2) h4 (by omega),(blank_free h5).dangles hbl]
  simp only [or_assoc]

theorem Specs.variants_succ (h : Specs src fuel) (hi : i ≤ src.length) (hl : LineHead src i ∨ i = src.length)
    (hd : vs.countP Variant.default = ha.toNat)
    (hf : 8 * (src.length - i) + 1 ≤ fuel + 1) :
    Outcome completes (VariantsSpec src vs i) (getVariants src (fuel + 1) vs ha i) := by
  unfold getVariants
  rcases takeByteIf_cases src '*' i with ⟨he,hc⟩ | ⟨he,hc⟩
  · have hlt := lt_of_getElem? hc
    have hh : LineHead src i := by
      rcases hl with hl | hl
      · exact hl
      · omega
    have hfr : Free src '\x7d' i (i + 1) := .single hc (by decide)
    simp only [he]
    cases ha with
    | true => simp
    | false =>
      rcases takeByteIf_cases src '[' (i + 1) with ⟨he',hc'⟩ | ⟨he',_⟩
      · simp only [he',Bool.false_eq_true,and_false,if_false]
        exact h.enterVariant_outcome hd hf (by omega) hc' hfr (by simp)
      simp only [he',Bool.false_eq_true,and_false,if_false,Bool.or_false,if_true]
      refine ⟨by dsimp only; omega,hlt,fun _ => ?_⟩
      have hba : BadVariants vs := .inl (by rw [hd]; decide)
      exact ⟨fun _ => .inr (.inr (hh.star hc)),fun _ => hba⟩
  · simp only [he]
    rcases takeByteIf_cases src '[' i with ⟨he',hc'⟩ | ⟨he',_⟩
    · simp only [he',Bool.false_eq_true,false_and,if_false]
      exact h.enterVariant_outcome hd hf le_rfl hc' .refl (by simp)
    cases ha with
    | false => simp [he']
    | true =>
      simp only [he',Bool.false_eq_true,false_and,if_false,Bool.or_true,if_true]
      refine ⟨le_rfl,hi,fun hlt => ?_⟩
      have hh : LineHead src i := by
        rcases hl with hl | hl
        · exact hl
        · dsimp only at hlt
          omega
      have hn : ¬Dangles src i i := Free.refl.not_dangles
      simp [BadVariants,hd,hn,hh.not_star]

theorem Specs.inline_succ (h : Specs src fuel) (hi : i ≤ src.length) (hf : 8 * (src.length - i) + 1 ≤ fuel + 1) :
    Outcome completes (InlineSpec src i) (getInlineExpression src (fuel + 1) i) := by
  have hwo {x : Inline} {j} (hx : x.selects = []) (hw : Word src i j) : InlineSpec src i (x,j) := by
    obtain ⟨c,hc,hcw⟩ := hw.2.last hw.1
    refine ⟨hw.1,hw.2.le_length,?_,not_star_of_last hc hcw.1 hcw.2.1⟩
    have hno := (hw.2.free (c := '\x7d') (by unfold wordByte; simp)).not_dangles
    simp [hx,hno,not_bad_nil]
  unfold getInlineExpression
  cases hb : src[i]? with
  | none => simp
  | some b =>
    have hlt := lt_of_getElem? hb
    dsimp only
    split
    · rename_i hq
      subst hq
      refine (getStringLiteral_outcome hlt).bind fun r ⟨h1,h2,h3⟩ => ?_
      refine ⟨by dsimp only; omega,h2.le_length,?_,not_star_of_last h3 (by decide) (by decide)⟩
      simp [selects,h2.not_dangles hb,not_bad_nil]
    split
    · exact (getNumberLiteral_outcome hi).bind fun r hr => hwo (by simp [selects]) hr
    split
    · split
      · simp
      · exact (getNumberLiteral_outcome hi).bind fun r hr => hwo (by simp [selects]) hr
    split
    · rename_i hd
      subst hd
      refine getIdentifier_outcome.bind fun r hr => hwo (by simp [selects]) ?_
      have hlt' := hr.1
      exact ⟨by omega,(Scans.single hb (by unfold wordByte; decide)).append hr.2⟩
    split
    · rename_i ha
      have hw := getIdentifierUnchecked_word hb ha
      have hbl := skipBlank_scans hw.2.le_length
      have hbe := hbl.le
      rcases takeByteIf_cases src '(' (skipBlank src (getIdentifierUnchecked src (i + 1)).2) with ⟨he,hc⟩ | ⟨he,_⟩
      · simp only [he]
        have hlt' := lt_of_getElem? hc
        have hwl := hw.1
        refine (h.call hlt' (by omega)).imp fun r ⟨h1,h2,h3,h4⟩ => ?_
        have hfr := ((hw.2.free (c := '\x7d') (by unfold wordByte; simp)).append
          (blank_free hw.2.le_length)).append (.single hc (by decide))
        refine ⟨by omega,h2,?_,h4⟩
        rw [h3,hfr.dangles (by omega)]
      · simp only [he]
        simp
    split
    · rename_i hbr
      subst hbr
      refine (h.placeable hlt (by omega)).bind fun r ⟨h1,h2,h3,h4⟩ => ?_
      refine ⟨by dsimp only; omega,h2,?_,not_star_of_last h4 (by decide) (by decide)⟩
      simp only [selects]
      rw [h3,(Free.single hb (by decide)).dangles (by omega)]
    · simp

end

theorem specs (src : Bytes) (fuel : Nat) : Specs src fuel := by
  induction fuel with
  | zero => constructor <;> intros <;> omega
  | succ fuel ih =>
    exact ⟨ih.pattern_succ,ih.loop_succ,ih.placeable_succ,ih.expression_succ,ih.variants_succ,
      ih.inline_succ,ih.call_succ,ih.arguments_succ⟩

theorem getElem?_newline (hk : k < message.length) : (message ++ [byte '\n'])[k]? = message[k]? :=
  getElem?_append_left hk

theorem star_newline (hj : j ≤ message.length) : Star (message ++ [byte '\n']) j ↔ Star message j := by
  have he k (hk : k < j) : (message ++ [byte '\n'])[k]? = message[k]? := getElem?_newline (by omega)
  refine exists_congr fun b => exists_congr fun k => and_congr_right fun hb => and_congr_right fun hk => ?_
  rw [he b (by omega),he k hk]
  refine and_congr_right' (and_congr_right' (forall_congr' fun x => ?_))
  refine forall_congr' fun _ => forall_congr' fun _ => ?_
  rw [he x (by omega)]

theorem dangles_newline (message : Bytes) :
    Dangles (message ++ [byte '\n']) 0 (message.length + 1) ↔ Dangles message 0 message.length := by
  have hl : (message ++ [byte '\n'])[message.length]? = some (byte '\n') := by simp
  constructor
  · rintro ⟨e,h1,h2,he,hs⟩
    have hlt : e < message.length := by
      by_contra hge
      obtain rfl : e = message.length := by omega
      rw [hl,Option.some.injEq] at he
      exact absurd he (by decide)
    rw [getElem?_newline hlt] at he
    exact ⟨e,h1,hlt,he,(star_newline hlt.le).mp hs⟩
  · rintro ⟨e,h1,h2,he,hs⟩
    exact ⟨e,h1,by omega,by rwa [getElem?_newline h2],(star_newline h2.le).mpr hs⟩

theorem parse_outcome (message : Bytes) : Outcome completes (fun p => Bad p.selects ↔ Dangles message 0 message.length)
      (parse message) := by
  unfold parse
  have hl : (message ++ [byte '\n']).length = message.length + 1 := by simp
  refine ((specs _ _).pattern (Nat.zero_le _) (by omega)).bind fun r ⟨_,h2,h3,_⟩ => ?_
  dsimp only
  split
  · simp
  rename_i hge
  split
  · simp
  · rename_i p hp
    have he : r.2 = message.length + 1 := by omega
    rw [outcome_pure,h3 p hp,he,dangles_newline]

theorem parse_completes (message : Bytes) : parse message ≠ .error .outOfFuel :=
  fun h => (parse_outcome message).error_of h rfl

def RendersTotally (p : Pattern) : Prop := ∀ s ∈ p.selects, GoodSelect s ∧ WritesOne s

theorem rendersTotally_iff (p : Pattern) : RendersTotally p ↔ ¬Bad p.selects := by
  unfold RendersTotally Bad
  constructor
  · rintro h ⟨s,hs,hb⟩
    exact hb (h s hs).1
  · intro h s hs
    have hg : GoodSelect s := by
      by_contra hb
      exact h ⟨s,hs,hb⟩
    exact ⟨hg,writesOne_of_default (countP_pos_iff.mp (by rw [hg]; decide))⟩

theorem parsed_rendersTotally_iff {message : Bytes} {p : Pattern} (h : parse message = .ok p) :
    RendersTotally p ↔ ¬Dangles message 0 message.length := by
  rw [rendersTotally_iff,(parse_outcome message).of_ok h]

def oneVariant (default : Bool) : Pattern :=
  .mk [.Placeable (.Select (.Variable (bytesOf "x")) [.mk (.Name (bytesOf "a")) (.mk [.Text (bytesOf "b")]) default])]

theorem defaulted_select_rendersTotally : parse (bytesOf "\x7b$x ->\n *[a] b\n\x7d") = .ok (oneVariant true) ∧
      (RendersTotally (oneVariant true) ↔ ¬Dangles (bytesOf "\x7b$x ->\n *[a] b\n\x7d") 0
      (bytesOf "\x7b$x ->\n *[a] b\n\x7d").length) :=
  ⟨by rfl,parsed_rendersTotally_iff (by rfl)⟩

theorem dangling_star_renders_nothing : parse (bytesOf "\x7b$x ->\n [a] b\n *\x7d") = .ok (oneVariant false) ∧
      ¬RendersTotally (oneVariant false) ∧
      (render (oneVariant false) fun _ => none).text = [] := by
  refine ⟨by rfl,?_,by rfl⟩
  rw [rendersTotally_iff,not_not]
  refine ⟨(.Variable (bytesOf "x"),[.mk (.Name (bytesOf "a")) (.mk [.Text (bytesOf "b")]) false]),?_,?_⟩
  · simp [oneVariant,Pattern.selects,elementsSelects,Element.selects,Expression.selects]
  · simp [GoodSelect,Variant.default]

end Frontend.DiagTemplate
