import Mathlib

namespace Frontend.Facts.Casing

open List

abbrev Text := List Char

structure Unicode where
  isLowercase : Char → Bool
  isUppercase : Char → Bool
  toLowercase : Char → Text
  toUppercase : Char → Text

structure Unicode.Ascii (U : Unicode) : Prop where
  isLowercase : ∀ c : Char, c.toNat < 128 → U.isLowercase c = c.isLower
  isUppercase : ∀ c : Char, c.toNat < 128 → U.isUppercase c = c.isUpper
  toLowercase : ∀ c : Char, c.toNat < 128 → U.toLowercase c = [c.toLower]
  toUppercase : ∀ c : Char, c.toNat < 128 → U.toUppercase c = [c.toUpper]

def trimStartMatches (c : Char) (s : Text) : Text := s.dropWhile (· == c)

def trimMatches (c : Char) (s : Text) : Text := (trimStartMatches c (trimStartMatches c s).reverse).reverse

variable (U : Unicode)

def parts (s : Text) : List Text := (s.splitOn '_').filter (!·.isEmpty)

def charHasCase (c : Char) : Bool := U.isLowercase c || U.isUppercase c

def isCamelCase (name : Text) : Bool :=
  let name := trimMatches '_' name
  name.isEmpty || name.head?.all (fun c => !U.isLowercase c) && !decide (['_', '_'] <:+: name) &&
    !(name.zip name.tail).any fun (fst,snd) => charHasCase U fst && snd == '_' || charHasCase U snd && fst == '_'

def snakeScan (wrongCase : Char → Bool) : Bool → Text → Bool
  | _, [] => true
  | allowUnderscore, c :: cs =>
    if c = '_' then allowUnderscore && snakeScan wrongCase false cs
    else !wrongCase c && snakeScan wrongCase true cs

section

variable (ident : Text)

def isSnakeCase (wrongCase : Char → Bool) : Bool := ident.isEmpty || snakeScan wrongCase true (trimMatches '_' ident)

def isLowerSnakeCase : Bool := isSnakeCase ident U.isUppercase

def isUpperSnakeCase : Bool := isSnakeCase ident U.isLowercase

def camelWord : Bool → Bool → Text → Text
  | _, _, [] => []
  | newWord, prevIsLowerCase, c :: component =>
    (if newWord || prevIsLowerCase && U.isUppercase c then U.toUppercase c else U.toLowercase c) ++
      camelWord false (U.isLowercase c) component

def camelLoop (out : Text) (prev : Option Text) : List Text → Text
  | [] => out
  | component :: rest =>
    let cased := camelWord U true true component
    let join :=
      match prev.bind getLast?, cased.head? with
      | some l, some f => !charHasCase U l && !charHasCase U f
      | _, _ => false
    camelLoop (out ++ (if join then ['_'] else []) ++ cased) (some cased) rest

def toCamelCase : Option Text :=
  if isCamelCase U ident then none
  else some (camelLoop U [] none (parts (trimMatches '_' ident)))

def recase (upper : Bool) (c : Char) : Text := if upper then U.toUppercase c else U.toLowercase c

def snakeWords (upper : Bool) (buf : Text) (lastUpper : Bool) : Text → List Text
  | [] => [buf]
  | ch :: part =>
    if buf ≠ [] ∧ buf ≠ ['\''] ∧ U.isUppercase ch ∧ !lastUpper then
      buf :: snakeWords upper (recase U upper ch) (U.isUppercase ch) part
    else snakeWords upper (buf ++ recase U upper ch) (U.isUppercase ch) part

def toSnakeCase (s : Text) (upper : Bool) : Text :=
  let trimmed := trimStartMatches '_' s
  ['_'].intercalate (replicate (s.length - trimmed.length) [] ++ (parts trimmed).flatMap (snakeWords U upper [] false))

def toLowerSnakeCase : Option Text :=
  if isLowerSnakeCase U ident then none
  else if isUpperSnakeCase U ident then some (ident.flatMap U.toLowercase)
  else some (toSnakeCase U ident false)

def toUpperSnakeCase : Option Text :=
  if isUpperSnakeCase U ident then none
  else if isLowerSnakeCase U ident then some (ident.flatMap U.toUppercase)
  else some (toSnakeCase U ident true)

end

def letters (s : Text) : Text := (s.filter (· != '_')).map Char.toLower

def Suggests (convert : Text → Option Text) (accepts : Text → Bool) (ident : Text) : Prop :=
  ∀ s, convert ident = some s → accepts s ∧ convert s = none ∧ letters s = letters ident

def wrongCase (upper : Bool) : Char → Bool := if upper then U.isLowercase else U.isUppercase

def asciiCase (upper : Bool) (c : Char) : Char := if upper then c.toUpper else c.toLower

theorem flatten_splitOn (s : Text) : (s.splitOn '_').flatten = s.filter (· != '_') := by
  induction s with
  | nil => rfl
  | cons c s ih =>
    rw [splitOn] at ih ⊢
    obtain ⟨p,ps,hp⟩ := exists_cons_of_ne_nil (splitOnP_ne_nil (· == '_') s)
    rw [splitOnP_cons_eq_if_modifyHead]
    by_cases hc : c = '_'
    · simpa [hc] using ih
    · rw [hp] at ih
      simpa [hc,hp] using ih

theorem parts_spec (s : Text) : ∀ p ∈ parts s, p ≠ [] ∧ ∀ c ∈ p, c ≠ '_' ∧ c ∈ s := by
  intro p hp
  obtain ⟨hp,hne⟩ := mem_filter.mp hp
  refine ⟨by simpa using hne,fun c hc => ?_⟩
  have hm := mem_flatten_of_mem hp hc
  rw [flatten_splitOn,mem_filter] at hm
  exact ⟨by simpa using hm.2,hm.1⟩

@[simp] theorem letters_nil : letters [] = [] := rfl

theorem letters_append (a b : Text) : letters (a ++ b) = letters a ++ letters b := by simp [letters]

theorem letters_flatten (L : List Text) : letters L.flatten = L.flatMap letters := by
  induction L with
  | nil => rfl
  | cons p L ih => rw [flatten_cons,letters_append,ih,flatMap_cons]

theorem letters_parts (s : Text) : (parts s).flatMap letters = letters s := by
  rw [← letters_flatten,parts,flatten_filter_not_isEmpty,flatten_splitOn,letters,filter_filter,letters]
  simp

theorem letters_trimStart (s : Text) : letters (trimStartMatches '_' s) = letters s := by
  induction s with
  | nil => rfl
  | cons c s ih =>
    by_cases hc : c = '_'
    · simpa [trimStartMatches,letters,hc] using ih
    · simp [trimStartMatches,hc]

theorem letters_reverse (s : Text) : letters s.reverse = (letters s).reverse := by simp [letters]

theorem letters_intercalate (L : List Text) : letters (['_'].intercalate L) = L.flatMap letters := by
  induction L with
  | nil => rfl
  | cons p L ih =>
    cases L with
    | nil => simp [intercalate]
    | cons q L =>
      rw [intercalate_cons_cons,letters_append,letters_append,ih]
      simp [letters]

section

variable {wrong : Char → Bool} {b : Bool} {k : Nat}

theorem snakeScan_take (h : snakeScan wrong b (s ++ t)) : snakeScan wrong b s := by
  induction s generalizing b with
  | nil => rfl
  | cons c s ih =>
    rw [cons_append,snakeScan] at h
    rw [snakeScan]
    split at h <;> rw [Bool.and_eq_true] at h
    next hc => simp [hc,h.1,ih h.2]
    next hc => simpa [hc,ih h.2] using h.1

theorem snakeScan_trimStart (h : snakeScan wrong b s) : snakeScan wrong true (trimStartMatches '_' s) := by
  induction s generalizing b with
  | nil => rfl
  | cons c s ih =>
    rw [snakeScan] at h
    by_cases hc : c = '_'
    · rw [if_pos hc,Bool.and_eq_true] at h
      simpa [trimStartMatches,hc] using ih h.2
    · rw [if_neg hc] at h
      simpa [trimStartMatches,snakeScan,hc] using h

theorem isSnakeCase_of_scan (h : snakeScan wrong b s) : isSnakeCase (replicate k '_' ++ s) wrong := by
  have ht : trimStartMatches '_' (replicate k '_' ++ s) = trimStartMatches '_' s :=
    dropWhile_append_of_pos fun c hc => by simp [eq_of_mem_replicate hc]
  have hp : trimMatches '_' s <+: trimStartMatches '_' s := by
    rw [trimMatches,← reverse_suffix,reverse_reverse]
    exact dropWhile_suffix _
  obtain ⟨t,hp⟩ := hp
  have hs := snakeScan_trimStart h
  rw [← hp] at hs
  rw [isSnakeCase,trimMatches,ht,Bool.or_eq_true]
  exact .inr (snakeScan_take hs)

theorem mem_of_mem_trim (h : c ∈ trimMatches '_' s) : c ∈ s :=
  (dropWhile_sublist _).subset (mem_reverse.mp ((dropWhile_sublist _).subset (mem_reverse.mp h)))

theorem trimStart_map (h : ∀ c ∈ s, g c = '_' ↔ c = '_') :
    trimStartMatches '_' (s.map g) = (trimStartMatches '_' s).map g := by
  induction s with
  | nil => rfl
  | cons c s ih =>
    obtain ⟨hc,hs⟩ := forall_mem_cons.mp h
    by_cases hu : c = '_'
    · subst hu
      simpa [trimStartMatches,hc.mpr rfl] using ih hs
    · simp [trimStartMatches,hu,hc]

theorem trim_map (h : ∀ c ∈ s, g c = '_' ↔ c = '_') : trimMatches '_' (s.map g) = (trimMatches '_' s).map g := by
  rw [trimMatches,trimStart_map h,← map_reverse,trimStart_map,← map_reverse,trimMatches]
  exact fun c hc => h c ((dropWhile_sublist _).subset (mem_reverse.mp hc))

theorem snakeScan_map (hg : ∀ c ∈ s, (g c = '_' ↔ c = '_') ∧ wrong' (g c) = false) (h : snakeScan wrong b s) :
    snakeScan wrong' b (s.map g) := by
  induction s generalizing b with
  | nil => rfl
  | cons c s ih =>
    obtain ⟨⟨hu,hw⟩,hs⟩ := forall_mem_cons.mp hg
    rw [snakeScan] at h
    rw [map_cons,snakeScan]
    by_cases hc : c = '_'
    · rw [if_pos hc,Bool.and_eq_true] at h
      rw [if_pos (hu.mpr hc),h.1,ih hs h.2,Bool.and_self]
    · rw [if_neg hc,Bool.and_eq_true] at h
      rw [if_neg (mt hu.mp hc),hw,ih hs h.2]
      rfl

theorem snakeScan_word (hw : w ≠ []) (hc : ∀ c ∈ w, c ≠ '_' ∧ wrong c = false) :
    snakeScan wrong b (w ++ s) = snakeScan wrong true s := by
  induction w generalizing b with
  | nil => exact absurd rfl hw
  | cons c w ih =>
    obtain ⟨⟨hu,hl⟩,hc⟩ := forall_mem_cons.mp hc
    rw [cons_append,snakeScan,if_neg hu,hl]
    cases w with
    | nil => rfl
    | cons d w => simpa using ih (cons_ne_nil d w) hc

theorem snakeScan_words (h : ∀ w ∈ L, w ≠ [] ∧ ∀ c ∈ w, c ≠ '_' ∧ wrong c = false) :
    snakeScan wrong b (['_'].intercalate L) := by
  induction L generalizing b with
  | nil => rfl
  | cons w L ih =>
    obtain ⟨⟨hn,hc⟩,hL⟩ := forall_mem_cons.mp h
    cases L with
    | nil =>
      have hs := snakeScan_word (s := []) (b := b) hn hc
      rw [append_nil] at hs
      simp [intercalate,hs,snakeScan]
    | cons v L =>
      rw [intercalate_cons_cons,append_assoc,snakeScan_word hn hc]
      simpa [snakeScan] using ih (b := false) hL

theorem intercalate_replicate (k : Nat) (L : List Text) :
    ∃ m, ['_'].intercalate (replicate k [] ++ L) = replicate m '_' ++ ['_'].intercalate L := by
  induction k with
  | zero => exact ⟨0,rfl⟩
  | succ k ih =>
    obtain ⟨m,hm⟩ := ih
    rw [replicate_succ,cons_append]
    rcases hl : replicate k [] ++ L with _ | ⟨p,ps⟩
    · obtain ⟨-,rfl⟩ := append_eq_nil_iff.mp hl
      exact ⟨0,rfl⟩
    · rw [hl] at hm
      exact ⟨m + 1,by rw [intercalate_cons_cons,hm]; rfl⟩

end

section

variable {U} (hU : U.Ascii) {upper : Bool}

theorem ascii_case : ∀ n < 128, let c := Char.ofNat n
    (c.toLower.isUpper = false ∧ c.toUpper.isLower = false) ∧ (c.toLower.toLower = c.toLower ∧
      c.toUpper.toLower = c.toLower) ∧ (c.toLower.toNat < 128 ∧ c.toUpper.toNat < 128) ∧
        (c.toLower = '_' ↔ c = '_') ∧ (c.toUpper = '_' ↔ c = '_') := by decide +kernel

include hU

theorem recase_ascii (upper : Bool) (hc : c.toNat < 128) : recase U upper c = [asciiCase upper c] ∧
    wrongCase U upper (asciiCase upper c) = false ∧ (asciiCase upper c).toLower = c.toLower ∧
    (asciiCase upper c = '_' ↔ c = '_') := by
  have h := ascii_case c.toNat hc
  rw [Char.ofNat_toNat] at h
  obtain ⟨⟨hl,hu⟩,⟨hll,hul⟩,⟨hla,hua⟩,hl',hu'⟩ := h
  cases upper with
  | true => exact ⟨hU.toUppercase c hc,(hU.isLowercase _ hua).trans hu,hul,hu'⟩
  | false => exact ⟨hU.toLowercase c hc,(hU.isUppercase _ hla).trans hl,hll,hl'⟩

theorem letters_recase (upper : Bool) (hc : c.toNat < 128) : letters (recase U upper c) = letters [c] := by
  obtain ⟨hd,-,hl,hu⟩ := recase_ascii hU upper hc
  rw [hd]
  by_cases h : c = '_'
  · subst h
    simp [letters,hu.mpr rfl]
  · simp [letters,h,mt hu.mp h,hl]

theorem letters_flatMap_recase (hs : ∀ c ∈ s, c.toNat < 128) : letters (s.flatMap (recase U upper)) = letters s := by
  induction s with
  | nil => rfl
  | cons c s ih =>
    obtain ⟨hc,hs⟩ := forall_mem_cons.mp hs
    rw [flatMap_cons,letters_append,letters_recase hU upper hc,ih hs,← letters_append]
    rfl

theorem snakeWords_spec (upper : Bool) (buf : Text) (lastUpper : Bool) (hn : buf ≠ [] ∨ part ≠ [])
    (hb : ∀ c ∈ buf, c ≠ '_' ∧ wrongCase U upper c = false) (hp : ∀ c ∈ part, c ≠ '_' ∧ c.toNat < 128) :
    (∀ w ∈ snakeWords U upper buf lastUpper part, w ≠ [] ∧ ∀ c ∈ w, c ≠ '_' ∧ wrongCase U upper c = false) ∧
      (snakeWords U upper buf lastUpper part).flatMap letters = letters buf ++ letters part := by
  induction part generalizing buf lastUpper with
  | nil => exact ⟨by simpa [snakeWords] using ⟨hn.resolve_right (not_not_intro rfl),hb⟩,by simp [snakeWords,letters]⟩
  | cons ch part ih =>
    obtain ⟨⟨hu,ha⟩,hp⟩ := forall_mem_cons.mp hp
    obtain ⟨hd,hw,-,hdu⟩ := recase_ascii hU upper ha
    generalize asciiCase upper ch = d at hd hw hdu
    have hl := letters_recase hU upper ha
    have hch : letters (ch :: part) = letters [ch] ++ letters part := letters_append [ch] part
    have hd' : d ≠ '_' ∧ wrongCase U upper d = false := ⟨mt hdu.mp hu,hw⟩
    rw [snakeWords,hch,← hl,hd]
    split
    next h =>
      obtain ⟨hws,hls⟩ := ih [d] (U.isUppercase ch) (.inl (cons_ne_nil d [])) (by simpa using hd') hp
      exact ⟨forall_mem_cons.mpr ⟨⟨h.1,hb⟩,hws⟩,by rw [flatMap_cons,hls]⟩
    next =>
      obtain ⟨hws,hls⟩ := ih (buf ++ [d]) (U.isUppercase ch) (.inl (by simp))
        (forall_mem_append.mpr ⟨hb,by simpa using hd'⟩) hp
      exact ⟨hws,by rw [hls,letters_append,append_assoc]⟩

theorem toSnakeCase_spec (hs : ∀ c ∈ s, c.toNat < 128) :
    isSnakeCase (toSnakeCase U s upper) (wrongCase U upper) ∧ letters (toSnakeCase U s upper) = letters s := by
  have hp := parts_spec (trimStartMatches '_' s)
  have hw p (h : p ∈ parts (trimStartMatches '_' s)) : _ :=
    snakeWords_spec hU upper [] false (.inr (hp p h).1) nofun fun c hc =>
      ⟨((hp p h).2 c hc).1,hs c ((dropWhile_sublist _).subset ((hp p h).2 c hc).2)⟩
  rw [toSnakeCase]
  constructor
  · obtain ⟨m,hm⟩ := intercalate_replicate (s.length - (trimStartMatches '_' s).length)
      ((parts (trimStartMatches '_' s)).flatMap (snakeWords U upper [] false))
    rw [hm]
    refine isSnakeCase_of_scan (b := true) (snakeScan_words fun w h => ?_)
    obtain ⟨p,h,hm⟩ := mem_flatMap.mp h
    exact (hw p h).1 w hm
  · rw [letters_intercalate,flatMap_append,flatMap_assoc,flatMap_congr fun p h => (hw p h).2]
    simpa [flatMap_replicate,letters_parts] using letters_trimStart s

def convertSnake (U : Unicode) (upper : Bool) (ident : Text) : Option Text :=
  if isSnakeCase ident (wrongCase U upper) then none
  else if isSnakeCase ident (wrongCase U !upper) then some (ident.flatMap (recase U upper))
  else some (toSnakeCase U ident upper)

theorem convertSnake_suggests (upper : Bool) (hs : ∀ c ∈ ident, c.toNat < 128) :
    Suggests (convertSnake U upper) (isSnakeCase · (wrongCase U upper)) ident := by
  intro s h
  suffices isSnakeCase s (wrongCase U upper) ∧ letters s = letters ident from ⟨this.1,if_pos this.1,this.2⟩
  rw [convertSnake] at h
  split at h
  · cases h
  next hn =>
    split at h
    next ho =>
      cases h
      have hr := fun c hc => recase_ascii hU upper (hs c hc)
      have hm : ident.flatMap (recase U upper) = ident.map (asciiCase upper) := by
        rw [flatMap_congr fun c hc => (hr c hc).1,← map_eq_flatMap]
      constructor
      · rw [isSnakeCase,Bool.or_eq_true] at ho ⊢
        refine ho.imp (fun he => ?_) fun ho => ?_
        · simpa [hm] using he
        · rw [hm,trim_map fun c hc => (hr c hc).2.2.2]
          exact snakeScan_map (fun c hc => ⟨(hr c (mem_of_mem_trim hc)).2.2.2,(hr c (mem_of_mem_trim hc)).2.1⟩) ho
      · exact letters_flatMap_recase hU hs
    next =>
      cases h
      exact toSnakeCase_spec hU hs

theorem camelWord_chars (h : ∀ c ∈ part, c ≠ '_' ∧ c.toNat < 128) :
    (∀ c ∈ camelWord U w p part, c ≠ '_') ∧ letters (camelWord U w p part) = letters part := by
  induction part generalizing w p with
  | nil => exact ⟨nofun,rfl⟩
  | cons c part ih =>
    obtain ⟨⟨hu,ha⟩,h⟩ := forall_mem_cons.mp h
    obtain ⟨hc,hl⟩ := ih h (w := false) (p := U.isLowercase c)
    obtain ⟨hr,-,-,hru⟩ := recase_ascii hU (w || p && U.isUppercase c) ha
    rw [camelWord]
    change (∀ d ∈ recase U _ c ++ _, _) ∧ letters (recase U _ c ++ _) = _
    constructor
    · rw [hr]
      exact forall_mem_cons.mpr ⟨mt hru.mp hu,hc⟩
    · rw [letters_append,letters_recase hU _ ha,hl,← letters_append]
      rfl

theorem camelWord_head (hn : part ≠ []) (h : ∀ c ∈ part, c ≠ '_' ∧ c.toNat < 128) :
    ∃ c cs, camelWord U true true part = c :: cs ∧ U.isLowercase c = false := by
  obtain ⟨c,part,rfl⟩ := exists_cons_of_ne_nil hn
  obtain ⟨hr,hw,-⟩ := recase_ascii hU true (h c mem_cons_self).2
  refine ⟨asciiCase true c,camelWord U false (U.isLowercase c) part,?_,hw⟩
  rw [camelWord]
  change recase U true c ++ _ = _
  rw [hr]
  rfl

def Fits (U : Unicode) (a b : Char) : Prop := a = '_' ∨ b = '_' → ¬(a = '_' ∧ b = '_') ∧ charHasCase U a = false ∧
    charHasCase U b = false

structure Camel (U : Unicode) (out : Text) : Prop where
  head : ∀ c ∈ out.head?, U.isLowercase c = false ∧ c ≠ '_'
  last : ∀ c ∈ out.getLast?, c ≠ '_'
  chain : IsChain (Fits U) out

theorem Camel.word (h : Camel U out) (hw : w.head? = some c)
    (hl : U.isLowercase c = false) (hu : ∀ d ∈ w, d ≠ '_') (hs : sep = [] ∨ sep = ['_'] ∧
      ∃ l, out.getLast? = some l ∧ charHasCase U l = false ∧ charHasCase U c = false) : Camel U (out ++ sep ++ w) := by
  have hc : c ≠ '_' := hu c (mem_of_mem_head? hw)
  have hwc : IsChain (Fits U) w := (pairwise_of_forall_mem_list fun a ha b hb h => absurd h
    (not_or.mpr ⟨hu a ha,hu b hb⟩)).isChain
  have hla d (hd : d ∈ (out ++ sep ++ w).getLast?) : d ≠ '_' := hu d (mem_of_mem_getLast? (by
    obtain ⟨x,hx⟩ := Option.isSome_iff_exists.mp (show w.getLast?.isSome by cases w <;> simp_all)
    simpa [getLast?_append,hx] using hd))
  rcases hs with rfl | ⟨rfl,l,hol,hlc,hcc⟩
  · rw [append_nil] at hla ⊢
    refine ⟨fun d hd => ?_,hla,isChain_append.mpr ⟨h.chain,hwc,fun x hx y hy h' => ?_⟩⟩
    · rw [head?_append] at hd
      cases ho : out.head? with
      | none => exact (by simpa [ho,hw] using hd : c = d) ▸ ⟨hl,hc⟩
      | some e => exact h.head d (by simpa [ho] using hd)
    · cases hw.symm.trans hy
      exact absurd h' (not_or.mpr ⟨h.last x hx,hc⟩)
  · have hlu : l ≠ '_' := h.last l hol
    have hun : charHasCase U '_' = false := by
      rw [charHasCase,hU.isLowercase _ (by decide),hU.isUppercase _ (by decide)]
      rfl
    refine ⟨fun d hd => h.head d ?_,hla,isChain_append.mpr ⟨isChain_append.mpr ⟨h.chain,isChain_singleton _,?_⟩,hwc,?_⟩⟩
    · cases out <;> simp_all
    · intro x hx y hy _
      cases hol.symm.trans hx
      obtain rfl : '_' = y := by simpa using hy
      exact ⟨fun h => hlu h.1,hlc,hun⟩
    · intro x hx y hy _
      obtain rfl : '_' = x := by simpa using hx
      cases hw.symm.trans hy
      exact ⟨fun h => hc h.2,hun,hcc⟩

theorem camelLoop_spec (prev : Option Text) (h : Camel U out)
    (hp : prev.bind getLast? = out.getLast?) (hL : ∀ p ∈ L, p ≠ [] ∧ ∀ c ∈ p, c ≠ '_' ∧ c.toNat < 128) :
    Camel U (camelLoop U out prev L) ∧ letters (camelLoop U out prev L) = letters out ++ L.flatMap letters := by
  induction L generalizing out prev with
  | nil => exact ⟨h,by simp [camelLoop]⟩
  | cons p L ih =>
    obtain ⟨⟨hn,hc⟩,hL⟩ := forall_mem_cons.mp hL
    obtain ⟨hu,hl⟩ := camelWord_chars hU hc (w := true) (p := true)
    obtain ⟨c,cs,hw,hlo⟩ := camelWord_head hU hn hc
    have hh : (camelWord U true true p).head? = some c := by rw [hw]; rfl
    rw [camelLoop,hp,hh]
    generalize hj : (match out.getLast?,some c with
      | some l,some f => !charHasCase U l && !charHasCase U f
      | _,_ => false) = join
    have hs : (if join then ['_'] else []) = [] ∨ (if join then ['_'] else []) = ['_'] ∧
        ∃ l, out.getLast? = some l ∧ charHasCase U l = false ∧ charHasCase U c = false := by
      cases join with
      | false => exact .inl rfl
      | true =>
        cases ho : out.getLast? with
        | none => simp [ho] at hj
        | some l => exact .inr ⟨rfl,l,rfl,by simpa [ho] using hj⟩
    have hla : (some (camelWord U true true p)).bind getLast? =
        (out ++ (if join then ['_'] else []) ++ camelWord U true true p).getLast? := by
      rw [getLast?_append,hw]
      simp [getLast?_cons]
    obtain ⟨hC,hle⟩ := ih _ (h.word hU hh hlo hu hs) hla hL
    refine ⟨hC,?_⟩
    rw [hle,letters_append,letters_append,hl,flatMap_cons,append_assoc,append_assoc]
    cases join <;> simp [letters]

end

theorem trimStart_eq (h : ∀ c ∈ s.head?, c ≠ '_') : trimStartMatches '_' s = s := by
  cases s with
  | nil => rfl
  | cons c s => exact dropWhile_cons_of_neg (by simpa using h)

theorem chain_zip {R : Char → Char → Prop} {l : List Char} (h : IsChain R l) : ∀ p ∈ l.zip l.tail, R p.1 p.2 := by
  induction h with
  | nil => nofun
  | singleton => nofun
  | cons_cons hr _ ih => exact forall_mem_cons.mpr ⟨hr,ih⟩

theorem Camel.isCamelCase (h : Camel U out) : isCamelCase U out := by
  have ht : trimMatches '_' out = out := by
    rw [trimMatches,trimStart_eq fun c hc => (h.head c hc).2,trimStart_eq (by simpa using h.last),reverse_reverse]
  simp only [Casing.isCamelCase,ht,Bool.or_eq_true,Bool.and_eq_true]
  refine .inr ⟨⟨?_,?_⟩,?_⟩
  · cases ho : out.head? with
    | none => rfl
    | some c => simpa using (h.head c ho).1
  · rw [Bool.not_eq_true',decide_eq_false_iff_not]
    intro hi
    exact (by simpa using h.chain.infix hi : Fits U '_' '_') (.inl rfl) |>.1 ⟨rfl,rfl⟩
  · simp only [Bool.not_eq_true',any_eq_false]
    intro p hp hb
    have hf := chain_zip h.chain p hp
    simp only [Bool.or_eq_true,Bool.and_eq_true,beq_iff_eq] at hb
    rcases hb with ⟨hc,hu⟩ | ⟨hc,hu⟩
    · simp [(hf (.inr hu)).2.1] at hc
    · simp [(hf (.inl hu)).2.2] at hc

theorem ascii_of_isAlphanum (h : c.isAlphanum ∨ c = '_') : c.toNat < 128 := by
  rcases h with h | rfl
  · simp only [Char.isAlphanum,Char.isAlpha,Char.isUpper,Char.isLower,Char.isDigit,Bool.or_eq_true,Bool.and_eq_true,
      decide_eq_true_eq,UInt32.le_iff_toNat_le] at h
    change ((_ ∧ c.toNat ≤ 90) ∨ (_ ∧ c.toNat ≤ 122)) ∨ (_ ∧ c.toNat ≤ 57) at h
    omega
  · decide

theorem suggestions_are_well_cased (U : Unicode) (hU : U.Ascii) (ident : Text)
    (hs : ∀ c ∈ ident, c.isAlphanum ∨ c = '_') :
    Suggests (toLowerSnakeCase U) (isLowerSnakeCase U) ident ∧ Suggests (toUpperSnakeCase U) (isUpperSnakeCase U) ident ∧
      Suggests (toCamelCase U) (isCamelCase U) ident := by
  have ha := fun c hc => ascii_of_isAlphanum (hs c hc)
  refine ⟨convertSnake_suggests hU false ha,convertSnake_suggests hU true ha,fun s h => ?_⟩
  rw [toCamelCase] at h
  split at h
  · cases h
  cases h
  have hp := parts_spec (trimMatches '_' ident)
  have hc : Camel U [] := ⟨nofun,nofun,.nil⟩
  obtain ⟨hC,hl⟩ := camelLoop_spec hU none hc rfl fun p h =>
    ⟨(hp p h).1,fun c hc => ⟨((hp p h).2 c hc).1,ha c (mem_of_mem_trim ((hp p h).2 c hc).2)⟩⟩
  refine ⟨hC.isCamelCase,if_pos hC.isCamelCase,?_⟩
  rw [hl,letters_nil,nil_append,letters_parts,trimMatches,letters_reverse,letters_trimStart,letters_reverse,
    letters_trimStart,reverse_reverse]

def asciiOnly : Unicode where
  isLowercase := Char.isLower
  isUppercase := Char.isUpper
  toLowercase c := [c.toLower]
  toUppercase c := [c.toUpper]

def mixedIdent : Text := "__fooBAR_1_2x".toList

theorem mixedIdent_suggestions : Suggests (toLowerSnakeCase asciiOnly) (isLowerSnakeCase asciiOnly) mixedIdent ∧
    Suggests (toUpperSnakeCase asciiOnly) (isUpperSnakeCase asciiOnly) mixedIdent ∧
      Suggests (toCamelCase asciiOnly) (isCamelCase asciiOnly) mixedIdent := by
  refine suggestions_are_well_cased asciiOnly ⟨fun _ _ => rfl,fun _ _ => rfl,fun _ _ => rfl,
    fun _ _ => rfl⟩ _ fun c hc => ?_
  have h : (mixedIdent.all fun c => c.isAlphanum || c == '_') = true := rfl
  simpa using all_eq_true.mp h c hc

end Frontend.Facts.Casing
