import Frontend.Lexer.Cursor

namespace Frontend.Lexer

open Library.Utf8 List Cursor Option

def commentEnd : Nat → List Char → Option (List Char)
  | depth, '/' :: '*' :: text => commentEnd (depth + 1) text
  | depth, '*' :: '/' :: text => if depth ≤ 1 then some text else commentEnd (depth - 1) text
  | depth, _ :: text => commentEnd depth text
  | _, [] => none

def stringEnd (backslashes : Nat) : List Char → Option (List Char)
  | [] => none
  | ch :: text =>
    if ch = '\\' then stringEnd (backslashes + 1) text
    else if ch = '"' ∧ backslashes % 2 = 0 then some text
    else stringEnd 0 text

def rawEnd (hashes : Nat) : List Char → Option (List Char)
  | [] => none
  | ch :: text => if ch = '"' ∧ replicate hashes '#' <+: text then some (text.drop hashes) else rawEnd hashes text

inductive Jump (needles : List Char) (c : Cursor) : Prop
  | nothing (hnot : ∀ d ∈ c.chars, d ∉ needles) (hfind : memchr needles (bytes c.chars) = none)
      (hmove : c.advanceBytes (bytes c.chars).length = some { c with chars := [] })
  | found (pre : List Char) (d : Char) (post : List Char) (htext : c.chars = pre ++ d :: post)
      (hnot : ∀ x ∈ pre, x ∉ needles) (hd : d ∈ needles)
        (hfind : memchr needles (bytes c.chars) = some (bytes pre).length)
      (hmove : c.advanceBytes ((bytes pre).length + 1) = some { c with chars := post })
      (hbyte : (bytes c.chars)[(bytes pre).length]? = some (byte d))

theorem jump (needles : List Char) (hl : ∀ d ∈ needles, d.toNat < 128) (c : Cursor) : Jump needles c := by
  rcases split_at needles c.chars with hn | ⟨pre,d,post,ht,hn,hd⟩
  · refine .nothing hn (memchr_none hl hn) ?_
    have hdr := dropBytes_bytes c.chars []
    rw [append_nil] at hdr
    rw [advanceBytes,hdr]
    rfl
  · have he := encode_ascii (hl d hd)
    have hdr := dropBytes_bytes (pre ++ [d]) post
    simp only [bytes_append,bytes_cons,he,bytes_nil,append_nil,length_append,length_singleton,append_assoc,
      singleton_append] at hdr
    refine .found pre d post ht hn hd (ht ▸ memchr_some hl hn hd) ?_ ?_
    · rw [advanceBytes,ht,hdr]
      rfl
    · simp [ht,he]

theorem first_eq {c : Cursor} (h : ch ≠ eofChar) : c.first = ch ↔ c.chars.head? = some ch := by
  unfold first
  cases c.chars with
  | nil => exact ⟨fun heq => absurd heq.symm h,nofun⟩
  | cons d text => simp

section

variable {depth : Nat} {pre text : List Char}

theorem commentEnd_other (ho : ch = '/' → text.head? ≠ some '*')
    (hc : ch = '*' → text.head? ≠ some '/') : commentEnd depth (ch :: text) = commentEnd depth text := by
  rw [commentEnd]
  · rintro rest rfl rfl
    exact ho rfl rfl
  · rintro rest rfl rfl
    exact hc rfl rfl

theorem commentEnd_skip (depth : Nat) (text : List Char) (h : ∀ x ∈ pre, x ∉ ['/', '*']) :
    commentEnd depth (pre ++ text) = commentEnd depth text := by
  induction pre with
  | nil => rfl
  | cons x pre ih =>
    obtain ⟨hx,hp⟩ := forall_mem_cons.mp h
    rw [cons_append,commentEnd_other,ih hp]
    · rintro rfl
      simp at hx
    · rintro rfl
      simp at hx

theorem blockLoop_spec (fuel : Nat) (c : Cursor) (hfu : c.chars.length < fuel) (hde : 1 ≤ depth) :
    ∃ d, blockLoop fuel depth c = some (d,{ c with chars := (commentEnd depth c.chars).getD [] }) ∧
      (d = 0 ↔ (commentEnd depth c.chars).isSome) := by
  induction fuel generalizing c depth with
  | zero => exact absurd hfu (Nat.not_lt_zero _)
  | succ fuel ih =>
    cases jump ['/', '*'] (by simp) c with
    | nothing hn hf hm =>
      have he : commentEnd depth c.chars = none := by rw [← append_nil c.chars,commentEnd_skip _ _ hn,commentEnd]
      refine ⟨depth,?_,?_⟩
      · simp [blockLoop,hf,hm,he,getD_none]
      · rw [he]
        exact ⟨fun h => absurd h (by omega),nofun⟩
    | found pre d post ht hn hd hf hm hby =>
      have hs := commentEnd_skip depth (d :: post) hn
      have hl : pre.length + post.length < fuel := by
        simp only [ht,length_append,length_cons] at hfu
        omega
      have ho (hon : d = '/' → post.head? ≠ some '*') (hc : d = '*' → post.head? ≠ some '/') :
          ∃ e, blockLoop fuel depth { c with chars := post } =
            some (e,{ c with chars := (commentEnd depth c.chars).getD [] }) ∧
            (e = 0 ↔ (commentEnd depth c.chars).isSome) := by
        rw [ht,hs,commentEnd_other hon hc]
        exact ih _ (show post.length < fuel by omega) hde
      simp only [blockLoop,hf,hm,hby,bind_eq_bind,bind_some,first_eq (show '*' ≠ eofChar by decide),
        first_eq (show '/' ≠ eofChar by decide)]
      rcases mem_pair.mp hd with rfl | rfl
      · split
        case isTrue h =>
          obtain ⟨text,rfl⟩ := head?_eq_some_iff.mp h.2
          rw [ht,hs,commentEnd]
          exact ih _ (show text.length < fuel by simp only [length_cons] at hl; omega) (by omega)
        case isFalse h =>
          rw [if_neg (fun hb => absurd hb.1 (by decide))]
          exact ho (fun _ hp => h ⟨rfl,hp⟩) (fun hb => absurd hb (by decide))
      · rw [if_neg (fun hb => absurd hb.1 (by decide))]
        split
        case isTrue h =>
          obtain ⟨text,rfl⟩ := head?_eq_some_iff.mp h.2
          rw [ht,hs,commentEnd]
          by_cases hoe : depth ≤ 1
          · rw [if_pos (by omega),if_pos hoe]
            exact ⟨0,rfl,by simp⟩
          · rw [if_neg (by omega),if_neg hoe]
            exact ih _ (show text.length < fuel by simp only [length_cons] at hl; omega) (by omega)
        case isFalse h => exact ho (fun hb => absurd hb (by decide)) (fun _ hp => h ⟨rfl,hp⟩)

end

section

variable {m n : Nat} {pre text : List Char}

theorem stringEnd_parity (h : m % 2 = n % 2) : stringEnd m text = stringEnd n text := by
  induction text generalizing m n with
  | nil => rfl
  | cons ch text ih => rw [stringEnd,stringEnd,h,ih (show (m + 1) % 2 = (n + 1) % 2 by omega)]

theorem stringEnd_skip (h : ∀ x ∈ pre, x ∉ ['"', '\\']) : stringEnd 0 (pre ++ text) = stringEnd 0 text := by
  induction pre with
  | nil => rfl
  | cons x pre ih =>
    obtain ⟨hx,hp⟩ := forall_mem_cons.mp h
    simp only [mem_cons,not_mem_nil,or_false,not_or] at hx
    rw [cons_append,stringEnd,if_neg hx.2,if_neg (fun hq => hx.1 hq.1),ih hp]

theorem stringEnd_one : stringEnd 1 text =
    if text.head? = some '\\' ∨ text.head? = some '"' then stringEnd 0 text.tail else stringEnd 0 text := by
  cases text with
  | nil => rfl
  | cons ch text =>
    by_cases hb : ch = '\\'
    · subst hb
      exact stringEnd_parity (show 2 % 2 = 0 % 2 from rfl)
    by_cases hq : ch = '"'
    · subst hq
      rfl
    · simp [stringEnd,hb,hq]

theorem quotedLoop_spec (fuel : Nat) (c : Cursor) (hfu : c.chars.length < fuel) :
    quotedLoop fuel c = some ((stringEnd 0 c.chars).isSome,{ c with chars := (stringEnd 0 c.chars).getD [] }) := by
  induction fuel generalizing c with
  | zero => exact absurd hfu (Nat.not_lt_zero _)
  | succ fuel ih =>
    cases jump ['"', '\\'] (by simp) c with
    | nothing hn hf hm =>
      have he : stringEnd 0 c.chars = none := by rw [← append_nil c.chars,stringEnd_skip hn,stringEnd]
      simp [quotedLoop,hf,hm,he,getD_none,isSome_none]
    | found pre d post ht hn hd hf hm hb =>
      have hl : post.length < fuel := by
        simp only [ht,length_append,length_cons] at hfu
        omega
      simp only [quotedLoop,hf,hm,hb,bind_eq_bind,bind_some,first_eq (show '\\' ≠ eofChar by decide),
        first_eq (show '"' ≠ eofChar by decide)]
      rw [ht,stringEnd_skip hn,stringEnd]
      rcases mem_pair.mp hd with rfl | rfl
      · rw [if_pos rfl,if_neg (by decide),if_pos ⟨rfl,rfl⟩]
        rfl
      rw [if_neg (by decide),if_pos rfl,stringEnd_one]
      split
      · exact ih _ (show post.tail.length < fuel by simp only [length_tail]; omega)
      · exact ih _ hl

end

theorem eatUntil_eq (hl : needle.toNat < 128) (c : Cursor) :
    c.eatUntil needle = some { c with chars := c.chars.dropWhile (· ≠ needle) } := by
  have ha : ∀ d ∈ [needle], d.toNat < 128 := by simpa using hl
  unfold eatUntil
  rcases split_at [needle] c.chars with hn | ⟨pre,d,post,ht,hn,hd⟩
  · rw [memchr_none ha hn,dropWhile_eq_nil_iff.mpr (by simpa using hn)]
  · rw [ht,memchr_some ha hn hd,dropWhile_append_of_pos (by simpa using hn)]
    obtain rfl := mem_singleton.mp hd
    simp [advanceBytes,ht]

section

variable {n k : Nat} {text : List Char}

theorem openingHashes_eq (n : Nat) (h : text.head? ≠ some '#') (hk : k < 2 ^ 32) :
    openingHashes k (replicate n '#' ++ text) = ((k + n) % 2 ^ 32,text) := by
  induction n generalizing k with
  | zero =>
    rw [replicate_zero,nil_append,Nat.add_zero,Nat.mod_eq_of_lt hk]
    cases text with
    | nil => rfl
    | cons ch text => rw [openingHashes,if_neg fun hch => h (congrArg some hch)]
  | succ n ih =>
    rw [replicate_succ,cons_append,openingHashes,if_pos rfl,ih (Nat.mod_lt _ (by decide)),Nat.mod_add_mod]
    congr 2
    omega

theorem closingHashes_spec (text : List Char) (hk : k ≤ n) : ∃ m t, closingHashes n k text = (k + m,t) ∧ k + m ≤ n ∧
    text = replicate m '#' ++ t ∧ (k + m < n → t.head? ≠ some '#') := by
  induction text generalizing k with
  | nil => exact ⟨0,[],rfl,hk,rfl,nofun⟩
  | cons ch text ih =>
    rw [closingHashes]
    split
    case isTrue h =>
      obtain ⟨m,t,heq,hle,rfl,hm⟩ := ih (k := k + 1) (by omega)
      refine ⟨m + 1,t,?_,by omega,?_,fun hlt => hm (by omega)⟩
      · rw [heq,Nat.add_assoc,Nat.add_comm 1]
      · rw [h.1,replicate_succ,cons_append]
    case isFalse h => exact ⟨0,ch :: text,rfl,hk,rfl,fun hlt hch => h ⟨some.inj hch,hlt⟩⟩

theorem rawEnd_dropWhile : rawEnd n (text.dropWhile (· ≠ '"')) = rawEnd n text := by
  induction text with
  | nil => rfl
  | cons ch text ih =>
    by_cases hch : ch = '"'
    · simp [hch]
    · rw [dropWhile_cons_of_pos (by simpa using hch),ih,rawEnd,if_neg (fun h => hch h.1)]

theorem rawEnd_hashes (m : Nat) : rawEnd n (replicate m '#' ++ text) = rawEnd n text := by
  induction m with
  | zero => rfl
  | succ m ih => rw [replicate_succ,cons_append,rawEnd,if_neg (fun h => absurd h.1 (by decide)),ih]

theorem not_isPrefix (hlt : m < n) (h : text.head? ≠ some '#') : ¬ replicate n '#' <+: replicate m '#' ++ text := by
  obtain ⟨k,rfl⟩ : ∃ k, n = m + (k + 1) := ⟨n - m - 1,by omega⟩
  rw [replicate_add,prefix_append_right_inj,replicate_succ]
  rintro ⟨t,rfl⟩
  exact h rfl

theorem rawLoop_spec (fuel : Nat) (found : Nat) (offset : Option Nat) (c : Cursor)
    (hf : c.chars.length < fuel) : ∃ answer, rawLoop n startPos prefixLen fuel found offset c =
      some (answer,{ c with chars := (rawEnd n c.chars).getD [] }) ∧
      answer.toOption = (rawEnd n c.chars).map fun _ => n := by
  induction fuel generalizing c found offset with
  | zero => exact absurd hf (Nat.not_lt_zero _)
  | succ fuel ih =>
    simp only [rawLoop,eatUntil_eq (show '"'.toNat < 128 by decide),bind_eq_bind,bind_some]
    rw [← rawEnd_dropWhile]
    have hl := (dropWhile_sublist (l := c.chars) (· ≠ '"')).length_le
    generalize hd : c.chars.dropWhile (· ≠ '"') = text at hl ⊢
    cases text with
    | nil => exact ⟨_,rfl,rfl⟩
    | cons ch post =>
      obtain rfl : ch = '"' := by
        have hh := head?_dropWhile_not (· ≠ '"') c.chars
        rw [hd] at hh
        simpa using hh
      have hp : post.length < fuel := by
        simp only [length_cons] at hl
        omega
      obtain ⟨m,t,heq,hle,rfl,hma⟩ := closingHashes_spec post (Nat.zero_le n)
      simp only [Nat.zero_add] at heq hle hma
      simp only [tail_cons,heq,rawEnd,true_and,if_neg (cons_ne_nil _ _)]
      by_cases hm : m = n
      · subst hm
        rw [if_pos rfl,if_pos (prefix_append _ _),drop_left' length_replicate]
        exact ⟨_,rfl,rfl⟩
      · have hlt : m < n := Nat.lt_of_le_of_ne hle hm
        rw [if_neg hm,if_neg (not_isPrefix hlt (hma hlt)),rawEnd_hashes]
        have ht : t.length < fuel := by
          rw [length_append,length_replicate] at hp
          omega
        split
        · exact ih _ _ { c with chars := t } ht
        · exact ih _ _ { c with chars := t } ht

end

theorem blockComment_eq {c : Cursor} (h : c.chars = '*' :: text) : c.blockComment =
    some ((c.bump.commentStyle,(commentEnd 1 text).isSome),{ c with chars := (commentEnd 1 text).getD [] }) := by
  have ht : c.bump.chars = text := congrArg List.tail h
  obtain ⟨d,hr,hd⟩ := blockLoop_spec _ c.bump (Nat.lt_succ_self _) (Nat.le_refl 1)
  have hb : (d == 0) = (commentEnd 1 text).isSome := by rw [Bool.eq_iff_iff,beq_iff_eq,hd,ht]
  simp only [ht] at hr
  simp only [blockComment,ht,hr,bind_eq_bind,bind_some,hb]
  rfl

theorem rawStringUnvalidated_eq {c : Cursor} (prefixLen : Nat)
    (h : c.chars = replicate n '#' ++ '"' :: text) : ∃ answer, c.rawStringUnvalidated prefixLen =
      some (answer,{ c with chars := (rawEnd (n % 2 ^ 32) text).getD [] }) ∧
      answer.toOption = (rawEnd (n % 2 ^ 32) text).map fun _ => n % 2 ^ 32 := by
  have ho := openingHashes_eq (k := 0) n (show ('"' :: text).head? ≠ some '#' by simp) (by decide)
  simp only [rawStringUnvalidated,h,ho,Nat.zero_add,if_true]
  exact rawLoop_spec _ _ _ { c with chars := text } (Nat.lt_succ_self _)

theorem scanners_read_their_language (c : Cursor) (text : List Char) : (c.chars = '*' :: text → c.blockComment =
      some ((c.bump.commentStyle,(commentEnd 1 text).isSome),{ c with chars := (commentEnd 1 text).getD [] })) ∧
    (c.chars = text → c.doubleQuotedString =
    some ((stringEnd 0 text).isSome,{ c with chars := (stringEnd 0 text).getD [] })) ∧
    ∀ n prefixLen, n < 2 ^ 32 → c.chars = replicate n '#' ++ '"' :: text → ∃ answer,
      c.rawStringUnvalidated prefixLen = some (answer,{ c with chars := (rawEnd n text).getD [] }) ∧
      answer.toOption = (rawEnd n text).map fun _ => n := by
  refine ⟨blockComment_eq,?_,fun n prefixLen hn h => ?_⟩
  · rintro rfl
    exact quotedLoop_spec _ c (Nat.lt_succ_self _)
  · have hr := rawStringUnvalidated_eq prefixLen h
    rwa [Nat.mod_eq_of_lt hn] at hr

def openComment : Cursor := ⟨8, "*/**/*/x".toList,.No⟩

def openString : Cursor := ⟨6,['\\', '\\', '\\', '"', '"', 'x'],.No⟩

def openRaw : Cursor := ⟨5, "#\"\"#x".toList,.No⟩

theorem scanners_read_samples : openComment.blockComment = some ((none,true),⟨8,['x'],.No⟩) ∧
    openString.doubleQuotedString = some (true,⟨6,['x'],.No⟩) ∧ ∃ answer,
      openRaw.rawStringUnvalidated 1 = some (answer,⟨5,['x'],.No⟩) ∧ answer.toOption = some 1 := by
  have hc := (scanners_read_their_language openComment "/**/*/x".toList).1 rfl
  have hs := (scanners_read_their_language openString openString.chars).2.1 rfl
  have hr := (scanners_read_their_language openRaw "\"#x".toList).2.2 1 1 (by decide) rfl
  exact ⟨hc,hs,hr⟩

-- With 2 ^ 32 opening hashes the count is 0 again, and the first quote ends the string.
theorem wrapped_hashes_end_early : ∃ (c : Cursor) (n : Nat) (text rest : List Char) (answer : Except RawStrError Nat),
    c.chars = replicate n '#' ++ '"' :: text ∧ c.rawStringUnvalidated 1 = some (answer,{ c with chars := rest }) ∧
      rawEnd n text = none ∧ rest ≠ [] ∧ answer.toOption = some 0 := by
  have hr := rawStringUnvalidated_eq (c := ⟨0,replicate (2 ^ 32) '#' ++ '"' :: ['"', 'x'],.No⟩) 1 rfl
  obtain ⟨answer,hru,ha⟩ := hr
  refine ⟨_,2 ^ 32,['"', 'x'],['x'],answer,rfl,hru,?_,by simp,ha⟩
  have hn (text : List Char) (h : text.length < 2 ^ 32) : rawEnd (2 ^ 32) text = none := by
    induction text with
    | nil => rfl
    | cons ch text ih =>
      have hlt := Nat.lt_of_succ_lt h
      rw [rawEnd,if_neg fun hp => ?_,ih hlt]
      have hle := hp.2.length_le
      rw [length_replicate] at hle
      exact Nat.not_lt_of_le hle hlt
  exact hn _ (by decide)

end Frontend.Lexer
