import Frontend.Ast.Token
import Frontend.Lexer.Scan

namespace Frontend.TokenStream

open Ast List Lexer Option

-- The counts are `u8`s; `none` is an overflow.
def hashCount (count : Nat) (ch : Char) : Option Nat :=
  if ch = '"' then some 1
  else if ch = '#' ∧ 0 < count then if count + 1 < 256 then some (count + 1) else none
  else some 0

def countHashes : Nat → Nat → List Char → Option Nat
  | numOfHashes, _, [] => some numOfHashes
  | numOfHashes, count, ch :: text => do
    let count ← hashCount count ch
    countHashes (max numOfHashes count) count text

def desugaredTts (attrStyle : AttrStyle) (data : Symbol) (span : Span) : Option (List TokenTree) := do
  let numOfHashes ← countHashes 0 0 data
  let body := .Delimited ⟨span,span⟩ ⟨.JointHidden,.Alone⟩ .Bracket
    [.Token ⟨.Ident "doc".toList .No,span⟩ .Alone,.Token ⟨.Eq,span⟩ .Alone,
      .Token ⟨.Literal ⟨.StrRaw numOfHashes,data,none⟩,span⟩ .Alone]
  return match attrStyle with
    | .Inner => [.Token ⟨.Pound,span⟩ .Joint,.Token ⟨.Bang,span⟩ .JointHidden,body]
    | .Outer => [.Token ⟨.Pound,span⟩ .JointHidden,body]

-- Every quote is followed by fewer hashes.
def Runs (n : Nat) (data : List Char) : Prop := ∀ pre k post, data = pre ++ '"' :: (replicate k '#' ++ post) → k < n

variable {n most count next : Nat} {ch : Char} {data : List Char}

theorem Runs.cons (h : Runs n data) (hq : ch = '"' → ∀ k post, data = replicate k '#' ++ post → k < n) :
    Runs n (ch :: data) := by
  rintro (_ | ⟨x,pre⟩) k post he
  · obtain ⟨rfl,rfl⟩ := cons.inj he
    exact hq rfl k post rfl
  · exact h pre k post (cons.inj he).2

theorem Runs.tail (h : Runs n (ch :: data)) : Runs n data := fun pre k post he => h (ch :: pre) k post (congrArg _ he)

theorem hashCount_some (h : hashCount count ch = some next) : ch = '"' ∧ next = 1 ∨
    ch = '#' ∧ 0 < count ∧ next = count + 1 ∧ next < 256 ∨ (ch ≠ '#' ∨ count = 0) ∧ ch ≠ '"' ∧ next = 0 := by
  unfold hashCount at h
  split at h
  case isTrue hq => exact .inl ⟨hq,(some.inj h).symm⟩
  case isFalse hq =>
    split at h
    case isTrue hh =>
      split at h
      case isTrue hl => exact .inr (.inl ⟨hh.1,hh.2,(some.inj h).symm,some.inj h ▸ hl⟩)
      case isFalse => cases h
    case isFalse hh =>
      refine .inr (.inr ⟨?_,hq,(some.inj h).symm⟩)
      by_contra hn
      exact hh ⟨by_contra fun hc => hn (.inl hc),Nat.pos_of_ne_zero fun hz => hn (.inr hz)⟩

theorem hashCount_none (h : hashCount count ch = none) : ch = '#' ∧ 255 ≤ count := by
  unfold hashCount at h
  split at h
  · cases h
  split at h
  case isTrue hh =>
    split at h
    · cases h
    · exact ⟨hh.1,by omega⟩
  case isFalse => cases h

theorem countHashes_bounds (hb : most < 256) (hc : count ≤ most) (h : countHashes most count data = some n) :
    most ≤ n ∧ n < 256 ∧ Runs n data ∧ (0 < count → ∀ k post, data = replicate k '#' ++ post → count + k ≤ n) := by
  induction data generalizing most count with
  | nil =>
    cases h
    refine ⟨le_rfl,hb,fun pre k post he => by simp at he,fun _ k post he => ?_⟩
    have hk : k = 0 := by simpa using (append_eq_nil_iff.mp he.symm).1
    omega
  | cons ch data ih =>
    obtain ⟨next,hn,h⟩ := bind_eq_some_iff.mp h
    have hs := hashCount_some hn
    obtain ⟨hm,hl,hr,ht⟩ := ih (by omega) (Nat.le_max_right most next) h
    refine ⟨by omega,hl,hr.cons ?_,fun hp k post he => ?_⟩
    · rintro rfl k post rfl
      obtain ⟨-,rfl⟩ | ⟨hd,-⟩ | ⟨-,hd,-⟩ := hs
      · have := ht Nat.one_pos k post rfl
        omega
      · cases hd
      · exact absurd rfl hd
    · cases k with
      | zero => omega
      | succ k =>
        obtain ⟨rfl,rfl⟩ := cons.inj he
        obtain ⟨hd,-⟩ | ⟨-,-,rfl,-⟩ | ⟨hd | hd,-⟩ := hs
        · cases hd
        · have := ht (Nat.succ_pos _) k post rfl
          omega
        · exact absurd rfl hd
        · omega

theorem long_run_of_overflow (h : countHashes most count data = none) : ¬Runs 255 data ∨
    0 < count ∧ ∃ k post, data = replicate k '#' ++ post ∧ 256 ≤ count + k := by
  induction data generalizing most count with
  | nil => cases h
  | cons ch data ih =>
    cases hn : hashCount count ch with
    | none =>
      obtain ⟨rfl,hc⟩ := hashCount_none hn
      exact .inr ⟨by omega,1,data,rfl,by omega⟩
    | some next =>
      rw [countHashes,hn] at h
      rcases ih h with hr | ⟨hp,k,post,rfl,hk⟩
      · exact .inl fun hall => hr hall.tail
      obtain ⟨rfl,rfl⟩ | ⟨rfl,hc,rfl,-⟩ | ⟨-,-,rfl⟩ := hashCount_some hn
      · exact .inl fun hall => absurd (hall [] k post rfl) (by omega)
      · exact .inr ⟨hc,k + 1,post,rfl,by omega⟩
      · cases hp

theorem rawEnd_of_runs (rest : List Char) (h : Runs n data) :
    rawEnd n (data ++ '"' :: (replicate n '#' ++ rest)) = some rest := by
  induction data with
  | nil => simp [rawEnd]
  | cons ch data ih =>
    rw [cons_append,rawEnd,if_neg,ih h.tail]
    rintro ⟨rfl,hp⟩
    obtain ⟨m,t,-,-,rfl,hm⟩ := closingHashes_spec (n := data.length + 1) data (Nat.zero_le _)
    have hl : m < n := h [] m t rfl
    rw [append_assoc] at hp
    refine not_isPrefix hl ?_ hp
    have ht := hm (by simp only [length_append,length_replicate]; omega)
    cases t with
    | nil => simp
    | cons x t => simpa using ht

theorem lexes_back (c : Cursor) (rest : List Char) (hn : n < 256) (h : Runs n data)
    (hc : c.chars = replicate n '#' ++ '"' :: (data ++ '"' :: (replicate n '#' ++ rest))) :
    c.rawDoubleQuotedString 1 = some (.ok n,{ c with chars := rest }) := by
  obtain ⟨answer,hr,ha⟩ := rawStringUnvalidated_eq 1 hc
  rw [Nat.mod_eq_of_lt (by omega),rawEnd_of_runs rest h] at hr ha
  cases answer with
  | error e => cases ha
  | ok m =>
    cases ha
    simp [Cursor.rawDoubleQuotedString,hr,Except.bind,hn]

-- The literal in what a doc comment becomes, written with its hashes and lexed.
structure Lossless (attrStyle : AttrStyle) (data : Symbol) (span : Span) (n : Nat) (trees pre : List TokenTree) :
    Prop where
  desugared : desugaredTts attrStyle data span = some trees
  literal : ∃ spans spacing name equals, trees = pre ++ [.Delimited spans spacing .Bracket [name,equals,
    .Token ⟨.Literal ⟨.StrRaw n,data,none⟩,span⟩ .Alone]]
  lexed : ∀ (c : Cursor) (rest : List Char), c.chars = replicate n '#' ++ '"' ::
    (data ++ '"' :: (replicate n '#' ++ rest)) →
      c.rawDoubleQuotedString 1 = some (.ok n,{ c with chars := rest })

theorem desugared_doc_comment_lossless_iff (attrStyle : AttrStyle) (data : Symbol) (span : Span) :
    (∃ n trees pre, Lossless attrStyle data span n trees pre) ↔ ∀ pre post, data ≠ pre ++ '"' ::
    (replicate 255 '#' ++ post) := by
  constructor
  · rintro ⟨n,trees,-,⟨hd,-,-⟩⟩ pre post rfl
    obtain ⟨m,hm,-⟩ := bind_eq_some_iff.mp hd
    obtain ⟨-,hlt,hr,-⟩ := countHashes_bounds (by decide) (Nat.le_refl 0) hm
    have := hr pre 255 post rfl
    omega
  · intro h
    cases hc : countHashes 0 0 data with
    | none =>
      rcases long_run_of_overflow hc with hr | ⟨hp,-⟩
      · refine absurd (fun pre k post he => ?_) hr
        by_contra hk
        obtain ⟨j,rfl⟩ : ∃ j, k = 255 + j := ⟨k - 255,by omega⟩
        rw [replicate_add,append_assoc] at he
        exact h pre _ he
      · cases hp
    | some n =>
      obtain ⟨-,hlt,hr,-⟩ := countHashes_bounds (by decide) (Nat.le_refl 0) hc
      have hl := fun (c : Cursor) rest => lexes_back c rest hlt hr
      cases attrStyle with
      | Inner => exact ⟨n,_,[_,_],by rw [desugaredTts,hc]; rfl,⟨_,_,_,_,rfl⟩,hl⟩
      | Outer => exact ⟨n,_,[_],by rw [desugaredTts,hc]; rfl,⟨_,_,_,_,rfl⟩,hl⟩

theorem long_hash_run_overflows : ¬∃ n trees pre, Lossless .Outer ('"' :: replicate 255 '#') .dummySp n trees pre := by
  rintro ⟨n,trees,pre,hd,-,-⟩
  have hn : desugaredTts .Outer ('"' :: replicate 255 '#') .dummySp = none := by decide +kernel
  cases hn.symm.trans hd

end Frontend.TokenStream
