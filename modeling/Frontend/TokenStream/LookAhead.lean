import Frontend.TokenStream.Flatten

namespace Frontend.TokenStream

open Ast TreeTokenCursor List Option

namespace Parser

-- Bumps a clone of the cursor; no answer is a panic.
def cloneLoop : Nat → Nat → Token → TreeTokenCursor → Option Token
  | 0, _, _, _ => none
  | _ + 1, 0, token, _ => some token
  | fuel + 1, dist + 1, _, c => do
    let ((token,_),c) ← c.nextAndBump
    if skippedToken token.kind then cloneLoop fuel (dist + 1) token c
    else cloneLoop fuel dist token c

def nextToken (c : TreeTokenCursor) : Option Token :=
  match c.lookAhead 1 with
  | some (.Token token _) => some token
  | some (.Delimited span _ delim _) =>
    if delim.skip then none else some ⟨delim.asOpenTokenKind,span.opening⟩
  | none =>
    match c.parentDelimAndSpan with
    | some (delim,span) => if delim.skip then none else some ⟨delim.asCloseTokenKind,span.closing⟩
    | none => none

end Parser

def bumps {C : Type} (bump : C → Option ((Token × Spacing) × C)) : Nat → C → Option (List Token × C)
  | 0, c => some ([],c)
  | n + 1, c => do
    let ((token,_),c) ← bump c
    let (tokens,c) ← bumps bump n c
    return (token :: tokens,c)

def counted (token : Token) : Bool := !skippedToken token.kind

section

variable {C : Type} {bump : C → Option ((Token × Spacing) × C)} {c c' : C} {token x : Token}
  {spacing : Spacing} {dist : Nat}

def IsAhead (bump : C → Option ((Token × Spacing) × C)) (c : C) (dist : Nat) (token : Token) : Prop :=
  ∃ n tokens c', bumps bump n c = some (tokens,c') ∧ tokens.getLast? = some token ∧
    counted token = true ∧ (tokens.filter counted).length = dist

theorem IsAhead.here (h : bump c = some ((x,spacing),c')) (hx : counted x = true) : IsAhead bump c 1 x := by
  refine ⟨1,[x],c',?_,rfl,hx,by simp [hx]⟩
  simp [bumps,h]

theorem IsAhead.later (h : bump c = some ((x,spacing),c')) (ha : IsAhead bump c' dist token) :
    IsAhead bump c (if counted x then dist + 1 else dist) token := by
  obtain ⟨n,tokens,c'',hb,hl,hc,hle⟩ := ha
  refine ⟨n + 1,x :: tokens,c'',by simp [bumps,h,hb],?_,hc,?_⟩
  · rw [getLast?_cons,hl,getD_some]
  · rw [filter_cons]
    split
    · rw [length_cons,hle]
    · exact hle

end

section

variable {c c' : TreeTokenCursor} {token x : Token} {spacing : Spacing} {xs : List Token} {dist : Nat}

def ahead (last : Token) (xs : List Token) : Nat → Token
  | 0 => last
  | dist + 1 => ((xs.filter counted)[dist]?).getD Token.eof

theorem ahead_nil (last : Token) (dist : Nat) : ahead last [] (dist + 1) = ahead Token.eof [] dist := by
  cases dist <;> rfl

theorem ahead_counted (last : Token) (hx : counted x = true) : ahead last (x :: xs) (dist + 1) = ahead x xs dist := by
  cases dist <;> simp [ahead,hx]

theorem ahead_skipped (last : Token) (hx : counted x = false) :
    ahead last (x :: xs) (dist + 1) = ahead x xs (dist + 1) := by
  simp [ahead,hx]

def TreeTokenCursor.tokens (c : TreeTokenCursor) : List Token := c.left.map Prod.fst

theorem bump_spec (h : c.Valid) : ∃ x spacing c', c.nextAndBump = some ((x,spacing),c') ∧ c'.Valid ∧
    (c.tokens = x :: c'.tokens ∧ c'.stepsLeft < c.stepsLeft ∨
      c.tokens = [] ∧ c'.tokens = [] ∧ x = Token.eof ∧ c'.stepsLeft ≤ c.stepsLeft) := by
  obtain ⟨⟨⟨x,spacing⟩,c'⟩,hn,hs⟩ := nextAndBump_spec h
  refine ⟨x,spacing,c',hn,hs.valid,?_⟩
  have ht := hs.token
  have hlt := hs.lt
  simp only [tokens,hs.left,stepsLeft_eq]
  cases hl : c.left with
  | nil =>
    rw [hl] at ht
    exact .inr ⟨rfl,rfl,congrArg Prod.fst ht,hs.le⟩
  | cons y rest =>
    rw [hl] at ht hlt
    have hx : x = y.1 := congrArg Prod.fst ht
    exact .inl ⟨by rw [hx]; rfl,hlt (cons_ne_nil _ _)⟩

theorem isAhead_ahead (last : Token) (n dist : Nat) (h : c.Valid) (hn : c.tokens.length + dist ≤ n) :
    IsAhead nextAndBump c (dist + 1) (ahead last c.tokens (dist + 1)) := by
  induction n generalizing c dist last with
  | zero =>
    obtain ⟨x,spacing,c',hne,-,⟨ht,-⟩ | ⟨ht,-,rfl,-⟩⟩ := bump_spec h
    · simp [ht] at hn
    · obtain rfl : dist = 0 := by omega
      rw [ht]
      exact .here hne rfl
  | succ n ih =>
    obtain ⟨x,spacing,c',hne,hv,⟨ht,hs⟩ | ⟨ht,ht',rfl,hs⟩⟩ := bump_spec h
    · rw [ht,length_cons] at hn
      rw [ht]
      cases hx : counted x with
      | true =>
        rw [ahead_counted last hx]
        cases dist with
        | zero => exact .here hne hx
        | succ dist => simpa [hx] using (ih x dist hv (by omega)).later hne
      | false =>
        rw [ahead_skipped last hx]
        simpa [hx] using (ih x dist hv (by omega)).later hne
    · rw [ht,ahead_nil,← ht']
      rw [ht] at hn
      cases dist with
      | zero => exact .here hne rfl
      | succ dist => exact (ih Token.eof dist hv (by rw [ht']; simpa using hn)).later hne

theorem cloneLoop_spec (fuel : Nat) (h : c.Valid) (hf : c.stepsLeft + dist < fuel) :
    Parser.cloneLoop fuel dist token c = some (ahead token c.tokens dist) := by
  induction fuel generalizing c dist token with
  | zero => omega
  | succ fuel ih =>
    cases dist with
    | zero => rfl
    | succ dist =>
      obtain ⟨x,spacing,c',hn,hv,⟨ht,hs⟩ | ⟨ht,ht',rfl,hs⟩⟩ := bump_spec h
      · simp only [Parser.cloneLoop,hn,bind_eq_bind,bind_some,ht]
        split
        case isTrue hx => rw [ih hv (by omega),ahead_skipped token (by simpa [counted] using hx)]
        case isFalse hx => rw [ih hv (by omega),ahead_counted token (by simpa [counted] using hx)]
      · simp only [Parser.cloneLoop,hn,bind_eq_bind,bind_some,ht]
        rw [ahead_nil,← ht']
        exact ih hv (by omega)

end

namespace TreeTokenCursor

namespace Walk

def around (w : Walk) : List TokenTreeCursor := w.entered ++ w.outer.map (·.cursor)

def left (w : Walk) : List (Token × Spacing) := rest w.cursor w.around

def size (w : Walk) : Nat := TokenStream.size w.cursor w.around

def Valid (w : Walk) : Prop := ∀ p ∈ w.around, p.Inside

end Walk

inductive Walks (w : Walk) : WalkStep → Prop
  | token {x : Token} {spacing : Spacing} {w' : Walk} (hval : w'.Valid)
      (hleft : w.left = (x,spacing) :: w'.left) (hsize : w'.size < w.size) : Walks w (.token x w')
  | eof (hleft : w.left = []) : Walks w (.token Token.eof w)
  | again {w' : Walk} (hval : w'.Valid) (hleft : w.left = w'.left) (hsize : w'.size < w.size) : Walks w (.again w')
  | tooDeep : Walks w .tooDeep

theorem walks_step (h : w.Valid) : Walks w w.step := by
  have hup {w' : Walk} {skip : Bool} {x : Token} {spacing : Spacing} (hv : w'.Valid)
    (hl : w.left = (if skip then [] else [(x,spacing)]) ++ w'.left)
      (hs : w'.size < w.size) : Walks w (if skip then .again w' else .token x w') := by
    split at hl
    case isTrue hsk =>
      rw [if_pos hsk]
      exact .again hv hl hs
    case isFalse hsk =>
      rw [if_neg hsk]
      exact .token hv hl hs
  obtain ⟨entered,outer,cursor⟩ := w
  unfold Walk.step
  cases entry cursor h with
  | token token spacing hn hr hs =>
    simp only [hn]
    exact .token h hr hs
  | group span spacing delim tts hn hin hr hs =>
    have hv := forall_mem_cons.mpr ⟨hin,h⟩
    simp only [hn]
    split
    · exact .tooDeep
    · exact hup hv hr hs
  | leave parent outer' span spacing delim tts hn ho hc hr hs =>
    have hv p (hp : p ∈ outer') : p.Inside := h p (ho ▸ .tail _ hp)
    simp only [hn]
    cases entered with
    | cons top entered =>
      obtain ⟨rfl,rfl⟩ := cons.inj ho
      simp only [hc]
      exact hup hv hr hs
    | nil =>
      obtain ⟨frame,stack,rfl,rfl,rfl⟩ := map_eq_cons_iff.mp ho
      simp only [hc]
      exact hup hv hr hs
  | eof hn ho hr =>
    obtain ⟨rfl,hm⟩ := append_eq_nil_iff.mp ho
    obtain rfl := map_eq_nil_iff.mp hm
    simp only [hn]
    exact .eof hr

theorem walkLoop_spec (fuel : Nat) {dist : Nat} (h : w.Valid) (hf : w.size + dist < fuel) :
    ∃ answer, walkLoop fuel dist token w = some answer ∧
      ∀ x, answer = some x → x = ahead token (w.left.map Prod.fst) dist := by
  induction fuel generalizing w dist token with
  | zero => omega
  | succ fuel ih =>
    cases dist with
    | zero => exact ⟨_,rfl,fun x hx => (some.inj hx).symm⟩
    | succ dist =>
      have hw := walks_step h
      unfold walkLoop
      generalize w.step = step at hw
      cases hw with
      | @token x spacing w' hv hl hs =>
        simp only [hl,map_cons]
        split
        case isTrue hx =>
          rw [ahead_skipped token (by simpa [counted] using hx)]
          exact ih hv (by omega)
        case isFalse hx =>
          rw [ahead_counted token (by simpa [counted] using hx)]
          exact ih hv (by omega)
      | eof hl =>
        rw [hl,map_nil,ahead_nil,← map_nil (f := Prod.fst),← hl]
        exact ih h (by omega)
      | again hv hl hs =>
        rw [hl]
        exact ih hv (by omega)
      | tooDeep => exact ⟨_,rfl,fun x hx => by cases hx⟩

theorem lookAheadToken_spec {c : TreeTokenCursor} (h : c.Valid) (dist : Nat) :
    ∃ answer, c.lookAheadToken dist = some answer ∧ ∀ x, answer = some x → x = ahead Token.dummy c.tokens dist := by
  refine walkLoop_spec _ h ?_
  rw [stepsLeft_eq]
  exact Nat.lt_succ_self _

end TreeTokenCursor

mutual

def plainTree : TokenTree → Bool
  | .Token token _ => !token.kind.isDelim
  | .Delimited _ _ _ tts => plain tts

def plain : List TokenTree → Bool
  | [] => true
  | tree :: trees => plainTree tree && plain trees

end

-- A `TokenTree::Token` should never be a delimiter.
abbrev PlainStream := { stream : TokenStream // plain stream }

theorem counted_delim {t : Token × Spacing} (h : skip = false → skippedToken t.1.kind = false) :
    ∀ x ∈ if skip then [] else [t], counted x.1 = true := by
  intro x hx
  split at hx
  · cases hx
  rename_i hs
  obtain rfl := mem_singleton.mp hx
  simp [counted,h (Bool.not_eq_true _ ▸ hs)]

mutual

theorem counted_flattenTree : (tree : TokenTree) → plainTree tree → ∀ x ∈ flattenTree tree, counted x.1 = true
  | .Token token spacing, h, x, hx => by
    obtain rfl := mem_singleton.mp hx
    simp [counted,skippedToken_of_not_isDelim (by simpa [plainTree] using h)]
  | .Delimited span spacing delim tts, h, x, hx => by
    simp only [flattenTree,mem_append] at hx
    rcases hx with hx | hx | hx
    · exact counted_delim skippedToken_asOpenTokenKind x hx
    · exact counted_flatten tts h x hx
    · exact counted_delim skippedToken_asCloseTokenKind x hx

theorem counted_flatten : (trees : List TokenTree) → plain trees → ∀ x ∈ flatten trees, counted x.1 = true
  | [], _, x, hx => by cases hx
  | tree :: trees, h, x, hx => by
    obtain ⟨ht,htr⟩ := Bool.and_eq_true_iff.mp h
    rcases mem_append.mp hx with hx | hx
    · exact counted_flattenTree tree ht x hx
    · exact counted_flatten trees htr x hx

end

theorem bumps_left {tokens : List Token} (h : c.Valid) (hb : bumps nextAndBump n c = some (tokens,c')) :
    c'.Valid ∧ c'.left = c.left.drop n := by
  induction n generalizing c tokens with
  | zero =>
    cases hb
    exact ⟨h,rfl⟩
  | succ n ih =>
    obtain ⟨answer,hn,hs⟩ := nextAndBump_spec h
    simp only [bumps,hn,bind_eq_bind,bind_some,bind_eq_some_iff] at hb
    obtain ⟨⟨tokens',c''⟩,hb,hc⟩ := hb
    cases hc
    obtain ⟨hv,hl⟩ := ih hs.valid hb
    exact ⟨hv,by rw [hl,hs.left,drop_tail]⟩

theorem nextToken_spec (h : c.Valid) (ht : Parser.nextToken c = some token) : ∃ xs, c.tokens = token :: xs := by
  have hl : c.lookAhead 1 = c.curr.next := rfl
  simp only [Parser.nextToken,hl] at ht
  simp only [tokens,left]
  cases entry c.curr h with
  | token x spacing hn hr =>
    simp only [hn,some.injEq] at ht
    exact ⟨_,by rw [hr,← ht]; rfl⟩
  | group span spacing delim tts hn hin hr =>
    simp only [hn] at ht
    unfold opening at hr
    split at ht
    · cases ht
    rename_i hs
    rw [if_neg hs] at hr
    cases ht
    exact ⟨_,by rw [hr]; rfl⟩
  | leave parent outer' span spacing delim tts hn ho hc hr =>
    obtain ⟨frame,stack,hst,rfl,rfl⟩ := map_eq_cons_iff.mp ho
    simp only [hn,parentDelimAndSpan,parent,hst,head?_cons,map_some,bind_some,hc] at ht
    unfold closing at hr
    split at ht
    · cases ht
    rename_i hs
    rw [if_neg hs] at hr
    cases ht
    exact ⟨_,by rw [hr]; rfl⟩
  | eof hn ho => simp [hn,parentDelimAndSpan,parent,map_eq_nil_iff.mp ho] at ht

theorem valid_new (stream : TokenStream) : (new stream).Valid := by simp [Valid,outer,new]

end Frontend.TokenStream
