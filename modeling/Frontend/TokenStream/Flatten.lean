import Frontend.TokenStream.Tree

namespace Frontend.TokenStream

open Ast List TokenTreeCursor

def opening (span : DelimSpan) (spacing : DelimSpacing) (delim : Delimiter) : List (Token × Spacing) :=
  if delim.skip then [] else [(⟨delim.asOpenTokenKind,span.opening⟩,spacing.opening)]

def closing (span : DelimSpan) (spacing : DelimSpacing) (delim : Delimiter) : List (Token × Spacing) :=
  if delim.skip then [] else [(⟨delim.asCloseTokenKind,span.closing⟩,spacing.closing)]

mutual

def flattenTree : TokenTree → List (Token × Spacing)
  | .Token token spacing => [(token,spacing)]
  | .Delimited span spacing delim tts => opening span spacing delim ++ (flatten tts ++ closing span spacing delim)

def flatten : List TokenTree → List (Token × Spacing)
  | [] => []
  | tree :: trees => flattenTree tree ++ flatten trees

end

namespace TokenTreeCursor

section

variable (c : TokenTreeCursor)

def left : List (Token × Spacing) := flatten (c.stream.drop c.nextIdx)

def size : Nat := streamSize (c.stream.drop c.nextIdx)

def close : List (Token × Spacing) :=
  match c.curr with
  | some (.Delimited span spacing delim _) => closing span spacing delim
  | _ => []

def Inside : Prop := ∃ span spacing delim tts, c.curr = some (.Delimited span spacing delim tts)

end

variable {c : TokenTreeCursor}

@[simp] theorem left_new (stream : TokenStream) : (new stream).left = flatten stream := rfl

@[simp] theorem size_new (stream : TokenStream) : (new stream).size = streamSize stream := rfl

theorem left_of_none (h : c.next = none) : c.left = [] := by
  rw [left,drop_eq_nil_of_le (getElem?_eq_none_iff.mp h),flatten]

variable {tree : TokenTree}

theorem drop_of_next (h : c.next = some tree) : c.stream.drop c.nextIdx = tree :: c.bump.stream.drop c.bump.nextIdx := by
  obtain ⟨hlt,rfl⟩ := List.getElem_of_getElem? h
  exact List.drop_eq_getElem_cons hlt

theorem left_of_next (h : c.next = some tree) : c.left = flattenTree tree ++ c.bump.left := by
  rw [left,drop_of_next h,flatten,left]

theorem size_of_next (h : c.next = some tree) : c.size = treeSize tree + c.bump.size := by
  rw [size,drop_of_next h,streamSize,size]

end TokenTreeCursor

def rest (curr : TokenTreeCursor) (outer : List TokenTreeCursor) : List (Token × Spacing) :=
  curr.left ++ outer.flatMap fun c => c.close ++ c.left

def size (curr : TokenTreeCursor) (outer : List TokenTreeCursor) : Nat := curr.size + (outer.map fun c => c.size + 1).sum

inductive Entry (curr : TokenTreeCursor) (outer : List TokenTreeCursor) : Prop
  | token (token : Token) (spacing : Spacing) (hnext : curr.next = some (.Token token spacing))
      (hrest : rest curr outer = (token,spacing) :: rest curr.bump outer)
      (hsize : size curr.bump outer < size curr outer)
  | group (span : DelimSpan) (spacing : DelimSpacing) (delim : Delimiter) (tts : TokenStream)
      (hnext : curr.next = some (.Delimited span spacing delim tts)) (hins : curr.bump.Inside)
      (hrest : rest curr outer = opening span spacing delim ++ rest (.new tts) (curr.bump :: outer))
      (hsize : size (.new tts) (curr.bump :: outer) < size curr outer)
  | leave (parent : TokenTreeCursor) (outer' : List TokenTreeCursor) (span : DelimSpan)
      (spacing : DelimSpacing) (delim : Delimiter) (tts : TokenStream) (hnext : curr.next = none)
      (hout : outer = parent :: outer') (hcurr : parent.curr = some (.Delimited span spacing delim tts))
      (hrest : rest curr outer = closing span spacing delim ++ rest parent outer')
      (hsize : size parent outer' < size curr outer)
  | eof (hnext : curr.next = none) (hout : outer = []) (hrest : rest curr outer = [])

theorem entry (curr : TokenTreeCursor) (h : ∀ c ∈ outer, c.Inside) : Entry curr outer := by
  cases hn : curr.next with
  | none =>
    have hl := left_of_none hn
    cases outer with
    | nil => exact .eof hn rfl (by simp [rest,hl])
    | cons parent outer =>
      obtain ⟨span,spacing,delim,tts,hc⟩ := h parent (.head _)
      refine .leave parent outer span spacing delim tts hn rfl hc ?_ ?_
      · simp [rest,hl,close,hc]
      · simp only [size,map_cons,sum_cons]
        omega
  | some tree =>
    have hl := left_of_next hn
    have hs := size_of_next hn
    have hc : curr.bump.curr = some tree := hn
    cases tree with
    | Token token spacing =>
      refine .token token spacing hn (by simp [rest,hl,flattenTree]) ?_
      simp only [size,hs,treeSize]
      omega
    | Delimited span spacing delim tts =>
      refine .group span spacing delim tts hn ⟨_,_,_,_,hc⟩ ?_ ?_
      · simp [rest,hl,flattenTree,close,hc]
      · simp only [size,hs,treeSize,map_cons,sum_cons,size_new]
        omega

namespace TreeTokenCursor

section

variable (c : TreeTokenCursor)

def outer : List TokenTreeCursor := c.stack.map (·.cursor)

def left : List (Token × Spacing) := rest c.curr c.outer

def Valid : Prop := ∀ p ∈ c.outer, p.Inside

end

def eof : Token × Spacing := (Token.eof,.Alone)

theorem stepsLeft_eq (c : TreeTokenCursor) : c.stepsLeft = size c.curr c.outer := by
  simp only [stepsLeft,size,outer,map_map,Function.comp_def,TokenTreeCursor.size]

structure Next (c : TreeTokenCursor) (answer : (Token × Spacing) × TreeTokenCursor) : Prop where
  token : answer.1 = c.left.headD eof
  left : answer.2.left = c.left.tail
  valid : answer.2.Valid
  le : size answer.2.curr answer.2.outer ≤ size c.curr c.outer
  lt : c.left ≠ [] → size answer.2.curr answer.2.outer < size c.curr c.outer

variable {c : TreeTokenCursor}

theorem Next.of_cons (h : c.left = x :: c'.left) (hv : c'.Valid) (hs : size c'.curr c'.outer < size c.curr c.outer) :
    c.Next (x,c') :=
  ⟨by rw [h]; rfl,by rw [h]; rfl,hv,Nat.le_of_lt hs,fun _ => hs⟩

theorem Next.of_eq {c' : TreeTokenCursor} (h : c'.Next answer) (hl : c.left = c'.left)
    (hs : size c'.curr c'.outer < size c.curr c.outer) : c.Next answer :=
  ⟨hl ▸ h.token,hl ▸ h.left,h.valid,Nat.le_of_lt (Nat.lt_of_le_of_lt h.le hs),fun _ => Nat.lt_of_le_of_lt h.le hs⟩

theorem nextLoop_spec (fuel : Nat) (h : c.Valid) (hf : size c.curr c.outer < fuel) :
    ∃ answer, nextLoop fuel c = some answer ∧ c.Next answer := by
  induction fuel generalizing c with
  | zero => exact absurd hf (Nat.not_lt_zero _)
  | succ fuel ih =>
    have ha {c' : TreeTokenCursor} (hv : c'.Valid) (hl : c.left = c'.left)
      (hs : size c'.curr c'.outer < size c.curr c.outer) :
        ∃ answer, nextLoop fuel c' = some answer ∧ c.Next answer := by
      obtain ⟨answer,han,hsp⟩ := ih hv (by omega)
      exact ⟨answer,han,hsp.of_eq hl hs⟩
    cases entry c.curr h with
    | token token spacing hn hr hs =>
      simp only [nextLoop,hn]
      exact ⟨_,rfl,.of_cons hr h hs⟩
    | group span spacing delim tts hn hin hr hs =>
      have hv := forall_mem_cons.mpr ⟨hin,h⟩
      simp only [nextLoop,hn]
      unfold opening at hr
      split
      case isTrue hsk =>
        rw [if_pos hsk] at hr
        exact ha hv hr hs
      case isFalse hsk =>
        rw [if_neg hsk] at hr
        exact ⟨_,rfl,.of_cons hr hv hs⟩
    | leave parent outer' span spacing delim tts hn ho hc hr hs =>
      obtain ⟨frame,stack,hst,rfl,rfl⟩ := map_eq_cons_iff.mp ho
      have hv : Valid ⟨frame.cursor,stack⟩ := fun p hp => h p (ho ▸ .tail _ hp)
      simp only [nextLoop,hn,hst,hc]
      unfold closing at hr
      split
      case isTrue hsk =>
        rw [if_pos hsk] at hr
        exact ha hv hr hs
      case isFalse hsk =>
        rw [if_neg hsk] at hr
        exact ⟨_,rfl,.of_cons hr hv hs⟩
    | eof hn ho hr =>
      simp only [nextLoop,hn,map_eq_nil_iff.mp ho]
      have hl : c.left = [] := hr
      exact ⟨_,rfl,by rw [hl]; rfl,by rw [hl]; rfl,h,Nat.le_refl _,fun hne => absurd hl hne⟩

theorem nextAndBump_spec (h : c.Valid) : ∃ answer, c.nextAndBump = some answer ∧ c.Next answer :=
  nextLoop_spec _ h (by rw [← stepsLeft_eq]; exact Nat.lt_succ_self _)

end TreeTokenCursor

end Frontend.TokenStream
