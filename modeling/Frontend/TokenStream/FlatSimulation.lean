import Frontend.TokenStream.Layout
import Frontend.TokenStream.LookAhead

namespace Frontend.TokenStream

open Ast FlatTokenBuffer List TreeTokenCursor

variable {B : List SourceToken} {e a b n : Nat} {stack : List TokenCursorFrame} {before after : List TokenTree}
  {c : TreeTokenCursor}

inductive Frames (B : List SourceToken) : Nat → Nat → Nat → List TokenCursorFrame → Prop
  | root : Frames B outerIndex 0 B.length []
  | nested {e a b o close : Nat} {stack : List TokenCursorFrame} {before after inner : List TokenTree}
      {t : Token} {d : Delimiter} {spacing : DelimSpacing} {span : Span} :
      Frames B e a b stack → Layout B e a o before → GroupAt B e o close t d spacing span →
      Layout B o (o + 1) close inner → Layout B e (close + 1) b after →
      Frames B o (o + 1) close (⟨⟨before ++ .Delimited ⟨t.span,span⟩ spacing d inner :: after,before.length + 1⟩,
          stack.length + 1⟩ :: stack)

section

variable (B : List SourceToken) (n : Nat) (c : TreeTokenCursor)

structure SimAt (e a b : Nat) (before after : List TokenTree) : Prop where
  frames : Frames B e a b c.stack
  curr : c.curr = ⟨before ++ after,before.length⟩
  passed : Layout B e a n before
  remaining : Layout B e n b after

def Sim : Prop := ∃ e a b before after, SimAt B n c e a b before after

end

theorem notOuter_of_ne (h : e ≠ outerIndex) : FlatTokenCursor.notOuter e = some e := by simp [FlatTokenCursor.notOuter,h]

variable {d : Delimiter} {i j : Nat} {ts : List TokenTree}

theorem GroupAt.ne_outer {span : Span} (h : GroupAt B e o close t d spacing span) : o ≠ outerIndex :=
  (h.lt.trans h.lt_outer).ne

section

variable (h : Frames B e a b stack)

include h

theorem Frames.bound : b ≤ B.length := by
  cases h with
  | root => exact le_rfl
  | nested _ _ hg _ _ => exact hg.lt_length.le

theorem Frames.depth_eq (curr : TokenTreeCursor) : (⟨curr,stack⟩ : TreeTokenCursor).depth = stack.length := by
  cases h <;> rfl

theorem Frames.stack_length_le : stack.length ≤ a := by
  induction h with
  | root => exact Nat.zero_le 0
  | nested _ hb _ _ _ ih =>
    have := hb.le
    simp only [length_cons]
    omega

theorem Frames.depthLoop {fuel : Nat} (hf : stack.length ≤ fuel) :
    FlatTokenCursor.depthLoop B fuel (FlatTokenCursor.notOuter e) = some stack.length := by
  induction h generalizing fuel with
  | root => cases fuel <;> rfl
  | nested _ _ hg _ _ ih =>
    obtain ⟨fuel,rfl⟩ := Nat.exists_eq_succ_of_ne_zero (by simp at hf; omega : fuel ≠ 0)
    have hr := ih (by simpa using hf : _ ≤ fuel)
    rw [notOuter_of_ne hg.ne_outer]
    simp [FlatTokenCursor.depthLoop,hg.opened,hg.closed,hr]

theorem Frames.enclosing (hp : Layout B e a n before) :
    FlatTokenCursor.enclosing ⟨B,n⟩ = FlatTokenCursor.notOuter e := by
  have hle := hp.le
  by_cases hlt : a < n
  · obtain ⟨entry,he,rfl⟩ := hp.last_enclosing hlt
    have hn : n ≠ 0 := by omega
    simp [FlatTokenCursor.enclosing,hn,he]
  · obtain rfl : n = a := by omega
    cases h with
    | root => simp [FlatTokenCursor.enclosing,FlatTokenCursor.notOuter]
    | nested _ _ hg _ _ => simp [FlatTokenCursor.enclosing,hg.opened]

theorem Frames.stop (hp : Layout B e a n before) : FlatTokenCursor.stop ⟨B,n⟩ = some b := by
  rw [FlatTokenCursor.stop,h.enclosing hp]
  cases h with
  | root => rfl
  | nested _ _ hg _ _ => simp [notOuter_of_ne hg.ne_outer,hg.opened]

theorem Frames.entry_at_stop : B[b]? = none ∨ ∃ entry, B[b]? = some entry ∧
    entry.token.kind.closeDelim.isSome = true := by
  cases h with
  | root => simp
  | nested _ _ hg _ _ => exact .inr ⟨_,hg.closed,by simp⟩

end

theorem Frames.parent_curr (before after : List TokenTree) (tree : TokenTree) :
    TokenTreeCursor.curr ⟨before ++ tree :: after,before.length + 1⟩ = some tree := by
  simp [TokenTreeCursor.curr]

inductive SimStep (B : List SourceToken) (n : Nat) (c : TreeTokenCursor) : Prop
  | eof : c.curr.next = none → c.stack = [] → B[n]? = none → SimStep B n c
  | token {t : Token} {s : Spacing} {m e : Nat} : c.curr.next = some (.Token t s) → B[n]? = some ⟨t,s,m,e⟩ →
      t.kind.isDelim = false →
      Sim B (n + 1) { c with curr := c.curr.bump } → SimStep B n c
  | enter {t : Token} {d : Delimiter} {spacing : DelimSpacing} {close : Span} {inner : List TokenTree} {m e : Nat} :
      c.curr.next = some (.Delimited ⟨t.span,close⟩ spacing d inner) →
      B[n]? = some ⟨t,spacing.opening,m,e⟩ → t.kind = d.asOpenTokenKind → d.skip = false →
      Sim B (n + 1) ⟨.new inner,c.pushFrame c.curr.bump⟩ → SimStep B n c
  | leave {frame : TokenCursorFrame} {stack : List TokenCursorFrame} {opening close : Span}
      {spacing : DelimSpacing} {d : Delimiter} {inner : List TokenTree} {m e : Nat} :
      c.curr.next = none → c.stack = frame :: stack →
      frame.cursor.curr = some (.Delimited ⟨opening,close⟩ spacing d inner) →
      B[n]? = some ⟨⟨d.asCloseTokenKind,close⟩,spacing.closing,m,e⟩ → d.skip = false →
      Sim B (n + 1) ⟨frame.cursor,stack⟩ → SimStep B n c

theorem Sim.step (h : Sim B n c) : SimStep B n c := by
  obtain ⟨e,a,b,before,after,h⟩ := h
  have hn : c.curr.next = after.head? := by simp [h.curr,TokenTreeCursor.next,getElem?_append_right,head?_eq_getElem?]
  obtain ⟨curr,stack⟩ := c
  obtain ⟨hf,rfl,hp,hre⟩ := h
  cases hre with
  | @token _ _ _ t s ts hb hd hr =>
    refine .token hn hb hd ⟨e,a,b,before ++ [.Token t s],ts,hf,?_,?_,hr⟩
    · simp [TokenTreeCursor.bump]
    · exact hp.append (.token hb hd .nil)
  | @group _ _ close _ t d spacing span inner ts hg hin hr =>
    refine .enter hn hg.opened (TokenKind.eq_asOpenTokenKind hg.delim) hg.visible ⟨n,n + 1,close,[],
      inner,?_,rfl,.nil,hin⟩
    simp only [pushFrame,hf.depth_eq,TokenTreeCursor.bump]
    exact .nested hf hp hg hin hr
  | nil =>
    cases hf with
    | root => exact .eof hn rfl (by simp)
    | @nested e' a' b' _ _ _ before' after' inner t d spacing span hpa hbe hg hin ha =>
      have hc := Frames.parent_curr before' after' (.Delimited ⟨t.span,span⟩ spacing d inner)
      refine .leave hn rfl hc hg.closed hg.visible ⟨e',a',b',before' ++ [.Delimited ⟨t.span,span⟩ spacing d inner],
        after',hpa,?_,?_,ha⟩
      · simp
      · exact hbe.append (.group hg hin .nil)

theorem Sim.nextAndBump (h : Sim B n c) : ∃ c', c.nextAndBump = some ((FlatTokenCursor.nextAndBump ⟨B,n⟩).1,c') ∧
      ∃ n', (FlatTokenCursor.nextAndBump ⟨B,n⟩).2 = ⟨B,n'⟩ ∧ Sim B n' c' := by
  cases h.step with
  | eof hn hst hb =>
    refine ⟨c,?_,n,by simp [FlatTokenCursor.nextAndBump,hb],h⟩
    simp [TreeTokenCursor.nextAndBump,TreeTokenCursor.nextLoop,hn,hst,FlatTokenCursor.nextAndBump,hb]
  | token hn hb hd hs =>
    refine ⟨_,?_,n + 1,by simp [FlatTokenCursor.nextAndBump,hb],hs⟩
    simp [TreeTokenCursor.nextAndBump,TreeTokenCursor.nextLoop,hn,FlatTokenCursor.nextAndBump,hb]
  | @enter t d _ _ _ _ _ hn hb hk hsk hs =>
    refine ⟨_,?_,n + 1,by simp [FlatTokenCursor.nextAndBump,hb],hs⟩
    simp [TreeTokenCursor.nextAndBump,TreeTokenCursor.nextLoop,hn,hsk,FlatTokenCursor.nextAndBump,hb,← hk]
  | leave hn hst hc hb hsk hs =>
    refine ⟨_,?_,n + 1,by simp [FlatTokenCursor.nextAndBump,hb],hs⟩
    simp [TreeTokenCursor.nextAndBump,TreeTokenCursor.nextLoop,hn,hst,hc,hsk,FlatTokenCursor.nextAndBump,hb]

theorem Sim.bumpToEnd (h : Sim B n c) : ∃ n', FlatTokenCursor.bumpToEnd ⟨B,n⟩ = some ⟨B,n'⟩ ∧ Sim B n' c.bumpToEnd := by
  obtain ⟨e,a,b,before,after,h⟩ := h
  refine ⟨b,?_,e,a,b,before ++ after,[],h.frames,?_,h.passed.append h.remaining,.nil⟩
  · simp [FlatTokenCursor.bumpToEnd,h.frames.stop h.passed]
  · simp [TreeTokenCursor.bumpToEnd,h.curr,TokenTreeCursor.bumpToEnd]

theorem Layout.advance (h : Layout B e i j ts) (hj : j ≤ B.length) (m : Nat) :
    (∃ k t rest, FlatTokenCursor.advance B j m i = some (some k) ∧ k < j ∧ ts[m]? = some t ∧
    Layout B e k j (t :: rest)) ∨
    ((FlatTokenCursor.advance B j m i = some none ∨ FlatTokenCursor.advance B j m i = some (some j)) ∧
    ts[m]? = none) := by
  induction m generalizing i ts with
  | zero =>
    cases ts with
    | nil =>
      obtain rfl := h.nil_iff.mp rfl
      exact .inr ⟨.inr rfl,rfl⟩
    | cons t rest =>
      obtain ⟨k,_,hik,_,hr⟩ := h.nextTreeIndex
      exact .inl ⟨i,t,rest,rfl,hik.trans_le hr.le,rfl,h⟩
  | succ m ih =>
    cases ts with
    | nil =>
      obtain rfl := h.nil_iff.mp rfl
      exact .inr ⟨.inl (by simp [FlatTokenCursor.advance]),rfl⟩
    | cons t rest =>
      obtain ⟨k,hk,hik,_,hr⟩ := h.nextTreeIndex
      have hlt : ¬ j ≤ i := by have := hr.le; omega
      simpa [FlatTokenCursor.advance,hlt,hk] using ih hr

theorem Layout.head_tree (h : Layout B e i j (t :: ts)) (hj : j ≤ B.length) : FlatTokenBuffer.tree B i = some t := by
  obtain ⟨k,_,_,hh,hr⟩ := h.nextTreeIndex
  exact hh.tree (hr.le.trans hj)

theorem Sim.lookAhead (h : Sim B n c) : FlatTokenCursor.lookAhead ⟨B,n⟩ m = some (c.lookAhead m) := by
  obtain ⟨e,a,b,before,after,h⟩ := h
  have hb := h.frames.bound
  have htr : c.lookAhead m = after[m - 1]? := by
    simp [TreeTokenCursor.lookAhead,TokenTreeCursor.lookAhead,h.curr,getElem?_append_right]
  rw [htr,FlatTokenCursor.lookAhead,h.frames.stop h.passed]
  rcases h.remaining.advance hb (m - 1) with ⟨k,t,rest,ha,hk,ht,hl⟩ | ⟨ha | ha,ht⟩
  · simp [ha,hk,ht,hl.head_tree hb]
  · simp [ha,ht]
  · simp [ha,ht]

theorem Sim.depth (h : Sim B n c) : FlatTokenCursor.depth ⟨B,n⟩ = some c.depth := by
  obtain ⟨e,a,b,before,after,h⟩ := h
  have hle : c.stack.length ≤ B.length := by
    have h1 := h.frames.stack_length_le
    have h2 := h.passed.le
    have h3 := h.remaining.le
    have h4 := h.frames.bound
    omega
  rw [FlatTokenCursor.depth,h.frames.enclosing h.passed,h.frames.depthLoop hle]
  exact congrArg some (h.frames.depth_eq c.curr).symm

theorem Sim.parentDelimAndSpan (h : Sim B n c) :
    FlatTokenCursor.parentDelimAndSpan ⟨B,n⟩ = some c.parentDelimAndSpan := by
  obtain ⟨e,a,b,before,after,h⟩ := h
  obtain ⟨curr,stack⟩ := c
  rw [FlatTokenCursor.parentDelimAndSpan,h.frames.enclosing h.passed]
  cases h.frames with
  | root => rfl
  | nested _ _ hg _ _ =>
    simp [notOuter_of_ne hg.ne_outer,hg.opened,hg.closed,hg.delim,
      parentDelimAndSpan,parent,Frames.parent_curr]

theorem Sim.cloneEnclosingDelim (h : Sim B n c) : FlatTokenCursor.cloneEnclosingDelim ⟨B,n⟩ = c.cloneEnclosingDelim := by
  obtain ⟨e,a,b,before,after,h⟩ := h
  obtain ⟨curr,stack⟩ := c
  rw [FlatTokenCursor.cloneEnclosingDelim,h.frames.enclosing h.passed]
  cases h.frames with
  | root => rfl
  | nested _ _ hg hin _ =>
    have ht := (Layout.group hg hin .nil).tree hg.lt_length
    simp [notOuter_of_ne hg.ne_outer,ht,cloneEnclosingDelim,parent,Frames.parent_curr]

theorem Sim.lookAheadPastCloseDelim (h : Sim B n c) :
    FlatTokenCursor.lookAheadPastCloseDelim ⟨B,n⟩ = c.lookAheadPastCloseDelim := by
  obtain ⟨e,a,b,before,after,h⟩ := h
  obtain ⟨curr,stack⟩ := c
  rw [FlatTokenCursor.lookAheadPastCloseDelim,h.frames.enclosing h.passed]
  cases h.frames with
  | root => rfl
  | @nested _ _ _ _ _ _ _ after' _ _ _ _ _ hp _ hg _ ha =>
    simp only [notOuter_of_ne hg.ne_outer,Option.bind_eq_bind,Option.bind_some,hg.opened,
      lookAheadPastCloseDelim,parent,head?_cons,
      Option.map_some,TokenTreeCursor.next]
    cases after' with
    | nil =>
      obtain rfl := ha.nil_iff.mp rfl
      rcases hp.entry_at_stop with hb | ⟨entry,hb,hc⟩
      · simp [hb]
      · simp [hb,hc]
    | cons t ts =>
      have ht := ha.head_tree hp.bound
      cases ha with
      | token hb hd _ => simp [hb,TokenKind.closeDelim_of_not_isDelim hd,ht]
      | group hg _ _ => simp [hg.opened,TokenKind.eq_asOpenTokenKind hg.delim,ht]

theorem Frames.inside (h : Frames B e a b stack) : ∀ p ∈ stack.map (·.cursor), p.Inside := by
  induction h with
  | root => nofun
  | nested _ _ _ _ _ ih => exact forall_mem_cons.mpr ⟨⟨_,_,_,_,Frames.parent_curr ..⟩,ih⟩

theorem Sim.valid (h : Sim B n c) : c.Valid := by
  obtain ⟨e,a,b,before,after,h⟩ := h
  exact h.frames.inside

theorem tokens_of_entry {entry : SourceToken} {c' : TreeTokenCursor} (hb : B[n]? = some entry)
    (hl : c.left = (entry.token,entry.spacing) :: c'.left)
    (he : skippedToken entry.token.kind = false)
    (h : c'.tokens = (B.drop (n + 1)).map (·.token) ∧ ∀ x ∈ c'.tokens, counted x = true) :
    c.tokens = (B.drop n).map (·.token) ∧ ∀ x ∈ c.tokens, counted x = true := by
  obtain ⟨hlt,rfl⟩ := List.getElem_of_getElem? hb
  have ht : c.tokens = B[n].token :: c'.tokens := congrArg (map Prod.fst) hl
  rw [ht,drop_eq_getElem_cons hlt,map_cons,h.1]
  exact ⟨rfl,forall_mem_cons.mpr ⟨by rw [counted,he]; rfl,h.1 ▸ h.2⟩⟩

theorem Sim.tokens (h : Sim B n c) : c.tokens = (B.drop n).map (·.token) ∧ ∀ x ∈ c.tokens, counted x = true := by
  induction hk : B.length - n using Nat.strong_induction_on generalizing n c with
  | _ k ih =>
    have hl {entry : SourceToken} (hb : B[n]? = some entry) : B.length - (n + 1) < k := by
      have hlt := (List.getElem_of_getElem? hb).1
      omega
    cases h.step with
    | eof hn hst hb =>
      rw [drop_eq_nil_of_le (getElem?_eq_none_iff.mp hb)]
      simp [TreeTokenCursor.tokens,TreeTokenCursor.left,TreeTokenCursor.outer,rest,hst,TokenTreeCursor.left_of_none hn]
    | token hn hb hd hsi =>
      refine tokens_of_entry hb ?_ (skippedToken_of_not_isDelim hd) (ih _ (hl hb) hsi rfl)
      rw [left,rest,TokenTreeCursor.left_of_next hn]
      rfl
    | @enter t d spacing close inner m e hn hb hki hs hsi =>
      refine tokens_of_entry hb ?_ (hki ▸ skippedToken_asOpenTokenKind hs) (ih _ (hl hb) hsi rfl)
      have hc : c.curr.bump.curr = some (.Delimited ⟨t.span,close⟩ spacing d inner) := hn
      simp [left,outer,rest,TokenTreeCursor.left_of_next hn,
        flattenTree,opening,hs,pushFrame,TokenTreeCursor.close,hc,← hki]
    | leave hn hst hc hb hs hsi =>
      refine tokens_of_entry hb ?_ (skippedToken_asCloseTokenKind hs) (ih _ (hl hb) hsi rfl)
      simp [left,outer,rest,TokenTreeCursor.left_of_none hn,hst,TokenTreeCursor.close,hc,closing,hs]

theorem Sim.lookAheadToken (h : Sim B n c) (dist : Nat) : c.lookAheadToken dist = some none ∨
      c.lookAheadToken dist = some (some (FlatTokenCursor.lookAheadToken ⟨B,n⟩ dist)) := by
  obtain ⟨ht,hc⟩ := h.tokens
  obtain ⟨answer,ha,hs⟩ := lookAheadToken_spec h.valid dist
  cases answer with
  | none => exact .inl ha
  | some token =>
    refine .inr (ha.trans (congrArg (some ∘ some) ((hs token rfl).trans ?_)))
    cases dist with
    | zero => rfl
    | succ dist =>
      rw [ahead,filter_eq_self.mpr hc,ht,getElem?_map,getElem?_drop]
      rfl

theorem Sim.enclosed (h : Sim B n c) (hd : 0 < c.depth) :
    (∃ tree, c.lookAheadPastCloseDelim = some tree) ∧ ∃ tree, c.cloneEnclosingDelim = some tree := by
  obtain ⟨e,a,b,before,after,h⟩ := h
  obtain ⟨curr,stack⟩ := c
  cases h.frames with
  | root => exact absurd hd (lt_irrefl 0)
  | nested _ _ _ _ _ =>
    simp [TreeTokenCursor.lookAheadPastCloseDelim,TreeTokenCursor.cloneEnclosingDelim,TreeTokenCursor.parent,
      Frames.parent_curr]

inductive CursorCall where
  | nextAndBump
  | bumpToEnd
deriving DecidableEq, Repr

def FlatTokenCursor.call (c : FlatTokenCursor) : CursorCall → Option (Option (Token × Spacing) × FlatTokenCursor)
  | .nextAndBump => some (some c.nextAndBump.1,c.nextAndBump.2)
  | .bumpToEnd => c.bumpToEnd.map (none,·)

def TreeTokenCursor.call (c : TreeTokenCursor) : CursorCall → Option (Option (Token × Spacing) × TreeTokenCursor)
  | .nextAndBump => c.nextAndBump.map fun (token,c) => (some token,c)
  | .bumpToEnd => some (none,c.bumpToEnd)

def callAll {C : Type} (call : C → CursorCall → Option (Option (Token × Spacing) × C)) :
    C → List CursorCall → Option (List (Option (Token × Spacing)) × C)
  | c, [] => some ([],c)
  | c, x :: calls => do
    let (out,c) ← call c x
    let (outs,c) ← callAll call c calls
    return (out :: outs,c)

theorem Sim.call (h : Sim B n c) (x : CursorCall) : ∃ out n' c', FlatTokenCursor.call ⟨B,n⟩ x = some (out,⟨B,n'⟩) ∧
      c.call x = some (out,c') ∧ Sim B n' c' := by
  cases x with
  | nextAndBump =>
    obtain ⟨c',ht,n',hf,hs⟩ := h.nextAndBump
    exact ⟨_,n',c',by rw [FlatTokenCursor.call,hf],by rw [TreeTokenCursor.call,ht]; rfl,hs⟩
  | bumpToEnd =>
    obtain ⟨n',hf,hs⟩ := h.bumpToEnd
    exact ⟨none,n',c.bumpToEnd,by rw [FlatTokenCursor.call,hf]; rfl,rfl,hs⟩

theorem Sim.callAll (h : Sim B n c) (calls : List CursorCall) :
    ∃ outs n' c', callAll FlatTokenCursor.call ⟨B,n⟩ calls = some (outs,⟨B,n'⟩) ∧
      callAll TreeTokenCursor.call c calls = some (outs,c') ∧ Sim B n' c' := by
  induction calls generalizing n c with
  | nil => exact ⟨[],n,c,rfl,rfl,h⟩
  | cons x calls ih =>
    obtain ⟨out,n',c',hf,ht,hs⟩ := h.call x
    obtain ⟨outs,n'',c'',hfl,htr,hs⟩ := ih hs
    exact ⟨out :: outs,n'',c'',by simp [TokenStream.callAll,hf,hfl],by simp [TokenStream.callAll,ht,htr],hs⟩

structure Agree (flat : FlatTokenCursor) (tree : TreeTokenCursor) : Prop where
  nextAndBump : ∃ tree', tree.nextAndBump = some (flat.nextAndBump.1,tree')
  lookAhead : ∀ n, 1 ≤ n → flat.lookAhead n = some (tree.lookAhead n)
  lookAheadToken : ∀ dist, tree.lookAheadToken dist = some none ∨ tree.lookAheadToken dist =
    some (some (flat.lookAheadToken dist))
  depth : flat.depth = some tree.depth
  parentDelimAndSpan : flat.parentDelimAndSpan = some tree.parentDelimAndSpan
  lookAheadPastCloseDelim : 0 < tree.depth → ∃ next, flat.lookAheadPastCloseDelim = some next ∧
    tree.lookAheadPastCloseDelim = some next
  cloneEnclosingDelim : 0 < tree.depth → ∃ group, flat.cloneEnclosingDelim = some group ∧
    tree.cloneEnclosingDelim = some group

theorem Sim.agree (h : Sim B n c) : Agree ⟨B,n⟩ c where
  nextAndBump := by
    obtain ⟨c',ht,_⟩ := h.nextAndBump
    exact ⟨c',ht⟩
  lookAhead _ _ := h.lookAhead
  lookAheadToken := h.lookAheadToken
  depth := h.depth
  parentDelimAndSpan := h.parentDelimAndSpan
  lookAheadPastCloseDelim hd := by
    obtain ⟨⟨next,hn⟩,_⟩ := h.enclosed hd
    exact ⟨next,h.lookAheadPastCloseDelim.trans hn,hn⟩
  cloneEnclosingDelim hd := by
    obtain ⟨_,group,hg⟩ := h.enclosed hd
    exact ⟨group,h.cloneEnclosingDelim.trans hg,hg⟩

theorem flat_cursor_simulates_tree_cursor {calls : List SinkCall} (hcalls : WellNested calls)
    {b : FlatTokenBuffer} (hbuffer : new.run calls = some b) :
    ∃ ts, TreeSink.run ⟨[],[]⟩ calls = some ⟨ts,[]⟩ ∧ stream b.tokens 0 b.tokens.length = some ts ∧
      ∀ ops : List CursorCall, ∃ outs flat tree, callAll FlatTokenCursor.call (.new b) ops = some (outs,flat) ∧
        callAll call (.new ts) ops = some (outs,tree) ∧ Agree flat tree := by
  obtain ⟨new,ts,rfl,hl,hs⟩ := run_layout hcalls [] ⟨[],[]⟩ hbuffer
  have hl : Layout new outerIndex 0 new.length ts := by simpa [lastEnclosing] using hl
  refine ⟨ts,hs,hl.stream le_rfl,?_⟩
  intro ops
  have hst : Sim new 0 (.new ts) := ⟨_,_,_,[],ts,.root,rfl,.nil,hl⟩
  obtain ⟨outs,n,tree,hf,ht,hsi⟩ := hst.callAll ops
  exact ⟨outs,⟨new,n⟩,tree,hf,ht,hsi.agree⟩

def bracketedComma : List SinkCall :=
  [.opening ⟨.OpenBracket,⟨0,1⟩⟩,.push ⟨.Comma,⟨1,2⟩⟩ .Alone,.closing ⟨⟨0,1⟩,⟨2,3⟩⟩ ⟨.Joint,.Alone⟩ .Bracket]

theorem bracketedComma_cursors_agree : ∃ b, new.run bracketedComma = some b ∧ ∃ ts,
      TreeSink.run ⟨[],[]⟩ bracketedComma = some ⟨ts,[]⟩ ∧
      stream b.tokens 0 b.tokens.length = some ts ∧
      ∀ ops : List CursorCall, ∃ outs flat tree, callAll FlatTokenCursor.call (.new b) ops = some (outs,flat) ∧
        callAll call (.new ts) ops = some (outs,tree) ∧ Agree flat tree := by
  have hb : WellNested [.push ⟨.Comma,⟨1,2⟩⟩ .Alone] := .push rfl .nil
  have hc : WellNested bracketedComma := .group rfl rfl hb .nil
  exact ⟨_,rfl,flat_cursor_simulates_tree_cursor hc rfl⟩

end Frontend.TokenStream
