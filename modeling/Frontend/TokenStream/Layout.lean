import Frontend.TokenStream.Flat

namespace Frontend.TokenStream

open Ast FlatTokenBuffer List Option

structure GroupAt (B : List SourceToken) (e i c : Nat) (t : Token) (d : Delimiter) (spacing : DelimSpacing)
    (close : Span) : Prop where
  opened : B[i]? = some ⟨t,spacing.opening,c,i⟩
  closed : B[c]? = some ⟨⟨d.asCloseTokenKind,close⟩,spacing.closing,i,e⟩
  delim : t.kind.openDelim = some d
  visible : d.skip = false
  lt_outer : c < outerIndex
  lt : i < c

inductive Layout (B : List SourceToken) : Nat → Nat → Nat → List TokenTree → Prop
  | nil {e i : Nat} : Layout B e i i []
  | token {e i j : Nat} {t : Token} {s : Spacing} {ts : List TokenTree} :
      B[i]? = some ⟨t,s,outerIndex,e⟩ → t.kind.isDelim = false → Layout B e (i + 1) j ts →
      Layout B e i j (.Token t s :: ts)
  | group {e i c j : Nat} {t : Token} {d : Delimiter} {spacing : DelimSpacing} {close : Span}
      {inner ts : List TokenTree} :
      GroupAt B e i c t d spacing close → Layout B i (i + 1) c inner → Layout B e (c + 1) j ts →
      Layout B e i j (.Delimited ⟨t.span,close⟩ spacing d inner :: ts)

variable {B B' : List SourceToken} {e i j k c : Nat} {ts us : List TokenTree}

theorem Layout.le (h : Layout B e i j ts) : i ≤ j := by
  induction h with
  | nil => exact le_rfl
  | token _ _ _ ih => omega
  | group hg _ _ ih1 ih2 => omega

theorem GroupAt.lt_length (h : GroupAt B e i c t d spacing close) : c < B.length := (List.getElem_of_getElem? h.closed).1

theorem Layout.congr (h : Layout B e i j ts) (hB : ∀ k, i ≤ k → k < j → B[k]? = B'[k]?) : Layout B' e i j ts := by
  induction h with
  | nil => exact .nil
  | @token e i j t s ts hb hd hr ih =>
    have hle := hr.le
    exact .token (hB i le_rfl (by omega) ▸ hb) hd (ih fun k h1 h2 => hB k (by omega) h2)
  | @group e i c j t d spacing close inner ts hg hin hr ih1 ih2 =>
    have hle := hr.le
    have hlt := hg.lt
    refine .group ⟨hB i le_rfl (by omega) ▸ hg.opened,hB c (by omega) (by omega) ▸ hg.closed,hg.delim,
      hg.visible,hg.lt_outer,hg.lt⟩ ?_ ?_
    · exact ih1 fun k h1 h2 => hB k (by omega) (by omega)
    · exact ih2 fun k h1 h2 => hB k (by omega) h2

theorem Layout.append (h : Layout B e i j ts) (h' : Layout B e j k us) : Layout B e i k (ts ++ us) := by
  induction h with
  | nil => exact h'
  | token hb hd _ ih => exact .token hb hd (ih h')
  | group hg hin _ _ ih => exact .group hg hin (ih h')

theorem Layout.last_enclosing (h : Layout B e i j ts) (hij : i < j) : ∃ entry, B[j - 1]? = some entry ∧
    entry.enclosingAfter = e := by
  induction h with
  | nil => omega
  | @token e i j t s ts hb hd hr ih =>
    by_cases hlt : i + 1 < j
    · exact ih hlt
    · have hle := hr.le
      obtain rfl : j = i + 1 := by omega
      exact ⟨_,hb,rfl⟩
  | @group e i c j t d spacing close inner ts hg hin hr ih1 ih2 =>
    by_cases hlt : c + 1 < j
    · exact ih2 hlt
    · have hle := hr.le
      obtain rfl : j = c + 1 := by omega
      exact ⟨_,hg.closed,rfl⟩

theorem Layout.nil_iff (h : Layout B e i j ts) : ts = [] ↔ i = j := by
  cases h with
  | nil => simp
  | token _ _ hr =>
    have := hr.le
    simp
    omega
  | group hg _ hr =>
    have := hr.le
    have := hg.lt
    simp
    omega

theorem Layout.nextTreeIndex (h : Layout B e i j (t :: ts)) :
    ∃ m, nextTreeIndex B i = some m ∧ i < m ∧ Layout B e i m [t] ∧ Layout B e m j ts := by
  cases h with
  | token hb hd hr =>
    refine ⟨i + 1,?_,by omega,.token hb hd .nil,hr⟩
    simp [FlatTokenBuffer.nextTreeIndex,hb]
  | @group _ _ c _ _ _ _ _ _ _ hg hin hr =>
    have hlt := hg.lt
    have hne := hg.lt_outer.ne
    refine ⟨c + 1,?_,by omega,.group hg hin .nil,hr⟩
    simp [FlatTokenBuffer.nextTreeIndex,hg.opened,hne]

theorem Layout.countTrees (h : Layout B e i j ts) (hf : j - i < fuel) : countTrees B fuel i j = some ts.length := by
  induction ts generalizing i fuel with
  | nil =>
    obtain ⟨fuel,rfl⟩ := Nat.exists_eq_succ_of_ne_zero (by omega : fuel ≠ 0)
    obtain rfl := h.nil_iff.mp rfl
    simp [countTrees]
  | cons t ts ih =>
    obtain ⟨fuel,rfl⟩ := Nat.exists_eq_succ_of_ne_zero (by omega : fuel ≠ 0)
    obtain ⟨m,hm,him,_,hr⟩ := h.nextTreeIndex
    have hle := hr.le
    have hlt : i < j := by omega
    simp [countTrees,hlt,hm,ih hr (by omega : j - m < fuel)]

theorem Layout.collectTrees (h : Layout B e i j ts) (tree : Nat → Option TokenTree)
    (ht : ∀ m n t, i ≤ m → n ≤ j → Layout B e m n [t] → tree m = some t) :
    collectTrees B tree ts.length i = some ts := by
  induction ts generalizing i with
  | nil => rfl
  | cons t ts ih =>
    obtain ⟨m,hm,him,hh,hr⟩ := h.nextTreeIndex
    have hle := hr.le
    have hta := ih hr fun m' n t' h1 h2 h3 => ht m' n t' (by omega) h2 h3
    simp [collectTrees,ht i m t le_rfl hle hh,hm,hta]

theorem Layout.treeFuel (h : Layout B e i j [t]) (hf : j - i < fuel) (hj : j ≤ B.length) :
    treeFuel B fuel i = some t := by
  induction fuel generalizing e i j t with
  | zero => omega
  | succ fuel ih =>
    cases h with
    | token hb hd hr => simp [treeFuel,hb,TokenKind.openDelim_of_not_isDelim hd]
    | @group _ _ c _ _ d _ _ inner _ hg hin hr =>
      have hle := hr.le
      have hlt := hg.lt
      have hc := hin.countTrees (by omega : c - (i + 1) < B.length + 1)
      have hco := hin.collectTrees (treeFuel B fuel) fun m n t h1 h2 h3 => ih h3 (by have := h3.le; omega) (by omega)
      simp [treeFuel,hg.opened,hg.delim,hg.closed,streamWith,hc,hco]

theorem Layout.tree (h : Layout B e i j [t]) (hj : j ≤ B.length) : tree B i = some t := h.treeFuel (by omega) hj

theorem Layout.stream (h : Layout B e i j ts) (hj : j ≤ B.length) : stream B i j = some ts := by
  have hc := h.countTrees (by omega : j - i < B.length + 1)
  have hco := h.collectTrees (FlatTokenBuffer.tree B) fun m n t _ h2 h3 => h3.tree (by omega)
  simp [FlatTokenBuffer.stream,streamWith,hc,hco]

namespace FlatTokenBuffer

theorem run_append (b : FlatTokenBuffer) (xs ys : List SinkCall) :
    b.run (xs ++ ys) = (b.run xs).bind fun b => b.run ys := by
  induction xs generalizing b with
  | nil => rfl
  | cons x xs ih =>
    simp only [cons_append,run]
    cases h : b.call x with
    | none => rfl
    | some b' => simpa using ih b'

def lastEnclosing (tokens : List SourceToken) : Nat := (tokens.getLast?.map (·.enclosingAfter)).getD outerIndex

@[simp] theorem lastEnclosing_append_singleton (tokens : List SourceToken) (entry : SourceToken) :
    lastEnclosing (tokens ++ [entry]) = entry.enclosingAfter := by
  simp [lastEnclosing]

theorem parentOf_length (pre suf : List SourceToken) (e : Nat) :
    parentOf ⟨pre ++ suf,e⟩ pre.length = some (lastEnclosing pre) := by
  rcases eq_nil_or_concat pre with rfl | ⟨init,last,rfl⟩
  · rfl
  · simp [parentOf]

variable {pre : List SourceToken} {t : Token} {d : Delimiter} {spacing : DelimSpacing} {b : FlatTokenBuffer}

theorem opening_eq (hl : pre.length < outerIndex) :
    opening ⟨pre,e⟩ t = some ⟨pre ++ [⟨t,.Alone,outerIndex,pre.length⟩],pre.length⟩ := by
  simp [opening,hl,push]

def closedGroup (index parent : Nat) (t : Token) (d : Delimiter) (spacing : DelimSpacing)
    (close : Span) (new : List SourceToken) : List SourceToken :=
  ⟨t,spacing.opening,index + 1 + new.length,index⟩ ::
    (new ++ [⟨⟨d.asCloseTokenKind,close⟩,spacing.closing,index,parent⟩])

@[simp] theorem length_closedGroup {new : List SourceToken} :
    (closedGroup index parent t d spacing close new).length = new.length + 2 := by
  simp [closedGroup]

@[simp] theorem lastEnclosing_closedGroup {new : List SourceToken} :
    lastEnclosing (pre ++ closedGroup index parent t d spacing close new) = parent := by
  rw [closedGroup,← cons_append,← append_assoc,lastEnclosing_append_singleton]

section

variable {pre new new' : List SourceToken} {t : Token} {d : Delimiter} {close : Span}
  {spacing : DelimSpacing} {s : Spacing} {m : Nat} {inner : List TokenTree}

theorem closing_eq (hd : t.kind.openDelim = some d) (hl : (pre ++ ⟨t,s,m,pre.length⟩ :: new).length < outerIndex) :
    closing ⟨pre ++ ⟨t,s,m,pre.length⟩ :: new,pre.length⟩ ⟨t.span,close⟩ spacing =
      some ⟨pre ++ closedGroup pre.length (lastEnclosing pre) t d spacing close new,lastEnclosing pre⟩ := by
  simp only [closing,hl,if_true,parentOf_length,closedGroup]
  simp [hd,Nat.add_assoc,Nat.add_comm 1]

theorem layout_closedGroup (hd : t.kind.openDelim = some d) (hs : d.skip = false)
    (hl : pre.length + 1 + new.length < outerIndex)
    (hin : Layout (pre ++ ⟨t,s,m,pre.length⟩ :: new) pre.length (pre.length + 1) (pre.length + 1 + new.length) inner)
    (hr : Layout (pre ++ closedGroup pre.length e t d spacing close new ++ new') e
    (pre.length + 1 + new.length + 1) j ts) :
    Layout (pre ++ closedGroup pre.length e t d spacing close new ++ new') e pre.length j
      (.Delimited ⟨t.span,close⟩ spacing d inner :: ts) := by
  refine .group ⟨?_,?_,hd,hs,hl,by omega⟩ (hin.congr ?_) hr
  · simp [closedGroup]
  · simp [closedGroup,getElem?_append,getElem?_cons,Nat.add_assoc]
  · intro k h1 h2
    obtain ⟨k,rfl⟩ := Nat.exists_eq_add_of_le h1
    have hk : k < new.length := by omega
    rw [append_assoc,getElem?_append_right (by omega),getElem?_append_right (by omega),closedGroup]
    simp [Nat.add_assoc,Nat.add_comm 1,getElem?_append_left hk]

end

theorem run_group {span : DelimSpan} (hr : run ⟨pre,e⟩ (.opening t :: (body ++ .closing span spacing d :: calls)) =
    some b) :
    pre.length < outerIndex ∧ ∃ b1 b2, run ⟨pre ++ [⟨t,.Alone,outerIndex,pre.length⟩],
        lastEnclosing (pre ++ [⟨t,.Alone,outerIndex,pre.length⟩])⟩ body = some b1 ∧
      b1.closing span spacing = some b2 ∧ run b2 calls = some b := by
  by_cases hl : pre.length < outerIndex
  · simp only [run,call,opening_eq hl,bind_eq_bind,bind_some,run_append,bind_eq_some_iff] at hr
    obtain ⟨b1,hrun1,b2,hc,hrun2⟩ := hr
    exact ⟨hl,b1,b2,by simpa using hrun1,hc,hrun2⟩
  · simp [run,call,opening,hl] at hr

theorem lt_outer_of_closing {span : DelimSpan} (h : b.closing span spacing = some b') :
    b.tokens.length < outerIndex := by
  by_contra hlt
  simp [closing,hlt] at h

theorem run_layout {calls : List SinkCall} (h : WellNested calls) (pre : List SourceToken)
    (sink : TreeSink) (hr : run ⟨pre,lastEnclosing pre⟩ calls = some b) :
    ∃ new ts, b = ⟨pre ++ new,lastEnclosing pre⟩ ∧ Layout (pre ++ new) (lastEnclosing pre) pre.length
    (pre.length + new.length) ts ∧
      sink.run calls = some { sink with trees := sink.trees ++ ts } := by
  induction h generalizing pre sink b with
  | nil =>
    refine ⟨[],[],?_,.nil,?_⟩
    · simpa [run] using hr.symm
    · simp [TreeSink.run]
  | @push t s calls ht _ ih =>
    have hn : run ⟨pre ++ [⟨t,s,outerIndex,lastEnclosing pre⟩],
        lastEnclosing (pre ++ [⟨t,s,outerIndex,lastEnclosing pre⟩])⟩ calls = some b := by
      simpa [run,call,push] using hr
    obtain ⟨new,ts,hb,hl,hs⟩ := ih _ { sink with trees := sink.trees ++ [.Token t s] } hn
    refine ⟨⟨t,s,outerIndex,lastEnclosing pre⟩ :: new,.Token t s :: ts,?_,?_,?_⟩
    · simpa using hb
    · refine .token ?_ ht ?_
      · simp
      · simpa [Nat.add_assoc,Nat.add_comm 1] using hl
    · simpa [TreeSink.run,TreeSink.call] using hs
  | @group t d close spacing body calls hd hsk _ _ ih1 ih2 =>
    obtain ⟨hle,b1,b2,hrun1,hc,hrun2⟩ := run_group hr
    obtain ⟨new1,inner,rfl,hlay1,hsi1⟩ := ih1 _ { sink with starts := sink.trees.length :: sink.starts } hrun1
    simp only [lastEnclosing_append_singleton,append_assoc,singleton_append] at hc
    have hlt := lt_outer_of_closing hc
    rw [closing_eq hd hlt,some.injEq] at hc
    subst hc
    obtain ⟨new2,ts,rfl,hlay2,hsi2⟩ := ih2 (pre ++ closedGroup pre.length (lastEnclosing pre) t d spacing close new1)
      { sink with trees := sink.trees ++ [.Delimited ⟨t.span,close⟩ spacing d inner] }
      (by simpa using hrun2)
    refine ⟨closedGroup pre.length (lastEnclosing pre) t d spacing close new1 ++ new2,
      .Delimited ⟨t.span,close⟩ spacing d inner :: ts,?_,?_,?_⟩
    · simp
    · rw [← append_assoc]
      refine layout_closedGroup hd hsk ?_ (by simpa using hlay1) ?_
      · simpa [Nat.add_comm 1,Nat.add_assoc] using hlt
      · simpa [Nat.add_comm,Nat.add_left_comm,Nat.add_assoc] using hlay2
    · rw [TreeSink.run,TreeSink.call]
      simp only [bind_eq_bind,bind_some,TreeSink.run_append,hsi1]
      simpa [TreeSink.run,TreeSink.call,TreeSink.finish] using hsi2

end FlatTokenBuffer

end Frontend.TokenStream
