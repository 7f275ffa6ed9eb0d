import Frontend.TokenStream.LookAhead
import Frontend.TokenStream.OnDemand

namespace Frontend.TokenStream

open Ast List OnDemand TreeTokenCursor
open Option (bind_eq_some_iff map_eq_some_iff)

inductive TokenCursor where
  | trees (cursor : TreeTokenCursor)
  | flat (cursor : FlatTokenCursor)
  | source (cursor : OnDemandCursor)

def TokenCursor.nextAndBump : TokenCursor → Option ((Token × Spacing) × TokenCursor)
  | .trees c => c.nextAndBump.map fun next => (next.1,.trees next.2)
  | .flat c => some (c.nextAndBump.1,.flat c.nextAndBump.2)
  | .source c => c.nextAndBump.map fun next => (next.1,.source next.2)

structure Parser where
  token : Token
  tokenCursor : TokenCursor

-- `flat_look_ahead_token` answers for every flat and every source cursor, so that only a cursor
-- over trees comes to what follows it.
def Parser.lookAhead (p : Parser) (dist : Nat) : Option Token :=
  if dist = 0 then some p.token
  else
    match p.tokenCursor with
    | .flat c => some (c.lookAheadToken dist)
    | .source c => c.lookAheadToken dist
    | .trees c =>
      match if dist = 1 then nextToken c else none with
      | some token => some token
      | none =>
        match c.lookAheadToken dist with
        | some (some token) => some token
        | some none => cloneLoop (c.stepsLeft + dist + 1) dist Token.dummy c
        | none => none

section

variable {C D : Type} {bump : C → Option ((Token × Spacing) × C)} {bump' : D → Option ((Token × Spacing) × D)}
  {embed : C → D} {c c' : C} {tokens : List Token} {token : Token} {n dist : Nat}

-- A cursor that is bumped inside another one.
def Embeds (bump : C → Option ((Token × Spacing) × C)) (bump' : D → Option ((Token × Spacing) × D))
    (embed : C → D) : Prop :=
  ∀ c, bump' (embed c) = (bump c).map fun next => (next.1,embed next.2)

theorem Embeds.bumps (h : Embeds bump bump' embed) (n : Nat) (c : C) :
    bumps bump' n (embed c) = (bumps bump n c).map fun next => (next.1,embed next.2) := by
  induction n generalizing c with
  | zero => rfl
  | succ n ih =>
    simp only [TokenStream.bumps,h c]
    cases bump c with
    | none => rfl
    | some next =>
      simp only [Option.map_some,Option.bind_eq_bind,Option.bind_some,ih]
      cases TokenStream.bumps bump n next.2 <;> rfl

theorem Embeds.isAhead (h : Embeds bump bump' embed) (ha : IsAhead bump c dist token) :
    IsAhead bump' (embed c) dist token := by
  obtain ⟨n,tokens,c',hb,hr⟩ := ha
  exact ⟨n,tokens,embed c',by rw [h.bumps,hb]; rfl,hr⟩

theorem Embeds.reached {d : D} (h : Embeds bump bump' embed)
    (hb : TokenStream.bumps bump' n (embed c) = some (tokens,d)) :
    ∃ c', d = embed c' ∧ TokenStream.bumps bump n c = some (tokens,c') := by
  rw [h.bumps] at hb
  obtain ⟨⟨tokens',c'⟩,hc,he⟩ := map_eq_some_iff.mp hb
  cases he
  exact ⟨c',rfl,hc⟩

theorem bumps_invariant {P : C → Prop} (hP : ∀ c x c', P c → bump c = some (x,c') → P c') (h : P c)
    (hb : TokenStream.bumps bump n c = some (tokens,c')) : P c' := by
  induction n generalizing c tokens with
  | zero =>
    cases hb
    exact h
  | succ n ih =>
    obtain ⟨⟨x,d⟩,hx,hb⟩ := bind_eq_some_iff.mp hb
    obtain ⟨⟨tokens',d'⟩,hd,hb⟩ := bind_eq_some_iff.mp hb
    cases hb
    exact ih (hP c x d h hx) hd

end

theorem trees_embeds : Embeds TreeTokenCursor.nextAndBump TokenCursor.nextAndBump .trees := fun _ => rfl

def flatBump (c : FlatTokenCursor) : Option ((Token × Spacing) × FlatTokenCursor) := some c.nextAndBump

theorem flat_embeds : Embeds flatBump TokenCursor.nextAndBump .flat := fun _ => rfl

theorem source_embeds : Embeds OnDemandCursor.nextAndBump TokenCursor.nextAndBump .source := fun _ => rfl

section

variable {b b' : FlatTokenBuffer} {c : FlatTokenCursor} {calls : List SinkCall}

def Counted (tokens : List SourceToken) : Prop := ∀ entry ∈ tokens, counted entry.token = true

def SinkCall.Shown : SinkCall → Prop
  | .push token _ => counted token = true
  | .opening token => counted token = true
  | .closing .. => True

theorem skip_of_counted {token : Token} {d : Delimiter} (h : token.kind.openDelim = some d)
    (hc : counted token = true) : d.skip = false := by
  rw [counted,TokenKind.eq_asOpenTokenKind h] at hc
  cases d <;> simp_all [skippedToken,Delimiter.asOpenTokenKind,Delimiter.skip]

theorem counted_of_skip {token : Token} {d : Delimiter} (h : token.kind.openDelim = some d) (hs : d.skip = false) :
    counted token = true := by
  rw [counted,TokenKind.eq_asOpenTokenKind h,skippedToken_asOpenTokenKind hs]
  rfl

theorem Counted.call {call : SinkCall} (h : Counted b.tokens) (hs : call.Shown) (hc : b.call call = some b') :
    Counted b'.tokens := by
  cases call with
  | push token spacing =>
    cases hc
    exact forall_mem_append.mpr ⟨h,by simpa [SinkCall.Shown] using hs⟩
  | opening token =>
    simp only [FlatTokenBuffer.call,FlatTokenBuffer.opening] at hc
    split at hc
    · cases hc
      exact forall_mem_append.mpr ⟨h,by simpa [SinkCall.Shown] using hs⟩
    · cases hc
  | closing span spacing delim =>
    simp only [FlatTokenBuffer.call,FlatTokenBuffer.closing] at hc
    split at hc
    · obtain ⟨parent,-,hc⟩ := bind_eq_some_iff.mp hc
      obtain ⟨entry,he,hc⟩ := bind_eq_some_iff.mp hc
      obtain ⟨d,hd,hc⟩ := bind_eq_some_iff.mp hc
      cases hc
      have hce := h entry (mem_of_getElem? he)
      refine forall_mem_append.mpr ⟨fun other ho => ?_,?_⟩
      · rcases mem_or_eq_of_mem_set ho with hm | rfl
        · exact h other hm
        · exact hce
      · simp [counted,skippedToken_asCloseTokenKind (skip_of_counted hd hce)]
    · cases hc

theorem Counted.run (h : Counted b.tokens) (hs : ∀ call ∈ calls, call.Shown) (hr : b.run calls = some b') :
    Counted b'.tokens := by
  induction calls generalizing b with
  | nil =>
    cases hr
    exact h
  | cons call calls ih =>
    obtain ⟨hcall,hs⟩ := forall_mem_cons.mp hs
    obtain ⟨b'',hb,hr⟩ := bind_eq_some_iff.mp hr
    exact ih (h.call hcall hb) hs hr

theorem WellNested.shown (h : WellNested calls) : ∀ call ∈ calls, call.Shown := by
  induction h with
  | nil => simp
  | push ht _ ih => exact forall_mem_cons.mpr ⟨by simp [SinkCall.Shown,counted,skippedToken_of_not_isDelim ht],ih⟩
  | group ho hs _ _ ihb ihc =>
    exact forall_mem_cons.mpr ⟨counted_of_skip ho hs,forall_mem_append.mpr ⟨ihb,forall_mem_cons.mpr ⟨trivial,ihc⟩⟩⟩

theorem flat_bumped (c : FlatTokenCursor) (dist : Nat) :
    c.lookAheadToken (dist + 2) = c.nextAndBump.2.lookAheadToken (dist + 1) := by
  simp only [FlatTokenCursor.lookAheadToken,FlatTokenCursor.nextAndBump]
  cases h : c.buffer[c.nextIdx]? with
  | some entry => simp [Nat.add_assoc,Nat.add_comm 1]
  | none =>
    have hle : c.buffer.length ≤ c.nextIdx := getElem?_eq_none_iff.mp h
    have hpast n : c.buffer[c.nextIdx + n]? = none := getElem?_eq_none (by omega)
    simp [hpast]

theorem flat_token (c : FlatTokenCursor) : c.lookAheadToken 1 = c.nextAndBump.1.1 := by
  simp only [FlatTokenCursor.lookAheadToken,FlatTokenCursor.nextAndBump]
  cases c.buffer[c.nextIdx]? <;> simp

theorem flat_buffer (c : FlatTokenCursor) : c.nextAndBump.2.buffer = c.buffer := by
  rw [FlatTokenCursor.nextAndBump]
  split <;> rfl

theorem flat_counted (h : Counted c.buffer) : counted c.nextAndBump.1.1 = true := by
  rw [FlatTokenCursor.nextAndBump]
  split
  case h_1 entry he => exact h entry (mem_of_getElem? he)
  case h_2 => rfl

theorem flat_isAhead (h : Counted c.buffer) (dist : Nat) :
    IsAhead flatBump c (dist + 1) (c.lookAheadToken (dist + 1)) := by
  induction dist generalizing c with
  | zero =>
    rw [flat_token]
    exact .here rfl (flat_counted h)
  | succ dist ih =>
    have hb : flatBump c = some ((c.nextAndBump.1.1,c.nextAndBump.1.2),c.nextAndBump.2) := rfl
    have hl := (ih ((flat_buffer c).symm ▸ h)).later hb
    rwa [if_pos (flat_counted h),← flat_bumped] at hl

end

section

variable {source : Source} {c c' : OnDemandCursor}

theorem skippedToken_simpleKind {kind : SourceKind} {token : TokenKind} (h : kind.simpleKind = some token) :
    skippedToken token = false := by
  unfold SourceKind.simpleKind at h
  split at h <;> cases h <;> rfl

theorem expand_counted (source : Source) (t : OnDemand.SourceToken) : counted (source.expand t) = true := by
  rw [Source.expand]
  split
  · rfl
  rw [counted,Source.expandKind]
  dsimp only
  split <;> try rfl
  · split <;> rfl
  · cases h : t.kind.simpleKind with
    | none => rfl
    | some token => simp [skippedToken_simpleKind h]

theorem OnDemand.OnTrack.bump (h : OnTrack c) :
    ∃ c', c.nextAndBump = some ((c.source.expand c.current,c.current.spacing),c') ∧ OnTrack c' ∧
      ∀ dist, c.lookAheadToken (dist + 2) = c'.lookAheadToken (dist + 1) := by
  obtain ⟨c',ha,ht,hs,hp,heof⟩ := h.advance
  refine ⟨c',by rw [OnDemandCursor.nextAndBump,ha]; rfl,ht,fun dist => ?_⟩
  change OnDemandCursor.lookLoop c.source (dist + 1) c.current c.pending =
    OnDemandCursor.lookLoop c'.source dist c'.current c'.pending
  rw [OnDemandCursor.lookLoop,hs]
  split
  case isTrue hk =>
    -- at the end both stop at once
    have hk' := heof hk
    cases dist <;> simp [OnDemandCursor.lookLoop,hk',Source.expand,hk]
  case isFalse hk => rw [hp]; rfl

theorem source_isAhead (h : OnTrack c) (dist : Nat) :
    ∃ token, c.lookAheadToken (dist + 1) = some token ∧ IsAhead OnDemandCursor.nextAndBump c (dist + 1) token := by
  induction dist generalizing c with
  | zero =>
    obtain ⟨c',hb,-⟩ := h.bump
    exact ⟨_,rfl,.here hb (expand_counted _ _)⟩
  | succ dist ih =>
    obtain ⟨c',hb,ht,hl⟩ := h.bump
    obtain ⟨token,htok,ha⟩ := ih ht
    exact ⟨token,(hl dist).trans htok,by simpa [expand_counted] using ha.later hb⟩

end

inductive Started : TokenCursor → Prop
  | trees (stream : PlainStream) : Started (.trees (.new stream.1))
  | flat {calls : List SinkCall} {b : FlatTokenBuffer} (hcalls : WellNested calls)
      (hbuffer : FlatTokenBuffer.new.run calls = some b) :
      Started (.flat (.new b))
  | source {lexer : Lexer} {start begin : Nat} {frontmatter : Bool} {c : OnDemandCursor}
      (hnew : OnDemandCursor.new lexer start begin frontmatter = some c) : Started (.source c)

theorem tree_look_ahead (stream : PlainStream) {n : Nat} {tokens : List Token} {c : TreeTokenCursor}
    (hreached : bumps nextAndBump n (.new stream.1) = some (tokens,c)) (current : Token) (dist : Nat) :
    (∃ answer, c.lookAheadToken (dist + 1) = some answer ∧ ∀ token, answer = some token →
    IsAhead nextAndBump c (dist + 1) token) ∧
    ∃ token, Parser.lookAhead ⟨current,.trees c⟩ (dist + 1) = some token ∧ IsAhead nextAndBump c (dist + 1) token := by
  obtain ⟨hv,hl⟩ := bumps_left (valid_new stream.1) hreached
  have ha := isAhead_ahead Token.dummy _ dist hv (Nat.le_refl _)
  obtain ⟨answer,han,hs⟩ := lookAheadToken_spec hv (dist + 1)
  refine ⟨⟨answer,han,fun token ht => hs token ht ▸ ha⟩,?_⟩
  simp only [Parser.lookAhead,Nat.succ_ne_zero,if_false]
  split
  case h_1 token hn =>
    split at hn
    case isTrue ho =>
      obtain ⟨xs,hxs⟩ := nextToken_spec hv hn
      have hc : counted token = true := by
        obtain ⟨x,hx,rfl⟩ := mem_map.mp (hxs ▸ .head _ : token ∈ c.tokens)
        rw [hl] at hx
        refine counted_flatten stream.1 stream.2 x ?_
        simpa [left,rest,outer,new] using mem_of_mem_drop hx
      obtain rfl : dist = 0 := by omega
      rw [hxs,ahead_counted _ hc] at ha
      exact ⟨token,rfl,ha⟩
    case isFalse => cases hn
  case h_2 =>
    simp only [han]
    cases answer with
    | some token => exact ⟨token,rfl,hs token rfl ▸ ha⟩
    | none => exact ⟨_,cloneLoop_spec _ hv (Nat.lt_succ_self _),ha⟩

theorem look_ahead_is_counted_token {first c : TokenCursor} (hstart : Started first) {n : Nat} {tokens : List Token}
    (hreached : bumps TokenCursor.nextAndBump n first = some (tokens,c)) (current : Token) {dist : Nat}
    (hdist : 1 ≤ dist) :
    (∀ tree, c = .trees tree → ∃ answer, tree.lookAheadToken dist = some answer ∧
      ∀ token, answer = some token → IsAhead TokenCursor.nextAndBump c dist token) ∧
    ∃ token, Parser.lookAhead ⟨current,c⟩ dist = some token ∧ IsAhead TokenCursor.nextAndBump c dist token := by
  obtain ⟨dist,rfl⟩ : ∃ d, dist = d + 1 := ⟨dist - 1,by omega⟩
  cases hstart with
  | trees stream =>
    obtain ⟨tree,rfl,hb⟩ := trees_embeds.reached hreached
    obtain ⟨⟨answer,han,ha⟩,token,ht,hta⟩ := tree_look_ahead stream hb current dist
    refine ⟨?_,token,ht,trees_embeds.isAhead hta⟩
    rintro _ ⟨⟩
    exact ⟨answer,han,fun token ht => trees_embeds.isAhead (ha token ht)⟩
  | @flat calls b hcalls hbuffer =>
    obtain ⟨flat,rfl,hb⟩ := flat_embeds.reached hreached
    have hn : Counted FlatTokenBuffer.new.tokens := by simp [Counted,FlatTokenBuffer.new]
    have hf : Counted flat.buffer := by
      refine bumps_invariant (P := fun c => Counted c.buffer) (fun c x c' h he => ?_) (hn.run hcalls.shown hbuffer) hb
      have hc : c.nextAndBump.2 = c' := congrArg Prod.snd (Option.some.inj he)
      rwa [← hc,flat_buffer]
    exact ⟨by rintro _ ⟨⟩,_,rfl,flat_embeds.isAhead (flat_isAhead hf dist)⟩
  | source hnew =>
    obtain ⟨source,rfl,hb⟩ := source_embeds.reached hreached
    have ht : OnTrack source := by
      refine bumps_invariant (fun c x c' h he => ?_) (onTrack_new hnew) hb
      obtain ⟨c'',hc,ht,-⟩ := h.bump
      cases hc.symm.trans he
      exact ht
    obtain ⟨token,hl,ha⟩ := source_isAhead ht dist
    exact ⟨by rintro _ ⟨⟩,token,hl,source_embeds.isAhead ha⟩

def skippedGroup : PlainStream :=
  ⟨[.Token ⟨.Comma,.dummySp⟩ .Alone,.Delimited ⟨.dummySp,.dummySp⟩ ⟨.Alone,.Alone⟩
    (.Invisible .ProcMacro) [.Token ⟨.Semi,.dummySp⟩ .Alone]],rfl⟩

def emptyBrackets : List SinkCall := [.opening ⟨.OpenBracket,⟨0,1⟩⟩,.closing ⟨⟨0,1⟩,⟨1,2⟩⟩ ⟨.Alone,.Alone⟩ .Bracket]

-- The text `[==]`.
def bracketedEqEq : Lexer where
  size := 4
  token pos :=
    if pos = 0 then (.Lexeme (some (.OpenBracket,0,0)),1)
    else if pos < 3 then (.Lexeme (some (.Eq,0,0)),1)
    else if pos = 3 then (.Lexeme (some (.CloseBracket,0,0)),1)
    else (.Eof,0)
  frontmatter _ := false
  admitted _ := true
  text _ _ := []
  eof pos := by
    split_ifs <;> simp <;> omega
  fits pos h := by
    split_ifs <;> simp <;> omega
  stops pos h := by
    split_ifs <;> first | rfl | omega
  lexeme pos suffix aux := by
    split_ifs <;> simp

theorem sample_cursors_look_ahead :
    IsAhead TokenCursor.nextAndBump (.trees (.new skippedGroup.1)) 2 ⟨.Semi,.dummySp⟩ ∧
    (∃ b, FlatTokenBuffer.new.run emptyBrackets = some b ∧ IsAhead TokenCursor.nextAndBump
    (.flat (.new b)) 2 ⟨.CloseBracket,⟨1,2⟩⟩) ∧
    ∃ c, OnDemandCursor.new bracketedEqEq 0 0 true = some c ∧ IsAhead TokenCursor.nextAndBump
    (.source c) 2 ⟨.EqEq,⟨1,3⟩⟩ := by
  have hn : WellNested emptyBrackets := .group rfl rfl .nil .nil
  refine ⟨?_,⟨_,rfl,?_⟩,⟨_,rfl,?_⟩⟩
  · obtain ⟨-,token,ht,ha⟩ := look_ahead_is_counted_token (.trees skippedGroup) (n := 0) rfl Token.dummy
      (show 1 ≤ 2 by decide)
    cases ht
    exact ha
  · obtain ⟨-,token,ht,ha⟩ := look_ahead_is_counted_token (.flat hn rfl) (n := 0) rfl Token.dummy (show 1 ≤ 2 by decide)
    cases ht
    exact ha
  · obtain ⟨-,token,ht,ha⟩ := look_ahead_is_counted_token (@Started.source bracketedEqEq 0 0 true _ rfl)
      (n := 0) rfl Token.dummy (show 1 ≤ 2 by decide)
    cases ht
    exact ha

end Frontend.TokenStream
