import Frontend.TokenStream.Flat

namespace Frontend.TokenStream.OnDemand

open Ast List
open Option (bind_eq_some_iff map_eq_some_iff)

inductive SourceKind where
  | Eq | Lt | Le | EqEq | Ne | Ge | Gt | AndAnd | OrOr | Bang | Tilde
  | Plus | Minus | Star | Slash | Percent | Caret | And | Or | Shl | Shr
  | PlusEq | MinusEq | StarEq | SlashEq | PercentEq | CaretEq | AndEq | OrEq | ShlEq | ShrEq
  | At | Dot | DotDot | DotDotDot | DotDotEq | Comma | Semi | Colon | PathSep
  | RArrow | LArrow | FatArrow | Pound | Dollar | Question
  | OpenParen | CloseParen | OpenBrace | CloseBrace | OpenBracket | CloseBracket
  | Ident | Lifetime | Integer | Float | Char | Byte | Str | ByteStr | CStr
  | StrRaw | ByteStrRaw | CStrRaw | LineDoc | BlockDoc | Eof
deriving DecidableEq

namespace SourceKind

-- The punctuation stands in front of `Question`, in the order of the source.
def isPunct (kind : SourceKind) : Bool := kind.ctorIdx ≤ Question.ctorIdx

def openDelim : SourceKind → Option Delimiter
  | OpenParen => some .Parenthesis
  | OpenBrace => some .Brace
  | OpenBracket => some .Bracket
  | _ => none

def closeDelim : SourceKind → Option Delimiter
  | CloseParen => some .Parenthesis
  | CloseBrace => some .Brace
  | CloseBracket => some .Bracket
  | _ => none

def simpleKind : SourceKind → Option TokenKind
  | Eq => some .Eq
  | Lt => some .Lt
  | Le => some .Le
  | EqEq => some .EqEq
  | Ne => some .Ne
  | Ge => some .Ge
  | Gt => some .Gt
  | AndAnd => some .AndAnd
  | OrOr => some .OrOr
  | Bang => some .Bang
  | Tilde => some .Tilde
  | Plus => some .Plus
  | Minus => some .Minus
  | Star => some .Star
  | Slash => some .Slash
  | Percent => some .Percent
  | Caret => some .Caret
  | And => some .And
  | Or => some .Or
  | Shl => some .Shl
  | Shr => some .Shr
  | PlusEq => some .PlusEq
  | MinusEq => some .MinusEq
  | StarEq => some .StarEq
  | SlashEq => some .SlashEq
  | PercentEq => some .PercentEq
  | CaretEq => some .CaretEq
  | AndEq => some .AndEq
  | OrEq => some .OrEq
  | ShlEq => some .ShlEq
  | ShrEq => some .ShrEq
  | At => some .At
  | Dot => some .Dot
  | DotDot => some .DotDot
  | DotDotDot => some .DotDotDot
  | DotDotEq => some .DotDotEq
  | Comma => some .Comma
  | Semi => some .Semi
  | Colon => some .Colon
  | PathSep => some .PathSep
  | RArrow => some .RArrow
  | LArrow => some .LArrow
  | FatArrow => some .FatArrow
  | Pound => some .Pound
  | Dollar => some .Dollar
  | Question => some .Question
  | OpenParen => some .OpenParen
  | CloseParen => some .CloseParen
  | OpenBrace => some .OpenBrace
  | CloseBrace => some .CloseBrace
  | OpenBracket => some .OpenBracket
  | CloseBracket => some .CloseBracket
  | Eof => some .Eof
  | _ => none

def glue : SourceKind → SourceKind → Option SourceKind
  | Eq, Eq => some EqEq
  | Eq, Gt => some FatArrow
  | Lt, Eq => some Le
  | Lt, Lt => some Shl
  | Lt, Le => some ShlEq
  | Lt, Minus => some LArrow
  | Gt, Eq => some Ge
  | Gt, Gt => some Shr
  | Gt, Ge => some ShrEq
  | Bang, Eq => some Ne
  | Plus, Eq => some PlusEq
  | Minus, Eq => some MinusEq
  | Minus, Gt => some RArrow
  | Star, Eq => some StarEq
  | Slash, Eq => some SlashEq
  | Percent, Eq => some PercentEq
  | Caret, Eq => some CaretEq
  | And, Eq => some AndEq
  | And, And => some AndAnd
  | Or, Eq => some OrEq
  | Or, Or => some OrOr
  | Shl, Eq => some ShlEq
  | Shr, Eq => some ShrEq
  | Dot, Dot => some DotDot
  | Dot, DotDot => some DotDotDot
  | DotDot, Dot => some DotDotDot
  | DotDot, Eq => some DotDotEq
  | Colon, Colon => some PathSep
  | _, _ => none

end SourceKind

structure SourceToken where
  lo : Nat
  hi : Nat
  suffix : Nat
  kind : SourceKind
  aux : Nat
  spacing : Spacing

-- A raw token of `rustc_lexer`; for the kinds that are no trivia, what `classify` makes of it.
inductive RawKind where
  | Whitespace
  | LineComment
  | BlockComment (terminated : Bool)
  | Eof
  | Lexeme (classified : Option (SourceKind × Nat × Nat))

def RawKind.trivia : RawKind → Bool
  | .Whitespace | .LineComment | .BlockComment _ => true
  | _ => false

def classify : RawKind → Option (SourceKind × Nat × Nat)
  | .Eof => some (.Eof,0,0)
  | .Lexeme classified => classified
  | _ => none

-- The lexer over one source text: the token that starts at a byte offset once a frontmatter can no
-- longer start, where one would start before, the other checks that `checked` makes on a spelling,
-- and the text between two offsets. Only the end of the text is an `Eof`, every token before it has
-- a byte, and no other kind is classified as the end.
structure Lexer where
  size : Nat
  token : Nat → RawKind × Nat
  frontmatter : Nat → Bool
  admitted : Nat → Bool
  text : Nat → Nat → Symbol
  eof : ∀ pos, (token pos).1 = .Eof ↔ size ≤ pos
  fits : ∀ pos, pos < size → 0 < (token pos).2 ∧ pos + (token pos).2 ≤ size
  stops : ∀ pos, size ≤ pos → (token pos).2 = 0
  lexeme : ∀ pos suffix aux, (token pos).1 ≠ .Lexeme (some (.Eof,suffix,aux))

structure Group where
  opening : Nat
  close : Nat
  parent : Nat
  depth : Nat
  delim : Delimiter

def groupDepth (groups : List Group) (enclosing : Nat) : Option Nat :=
  if enclosing = outerIndex then some 1 else groups[enclosing]?.map (·.depth + 1)

def enter (kind : SourceKind) (lo : Nat) (groups : List Group) (enclosing : Nat) : Option (List Group × Nat) :=
  match kind.openDelim with
  | some delim => do
    let depth ← groupDepth groups enclosing
    if groups.length < outerIndex ∧ depth < 2 ^ 32 then some (groups ++ [⟨lo,0,enclosing,depth,delim⟩],groups.length)
      else none
  | none =>
    match kind.closeDelim with
    | some delim => do
      let group ← groups[enclosing]?
      if group.delim = delim then some (groups.set enclosing { group with close := lo },group.parent) else none
    | none => some (groups,enclosing)

-- `skip_whitespace` eats what the next `Whitespace` token would cover.
def checkLoop (x : Lexer) : Nat → Bool → Nat → List Group → Nat → Option (List Group)
  | 0, _, _, _, _ => none
  | fuel + 1, frontmatter, pos, groups, enclosing =>
    let hi := pos + (x.token pos).2
    if frontmatter && x.frontmatter pos then none
    else
      match (x.token pos).1 with
      | .Whitespace => checkLoop x fuel frontmatter hi groups enclosing
      | .LineComment | .BlockComment true => if x.admitted pos then checkLoop x fuel false hi groups enclosing else none
      | .Eof => if enclosing = outerIndex then some groups else none
      | kind => do
        let classified ← classify kind
        if x.admitted pos then
          let entered ← enter classified.1 pos groups enclosing
          checkLoop x fuel false hi entered.1 entered.2
        else none

structure Source where
  lexer : Lexer
  start : Nat
  groups : List Group

namespace Source

def checked (lexer : Lexer) (start begin : Nat) (frontmatter : Bool) : Option Source :=
  if lexer.size < 2 ^ 32 ∧ begin ≤ lexer.size then
    (checkLoop lexer (lexer.size + 1) frontmatter begin [] outerIndex).map (⟨lexer,start,·⟩)
  else none

def scanLoop (x : Lexer) : Nat → Nat → Bool → Option SourceToken
  | 0, _, _ => none
  | fuel + 1, pos, whitespace =>
    let hi := pos + (x.token pos).2
    if (x.token pos).1.trivia then scanLoop x fuel hi true
    else (classify (x.token pos).1).map fun classified =>
      ⟨pos,hi,classified.2.1,classified.1,classified.2.2,if whitespace then .Alone else .Joint⟩

section

variable (source : Source)

def scan (offset : Nat) : Option SourceToken := scanLoop source.lexer (source.lexer.size + 1) offset false

def glueLoop : Nat → SourceToken → SourceToken → Option (SourceToken × SourceToken)
  | 0, _, _ => none
  | fuel + 1, token, next =>
    if next.spacing = .Alone then some (token,next)
    else
      match token.kind.glue next.kind with
      | none => some (token,next)
      | some kind => do
        let after ← source.scan next.hi
        glueLoop fuel { token with kind := kind, hi := next.hi } after

def glueFollowing (token next : SourceToken) : Option (SourceToken × SourceToken) :=
  if token.kind.openDelim.isNone && token.kind.closeDelim.isNone then source.glueLoop (source.lexer.size + 1) token next
  else some (token,next)

def spacingBefore (next : SourceToken) : Spacing :=
  if next.spacing = .Alone ∨ next.kind = .Eof then .Alone
  else if next.kind.isPunct then .Joint
  else .JointHidden

def prepare (token : SourceToken) : Option (SourceToken × SourceToken) := do
  let next ← source.scan token.hi
  let glued ← source.glueFollowing token next
  some ({ glued.1 with spacing := spacingBefore glued.2 },glued.2)

def span (lo hi : Nat) : Span := ⟨source.start + lo,source.start + hi⟩

-- `short_symbols` only caches what interning the text gives.
def expandKind (token : SourceToken) : TokenKind :=
  let lit (kind : LitKind) (opening closing : Nat) : TokenKind :=
    let stop := token.lo + token.suffix
    .Literal ⟨kind,source.lexer.text (token.lo + opening) (stop - closing),
      if stop < token.hi then some (source.lexer.text stop token.hi) else none⟩
  match token.kind with
  | .Ident => if token.aux = 1 then .Ident (source.lexer.text (token.lo + 2) token.hi) .Yes
      else .Ident (source.lexer.text token.lo token.hi) .No
  | .Lifetime => .Lifetime (source.lexer.text token.lo token.hi) .No
  | .LineDoc => .DocComment .Line (if token.aux = 0 then .Outer else .Inner) (source.lexer.text (token.lo + 3) token.hi)
  | .BlockDoc => .DocComment .Block (if token.aux = 0 then .Outer else .Inner)
      (source.lexer.text (token.lo + 3) (token.hi - 2))
  | .Integer => lit .Integer 0 0
  | .Float => lit .Float 0 0
  | .Char => lit .Char 1 1
  | .Byte => lit .Byte 2 1
  | .Str => lit .Str 1 1
  | .ByteStr => lit .ByteStr 2 1
  | .CStr => lit .CStr 2 1
  | .StrRaw => lit (.StrRaw token.aux) (2 + token.aux) (1 + token.aux)
  | .ByteStrRaw => lit (.ByteStrRaw token.aux) (3 + token.aux) (1 + token.aux)
  | .CStrRaw => lit (.CStrRaw token.aux) (3 + token.aux) (1 + token.aux)
  | kind => kind.simpleKind.getD .Eof

def expand (token : SourceToken) : Token :=
  if token.kind = .Eof then Token.eof else ⟨source.expandKind token,source.span token.lo token.hi⟩

-- The groups are sorted by their opening, so the binary search finds the one with it.
def groupAt (lo : Nat) : Option Nat := source.groups.findIdx? fun group => group.opening == lo

end

end Source

structure OnDemandCursor where
  source : Source
  current : SourceToken
  pending : SourceToken
  enclosing : Nat

namespace OnDemandCursor

def new (lexer : Lexer) (start begin : Nat) (frontmatter : Bool) : Option OnDemandCursor := do
  let source ← Source.checked lexer start begin frontmatter
  let token ← source.scan begin
  let prepared ← source.prepare token
  some ⟨source,prepared.1,prepared.2,outerIndex⟩

section

variable (c : OnDemandCursor)

def enclosingAfter : Option Nat :=
  if c.current.kind.openDelim.isSome then c.source.groupAt c.current.lo
  else if c.current.kind.closeDelim.isSome then c.source.groups[c.enclosing]?.map (·.parent)
  else some c.enclosing

def advance : Option OnDemandCursor := do
  let enclosing ← c.enclosingAfter
  let prepared ← c.source.prepare c.pending
  some ⟨c.source,prepared.1,prepared.2,enclosing⟩

def nextAndBump : Option ((Token × Spacing) × OnDemandCursor) :=
  c.advance.map fun next => ((c.source.expand c.current,c.current.spacing),next)

def lookLoop (source : Source) : Nat → SourceToken → SourceToken → Option Token
  | 0, current, _ => some (source.expand current)
  | n + 1, current, pending =>
    if current.kind = .Eof then some (source.expand current)
    else do
      let prepared ← source.prepare pending
      lookLoop source n prepared.1 prepared.2

def lookAheadToken (dist : Nat) : Option Token :=
  if dist = 0 then some Token.dummy else lookLoop c.source (dist - 1) c.current c.pending

end

end OnDemandCursor

section

variable {x : Lexer} {source : Source} {groups groups' final : List Group} {enclosing enclosing' pos fuel : Nat}
  {kind next joined : SourceKind} {t : SourceToken}

def Group.core (group : Group) : Nat × Nat := (group.opening,group.parent)

theorem glue_eq_some (h : kind.glue next = some joined) : kind.openDelim = none ∧ kind.closeDelim = none ∧
      next.openDelim = none ∧ next.closeDelim = none ∧ joined.openDelim = none ∧ joined.closeDelim = none ∧
      kind ≠ .Eof ∧ next ≠ .Eof ∧ joined ≠ .Eof := by
  unfold SourceKind.glue at h
  split at h <;> cases h <;> decide

theorem enter_plain (ho : kind.openDelim = none) (hc : kind.closeDelim = none) (lo : Nat) (groups : List Group)
    (enclosing : Nat) :
    enter kind lo groups enclosing = some (groups,enclosing) := by simp [enter,ho,hc]

inductive Entered (kind : SourceKind) (lo : Nat) (groups : List Group) (enclosing : Nat) : List Group → Nat → Prop
  | opening {depth : Nat} {delim : Delimiter} (hk : kind.openDelim = some delim) :
      Entered kind lo groups enclosing (groups ++ [⟨lo,0,enclosing,depth,delim⟩]) groups.length
  | closing {group : Group} {delim : Delimiter} (ho : kind.openDelim = none) (hk : kind.closeDelim = some delim)
      (hg : groups[enclosing]? = some group) :
      Entered kind lo groups enclosing (groups.set enclosing { group with close := lo }) group.parent
  | plain (ho : kind.openDelim = none) (hk : kind.closeDelim = none) : Entered kind lo groups enclosing groups enclosing

theorem entered (h : enter kind lo groups enclosing = some (groups',enclosing')) :
    Entered kind lo groups enclosing groups' enclosing' := by
  unfold enter at h
  split at h
  case h_1 delim hk =>
    obtain ⟨depth,-,h⟩ := bind_eq_some_iff.mp h
    split at h
    · cases h
      exact .opening hk
    · cases h
  case h_2 ho =>
    split at h
    case h_1 delim hk =>
      obtain ⟨group,hg,h⟩ := bind_eq_some_iff.mp h
      split at h
      · cases h
        exact .closing ho hk hg
      · cases h
    case h_2 hk =>
      cases h
      exact .plain ho hk

theorem set_eq_self {α : Type} {l : List α} {a : α} (h : l[i]? = some a) : l.set i a = l := by
  obtain ⟨hi,rfl⟩ := List.getElem?_eq_some_iff.mp h
  exact set_getElem_self hi

theorem Entered.core_extends (h : Entered kind lo groups enclosing groups' enclosing') :
    groups.map Group.core <+: groups'.map Group.core := by
  cases h with
  | opening => exact ⟨_,(map_append ..).symm⟩
  | @closing group delim ho hk hg =>
    have he : (groups.map Group.core)[enclosing]? = some group.core := by simp [hg]
    rw [map_set,show Group.core { group with close := lo } = group.core from rfl,set_eq_self he]
  | plain => exact prefix_rfl

theorem Entered.opening_lt (h : Entered kind lo groups enclosing groups' enclosing')
    (hg : ∀ group ∈ groups, group.opening < lo) (hlt : lo < hi) :
    ∀ group ∈ groups', group.opening < hi := by
  have hb group (hm : group ∈ groups) : group.opening < hi := (hg group hm).trans hlt
  cases h with
  | opening => exact forall_mem_append.mpr ⟨hb,by simpa using hlt⟩
  | @closing group delim ho hk he =>
    intro other ho
    rcases mem_or_eq_of_mem_set ho with hm | rfl
    · exact hb other hm
    · exact hb group (mem_of_getElem? he)
  | plain => exact hb

theorem Lexer.lt_of_trivia (ht : (x.token pos).1.trivia = true) : pos < x.size := by
  by_contra hge
  rw [(x.eof pos).mpr (not_lt.mp hge)] at ht
  cases ht

theorem scanLoop_fuel (fuel fuel' : Nat) (hf : x.size - pos < fuel) (hf' : x.size - pos < fuel') (whitespace : Bool) :
    Source.scanLoop x fuel pos whitespace = Source.scanLoop x fuel' pos whitespace := by
  induction fuel generalizing pos fuel' whitespace with
  | zero => omega
  | succ fuel ih =>
    cases fuel' with
    | zero => omega
    | succ fuel' =>
      simp only [Source.scanLoop]
      split
      case isTrue ht =>
        have hlt := x.lt_of_trivia ht
        have hpos := (x.fits pos hlt).1
        exact ih fuel' (by omega) (by omega) true
      case isFalse => rfl

def SourceToken.place (t : SourceToken) : Nat × Nat × SourceKind := (t.lo,t.hi,t.kind)

theorem scanLoop_whitespace (fuel pos : Nat) (a b : Bool) :
    (Source.scanLoop x fuel pos a).map SourceToken.place = (Source.scanLoop x fuel pos b).map SourceToken.place := by
  cases fuel with
  | zero => rfl
  | succ fuel =>
    simp only [Source.scanLoop]
    split
    · rfl
    · simp [SourceToken.place,Function.comp_def]

theorem scan_trivia (ht : (source.lexer.token pos).1.trivia = true) :
    (source.scan pos).map SourceToken.place =
    (source.scan (pos + (source.lexer.token pos).2)).map SourceToken.place := by
  have hlt := source.lexer.lt_of_trivia ht
  have hpos := source.lexer.fits pos hlt
  rw [Source.scan,Source.scanLoop,if_pos ht,scanLoop_whitespace _ _ true false,
    scanLoop_fuel source.lexer.size (source.lexer.size + 1) (by omega) (by omega)]
  rfl

theorem scan_lexeme (ht : (source.lexer.token pos).1.trivia = false)
    (hc : classify (source.lexer.token pos).1 = some (kind,suffix,aux)) :
    source.scan pos = some ⟨pos,pos + (source.lexer.token pos).2,suffix,kind,aux,.Joint⟩ := by
  simp [Source.scan,Source.scanLoop,ht,hc]

theorem scan_end (h : source.lexer.size ≤ pos) : ∃ t, source.scan pos = some t ∧ t.place = (pos,pos,.Eof) := by
  have he := (source.lexer.eof pos).mpr h
  have hz := source.lexer.stops pos h
  exact ⟨_,scan_lexeme (by rw [he]; rfl) (by rw [he]; rfl),by rw [hz]; rfl⟩

theorem classify_trivia {raw : RawKind} {classified : SourceKind × Nat × Nat} (h : classify raw = some classified) :
    raw.trivia = false := by
  cases raw <;> first | rfl | cases h

theorem classify_ne_eof (hne : (x.token pos).1 ≠ .Eof) (h : classify (x.token pos).1 = some (kind,suffix,aux)) :
    kind ≠ .Eof := by
  rintro rfl
  cases hk : (x.token pos).1 with
  | Lexeme classified =>
    rw [hk] at h
    exact x.lexeme pos suffix aux (hk.trans (congrArg RawKind.Lexeme h))
  | Eof => exact hne hk
  | _ =>
    rw [hk] at h
    cases h

-- `t` is the next token in front of which the check stood with these groups.
def Ahead (source : Source) (t : SourceToken) (groups : List Group) (enclosing : Nat) : Prop :=
  ∃ groups' enclosing', enter t.kind t.lo groups enclosing = some (groups',enclosing') ∧
    groups'.map Group.core <+: source.groups.map Group.core ∧
    (t.kind = .Eof ∧ t.lo ≤ t.hi ∧ source.lexer.size ≤ t.hi ∨ t.kind ≠ .Eof ∧ t.lo < t.hi ∧ t.hi ≤ source.lexer.size ∧
      ∃ fuel, checkLoop source.lexer fuel false t.hi groups' enclosing' = some source.groups)

theorem Ahead.of_place {t' : SourceToken} (hp : t'.place = t.place) (h : Ahead source t groups enclosing) :
    Ahead source t' groups enclosing := by
  obtain ⟨hlo,hr⟩ := Prod.mk.inj hp
  obtain ⟨hhi,hk⟩ := Prod.mk.inj hr
  rw [Ahead] at h ⊢
  rwa [hlo,hhi,hk]

theorem checkLoop_extends {frontmatter : Bool} (h : checkLoop x fuel frontmatter pos groups enclosing = some final) :
    groups.map Group.core <+: final.map Group.core := by
  induction fuel generalizing frontmatter pos groups enclosing with
  | zero => cases h
  | succ fuel ih =>
    rw [checkLoop] at h
    split at h
    · cases h
    split at h
    · exact ih h
    · split at h
      · exact ih h
      · cases h
    · split at h
      · exact ih h
      · cases h
    · split at h
      · cases h
        exact prefix_rfl
      · cases h
    · obtain ⟨classified,-,h⟩ := bind_eq_some_iff.mp h
      split at h
      · obtain ⟨⟨groups',enclosing'⟩,he,h⟩ := bind_eq_some_iff.mp h
        exact (entered he).core_extends.trans (ih h)
      · cases h

theorem checkLoop_scan {frontmatter : Bool} (h : checkLoop source.lexer fuel frontmatter pos groups enclosing =
    some source.groups) :
    ∃ t, source.scan pos = some t ∧ pos ≤ t.lo ∧ Ahead source t groups enclosing := by
  induction fuel generalizing frontmatter pos groups enclosing with
  | zero => cases h
  | succ fuel ih =>
    have hpre := checkLoop_extends h
    -- in front of trivia the check and the scan go on behind it
    have hskip {frontmatter : Bool} (ht : (source.lexer.token pos).1.trivia = true)
        (h : checkLoop source.lexer fuel frontmatter (pos + (source.lexer.token pos).2) groups enclosing =
          some source.groups) :
        ∃ t, source.scan pos = some t ∧ pos ≤ t.lo ∧ Ahead source t groups enclosing := by
      obtain ⟨t,hs,hle,ha⟩ := ih h
      have hp := scan_trivia ht
      rw [hs] at hp
      obtain ⟨t',hs',hp⟩ := map_eq_some_iff.mp hp
      have hlo : t'.lo = t.lo := congrArg Prod.fst hp
      exact ⟨t',hs',by omega,ha.of_place hp⟩
    rw [checkLoop] at h
    split at h
    · cases h
    split at h
    case h_1 hk => exact hskip (by rw [hk]; rfl) h
    case h_2 hk =>
      split at h
      · exact hskip (by rw [hk]; rfl) h
      · cases h
    case h_3 hk =>
      split at h
      · exact hskip (by rw [hk]; rfl) h
      · cases h
    case h_4 hk =>
      have hsize := (source.lexer.eof pos).mp hk
      obtain ⟨t,hs,hp⟩ := scan_end hsize
      obtain ⟨hlo,hr⟩ := Prod.mk.inj hp
      obtain ⟨hhi,hkind⟩ := Prod.mk.inj hr
      refine ⟨t,hs,hlo.ge,groups,enclosing,?_,hpre,.inl ⟨hkind,(hlo.trans hhi.symm).le,hhi ▸ hsize⟩⟩
      rw [hkind]
      rfl
    case h_5 hne =>
      obtain ⟨⟨kind,suffix,aux⟩,hc,h⟩ := bind_eq_some_iff.mp h
      split at h
      · obtain ⟨⟨groups',enclosing'⟩,he,h⟩ := bind_eq_some_iff.mp h
        have hlt : pos < source.lexer.size := not_le.mp (mt (source.lexer.eof pos).mpr hne)
        have hfits := source.lexer.fits pos hlt
        refine ⟨_,scan_lexeme (classify_trivia hc) hc,le_rfl,groups',enclosing',he,checkLoop_extends h,
          .inr ⟨?_,?_,hfits.2,fuel,h⟩⟩
        · exact classify_ne_eof hne hc
        · exact Nat.lt_add_of_pos_right hfits.1
      · cases h

def OpensBefore (groups : List Group) (lo : Nat) : Prop := ∀ group ∈ groups, group.opening < lo

-- What the next token starts from when `current` has been prepared.
structure Prepared (source : Source) (current pending : SourceToken) (groups : List Group) (enclosing : Nat)
    (groups' : List Group) (enclosing' : Nat) : Prop where
  enters : enter current.kind current.lo groups enclosing = some (groups',enclosing')
  core : groups'.map Group.core <+: source.groups.map Group.core
  ahead : Ahead source pending groups' enclosing'
  opens : OpensBefore groups' pending.lo
  eof : current.kind = .Eof → pending.kind = .Eof

theorem glueLoop_spec {token pending : SourceToken} (h : Prepared source token pending groups enclosing groups enclosing)
    (hf : source.lexer.size - token.hi < fuel) (hlo : token.hi ≤ pending.lo) :
    ∃ token' pending', source.glueLoop fuel token pending = some (token',pending') ∧ token'.lo = token.lo ∧
      (token.kind = .Eof → token'.kind = .Eof) ∧ Prepared source token' pending' groups enclosing groups enclosing := by
  induction fuel generalizing token pending with
  | zero => omega
  | succ fuel ih =>
    rw [Source.glueLoop]
    split
    · exact ⟨_,_,rfl,rfl,id,h⟩
    split
    · exact ⟨_,_,rfl,rfl,id,h⟩
    case h_2 joined hg =>
      obtain ⟨-,-,hpo,hpc,hjo,hjc,hte,hpe,hje⟩ := glue_eq_some hg
      obtain ⟨groups',enclosing',he,hp,hr⟩ := h.ahead
      rw [enter_plain hpo hpc] at he
      cases he
      obtain ⟨hlt,hle,fuel',hch⟩ := (hr.resolve_left fun hn => hpe hn.1).2
      obtain ⟨after,hs,hla,ha⟩ := checkLoop_scan hch
      rw [hs]
      have hopen : OpensBefore groups after.lo := fun group hm => (h.opens group hm).trans (hlt.trans_le hla)
      have hj : Prepared source { token with kind := joined, hi := pending.hi } after groups enclosing
        groups enclosing :=
        ⟨enter_plain hjo hjc _ _ _,hp,ha,hopen,fun hn => absurd hn hje⟩
      obtain ⟨token',pending',hl,ht,-,hpr⟩ := ih hj (by dsimp only; omega) hla
      exact ⟨token',pending',hl,ht,fun hn => absurd hn hte,hpr⟩

theorem prepare_spec (hop : OpensBefore groups t.lo) (h : Ahead source t groups enclosing) :
    ∃ current pending groups' enclosing', source.prepare t = some (current,pending) ∧ current.lo = t.lo ∧
      (t.kind = .Eof → current.kind = .Eof) ∧ Prepared source current pending groups enclosing groups' enclosing' := by
  obtain ⟨groups',enclosing',he,hp,hr⟩ := h
  have hnext : ∃ next, source.scan t.hi = some next ∧ t.hi ≤ next.lo ∧
      Prepared source t next groups enclosing groups' enclosing' := by
    rcases hr with ⟨hk,hlh,hsize⟩ | ⟨hk,hlt,hle,fuel,hch⟩
    · obtain ⟨next,hs,hpl⟩ := scan_end hsize
      obtain ⟨hlo,hpr⟩ := Prod.mk.inj hpl
      obtain ⟨hhi,hkind⟩ := Prod.mk.inj hpr
      have heof lo groups enclosing : enter .Eof lo groups enclosing = some (groups,enclosing) :=
        enter_plain rfl rfl lo groups enclosing
      have hge := he
      rw [hk,heof] at hge
      cases hge
      refine ⟨next,hs,hlo.ge,he,hp,⟨groups,enclosing,by rw [hkind,heof],hp,
        .inl ⟨hkind,(hlo.trans hhi.symm).le,hhi ▸ hsize⟩⟩,?_,fun _ => hkind⟩
      intro group hm
      exact (hop group hm).trans_le (hlh.trans hlo.ge)
    · obtain ⟨next,hs,hla,ha⟩ := checkLoop_scan hch
      refine ⟨next,hs,hla,he,hp,ha,?_,fun hn => absurd hn hk⟩
      intro group hm
      exact ((entered he).opening_lt hop hlt group hm).trans_le hla
  obtain ⟨next,hs,hla,hpr⟩ := hnext
  have hglued : ∃ current pending, source.glueFollowing t next = some (current,pending) ∧ current.lo = t.lo ∧
      (t.kind = .Eof → current.kind = .Eof) ∧ Prepared source current pending groups enclosing groups' enclosing' := by
    rw [Source.glueFollowing]
    split
    case isTrue hd =>
      obtain ⟨ho,hc⟩ : t.kind.openDelim = none ∧ t.kind.closeDelim = none := by simpa using hd
      have hge := he
      rw [enter_plain ho hc] at hge
      cases hge
      exact glueLoop_spec hpr (by omega) hla
    case isFalse => exact ⟨t,next,rfl,rfl,id,hpr⟩
  obtain ⟨current,pending,hg,hlo,heof,hpr⟩ := hglued
  refine ⟨{ current with spacing := Source.spacingBefore pending },pending,groups',enclosing',?_,hlo,
    heof,⟨hpr.enters,hpr.core,hpr.ahead,hpr.opens,hpr.eof⟩⟩
  rw [Source.prepare,hs]
  simp only [Option.bind_eq_bind,Option.bind_some,hg]

def OnTrack (c : OnDemandCursor) : Prop :=
  ∃ groups groups' enclosing', OpensBefore groups c.current.lo ∧
    Prepared c.source c.current c.pending groups c.enclosing groups' enclosing'

theorem groupAt_opening {lo : Nat} (hop : OpensBefore groups lo) {group : Group} (hg : group.opening = lo)
    (hp : (groups ++ [group]).map Group.core <+: source.groups.map Group.core) :
    source.groupAt lo = some groups.length := by
  obtain ⟨rest,hr⟩ := hp
  have hfind : source.groupAt lo = (source.groups.map Group.core).findIdx? fun core => core.1 == lo := by
    rw [Source.groupAt,findIdx?_map]
    rfl
  rw [hfind,← hr,map_append,append_assoc,findIdx?_append,findIdx?_map]
  have hnone : groups.findIdx? ((fun core => core.1 == lo) ∘ Group.core) = none := by
    rw [findIdx?_eq_none_iff]
    intro other hm
    simpa [Group.core] using (hop other hm).ne
  rw [hnone]
  simp [Group.core,hg,findIdx?_cons]

theorem parent_of_prefix {i : Nat} {group : Group} (hg : groups[i]? = some group)
    (hp : groups.map Group.core <+: source.groups.map Group.core) :
    source.groups[i]?.map (·.parent) = some group.parent := by
  obtain ⟨rest,hr⟩ := hp
  have he : (source.groups.map Group.core)[i]? = some group.core := by
    rw [← hr,getElem?_append_left,getElem?_map,hg,Option.map_some]
    simpa using (List.getElem?_eq_some_iff.mp hg).1
  rw [getElem?_map] at he
  obtain ⟨other,ho,hc⟩ := map_eq_some_iff.mp he
  rw [ho,Option.map_some,show other.parent = group.parent from congrArg Prod.snd hc]

theorem OnTrack.enclosingAfter {c : OnDemandCursor} (hop : OpensBefore groups c.current.lo)
    (h : Prepared c.source c.current c.pending groups c.enclosing groups' enclosing') :
    c.enclosingAfter = some enclosing' := by
  have hp := h.core
  rw [OnDemandCursor.enclosingAfter]
  cases entered h.enters with
  | opening hk =>
    rw [if_pos (by simp [hk])]
    exact groupAt_opening hop rfl hp
  | @closing group delim ho hk hg =>
    rw [if_neg (by simp [ho]),if_pos (by simp [hk])]
    exact parent_of_prefix hg ((entered h.enters).core_extends.trans hp)
  | plain ho hk => rw [if_neg (by simp [ho]),if_neg (by simp [hk])]

theorem OnTrack.advance {c : OnDemandCursor} (h : OnTrack c) : ∃ c', c.advance = some c' ∧ OnTrack c' ∧
    c'.source = c.source ∧
      c.source.prepare c.pending = some (c'.current,c'.pending) ∧ (c.current.kind = .Eof → c'.current.kind = .Eof) := by
  obtain ⟨groups,groups',enclosing',hop,hpr⟩ := h
  have he := OnTrack.enclosingAfter hop hpr
  obtain ⟨current,pending,groups'',enclosing'',hp,hlo,heof,hpr'⟩ := prepare_spec hpr.opens hpr.ahead
  refine ⟨⟨c.source,current,pending,enclosing'⟩,?_,⟨groups',groups'',enclosing'',?_,hpr'⟩,rfl,hp,
    fun hk => heof (hpr.eof hk)⟩
  · rw [OnDemandCursor.advance,he,hp]
    rfl
  · rw [hlo]
    exact hpr.opens

theorem onTrack_new {lexer : Lexer} {start begin : Nat} {frontmatter : Bool} {c : OnDemandCursor}
    (h : OnDemandCursor.new lexer start begin frontmatter = some c) : OnTrack c := by
  obtain ⟨source,hs,h⟩ := bind_eq_some_iff.mp h
  obtain ⟨token,ht,h⟩ := bind_eq_some_iff.mp h
  obtain ⟨⟨current,pending⟩,hp,h⟩ := bind_eq_some_iff.mp h
  cases h
  rw [Source.checked] at hs
  split at hs
  · obtain ⟨groups,hch,rfl⟩ := map_eq_some_iff.mp hs
    have hch' : checkLoop (Source.mk lexer start groups).lexer _ _ _ _ _ =
      some (Source.mk lexer start groups).groups := hch
    obtain ⟨t,hsc,-,ha⟩ := checkLoop_scan hch'
    cases hsc.symm.trans ht
    have hop : OpensBefore [] token.lo := by simp [OpensBefore]
    obtain ⟨current',pending',groups',enclosing',hp',hlo,-,hpr⟩ := prepare_spec hop ha
    cases hp'.symm.trans hp
    exact ⟨[],groups',enclosing',by simp [OpensBefore],hpr⟩
  · cases hs

end

end Frontend.TokenStream.OnDemand
