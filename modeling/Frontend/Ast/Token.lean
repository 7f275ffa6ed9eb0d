import Mathlib

namespace Frontend.Ast

abbrev Symbol := List Char

structure Span where
  lo : Nat
  hi : Nat
deriving DecidableEq, Repr

def Span.dummySp : Span := ⟨0,0⟩

inductive CommentKind where
  | Line
  | Block
deriving DecidableEq, Repr

inductive AttrStyle where
  | Outer
  | Inner
deriving DecidableEq, Repr

inductive InvisibleOrigin where
  | MetaVar
  | ProcMacro
deriving DecidableEq, Repr

def InvisibleOrigin.skip : InvisibleOrigin → Bool
  | .MetaVar => false
  | .ProcMacro => true

inductive Delimiter where
  | Parenthesis
  | Brace
  | Bracket
  | Invisible (origin : InvisibleOrigin)
deriving DecidableEq, Repr

def Delimiter.skip : Delimiter → Bool
  | .Parenthesis | .Bracket | .Brace => false
  | .Invisible origin => origin.skip

inductive LitKind where
  | Bool
  | Byte
  | Char
  | Integer
  | Float
  | Str
  | StrRaw (n : Nat)
  | ByteStr
  | ByteStrRaw (n : Nat)
  | CStr
  | CStrRaw (n : Nat)
  | Err
deriving DecidableEq, Repr

structure Lit where
  kind : LitKind
  symbol : Symbol
  suffix : Option Symbol
deriving DecidableEq, Repr

inductive IdentIsRaw where
  | No
  | Yes
deriving DecidableEq, Repr

structure Ident where
  name : Symbol
  span : Span
deriving DecidableEq, Repr

inductive TokenKind where
  | Eq | Lt | Le | EqEq | Ne | Ge | Gt | AndAnd | OrOr | Bang | Tilde
  | Plus | Minus | Star | Slash | Percent | Caret | And | Or | Shl | Shr
  | PlusEq | MinusEq | StarEq | SlashEq | PercentEq | CaretEq | AndEq | OrEq | ShlEq | ShrEq
  | At | Dot | DotDot | DotDotDot | DotDotEq | Comma | Semi | Colon | PathSep
  | RArrow | LArrow | FatArrow | Pound | Dollar | Question | SingleQuote
  | OpenParen | CloseParen | OpenBrace | CloseBrace | OpenBracket | CloseBracket
  | OpenInvisible (origin : InvisibleOrigin)
  | CloseInvisible (origin : InvisibleOrigin)
  | Literal (lit : Lit)
  | Ident (name : Symbol) (isRaw : IdentIsRaw)
  | NtIdent (ident : Ident) (isRaw : IdentIsRaw)
  | Lifetime (name : Symbol) (isRaw : IdentIsRaw)
  | NtLifetime (ident : Ident) (isRaw : IdentIsRaw)
  | DocComment (kind : CommentKind) (style : AttrStyle) (data : Symbol)
  | Eof
deriving DecidableEq, Repr

def Delimiter.asOpenTokenKind : Delimiter → TokenKind
  | .Parenthesis => .OpenParen
  | .Brace => .OpenBrace
  | .Bracket => .OpenBracket
  | .Invisible origin => .OpenInvisible origin

def Delimiter.asCloseTokenKind : Delimiter → TokenKind
  | .Parenthesis => .CloseParen
  | .Brace => .CloseBrace
  | .Bracket => .CloseBracket
  | .Invisible origin => .CloseInvisible origin

namespace TokenKind

def openDelim : TokenKind → Option Delimiter
  | .OpenParen => some .Parenthesis
  | .OpenBrace => some .Brace
  | .OpenBracket => some .Bracket
  | .OpenInvisible origin => some (.Invisible origin)
  | _ => none

def closeDelim : TokenKind → Option Delimiter
  | .CloseParen => some .Parenthesis
  | .CloseBrace => some .Brace
  | .CloseBracket => some .Bracket
  | .CloseInvisible origin => some (.Invisible origin)
  | _ => none

def isDelim (k : TokenKind) : Bool := k.openDelim.isSome || k.closeDelim.isSome

theorem eq_asOpenTokenKind {k : TokenKind} {d : Delimiter} (h : k.openDelim = some d) : k = d.asOpenTokenKind := by
  cases k <;> simp [openDelim] at h <;> subst h <;> rfl

@[simp] theorem closeDelim_asOpenTokenKind (d : Delimiter) : d.asOpenTokenKind.closeDelim = none := by cases d <;> rfl

@[simp] theorem closeDelim_asCloseTokenKind (d : Delimiter) : d.asCloseTokenKind.closeDelim = some d := by
  cases d <;> rfl

theorem openDelim_of_not_isDelim {k : TokenKind} (h : k.isDelim = false) : k.openDelim = none := by
  simpa [isDelim] using (Bool.or_eq_false_iff.mp h).1

theorem closeDelim_of_not_isDelim {k : TokenKind} (h : k.isDelim = false) : k.closeDelim = none := by
  simpa [isDelim] using (Bool.or_eq_false_iff.mp h).2

end TokenKind

structure Token where
  kind : TokenKind
  span : Span
deriving DecidableEq, Repr

namespace Token

def dummy : Token := ⟨.Question,.dummySp⟩
def eof : Token := ⟨.Eof,.dummySp⟩

end Token

inductive Spacing where
  | Alone
  | Joint
  | JointHidden
deriving DecidableEq, Repr

structure DelimSpan where
  opening : Span
  closing : Span
deriving DecidableEq, Repr

structure DelimSpacing where
  opening : Spacing
  closing : Spacing
deriving DecidableEq, Repr

inductive TokenTree where
  | Token (token : Token) (spacing : Spacing)
  | Delimited (span : DelimSpan) (spacing : DelimSpacing) (delim : Delimiter) (stream : List TokenTree)

abbrev TokenStream := List TokenTree

end Frontend.Ast
