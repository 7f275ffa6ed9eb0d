import Frontend.TokenStream.Tree

namespace Frontend.Parse

open Ast

def checkedAdd (a b : Nat) : Option Nat := if a + b < 2 ^ 32 then some (a + b) else none

def checkedSub (a b : Nat) : Option Nat := if b ≤ a then some (a - b) else none

def isIdentNamed (token : Token) (name : Symbol) : Bool :=
  match token.kind with
  | .Ident name' _ => name' = name
  | .NtIdent ident _ => ident.name = name
  | _ => false

def isKeyword (token : Token) (kw : Symbol) : Bool :=
  match token.kind with
  | .Ident name .No => name = kw
  | .NtIdent ident .No => ident.name = kw
  | _ => false

namespace Count

def leaf : TokenTree → Option Token
  | .Token token _ => some token
  | .Delimited .. => none

structure Preceding where
  prev : Option Token
  prev2 : Option Token
  prev3 : Option Token

namespace Preceding

def start : Preceding := ⟨none,none,none⟩

section

variable (p : Preceding)

def shift (tree : TokenTree) : Preceding := ⟨leaf tree,p.prev,p.prev2⟩

def isAttribute (delimiter : Delimiter) : Bool :=
  delimiter = .Bracket && (p.prev.any (·.kind = .Pound) || (p.prev.any (·.kind = .Bang) && p.prev2.any
    (·.kind = .Pound)))

def invocation : Bool := p.prev.any (·.kind = .Bang)

def macroRules : Bool := p.prev2.any (·.kind = .Bang) && p.prev3.any (isIdentNamed · "macro_rules".toList)

def declMacro : Bool := p.prev2.any (isKeyword · "macro".toList) || p.prev3.any (isKeyword · "macro".toList)

def nestedAttrs (delimiter : Delimiter) (countAttrs : Bool) : Bool :=
  countAttrs && !p.isAttribute delimiter && !p.invocation && !p.macroRules && !p.declMacro

end

end Preceding

def isDocComment (token : Token) : Bool :=
  match token.kind with
  | .DocComment .. => true
  | _ => false

mutual

-- `none` is a retry raised by an overflowing counter
def countTree (countAttrs : Bool) (p : Preceding) (counts : Nat × Nat) : TokenTree → Option (Nat × Nat)
  | .Token token _ => do
    let bumps ← checkedAdd counts.1 1
    let attributes ←
      if countAttrs && isDocComment token then checkedAdd counts.2 1 else some counts.2
    some (bumps,attributes)
  | .Delimited _ _ delimiter inner => do
    let nested ← countTrees (p.nestedAttrs delimiter countAttrs) .start (0,0) inner
    let bumps ← (checkedAdd counts.1 nested.1).bind (checkedAdd · (if delimiter.skip then 0 else 2))
    let attributes ← (checkedAdd counts.2 nested.2).bind (checkedAdd · (countAttrs && p.isAttribute delimiter).toNat)
    some (bumps,attributes)

def countTrees (countAttrs : Bool) (p : Preceding) (counts : Nat × Nat) : List TokenTree → Option (Nat × Nat)
  | [] => some counts
  | tree :: trees => do
    let counts ← countTree countAttrs p counts tree
    countTrees countAttrs (p.shift tree) counts trees

end

end Count

def count (stream : TokenStream) (countAttrs : Bool) : Option (Nat × Nat) :=
  Count.countTrees countAttrs .start (0,0) stream

structure SpanFacts where
  ctxtIsRoot : Span → Bool
  hasParent : Span → Bool

namespace SpanFacts

variable (facts : SpanFacts)

def valid (span : Span) : Bool := span ≠ .dummySp && facts.ctxtIsRoot span && !facts.hasParent span

def interpolated : TokenKind → Bool
  | .NtIdent .. | .NtLifetime .. | .OpenInvisible .. | .CloseInvisible .. => true
  | _ => false

def isInvisible : Delimiter → Bool
  | .Invisible _ => true
  | _ => false

mutual

def sourceTree : TokenTree → Bool
  | .Token value _ => facts.valid value.span && !interpolated value.kind
  | .Delimited spans _ delimiter inner =>
    !isInvisible delimiter && facts.valid spans.opening && facts.valid spans.closing && sourceTokens inner

def sourceTokens : List TokenTree → Bool
  | [] => true
  | tree :: trees => sourceTree tree && sourceTokens trees

end

end SpanFacts

end Frontend.Parse
