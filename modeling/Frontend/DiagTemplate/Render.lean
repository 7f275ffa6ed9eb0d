import Frontend.DiagTemplate.Syntax

namespace Frontend.DiagTemplate

open List

inductive Value where
  | Str (text : Bytes)
  | Number (n : Int)
deriving DecidableEq, Repr

abbrev Args := Bytes → Option Value

structure Rendered where
  text : Bytes
  unresolved : List Bytes
deriving DecidableEq, Repr

namespace Rendered

def empty : Rendered := ⟨[],[]⟩

def push (out : Rendered) (text : Bytes) : Rendered := { out with text := out.text ++ text }

def miss (out : Rendered) (name : Bytes) : Rendered :=
  { out with unresolved := out.unresolved ++ [name] }

end Rendered

inductive Selector where
  | Str (text : Bytes)
  | Number (n : Int)
  | Error
deriving DecidableEq, Repr

def numberText (n : Int) : Bytes := bytesOf (toString n)

def keyMatches : Key → Selector → Bool
  | .Name name, .Str value => name = value
  | .Number key, .Number value => key = value
  | .Name name, .Number value =>
    if name = bytesOf "one" then value.natAbs = 1
    else if name = bytesOf "other" then value.natAbs ≠ 1
    else false
  | _, _ => false

def Selector.matchable : Selector → Bool
  | .Error => false
  | _ => true

def i32TryFrom (n : Int) : Selector :=
  if -2 ^ 31 ≤ n ∧ n < 2 ^ 31 then .Number n else .Error

def streq : Selector → Selector → Selector
  | .Str a, .Str b => .Str (bytesOf (if a = b then "true" else "false"))
  | _, _ => .Error

mutual

def writePattern : Pattern → Args → Rendered → Rendered
  | .mk es, args, out => writeElements es args out

def writeElements : List Element → Args → Rendered → Rendered
  | [], _, out => out
  | e :: es, args, out => writeElements es args (writeElement e args out)

def writeElement : Element → Args → Rendered → Rendered
  | .Text text, _, out => out.push text
  | .Placeable x, args, out => writeExpression x args out

def writeExpression : Expression → Args → Rendered → Rendered
  | .Inline i, args, out => writeInline i args out
  | .Select i vs, args, out =>
    let (selector,out) := resolve i args out
    match if selector.matchable then writeMatching vs selector args out else none with
    | some out => out
    | none => (writeDefault vs args out).getD out

def writeMatching : List Variant → Selector → Args → Rendered → Option Rendered
  | [], _, _, _ => none
  | .mk key value _ :: vs, selector, args, out =>
    if keyMatches key selector then some (writePattern value args out)
    else writeMatching vs selector args out

def writeDefault : List Variant → Args → Rendered → Option Rendered
  | [], _, _ => none
  | .mk _ value default :: vs, args, out =>
    if default then some (writePattern value args out) else writeDefault vs args out

def writeInline : Inline → Args → Rendered → Rendered
  | .Variable name, args, out =>
    match args name with
    | some (.Str s) => out.push s
    | some (.Number n) => out.push (numberText n)
    | none => (out.miss name).push (bytesOf "\x7b$" ++ name ++ bytesOf "\x7d")
  | .Literal s, _, out => out.push s
  | .Number n, _, out => out.push (numberText n)
  | .StrEq a b, args, out =>
    let (x,out) := resolve a args out
    let (y,out) := resolve b args out
    match streq x y with
    | .Str s => out.push s
    | .Number n => out.push (numberText n)
    | .Error => out.push (bytesOf "STREQ()")
  | .Nested x, args, out => writeExpression x args out

def resolve : Inline → Args → Rendered → Selector × Rendered
  | .Variable name, args, out =>
    match args name with
    | some (.Str s) => (.Str s,out)
    | some (.Number n) => (.Number n,out)
    | none => (.Error,out.miss name)
  | .Literal s, _, out => (.Str s,out)
  | .Number n, _, out => (i32TryFrom n,out)
  | .StrEq a b, args, out =>
    let (x,out) := resolve a args out
    let (y,out) := resolve b args out
    (streq x y,out)
  | .Nested x, args, out =>
    let nested := writeExpression x args .empty
    (.Str nested.text,{ out with unresolved := out.unresolved ++ nested.unresolved })

end

def render (pattern : Pattern) (args : Args) : Rendered := writePattern pattern args .empty

theorem writeMatching_eq (vs : List Variant) (selector : Selector) (args : Args) (out : Rendered) :
    writeMatching vs selector args out =
      (vs.find? fun v => keyMatches v.key selector).map fun v => writePattern v.value args out := by
  induction vs with
  | nil => simp [writeMatching]
  | cons v vs ih =>
    cases v with
    | mk key value default => by_cases h : keyMatches key selector <;> simp [writeMatching,Variant.key,
        Variant.value,h,ih]

theorem writeDefault_eq (vs : List Variant) (args : Args) (out : Rendered) : writeDefault vs args out =
      (vs.find? Variant.default).map fun v => writePattern v.value args out := by
  induction vs with
  | nil => simp [writeDefault]
  | cons v vs ih =>
    cases v with
    | mk key value default =>
      cases default with
      | true => simp [writeDefault,find?_cons,Variant.default,Variant.value]
      | false => simp [writeDefault,Variant.default,Variant.value,ih]

def WritesOne (s : SelectExpr) : Prop :=
  ∀ args out, ∃ v ∈ s.2, writeExpression (.Select s.1 s.2) args out = writePattern v.value args (resolve s.1 args out).2

theorem writesOne_of_default (h : ∃ v ∈ s.2, v.default) : WritesOne s := by
  intro args out
  simp only [writeExpression,writeMatching_eq,writeDefault_eq]
  cases hm : (if (resolve s.1 args out).1.matchable then
      s.2.find? fun v => keyMatches v.key (resolve s.1 args out).1 else none) with
  | some v =>
    refine ⟨v,?_,?_⟩
    · split at hm
      · exact mem_of_find?_eq_some hm
      · cases hm
    · split at hm
      · rename_i hs
        simp [hs,hm]
      · cases hm
  | none =>
    obtain ⟨v,hv,hd⟩ := h
    have hso : (s.2.find? Variant.default).isSome := by
      rw [find?_isSome]
      exact ⟨v,hv,hd⟩
    obtain ⟨w,hw⟩ := Option.isSome_iff_exists.mp hso
    refine ⟨w,mem_of_find?_eq_some hw,?_⟩
    split at hm
    · rename_i hs
      simp [hs,hm,hw]
    · rename_i hs
      simp [hs,hw]

end Frontend.DiagTemplate
