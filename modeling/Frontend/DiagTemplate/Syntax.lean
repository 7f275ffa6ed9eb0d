import Mathlib

namespace Frontend.DiagTemplate

abbrev Bytes := List UInt8

def byte (c : Char) : UInt8 := UInt8.ofNat c.toNat
def bytesOf (s : String) : Bytes := s.toList.flatMap String.utf8EncodeChar

inductive Key where
  | Name (name : Bytes)
  | Number (n : Int)
deriving DecidableEq, Repr

mutual

inductive Pattern where
  | mk (elements : List Element)

inductive Element where
  | Text (text : Bytes)
  | Placeable (expression : Expression)

inductive Expression where
  | Inline (inline : Inline)
  | Select (selector : Inline) (variants : List Variant)

inductive Inline where
  | Variable (name : Bytes)
  | Literal (text : Bytes)
  | Number (n : Int)
  | StrEq (a b : Inline)
  | Nested (expression : Expression)

inductive Variant where
  | mk (key : Key) (value : Pattern) (default : Bool)

end

def Pattern.elements : Pattern → List Element
  | .mk es => es

namespace Variant

def key : Variant → Key
  | .mk k _ _ => k

def value : Variant → Pattern
  | .mk _ p _ => p

def default : Variant → Bool
  | .mk _ _ d => d

end Variant

abbrev SelectExpr := Inline × List Variant

mutual

def Pattern.selects : Pattern → List SelectExpr
  | .mk es => elementsSelects es

def elementsSelects : List Element → List SelectExpr
  | [] => []
  | e :: es => e.selects ++ elementsSelects es

def Element.selects : Element → List SelectExpr
  | .Text _ => []
  | .Placeable x => x.selects

def Expression.selects : Expression → List SelectExpr
  | .Inline i => i.selects
  | .Select i vs => (i,vs) :: (i.selects ++ variantsSelects vs)

def Inline.selects : Inline → List SelectExpr
  | .Variable _ => []
  | .Literal _ => []
  | .Number _ => []
  | .StrEq a b => a.selects ++ b.selects
  | .Nested x => x.selects

def variantsSelects : List Variant → List SelectExpr
  | [] => []
  | v :: vs => v.selects ++ variantsSelects vs

def Variant.selects : Variant → List SelectExpr
  | .mk _ p _ => p.selects

end

theorem elementsSelects_eq_flatMap (es : List Element) : elementsSelects es = es.flatMap Element.selects := by
  induction es with
  | nil => simp [elementsSelects]
  | cons e es ih => simp [elementsSelects,ih]

theorem variantsSelects_eq_flatMap (vs : List Variant) : variantsSelects vs = vs.flatMap Variant.selects := by
  induction vs with
  | nil => simp [variantsSelects]
  | cons v vs ih => simp [variantsSelects,ih]

end Frontend.DiagTemplate
