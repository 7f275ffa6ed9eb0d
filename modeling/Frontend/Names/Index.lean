import Mathlib.Data.List.Basic

namespace Frontend.Names

abbrev Name := String

inductive Ns
  | value
  | type
  deriving DecidableEq

inductive Binding
  | defined (d : Nat)
  | imported
  | ambiguous
  deriving DecidableEq

structure Scope where
  parent : Option Nat
  values : List (Name × Binding)
  types : List (Name × Binding)
  incomplete : Bool
  deriving DecidableEq

def Scope.names (scope : Scope) : Ns → List (Name × Binding)
  | .value => scope.values
  | .type => scope.types

inductive Ty
  | ref (mutable : Bool) (ty : Ty)
  | pinnedRef
  | ptr
  | fnPtr
  | tup (tys : List Ty)
  | paren (ty : Ty)
  | path (qself : Bool) (segments : List Name)
  | implicitSelf
  | other

inductive VariantData
  | unit
  | tuple (fields : List Ty)
  | struct (fields : List (Name × Ty))

def VariantData.fields : VariantData → List Ty
  | .unit => []
  | .tuple fields => fields
  | .struct fields => fields.map Prod.snd

-- `unsettled` is what `is_unsettled` says of the attributes.
structure Variant where
  ident : Name
  unsettled : Bool
  data : VariantData

abbrev Generics := List Name

inductive DefKind
  | fn
  | struct (data : VariantData) (generics : Generics)
  | union
  | enum (variants : List Variant) (generics : Generics)
  | trait
  | mod (scope : Nat)
  | other

structure Def where
  ident : Name
  kind : DefKind
  scope : Nat
  exact : Bool

structure Index where
  scopes : List Scope
  defs : List Def

inductive Lookup
  | found (binding : Binding)
  | missing
  | unknown
  deriving DecidableEq

namespace Index

variable (ix : Index)

def lookupFrom (name : Name) (ns : Ns) : Nat → Nat → Lookup
  | 0, _ => .unknown
  | fuel + 1, scope =>
    match ix.scopes[scope]? with
    | none => .unknown
    | some s =>
      match (s.names ns).lookup name with
      | some binding => .found binding
      | none =>
        if s.incomplete then .unknown
        else
          match s.parent with
          | some parent => lookupFrom name ns fuel parent
          | none => .missing

def lookup (scope : Nat) (name : Name) (ns : Ns) : Lookup := ix.lookupFrom name ns (scope + 1) scope

def exactDef (scope : Nat) (name : Name) (ns : Ns) : Option Nat :=
  match ix.lookup scope name ns with
  | .found (.defined d) =>
    match ix.defs[d]? with
    | some entry => if entry.exact then some d else none
    | none => none
  | _ => none

def isAdt (d : Nat) : Bool :=
  match ix.defs[d]? with
  | some ⟨_,.struct _ _,_,_⟩ | some ⟨_,.enum _ _,_,_⟩ | some ⟨_,.union,_,_⟩ => true
  | _ => false

def enumDef (d : Nat) : Option (List Variant × Generics) :=
  match ix.defs[d]? with
  | some ⟨_,.enum variants generics,_,_⟩ => some (variants,generics)
  | _ => none

-- The table of `build_variants`; a later variant of the same name replaces the earlier one.
def variantTable (variants : List Variant) : Option (List (Name × Nat)) :=
  if variants.any Variant.unsettled then none
  else some (variants.zipIdx.map fun entry => (entry.1.ident,entry.2)).reverse

def knownVariants (d : Nat) : Bool :=
  match ix.enumDef d with
  | some (variants,_) => (variantTable variants).isSome
  | none => false

def variant (d : Nat) (name : Name) : Option Nat := do
  let (variants,_) ← ix.enumDef d
  let table ← variantTable variants
  table.lookup name

end Index

inductive Recv
  | value
  | ref
  | refMut
  deriving DecidableEq

def Recv.text : Recv → String
  | .value => ""
  | .ref => "&"
  | .refMut => "&mut "

structure LocalInfo where
  fnId : Nat
  closureArity : Option Nat
  shape : Option (Nat × Recv)
  deriving DecidableEq

-- What the checks of a body read; `isUppercase` is the Unicode property.
structure View where
  isUppercase : Char → Bool
  matchArms : Bool
  suppress : Nat
  ix : Index
  cur : Nat
  locals : Name → List LocalInfo
  wild : Nat
  fnId : Nat
  selfTy : Option Nat
  selfValue : Bool
  selfParam : Option Recv

namespace View

variable (cx : View)

section

variable (name : Name)

def startsLowercase : Bool :=
  match name.toList with
  | [] => false
  | c :: _ => !cx.isUppercase c

def localInfo : Option LocalInfo := (cx.locals name).head?

def ownLocal : Option LocalInfo := (cx.localInfo name).filter fun info => info.fnId = cx.fnId

def lookup (name : Name) (ns : Ns) : Lookup := cx.ix.lookup cx.cur name ns

def resolve (ns : Ns) : Option Nat :=
  if cx.wild > 0 || (cx.localInfo name).isSome then none else cx.ix.exactDef cx.cur name ns

def typeSeg : Option Nat := do
  let d ← if name = "Self" then cx.selfTy else cx.resolve name .type
  if cx.ix.isAdt d then some d else none

end

def variantPath : List Name → Option (Nat × Nat)
  | [e,v] => do
    let d ← cx.typeSeg e
    let _ ← cx.ix.enumDef d
    let index ← cx.ix.variant d v
    return (d,index)
  | _ => none

end View

end Frontend.Names
