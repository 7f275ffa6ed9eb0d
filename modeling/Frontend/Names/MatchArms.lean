import Frontend.Names.Index

namespace Frontend.Names

inductive FieldsRest
  | dots
  | complete
  | recovered
  deriving DecidableEq

mutual
inductive Pat where
  | wild
  | rest
  | ident (name : Name) (sub : Option Pat)
  | paren (pat : Pat)
  | ref (pat : Pat)
  | tuple (pats : List Pat)
  | or (pats : List Pat)
  | path (qself : Bool) (segments : List Name)
  | tupleStruct (qself : Bool) (segments : List Name) (subs : List Pat)
  | struct (qself : Bool) (segments : List Name) (fields : List PatField) (rest : FieldsRest)
  | other (id : Nat)

inductive PatField where
  | mk (name : Name) (attrs : Bool) (pat : Pat)
end

def Pat.isRest : Pat → Bool
  | .rest => true
  | _ => false

structure Arm where
  attrs : Bool
  pat : Pat
  guard : Bool

inductive Cover
  | covered
  | refutable (v : Nat)
  | catchAll
  | bail
  deriving DecidableEq

section

variable (cx : View)

mutual
def Pat.irrefutable : Pat → Bool
  | .wild => true
  | .rest => true
  | .ident name none => cx.startsLowercase name && cx.lookup name .value = .missing
  | .ident _ (some sub) => sub.irrefutable
  | .paren pat => pat.irrefutable
  | .ref pat => pat.irrefutable
  | .tuple pats => irrefutableAll pats
  | _ => false

def irrefutableAll : List Pat → Bool
  | [] => true
  | pat :: pats => pat.irrefutable && irrefutableAll pats
end

def irrefutableFields : List PatField → Bool
  | [] => true
  | .mk _ attrs pat :: fields => !attrs && pat.irrefutable cx && irrefutableFields fields

def tupleFits (subs : List Pat) (fields : List Ty) : Bool :=
  let named := (subs.filter fun sub => !sub.isRest).length
  if subs.any Pat.isRest then named ≤ fields.length else named = fields.length

mutual
def armCover (variants : List Variant) (d : Nat) : Pat → Bool → List Bool → Cover × List Bool
  | .paren pat, deref, covered => armCover variants d pat deref covered
  | .ref pat, deref, covered =>
    if deref then armCover variants d pat false covered else (.bail,covered)
  | .or pats, deref, covered => orCover variants d pats deref none covered
  | .wild, _, covered => (.catchAll,covered)
  | .ident _ none, _, covered => (.catchAll,covered)
  | .ident _ (some sub), deref, covered => armCover variants d sub deref covered
  | .path false segments, _, covered =>
    match cx.variantPath segments with
    | some (pd,v) =>
      match variants[v]? with
      | some ⟨_,_,.unit⟩ => if pd = d then (.covered,covered.set v true) else (.bail,covered)
      | _ => (.bail,covered)
    | none => (.bail,covered)
  | .tupleStruct false segments subs, _, covered =>
    match cx.variantPath segments with
    | some (pd,v) =>
      if pd ≠ d then (.bail,covered)
      else
        match variants[v]? with
        | some ⟨_,_,.tuple fields⟩ =>
          if !tupleFits subs fields then (.bail,covered)
          else if irrefutableAll cx subs then (.covered,covered.set v true)
          else (.refutable v,covered)
        | _ => (.bail,covered)
    | none => (.bail,covered)
  | .struct false segments fields rest, _, covered =>
    match cx.variantPath segments with
    | some (pd,v) =>
      if pd ≠ d then (.bail,covered)
      else
        match variants[v]? with
        | some ⟨_,_,.struct _⟩ =>
          if rest = .recovered then (.bail,covered)
          else if irrefutableFields cx fields then (.covered,covered.set v true)
          else (.refutable v,covered)
        | _ => (.bail,covered)
    | none => (.bail,covered)
  | _, _, covered => (.bail,covered)

-- The alternatives of an or-pattern; `answer` is the last refutable one so far.
def orCover (variants : List Variant) (d : Nat) : List Pat → Bool → Option Nat → List Bool → Cover × List Bool
  | [], _, answer, covered => (answer.elim .covered .refutable,covered)
  | pat :: pats, deref, answer, covered =>
    match armCover variants d pat deref covered with
    | (.covered,covered) => orCover variants d pats deref answer covered
    | (.refutable v,covered) => orCover variants d pats deref (some v) covered
    | (other,covered) => (other,covered)
end

end

section

def preludeTypes : List Name :=
  ["bool", "char", "i8", "i16", "i32", "i64", "i128", "isize", "u8", "u16", "u32", "u64", "u128",
    "usize", "f16", "f32", "f64", "f128", "String", "Vec", "Option"]

variable (ix : Index)

mutual
def inhabitedTy (next : Ty → Generics → Nat → Bool) (generics : Generics) (scope : Nat) : Ty → Bool
  | .ref _ _ => true
  | .pinnedRef => true
  | .ptr => true
  | .fnPtr => true
  | .tup tys => inhabitedTys next generics scope tys
  | .paren ty => inhabitedTy next generics scope ty
  | .path false [name] =>
    if name ∈ generics then false
    else
      match ix.lookup scope name .type with
      | .found (.defined d) =>
        match ix.defs[d]? with
        | some ⟨_,.struct data g,inner,true⟩ => data.fields.all fun ty => next ty g inner
        | some ⟨_,.enum variants g,inner,true⟩ => variants.any fun v => v.data.fields.all fun ty => next ty g inner
        | _ => false
      | .missing => preludeTypes.contains name
      | _ => false
  | _ => false

def inhabitedTys (next : Ty → Generics → Nat → Bool) (generics : Generics) (scope : Nat) : List Ty → Bool
  | [] => true
  | ty :: tys => inhabitedTy next generics scope ty && inhabitedTys next generics scope tys
end

def inhabitedWithin : Nat → Ty → Generics → Nat → Bool
  | 0, _, _, _ => false
  | fuel + 1, ty, generics, scope => inhabitedTy ix
      (fun ty generics scope => inhabitedWithin fuel ty generics scope) generics scope ty

def inhabited (ty : Ty) (generics : Generics) (scope : Nat) : Bool := inhabitedWithin ix 5 ty generics scope

end

section

def witness (v : Variant) : String :=
  match v.data with
  | .unit => v.ident
  | .tuple [] => v.ident
  | .tuple fields => v.ident ++ "(" ++ ", ".intercalate (fields.map fun _ => "_") ++ ")"
  | .struct [] => v.ident ++ " \x7b  \x7d"
  | .struct _ => v.ident ++ " \x7b .. \x7d"

def uncoveredText (witnesses : List String) : String :=
  match witnesses with
  | [] => ""
  | [only] => "`" ++ only ++ "` not covered"
  | witnesses =>
    if witnesses.length - 1 < 3 then
      "`" ++ "`, `".intercalate witnesses.dropLast ++ "` and `" ++ witnesses.getLastD "" ++ "` not covered"
    else
      "`" ++ "`, `".intercalate (witnesses.take 3) ++ "` and " ++ toString (witnesses.length - 3) ++ " more not covered"

inductive Scrutinee
  | paren (inner : Scrutinee)
  | addrOf (raw mutable : Bool) (inner : Scrutinee)
  | path (qself : Bool) (segments : List Name)
  | call (callee : Scrutinee)
  | struct (qself : Bool) (segments : List Name)
  | other

variable (cx : View)

def variantData (d v : Nat) : Option VariantData := do
  let (variants,_) ← cx.ix.enumDef d
  let variant ← variants[v]?
  return variant.data

def exprShape : Scrutinee → Option (Nat × Recv)
  | .paren inner => exprShape inner
  | .addrOf false mutable inner =>
    match exprShape inner with
    | some (d,.value) => some (d,if mutable then .refMut else .ref)
    | _ => none
  | .path false [name] =>
    if name = "self" then do
      let d ← cx.selfTy
      let _ ← cx.ix.enumDef d
      if !cx.selfValue then none
      let recv ← cx.selfParam
      return (d,recv)
    else do
      let info ← cx.ownLocal name
      info.shape
  | .path false [e,v] => do
    let (d,v) ← cx.variantPath [e,v]
    match variantData cx d v with
    | some .unit => some (d,.value)
    | _ => none
  | .call (.path false segments) => do
    let (d,v) ← cx.variantPath segments
    match variantData cx d v with
    | some (.tuple _) => some (d,.value)
    | _ => none
  | .struct false segments => do
    let (d,_) ← cx.variantPath segments
    return (d,.value)
  | _ => none

def coverArms (variants : List Variant) (d : Nat) (deref : Bool) : List Arm → List Bool → List Bool →
    Option (List Bool × List Bool)
  | [], covered, refutable => some (covered,refutable)
  | arm :: arms, covered, refutable =>
    if arm.attrs then none
    else if arm.guard then coverArms variants d deref arms covered refutable
    else
      match armCover cx variants d arm.pat deref covered with
      | (.covered,covered) => coverArms variants d deref arms covered refutable
      | (.refutable v,covered) => coverArms variants d deref arms covered (refutable.set v true)
      | _ => none

def missingVariants (variants : List Variant) (covered : List Bool) : List Nat :=
  (List.range variants.length).filter fun v => !covered.getD v false

def checkMatch (scrutinee : Scrutinee) (arms : List Arm) : Option String := do
  if !cx.matchArms || cx.suppress > 0 then none
  let (d,recv) ← exprShape cx scrutinee
  let (variants,generics) ← cx.ix.enumDef d
  if !cx.ix.knownVariants d then none
  let none' := List.replicate variants.length false
  let (covered,refutable) ← coverArms cx variants d (recv ≠ .value) arms none' none'
  let missing := missingVariants variants covered
  if missing.isEmpty || missing.any fun v => refutable.getD v false then none
  let entry ← cx.ix.defs[d]?
  let fieldsOf := fun v => ((variants[v]?).map fun variant => variant.data.fields).getD []
  if !missing.all fun v => (fieldsOf v).all fun ty => inhabited cx.ix ty generics entry.scope then none
  let witnesses := missing.map fun v => recv.text ++ ((variants[v]?).map witness).getD ""
  return "missing match arm: " ++ uncoveredText witnesses

end

end Frontend.Names
