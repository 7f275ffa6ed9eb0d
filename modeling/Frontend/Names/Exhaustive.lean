import Frontend.Names.MatchArms

namespace Frontend.Names

open List

inductive Val
  | prim
  | pointer
  | ref (val : Val)
  | tuple (vals : List Val)
  | adt (d v : Nat) (fields : List Val)

section

variable (ix : Index)

-- A reference or pointer has a value whatever it points to, as exhaustiveness takes it; a reference
-- to a value is one too.
mutual
inductive HasTy : Generics → Nat → Ty → Val → Prop
  | ref {g : Generics} {s : Nat} {m : Bool} {ty : Ty} : HasTy g s (.ref m ty) .pointer
  | refTo {g : Generics} {s : Nat} {m : Bool} {ty : Ty} {val : Val} : HasTy g s ty val → HasTy g s (.ref m ty) (.ref val)
  | pinnedRef {g : Generics} {s : Nat} : HasTy g s .pinnedRef .pointer
  | ptr {g : Generics} {s : Nat} : HasTy g s .ptr .pointer
  | fnPtr {g : Generics} {s : Nat} : HasTy g s .fnPtr .pointer
  | tup {g : Generics} {s : Nat} {tys : List Ty} {vals : List Val} : HasTys g s tys vals →
      HasTy g s (.tup tys) (.tuple vals)
  | paren {g : Generics} {s : Nat} {ty : Ty} {val : Val} : HasTy g s ty val → HasTy g s (.paren ty) val
  | struct {g : Generics} {s d : Nat} {name : Name} {entry : Def} {data : VariantData}
      {generics : Generics} {vals : List Val} : name ∉ g →
      ix.lookup s name .type = .found (.defined d) → ix.defs[d]? = some entry →
      entry.kind = .struct data generics → HasTys generics entry.scope data.fields vals →
      HasTy g s (.path false [name]) (.adt d 0 vals)
  | enum {g : Generics} {s d v : Nat} {name : Name} {entry : Def} {variants : List Variant}
      {variant : Variant} {generics : Generics} {vals : List Val} : name ∉ g →
      ix.lookup s name .type = .found (.defined d) → ix.defs[d]? = some entry →
      entry.kind = .enum variants generics → variants[v]? = some variant →
      HasTys generics entry.scope variant.data.fields vals →
      HasTy g s (.path false [name]) (.adt d v vals)
  | prelude {g : Generics} {s : Nat} {name : Name} : name ∉ g →
      ix.lookup s name .type = .missing → name ∈ preludeTypes → HasTy g s (.path false [name]) .prim

inductive HasTys : Generics → Nat → List Ty → List Val → Prop
  | nil {g : Generics} {s : Nat} : HasTys g s [] []
  | cons {g : Generics} {s : Nat} {ty : Ty} {tys : List Ty} {val : Val} {vals : List Val} :
      HasTy g s ty val → HasTys g s tys vals → HasTys g s (ty :: tys) (val :: vals)
end

variable {ix}

theorem exists_vals (h : ∀ ty ∈ tys, ∃ val, HasTy ix g s ty val) : ∃ vals, HasTys ix g s tys vals := by
  induction tys with
  | nil => exact ⟨[],.nil⟩
  | cons ty tys ih =>
    rw [forall_mem_cons] at h
    obtain ⟨val,hva⟩ := h.1
    obtain ⟨vals,hv⟩ := ih h.2
    exact ⟨val :: vals,.cons hva hv⟩

theorem exists_val_path {next : Ty → Generics → Nat → Bool} (hnext : ∀ ty g s, next ty g s = true →
    ∃ val, HasTy ix g s ty val)
    (h : inhabitedTy ix next g s (.path false [name]) = true) :
    ∃ val, HasTy ix g s (.path false [name]) val := by
  simp only [inhabitedTy] at h
  split at h
  case isTrue => simp at h
  case isFalse hn =>
    split at h
    case h_1 d hl =>
      split at h
      case h_1 data generics inner hd =>
        obtain ⟨vals,hva⟩ := exists_vals fun ty hty => hnext ty _ _ (all_eq_true.mp h ty hty)
        exact ⟨_,.struct hn hl hd rfl hva⟩
      case h_2 variants generics inner hd =>
        obtain ⟨variant,hvr,hf⟩ := any_eq_true.mp h
        obtain ⟨v,hv⟩ := mem_iff_getElem?.mp hvr
        obtain ⟨vals,hva⟩ := exists_vals fun ty hty => hnext ty _ _ (all_eq_true.mp hf ty hty)
        exact ⟨_,.enum hn hl hd rfl hv hva⟩
      case h_3 => simp at h
    case h_2 hl => exact ⟨_,.prelude hn hl (by simpa using h)⟩
    case h_3 => simp at h

mutual
theorem exists_val_ty {next : Ty → Generics → Nat → Bool}
    (hnext : ∀ ty g s, next ty g s = true → ∃ val, HasTy ix g s ty val) : (ty : Ty) → (g : Generics) → (s : Nat) →
    inhabitedTy ix next g s ty = true → ∃ val, HasTy ix g s ty val
  | .ref _ _, _, _, _ => ⟨_,.ref⟩
  | .pinnedRef, _, _, _ => ⟨_,.pinnedRef⟩
  | .ptr, _, _, _ => ⟨_,.ptr⟩
  | .fnPtr, _, _, _ => ⟨_,.fnPtr⟩
  | .tup tys, g, s, h => by
    obtain ⟨vals,hv⟩ := exists_vals_tys hnext tys g s h
    exact ⟨_,.tup hv⟩
  | .paren ty, g, s, h => by
    obtain ⟨val,hva⟩ := exists_val_ty hnext ty g s h
    exact ⟨val,.paren hva⟩
  | .path false [name], _, _, h => exists_val_path hnext h
  | .path false [], _, _, h | .path false (_ :: _ :: _), _, _, h | .path true _, _, _, h
  | .implicitSelf, _, _, h | .other, _, _, h => by simp [inhabitedTy] at h

theorem exists_vals_tys {next : Ty → Generics → Nat → Bool}
    (hnext : ∀ ty g s, next ty g s = true → ∃ val, HasTy ix g s ty val) : (tys : List Ty) → (g : Generics) → (s : Nat) →
    inhabitedTys ix next g s tys = true → ∃ vals, HasTys ix g s tys vals
  | [], _, _, _ => ⟨[],.nil⟩
  | ty :: tys, g, s, h => by
    simp only [inhabitedTys,Bool.and_eq_true] at h
    obtain ⟨val,hva⟩ := exists_val_ty hnext ty g s h.1
    obtain ⟨vals,hv⟩ := exists_vals_tys hnext tys g s h.2
    exact ⟨val :: vals,.cons hva hv⟩
end

theorem exists_val_within (fuel : Nat) (ty : Ty) (g : Generics) (s : Nat)
    (h : inhabitedWithin ix fuel ty g s = true) : ∃ val, HasTy ix g s ty val := by
  induction fuel generalizing ty g s with
  | zero => simp [inhabitedWithin] at h
  | succ fuel ih => exact exists_val_ty (fun ty g s => ih ty g s) ty g s h

end

section

variable (cx : View)

-- Patterns that are no reference patterns look through references.
def Val.peel : Val → Val
  | .ref val => val.peel
  | val => val

def fieldNames (d v : Nat) : List Name :=
  match variantData cx d v with
  | some (.struct fields) => fields.map Prod.fst
  | _ => []

-- What a pattern accepts. `leaf` is the meaning of what the check does not look into: literals,
-- ranges and the like, constants, and paths that are no variant of an enum of the file.
mutual
def Pat.Accepts (leaf : Pat → Val → Prop) : Pat → Val → Prop
  | .wild, _ => True
  | .rest, _ => True
  | .ident name none, val => (cx.startsLowercase name ∧ cx.lookup name .value = .missing) ∨ leaf (.ident name none) val
  | .ident _ (some sub), val => sub.Accepts leaf val
  | .paren pat, val => pat.Accepts leaf val
  | .ref pat, .ref val => pat.Accepts leaf val
  | .tuple pats, val =>
    match val.peel with
    | .tuple vals => AcceptsAll leaf pats vals
    | _ => False
  | .or pats, val => AcceptsAny leaf pats val
  | .path false segments, val =>
    match cx.variantPath segments, val.peel with
    | some target, .adt d v _ => target = (d,v)
    | some _, _ => False
    | none, val => leaf (.path false segments) val
  | .tupleStruct false segments subs, val =>
    match cx.variantPath segments, val.peel with
    | some target, .adt d v vals => target = (d,v) ∧ AcceptsAll leaf subs vals
    | some _, _ => False
    | none, val => leaf (.tupleStruct false segments subs) val
  | .struct false segments fields rest, val =>
    match cx.variantPath segments, val.peel with
    | some target, .adt d v vals => target = (d,v) ∧ AcceptsFields leaf (fieldNames cx d v) fields vals
    | some _, _ => False
    | none, val => leaf (.struct false segments fields rest) val
  | pat, val => leaf pat val

def AcceptsAny (leaf : Pat → Val → Prop) : List Pat → Val → Prop
  | [], _ => False
  | pat :: pats, val => pat.Accepts leaf val ∨ AcceptsAny leaf pats val

-- What follows a `..` stands at the end.
def AcceptsAll (leaf : Pat → Val → Prop) : List Pat → List Val → Prop
  | [], _ => True
  | sub :: subs, vals =>
    if sub.isRest then AcceptsAll leaf subs (vals.drop (vals.length - subs.length))
    else
      match vals with
      | [] => False
      | val :: vals => sub.Accepts leaf val ∧ AcceptsAll leaf subs vals

def AcceptsFields (leaf : Pat → Val → Prop) (names : List Name) : List PatField → List Val → Prop
  | [], _ => True
  | .mk name _ pat :: fields, vals =>
    (match vals[names.idxOf name]? with
      | some val => pat.Accepts leaf val
      | none => False) ∧ AcceptsFields leaf names fields vals
end

mutual
-- Some alternative of a pattern, through parentheses, references, bindings and or-patterns.
def Pat.someAlternative (hit : Pat → Bool) : Pat → Bool → Bool
  | .paren pat, deref => pat.someAlternative hit deref
  | .ref pat, true => pat.someAlternative hit false
  | .or pats, deref => anyAlternative hit pats deref
  | .ident _ (some pat), deref => pat.someAlternative hit deref
  | pat, _ => hit pat

def anyAlternative (hit : Pat → Bool) : List Pat → Bool → Bool
  | [], _ => false
  | pat :: pats, deref => pat.someAlternative hit deref || anyAlternative hit pats deref
end

variable (d v : Nat)

-- An alternative that may accept a value of the variant `v`.
def Pat.mayName : Pat → Bool
  | .path false segments => (cx.variantPath segments).all (· = (d,v))
  | .tupleStruct false segments _ => (cx.variantPath segments).all (· = (d,v))
  | .struct false segments _ _ => (cx.variantPath segments).all (· = (d,v))
  | _ => true

def Pat.settles : Pat → Bool
  | .path false segments => cx.variantPath segments = some (d,v)
  | .tupleStruct false segments subs => cx.variantPath segments = some (d,v) && irrefutableAll cx subs
  | .struct false segments fields _ => cx.variantPath segments = some (d,v) && irrefutableFields cx fields
  | _ => false

def Pat.refutes : Pat → Bool
  | .tupleStruct false segments subs => cx.variantPath segments = some (d,v) && !irrefutableAll cx subs
  | .struct false segments fields _ => cx.variantPath segments = some (d,v) && !irrefutableFields cx fields
  | _ => false

variable (deref : Bool) (arm : Arm)

def Arm.names : Bool := !arm.guard && arm.pat.someAlternative (·.mayName cx d v) deref

def Arm.settles : Bool := !arm.guard && arm.pat.someAlternative (·.settles cx d v) deref

def Arm.refutes : Bool := !arm.guard && arm.pat.someAlternative (·.refutes cx d v) deref

-- The value a scrutinee of the enum has: itself, or a reference to it.
def scrutinized (d v : Nat) (vals : List Val) : Val := if deref then .ref (.adt d v vals) else .adt d v vals

end

section

variable {cx : View} {d v : Nat} {vals : List Val} {leaf : Pat → Val → Prop}

theorem peel_scrutinized (deref : Bool) : (scrutinized deref d v vals).peel = .adt d v vals := by
  cases deref <;> rfl

mutual
theorem Pat.someAlternative_mono {hit hit' : Pat → Bool} (hle : ∀ pat, hit pat → hit' pat) :
    (pat : Pat) → (deref : Bool) →
    pat.someAlternative hit deref → pat.someAlternative hit' deref
  | .paren pat, deref, h => pat.someAlternative_mono hle deref h
  | .ref pat, true, h => pat.someAlternative_mono hle false h
  | .or pats, deref, h => anyAlternative_mono hle pats deref h
  | .ident _ (some pat), deref, h => pat.someAlternative_mono hle deref h
  | .ref _, false, h | .wild, _, h | .rest, _, h | .ident _ none, _, h | .tuple _, _, h | .path _ _, _, h
  | .tupleStruct _ _ _, _, h | .struct _ _ _ _, _, h | .other _, _, h => hle _ h

theorem anyAlternative_mono {hit hit' : Pat → Bool} (hle : ∀ pat, hit pat → hit' pat) :
    (pats : List Pat) → (deref : Bool) →
    anyAlternative hit pats deref → anyAlternative hit' pats deref
  | pat :: pats, deref, h => by
    simp only [anyAlternative,Bool.or_eq_true] at h ⊢
    exact h.imp (pat.someAlternative_mono hle deref) (anyAlternative_mono hle pats deref)
  | [], _, h => h
end

theorem Arm.names_of_settles {arm : Arm} (h : arm.settles cx d v deref) : arm.names cx d v deref := by
  simp only [Arm.settles,Arm.names,Bool.and_eq_true] at h ⊢
  refine ⟨h.1,Pat.someAlternative_mono (fun pat hp => ?_) arm.pat deref h.2⟩
  cases pat with
  | path qself segments => cases qself <;> simp_all [Pat.settles,Pat.mayName]
  | tupleStruct qself segments subs => cases qself <;> simp_all [Pat.settles,Pat.mayName]
  | struct qself segments fields rest => cases qself <;> simp_all [Pat.settles,Pat.mayName]
  | _ => rfl

mutual
theorem Pat.mayName_of_accepts : (pat : Pat) → (deref : Bool) → pat.Accepts cx leaf (scrutinized deref d v vals) →
    pat.someAlternative (·.mayName cx d v) deref
  | .paren pat, deref, h => pat.mayName_of_accepts deref (by simpa [Pat.Accepts] using h)
  | .ref pat, true, h => pat.mayName_of_accepts false (by simpa [Pat.Accepts,scrutinized] using h)
  | .or pats, deref, h => anyAlternative_of_accepts pats deref (by simpa [Pat.Accepts] using h)
  | .ident _ (some pat), deref, h => pat.mayName_of_accepts deref (by simpa [Pat.Accepts] using h)
  | .path false segments, deref, h => by
    simp only [Pat.Accepts,peel_scrutinized] at h
    simp only [Pat.someAlternative,Pat.mayName]
    cases hp : cx.variantPath segments with
    | none => rfl
    | some target => simpa [hp] using h
  | .tupleStruct false segments subs, deref, h => by
    simp only [Pat.Accepts,peel_scrutinized] at h
    simp only [Pat.someAlternative,Pat.mayName]
    cases hp : cx.variantPath segments with
    | none => rfl
    | some target =>
      rw [hp] at h
      simpa using h.1
  | .struct false segments fields rest, deref, h => by
    simp only [Pat.Accepts,peel_scrutinized] at h
    simp only [Pat.someAlternative,Pat.mayName]
    cases hp : cx.variantPath segments with
    | none => rfl
    | some target =>
      rw [hp] at h
      simpa using h.1
  | .ref _, false, _ | .wild, _, _ | .rest, _, _ | .ident _ none, _, _ | .tuple _, _, _ | .path true _, _, _
  | .tupleStruct true _ _, _, _ | .struct true _ _ _, _, _ | .other _, _, _ => by simp [Pat.someAlternative,Pat.mayName]

theorem anyAlternative_of_accepts : (pats : List Pat) → (deref : Bool) →
    AcceptsAny cx leaf pats (scrutinized deref d v vals) →
    anyAlternative (·.mayName cx d v) pats deref
  | pat :: pats, deref, h => by
    simp only [anyAlternative,Bool.or_eq_true]
    simp only [AcceptsAny] at h
    exact h.imp (pat.mayName_of_accepts deref) (anyAlternative_of_accepts pats deref)
  | [], _, h => by simp [AcceptsAny] at h
end

end

section

variable {cx : View} {variants : List Variant} {d : Nat}

def Cover.decided : Cover → Bool
  | .covered | .refutable _ => true
  | .catchAll | .bail => false

def covers (covered : List Bool) (v : Nat) : Prop := covered.getD v false = true

variable {covered covered' covered'' : List Bool} {segments : List Name} {deref : Bool} {answer answer' : Cover}
  {names names' settles settles' refutes refutes' : Nat → Bool}

theorem covers_set (h : covers (covered.set v true) u) : covers covered u ∨ v = u := by
  by_cases hvu : v = u
  · exact .inr hvu
  · refine .inl ?_
    simpa [covers,getD_eq_getElem?_getD,getElem?_set,hvu] using h

theorem covers_set_of_covers (h : covers covered u) (v : Nat) : covers (covered.set v true) u := by
  by_cases hvu : v = u
  · subst hvu
    have hl : v < covered.length := by
      by_contra hge
      simp [covers,getD_eq_getElem?_getD,getElem?_eq_none (Nat.not_lt.mp hge)] at h
    simp [covers,getD_eq_getElem?_getD,hl]
  · simpa [covers,getD_eq_getElem?_getD,getElem?_set,hvu] using h

-- What deciding a pattern records: `last` is the refutable variant that stood before.
structure Records (names settles refutes : Nat → Bool) (last : Option Nat) (covered covered' : List Bool)
    (answer : Cover) : Prop where
  covers : ∀ v, covers covered' v → covers covered v ∨ settles v
  named : ∀ v, names v → settles v ∨ refutes v
  kept : ∀ v, refutes v ∨ last = some v → ∃ u, answer = .refutable u
  answered : ∀ u, answer = .refutable u → refutes u ∨ last = some u

theorem records_covered (hn : ∀ u, names u → v = u) (hs : ∀ u, settles u = decide (v = u))
    (hr : ∀ u, refutes u = false) :
    Records names settles refutes none covered (covered.set v true) .covered where
  covers u hu := (covers_set hu).imp_right fun he => by rw [hs]; exact decide_eq_true he
  named u hu := .inl (by rw [hs]; exact decide_eq_true (hn u hu))
  kept u hu := by simp [hr] at hu
  answered u hu := by cases hu

theorem records_refutable (hn : ∀ u, names u → v = u) (hr : ∀ u, refutes u = decide (v = u)) :
    Records names settles refutes none covered covered (.refutable v) where
  covers u hu := .inl hu
  named u hu := .inr (by rw [hr]; exact decide_eq_true (hn u hu))
  kept u _ := ⟨v,rfl⟩
  answered u hu := .inl (by rw [hr]; simpa using hu)

theorem path_records (h : (armCover cx variants d (.path false segments) deref covered).1.decided) :
    Records (fun v => (Pat.path false segments).mayName cx d v) (fun v => (Pat.path false segments).settles cx d v)
      (fun v => (Pat.path false segments).refutes cx d v) none covered
      (armCover cx variants d (.path false segments) deref covered).2
      (armCover cx variants d (.path false segments) deref covered).1 := by
  revert h
  simp only [armCover]
  cases hp : cx.variantPath segments with
  | none => simp [Cover.decided]
  | some target =>
    obtain ⟨pd,v⟩ := target
    simp only
    split
    · split
      case isTrue hpd =>
        subst hpd
        intro _
        refine records_covered (fun u hu => ?_) (fun u => ?_) fun u => rfl
        · simpa [Pat.mayName,hp] using hu
        · simp [Pat.settles,hp]
      case isFalse => simp [Cover.decided]
    · simp [Cover.decided]

theorem fields_records {answer : Nat → Cover × List Bool} (irrefutable : Bool)
    (ha : ∀ v, (answer v).1.decided → answer v = if irrefutable then (.covered,covered.set v true)
    else (.refutable v,covered))
    (hn : ∀ v, names v = (cx.variantPath segments).all (· = (d,v)))
    (hs : ∀ v, settles v = (decide (cx.variantPath segments = some (d,v)) && irrefutable))
    (hr : ∀ v, refutes v = (decide (cx.variantPath segments = some (d,v)) && !irrefutable))
    (h : (match cx.variantPath segments with
      | some (pd,v) => if pd ≠ d then (.bail,covered) else answer v
      | none => (.bail,covered) : Cover × List Bool).1.decided) :
    Records names settles refutes none covered (match cx.variantPath segments with
      | some (pd,v) => if pd ≠ d then (.bail,covered) else answer v
      | none => (.bail,covered) : Cover × List Bool).2 (match cx.variantPath segments with
      | some (pd,v) => if pd ≠ d then (.bail,covered) else answer v
      | none => (.bail,covered) : Cover × List Bool).1 := by
  cases hp : cx.variantPath segments with
  | none => simp [hp,Cover.decided] at h
  | some target =>
    obtain ⟨pd,v⟩ := target
    simp only [hp] at h ⊢
    split at h
    case isTrue => simp [Cover.decided] at h
    case isFalse hpd =>
      obtain rfl := not_ne_iff.mp hpd
      rw [if_neg hpd,ha v h]
      have hv u (hu : names u) : v = u := by simpa [hn,hp] using hu
      cases irrefutable with
      | true => exact records_covered hv (fun u => by simp [hs,hp]) fun u => by simp [hr]
      | false => exact records_refutable hv fun u => by simp [hr,hp]

theorem Records.or {last last' : Option Nat} (h : Records names settles refutes none covered covered' answer)
    (hd : answer = .covered ∧ last' = last ∨ ∃ v, answer = .refutable v ∧ last' = some v)
    (h' : Records names' settles' refutes' last' covered' covered'' answer') :
    Records (fun v => names v || names' v) (fun v => settles v || settles' v) (fun v => refutes v || refutes' v) last
      covered covered'' answer' := by
  refine ⟨fun v hv => ?_,fun v hv => ?_,fun v hv => ?_,fun u hu => ?_⟩ <;> simp only [Bool.or_eq_true] at *
  · rcases h'.covers v hv with hv | hv
    · exact (h.covers v hv).imp_right .inl
    · exact .inr (.inr hv)
  · rcases hv with hv | hv
    · exact (h.named v hv).imp .inl .inl
    · exact (h'.named v hv).imp .inr .inr
  · rcases hd with ⟨hc,rfl⟩ | ⟨w,-,rfl⟩
    · rcases hv with (hv | hv) | hv
      · obtain ⟨u,hu⟩ := h.kept v (.inl hv)
        cases hc.symm.trans hu
      · exact h'.kept v (.inl hv)
      · exact h'.kept v (.inr hv)
    · exact h'.kept w (.inr rfl)
  · rcases h'.answered u hu with hr | hl
    · exact .inl (.inr hr)
    · rcases hd with ⟨-,rfl⟩ | ⟨w,hw,rfl⟩
      · exact .inr hl
      · cases hl
        exact (h.answered u hw).imp .inl fun hn => by cases hn

mutual
theorem armCover_records : (pat : Pat) → (deref : Bool) → (covered : List Bool) →
    (armCover cx variants d pat deref covered).1.decided →
    Records (fun v => pat.someAlternative (·.mayName cx d v) deref)
    (fun v => pat.someAlternative (·.settles cx d v) deref)
      (fun v => pat.someAlternative (·.refutes cx d v) deref) none covered
      (armCover cx variants d pat deref covered).2 (armCover cx variants d pat deref covered).1
  | .paren pat, deref, covered, h => armCover_records pat deref covered h
  | .ref pat, true, covered, h => armCover_records pat false covered h
  | .or pats, deref, covered, h => orCover_records pats deref none covered h
  | .ident _ (some pat), deref, covered, h => armCover_records pat deref covered h
  | .path false segments, deref, covered, h => path_records h
  | .tupleStruct false segments subs, deref, covered, h => by
    refine fields_records (irrefutableAll cx subs) (fun v hv => ?_) (fun v => rfl) (fun v => rfl) (fun v => rfl) h
    revert hv
    (repeat' split) <;> simp_all [Cover.decided]
  | .struct false segments fields rest, deref, covered, h => by
    refine fields_records (irrefutableFields cx fields) (fun v hv => ?_) (fun v => rfl) (fun v => rfl) (fun v => rfl) h
    revert hv
    (repeat' split) <;> simp_all [Cover.decided]
  | .ref _, false, _, h | .wild, _, _, h | .rest, _, _, h | .ident _ none, _, _, h | .tuple _, _, _, h
  | .path true _, _, _, h | .tupleStruct true _ _, _, _, h | .struct true _ _ _, _, _, h
  | .other _, _, _, h => by simp [armCover,Cover.decided] at h

theorem orCover_records : (pats : List Pat) → (deref : Bool) → (last : Option Nat) →
    (covered : List Bool) → (orCover cx variants d pats deref last covered).1.decided →
    Records (fun v => anyAlternative (·.mayName cx d v) pats deref)
    (fun v => anyAlternative (·.settles cx d v) pats deref)
      (fun v => anyAlternative (·.refutes cx d v) pats deref) last covered
      (orCover cx variants d pats deref last covered).2 (orCover cx variants d pats deref last covered).1
  | [], _, last, covered, _ => by
    refine ⟨fun v hv => .inl hv,fun v hv => ?_,fun v hv => ?_,fun u hu => ?_⟩
    · simp [anyAlternative] at hv
    · obtain rfl : last = some v := by simpa [anyAlternative] using hv
      exact ⟨v,rfl⟩
    · cases last with
      | none => cases hu
      | some w =>
        cases hu
        exact .inr rfl
  | pat :: pats, deref, last, covered, h => by
    have hp := armCover_records pat deref covered
    simp only [orCover] at h ⊢
    cases hc : armCover cx variants d pat deref covered with
    | mk answer' covered' =>
      simp only [hc] at h hp ⊢
      cases answer' with
      | covered => exact (hp rfl).or (.inl ⟨rfl,rfl⟩) (orCover_records pats deref last covered' h)
      | refutable v => exact (hp rfl).or (.inr ⟨v,rfl,rfl⟩) (orCover_records pats deref (some v) covered' h)
      | catchAll => simp [Cover.decided] at h
      | bail => simp [Cover.decided] at h
end

theorem coverArms_cons (h : coverArms cx variants d deref (arm :: arms) covered refutable = some result) :
    arm.guard = true ∧ coverArms cx variants d deref arms covered refutable = some result ∨
    arm.guard = false ∧ (armCover cx variants d arm.pat deref covered).1.decided ∧ ∃ refutable',
    coverArms cx variants d deref arms
        (armCover cx variants d arm.pat deref covered).2 refutable' = some result ∧
      refutable'.length = refutable.length ∧ (∀ u, covers refutable u → covers refutable' u) ∧
      ∀ u, (armCover cx variants d arm.pat deref covered).1 = .refutable u → u < refutable.length →
      covers refutable' u := by
  simp only [coverArms] at h
  split at h
  case isTrue => simp at h
  case isFalse =>
    split at h
    case isTrue hg => exact .inl ⟨hg,h⟩
    case isFalse hg =>
      refine .inr ⟨by simpa using hg,?_⟩
      split at h
      case h_1 hc =>
        exact ⟨by rw [hc]; rfl,refutable,by rw [hc]; exact h,rfl,fun _ hu => hu,fun u hu => by rw [hc] at hu; cases hu⟩
      case h_2 v _ hc =>
        refine ⟨by
          rw [hc]; rfl,refutable.set v true,by rw [hc]; exact h,length_set,fun u hu =>
          covers_set_of_covers hu v,fun u hu hl => ?_⟩
        rw [hc] at hu
        cases hu
        simp [covers,getD_eq_getElem?_getD,hl]
      case h_3 => simp at h

structure ArmsRecord (cx : View) (d : Nat) (deref : Bool) (arms : List Arm)
    (covered refutable covered' refutable' : List Bool) : Prop where
  covers : ∀ v, covers covered' v → covers covered v ∨ ∃ arm ∈ arms, arm.settles cx d v deref
  keeps : ∀ u, Names.covers refutable u → Names.covers refutable' u
  named : ∀ arm ∈ arms, ∀ v, arm.names cx d v deref → arm.settles cx d v deref ∨ arm.refutes cx d v deref
  kept : ∀ arm ∈ arms, ∀ v, arm.refutes cx d v deref → ∃ u, arm.refutes cx d u deref ∧
    (u < refutable.length → Names.covers refutable' u)

theorem coverArms_record (h : coverArms cx variants d deref arms covered refutable = some (covered',refutable')) :
    ArmsRecord cx d deref arms covered refutable covered' refutable' := by
  induction arms generalizing covered refutable with
  | nil =>
    cases h
    exact ⟨fun v hv => .inl hv,fun u hu => hu,by simp,by simp⟩
  | cons arm arms ih =>
    rcases coverArms_cons h with ⟨hg,h⟩ | ⟨hg,hd,refutable₁,h,hlen,hkeep,hans⟩
    · obtain ⟨hc,hk,hn,hr⟩ := ih h
      refine ⟨fun v hv => ?_,hk,forall_mem_cons.mpr ⟨by simp [Arm.names,hg],hn⟩,
        forall_mem_cons.mpr ⟨by simp [Arm.refutes,hg],hr⟩⟩
      exact (hc v hv).imp_right fun ⟨other,ho,hs⟩ => ⟨other,.tail _ ho,hs⟩
    · obtain ⟨hc,hk,hn,hr⟩ := ih h
      have hp := armCover_records arm.pat deref covered hd
      have hns v : arm.settles cx d v deref = arm.pat.someAlternative (·.settles cx d v) deref := by
        simp [Arm.settles,hg]
      have hnr v : arm.refutes cx d v deref = arm.pat.someAlternative (·.refutes cx d v) deref := by
        simp [Arm.refutes,hg]
      refine ⟨fun v hv => ?_,fun u hu => hk u (hkeep u hu),forall_mem_cons.mpr ⟨fun v hv => ?_,hn⟩,
        forall_mem_cons.mpr ⟨fun v hv => ?_,?_⟩⟩
      · rcases hc v hv with hv | ⟨other,ho,hs⟩
        · exact (hp.covers v hv).imp_right fun hs => ⟨arm,.head _,by rw [hns]; exact hs⟩
        · exact .inr ⟨other,.tail _ ho,hs⟩
      · rw [hns,hnr]
        exact hp.named v (by simpa [Arm.names,hg] using hv)
      · rw [hnr] at hv
        obtain ⟨u,hu⟩ := hp.kept v (.inl hv)
        have hru := (hp.answered u hu).resolve_right (by simp)
        exact ⟨u,by rw [hnr]; exact hru,fun hl => hk u (hans u hu hl)⟩
      · rw [← hlen]
        exact hr

end

section

variable {cx : View} {scrutinee : Scrutinee} {arms : List Arm} {message : String} {d : Nat}
  {recv : Recv} {variants : List Variant} {generics : Generics}

theorem checkMatch_some (hs : exprShape cx scrutinee = some (d,recv)) (hen : cx.ix.enumDef d = some (variants,generics))
    (h : checkMatch cx scrutinee arms = some message) :
    ∃ covered refutable entry, coverArms cx variants d (recv ≠ .value) arms
        (.replicate variants.length false) (.replicate variants.length false) = some (covered,refutable) ∧
      (∀ v ∈ missingVariants variants covered, ¬ covers refutable v) ∧ cx.ix.defs[d]? = some entry ∧
      ∀ v ∈ missingVariants variants covered, ∀ variant, variants[v]? = some variant →
        ∀ ty ∈ variant.data.fields, inhabited cx.ix ty generics entry.scope := by
  simp only [checkMatch,hs,hen,Option.bind_eq_bind,Option.bind_some,Option.bind_none,
    Option.ite_none_left_eq_some,Option.bind_eq_some_iff] at h
  obtain ⟨-,-,⟨covered,refutable⟩,hc,hm,entry,he,hin,-⟩ := h
  refine ⟨covered,refutable,entry,hc,?_,he,?_⟩
  · intro v hv hr
    simp only [Bool.or_eq_true,not_or,any_eq_true,not_exists,not_and] at hm
    exact hm.2 v hv hr
  intro v hv variant hva ty hty
  simp only [Bool.not_eq_true',Bool.not_eq_false,all_eq_true] at hin
  exact hin v hv ty (by simpa [hva] using hty)

theorem mem_missingVariants :
    v ∈ missingVariants variants covered ↔ v < variants.length ∧ ¬ covers covered v := by
  simp [missingVariants,covers]

theorem not_covers_replicate (n v : Nat) : ¬ covers (replicate n false) v := by
  simp [covers,getD_eq_getElem?_getD,getElem?_replicate]
  split <;> simp

theorem missing_arm_of_unnamed (hshape : exprShape cx scrutinee = some (d,recv))
    (henum : cx.ix.enumDef d = some (variants,generics)) {entry : Def} (hentry : cx.ix.defs[d]? = some entry)
    (h : checkMatch cx scrutinee arms = some message) (leaf : Pat → Val → Prop) :
    ((∃ v < variants.length, ∀ arm ∈ arms, arm.names cx d v (recv ≠ .value) = false) →
      ∃ v variant vals, variants[v]? = some variant ∧ HasTys cx.ix generics entry.scope variant.data.fields vals ∧
        ∀ arm ∈ arms, arm.guard = false → ¬ arm.pat.Accepts cx leaf (scrutinized (recv ≠ .value) d v vals)) ∧
    ∀ v < variants.length, (∀ arm ∈ arms, arm.names cx d v (recv ≠ .value) = false) ∨
      (∃ arm ∈ arms, arm.settles cx d v (recv ≠ .value)) ∨
      ∃ arm ∈ arms, ∃ u ≠ v, arm.refutes cx d v (recv ≠ .value) ∧ arm.refutes cx d u (recv ≠ .value) := by
  obtain ⟨covered,refutable,entry',hc,hm,he',hin⟩ := checkMatch_some hshape henum h
  cases hentry.symm.trans he'
  have hr := coverArms_record hc
  have hmissing v (hv : v < variants.length) (hs : ∀ arm ∈ arms, ¬ arm.settles cx d v (recv ≠ .value)) :
      v ∈ missingVariants variants covered := by
    refine mem_missingVariants.mpr ⟨hv,fun hcv => ?_⟩
    rcases hr.covers v hcv with hno | ⟨arm,ha,hs'⟩
    · exact not_covers_replicate _ v hno
    · exact hs arm ha hs'
  constructor
  · rintro ⟨v,hv,hn⟩
    have hmi := hmissing v hv fun arm ha hs => Bool.false_ne_true ((hn arm ha).symm.trans (Arm.names_of_settles hs))
    obtain ⟨variant,hva⟩ : ∃ variant, variants[v]? = some variant := ⟨_,List.getElem?_eq_getElem hv⟩
    obtain ⟨vals,hvl⟩ : ∃ vals, HasTys cx.ix generics entry.scope variant.data.fields vals :=
      exists_vals fun ty hty => exists_val_within 5 ty generics entry.scope (hin v hmi variant hva ty hty)
    refine ⟨v,variant,vals,hva,hvl,fun arm ha hg hacc => ?_⟩
    have hu := hn arm ha
    rw [Arm.names,hg,arm.pat.mayName_of_accepts _ hacc] at hu
    cases hu
  · intro v hv
    by_cases hs : ∃ arm ∈ arms, arm.settles cx d v (recv ≠ .value)
    · exact .inr (.inl hs)
    by_cases hn : ∀ arm ∈ arms, arm.names cx d v (recv ≠ .value) = false
    · exact .inl hn
    -- the variant is missing and named by a refutable alternative, so its arm kept another one
    have hs' : ∀ arm ∈ arms, ¬ arm.settles cx d v (recv ≠ .value) := fun arm ha h => hs ⟨arm,ha,h⟩
    obtain ⟨arm,ha,hna⟩ : ∃ arm ∈ arms, arm.names cx d v (recv ≠ .value) := by simpa using hn
    have hre := (hr.named arm ha v hna).resolve_left (hs' arm ha)
    obtain ⟨u,hu,hcu⟩ := hr.kept arm ha v hre
    refine .inr (.inr ⟨arm,ha,u,?_,hre,hu⟩)
    rintro rfl
    exact hm u (hmissing u hv hs') (hcu (by simpa using hv))

end

-- `enum E { A(Side), B(Side) }`, `enum Side { L, R }` and a parameter `e: E`.
def sideIndex : Index where
  scopes := [⟨none,[],[("E",.defined 0),("Side",.defined 1)],false⟩]
  defs := [⟨"E",.enum [⟨"A",false,.tuple [.path false ["Side"]]⟩,⟨"B",false,.tuple [.path false ["Side"]]⟩] [],0,true⟩,
    ⟨"Side",.enum [⟨"L",false,.unit⟩,⟨"R",false,.unit⟩] [],0,true⟩]

def sideView : View where
  isUppercase := Char.isUpper
  matchArms := true
  suppress := 0
  ix := sideIndex
  cur := 0
  locals := fun name => if name = "e" then [⟨0,none,some (0,.value)⟩] else []
  wild := 0
  fnId := 0
  selfTy := none
  selfValue := false
  selfParam := none

def sideVariants : List Variant := [⟨"A",false,.tuple [.path false ["Side"]]⟩,⟨"B",false,.tuple [.path false ["Side"]]⟩]

def side (variant side : Name) : Pat := .tupleStruct false ["E",variant] [.path false ["Side",side]]

-- `E::B(_)`
def anyB : Arm := ⟨false,.tupleStruct false ["E", "B"] [.wild],false⟩

theorem missing_arm_without_a : checkMatch sideView (.path false ["e"])
    [anyB] = some "missing match arm: `A(_)` not covered" ∧
    ∃ (v : Nat) (variant : Variant) (vals : List Val), sideVariants[v]? = some variant ∧
    HasTys sideIndex [] 0 variant.data.fields vals ∧
      ∀ arm ∈ [anyB], arm.guard = false → ¬ arm.pat.Accepts sideView (fun _ _ => False) (.adt 0 v vals) := by
  have hm : checkMatch sideView (.path false ["e"]) [anyB] = some "missing match arm: `A(_)` not covered" := by
    decide +kernel
  have hs : exprShape sideView (.path false ["e"]) = some (0,.value) := by decide +kernel
  have he : sideView.ix.enumDef 0 = some (sideVariants,[]) := rfl
  refine ⟨hm,(missing_arm_of_unnamed hs he rfl hm fun _ _ => False).1 ?_⟩
  exact ⟨0,by decide,by decide +kernel⟩

-- `E::A(L) | E::B(L)`, `E::A(R) | E::B(R)`, `E::B(_)`
def sideArms : List Arm := [⟨false,.or [side "A" "L",side "B" "L"],false⟩,
    ⟨false,.or [side "A" "R",side "B" "R"],false⟩,anyB]

theorem side_lookup : sideIndex.lookup 0 "Side" .type = .found (.defined 1) := by decide +kernel

theorem side_vals (h : HasTys sideIndex [] 0 [.path false ["Side"]] vals) :
    vals = [.adt 1 0 []] ∨ vals = [.adt 1 1 []] := by
  rcases h with _ | ⟨hva,hr⟩
  cases hr
  cases hva with
  | struct _ hl hd hk hf =>
    obtain rfl := by simpa [side_lookup] using hl
    obtain rfl := by simpa [sideIndex] using hd
    simp at hk
  | @enum _ _ _ v _ _ _ _ _ _ _ hl hd hk hv hf =>
    obtain rfl := by simpa [side_lookup] using hl
    obtain rfl := by simpa [sideIndex] using hd
    obtain ⟨rfl,rfl⟩ := by simpa using hk
    match v, hv with
    | 0, hv =>
      obtain rfl := by simpa using hv
      cases hf
      exact .inl rfl
    | 1, hv =>
      obtain rfl := by simpa using hv
      cases hf
      exact .inr rfl
  | «prelude» _ hl _ => simp [side_lookup] at hl

theorem side_paths : sideView.variantPath ["E", "A"] = some (0,0) ∧ sideView.variantPath ["E", "B"] = some (0,1) ∧
    sideView.variantPath ["Side", "L"] = some (1,0) ∧
    sideView.variantPath ["Side", "R"] = some (1,1) := by decide +kernel

theorem missing_arm_false_positive : checkMatch sideView (.path false ["e"]) sideArms =
    some "missing match arm: `A(_)` not covered" ∧
    ∀ v variant vals, sideVariants[v]? = some variant → HasTys sideIndex [] 0 variant.data.fields vals →
      ∃ arm ∈ sideArms, arm.guard = false ∧ arm.pat.Accepts sideView (fun _ _ => False) (.adt 0 v vals) := by
  refine ⟨by decide +kernel,fun v variant vals hva hvl => ?_⟩
  obtain ⟨hA,hB,hL,hR⟩ := side_paths
  obtain ⟨hv,hf⟩ : (v = 0 ∨ v = 1) ∧ variant.data.fields = [.path false ["Side"]] := by
    match v, hva with
    | 0, hva =>
      obtain rfl := by simpa [sideVariants] using hva
      exact ⟨.inl rfl,rfl⟩
    | 1, hva =>
      obtain rfl := by simpa [sideVariants] using hva
      exact ⟨.inr rfl,rfl⟩
  rw [hf] at hvl
  rcases side_vals hvl with rfl | rfl <;> rcases hv with rfl | rfl <;>
    simp [sideArms,side,anyB,Pat.Accepts,AcceptsAny,AcceptsAll,Val.peel,hA,hB,hL,hR,Pat.isRest]

end Frontend.Names
