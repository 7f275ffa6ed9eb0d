import Frontend.Transmute.Query

namespace Frontend.Transmute

open List

variable {R T : Type} (v : Condition R T → Bool)

mutual

def Condition.holds : Condition R T → Bool
  | .ifAll conds => allHold conds
  | .ifAny conds => anyHolds conds
  | cond => v cond

def allHold : List (Condition R T) → Bool
  | [] => true
  | cond :: conds => cond.holds && allHold conds

def anyHolds : List (Condition R T) → Bool
  | [] => false
  | cond :: conds => cond.holds || anyHolds conds

end

def Answer.denotes : Answer R T → Bool
  | .yes => true
  | .no _ => false
  | .if cond => cond.holds v

@[simp] theorem allHold_append (xs ys : List (Condition R T)) :
    allHold v (xs ++ ys) = (allHold v xs && allHold v ys) := by
  induction xs with
  | nil => simp [allHold]
  | cons x xs ih => simp [allHold,ih,Bool.and_assoc]

@[simp] theorem anyHolds_append (xs ys : List (Condition R T)) :
    anyHolds v (xs ++ ys) = (anyHolds v xs || anyHolds v ys) := by
  induction xs with
  | nil => simp [anyHolds]
  | cons x xs ih => simp [anyHolds,ih,Bool.or_assoc]

namespace Answer

def Masks (a b : Answer R T) : Prop := ∃ cond, a = .yes ∧ b = .if cond ∧ cond.holds v = false

theorem and_denotes (a b : Answer R T) : (a.and b).denotes v = (a.denotes v && b.denotes v) := by
  fun_cases and a b <;> simp_all [denotes,Condition.holds,allHold,Bool.and_comm]

theorem or_if (c d : Condition R T) : ∃ e, (Answer.if c).or (.if d) = .if e ∧ e.holds v = (c.holds v || d.holds v) := by
  cases c <;> cases d <;> simp [or,orLive,Condition.holds,anyHolds,Bool.or_comm]

theorem no_or (r : Reason T) (a : Answer R T) : ((no r).or a).denotes v = a.denotes v := by
  cases a with
  | _ => cases r <;> rfl

theorem or_no (r : Reason T) (a : Answer R T) : (a.or (no r)).denotes v = a.denotes v := by
  cases a with
  | no r' => cases r' <;> rfl
  | _ => rfl

theorem or_denotes_iff (a b : Answer R T) : (a.or b).denotes v = (a.denotes v || b.denotes v) ↔ ¬ Masks v a b ∧
    ¬ Masks v b a := by
  cases a with
  | no r =>
    rw [no_or]
    simp [denotes,Masks]
  | yes => cases b <;> simp [or,orLive,denotes,Masks]
  | «if» c =>
    cases b with
    | no r =>
      rw [or_no]
      simp [denotes,Masks]
    | yes => simp [or,orLive,denotes,Masks]
    | «if» d =>
      obtain ⟨e,he,hv⟩ := or_if v c d
      simp [he,denotes,hv,Masks]

end Answer

namespace Quantifier

variable (as : List (Answer R T)) (cache : Cache R T)

def items : List (Memo R T (Answer R T)) := as.map fun a cache => .ok (a,cache)

theorem fold_items (q : Quantifier) (accum a : Answer R T) : q.fold accum (items (a :: as)) cache =
      if q.breaks (q.combine accum a) then .ok (q.combine accum a,cache) else q.fold (q.combine accum a)
      (items as) cache := rfl

theorem forall_denotes (accum : Answer R T) :
    ∃ a, fold .forAll accum (items as) cache = .ok (a,cache) ∧
    a.denotes v = (accum.denotes v && as.all (Answer.denotes v)) := by
  induction as generalizing accum with
  | nil => exact ⟨accum,rfl,by simp⟩
  | cons b bs ih =>
    obtain ⟨a,ha,hv⟩ := ih (accum.and b)
    rw [Answer.and_denotes,Bool.and_assoc,← all_cons] at hv
    rw [fold_items]
    cases hc : accum.and b with
    | no r =>
      refine ⟨.no r,by simp [combine,hc,breaks],?_⟩
      have hd := accum.and_denotes v b
      rw [hc] at hd
      rw [all_cons,← Bool.and_assoc,← hd]
      rfl
    | _ => exact ⟨a,by simpa [combine,hc,breaks] using ha,hv⟩

def SomeIf : Prop := ∃ cond, .if cond ∈ as ∧ cond.holds v = true

theorem any_denotes : as.any (Answer.denotes v) = true ↔ .yes ∈ as ∨ SomeIf v as := by
  simp only [any_eq_true,SomeIf]
  constructor
  · rintro ⟨a,ha,hd⟩
    cases a with
    | yes => exact .inl ha
    | no r => cases hd
    | «if» c => exact .inr ⟨c,ha,hd⟩
  · rintro (h | ⟨c,hc,hd⟩)
    · exact ⟨.yes,h,rfl⟩
    · exact ⟨.if c,hc,hd⟩

theorem exists_if (c : Condition R T) :
    ∃ d, fold .thereExists (.if c) (items as) cache = .ok (.if d,cache) ∧
    (d.holds v = true ↔ SomeIf v (.if c :: as)) := by
  induction as generalizing c with
  | nil => exact ⟨c,rfl,by simp [SomeIf]⟩
  | cons b bs ih =>
    rw [fold_items]
    cases b with
    | yes => simpa [combine,Answer.or,Answer.orLive,breaks,SomeIf] using ih c
    | no r => simpa [combine,Answer.or,Answer.orLive,breaks,SomeIf] using ih c
    | «if» d =>
      obtain ⟨e,he,hv⟩ := Answer.or_if v c d
      simpa [combine,he,breaks,SomeIf,hv,or_and_right,exists_or,or_assoc] using ih e

def isLive : Answer R T → Bool
  | .no _ => false
  | _ => true

def Decisive : Prop := .yes ∈ as → as.find? isLive = some .yes ∨ SomeIf v as

theorem exists_denotes (r : Reason T) :
    ∃ a, fold .thereExists (.no r) (items as) cache = .ok (a,cache) ∧
    (a.denotes v = as.any (Answer.denotes v) ↔ Decisive v as) := by
  induction as generalizing r with
  | nil => exact ⟨.no r,rfl,by simp [Decisive,Answer.denotes]⟩
  | cons b bs ih =>
    rw [fold_items]
    cases b with
    | yes => exact ⟨.yes,by cases r <;> rfl,by simp [Decisive,isLive,Answer.denotes]⟩
    | no r' =>
      obtain ⟨r'',hr⟩ : ∃ r'', (Answer.no r : Answer R T).or (.no r') = .no r'' := by cases r <;> exact ⟨_,rfl⟩
      simpa [combine,hr,breaks,Decisive,SomeIf,isLive,Answer.denotes] using ih r''
    | «if» c =>
      obtain ⟨d,hd,hv⟩ := exists_if v bs cache c
      refine ⟨.if d,?_,?_⟩
      · cases r <;> simpa [combine,Answer.or,Answer.orLive,breaks] using hd
      · rw [Bool.eq_iff_iff,any_denotes,Answer.denotes,hv,Decisive,find?_cons_of_pos rfl]
        simp

end Quantifier

open Answer Quantifier MaybeTransmutableQuery

theorem answers_combine_iff (q : MaybeTransmutableQuery R T) (memo : State → State → Memo R T (Answer R T)) (s t : State)
    (a b bytes refs : Answer R T) (as : List (Answer R T)) (cache cache' cache'' : Cache R T) :
    (a.and b).denotes v = (a.denotes v && b.denotes v) ∧
    ((a.or b).denotes v = (a.denotes v || b.denotes v) ↔ ¬ Masks v a b ∧ ¬ Masks v b a) ∧
    (∃ c, forAll.apply (items as) cache = .ok (c,cache) ∧ c.denotes v = as.all (denotes v)) ∧
    (∃ c, thereExists.apply (items as) cache = .ok (c,cache) ∧ (c.denotes v = as.any (denotes v) ↔ Decisive v as)) ∧
    (t ≠ q.dst.accept → s ≠ q.src.accept → q.bytesAnswer memo s t cache = .ok (bytes,cache') →
      q.refsAnswer memo s t cache' = .ok (refs,cache'') → ∃ c d, q.answerImpl memo s t cache = .ok (c,d) ∧
        (c.denotes v = (if q.assume.validity then bytes.or refs else bytes.and refs).denotes v ↔
          ¬ (q.assume.validity = true ∧ Masks v bytes refs))) := by
  refine ⟨and_denotes v a b,or_denotes_iff v a b,?_,exists_denotes v as cache _,?_⟩
  · exact forall_denotes v as cache .yes
  intro ht hs hb hr
  simp only [answerImpl,if_neg ht,if_neg hs,hb]
  split
  case isTrue hf =>
    refine ⟨bytes,cache',rfl,?_⟩
    cases bytes with
    | «if» c => cases hf
    | no r =>
      have hv : q.assume.validity = false := by simpa [isFinal] using hf
      have hd := and_denotes v (.no r) refs
      simpa [hv,denotes] using hd.symm
    | yes =>
      have hv : q.assume.validity = true := hf
      have hd := or_denotes_iff v .yes refs
      rw [eq_comm]
      simpa [hv,denotes,Masks] using hd
  case isFalse hf =>
    rw [hr]
    refine ⟨_,cache'',rfl,iff_of_true rfl ?_⟩
    rintro ⟨hv,c,rfl,-⟩
    exact hf hv

def mixedDfa : Dfa Unit Unit := ⟨[(0,⟨[(⟨0,256⟩,1)],[(⟨(),false,(),8,1⟩,1)]⟩)],0,1⟩

def mixed : MaybeTransmutableQuery Unit Unit := ⟨mixedDfa,mixedDfa,⟨false,true,false,true⟩⟩

def mixedRefs : Answer Unit Unit := .if (.ifAll [.transmutable () (),.immutable ()])

theorem mixed_return_differs : ∃ c d, mixed.answerImpl (mixed.answerMemo 1) 0 0 [] = .ok (c,d) ∧
    c.denotes (fun _ => false) ≠ (Answer.yes.or mixedRefs).denotes fun _ => false := by
  have hc := answers_combine_iff (fun _ => false) mixed (mixed.answerMemo 1) 0 0 .yes .yes .yes mixedRefs [] []
  obtain ⟨c,d,h,hm⟩ := (hc [((1,1),.yes)] [((1,1),.yes)]).2.2.2.2 nofun nofun rfl rfl
  exact ⟨c,d,h,fun he => hm.mp he ⟨rfl,_,rfl,rfl,rfl⟩⟩

theorem or_loses_yes : ((Answer.if (.immutable ())).or .yes : Answer Unit Unit).denotes (fun _ => false) = false ∧
    thereExists.apply (items [.if (.immutable ()),.yes]) [] = .ok ((.if (.immutable ()) : Answer Unit Unit),[]) ∧
    thereExists.apply (items [.yes,.if (.immutable ())]) [] = .ok ((.yes : Answer Unit Unit),[]) := ⟨rfl,rfl,rfl⟩

end Frontend.Transmute
