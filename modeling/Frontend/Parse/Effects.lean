import Frontend.Ast.Token
import Frontend.Library.IndexMap

namespace Frontend.Parse

open Ast Library List Function

structure ParseEffects (L : Type) where
  lints : List L
  ambiguous : List (Span × Span)
  gates : Symbol → List Span

inductive Effect (L : Type) where
  | lint (lint : L)
  | ambiguous (block expr : Span)
  | gate (feature : Symbol) (span : Span)
  | ungateLast (feature : Symbol) (span : Span)
deriving DecidableEq, Repr

namespace ParseEffects

variable {L : Type} {a b c : ParseEffects L} {e : Effect L} {es fs : List (Effect L)}

def empty : ParseEffects L := ⟨[],[],fun _ => []⟩

section

variable (a : ParseEffects L)

def append (b : ParseEffects L) : ParseEffects L where
  lints := a.lints ++ b.lints
  ambiguous := IndexMap.extend a.ambiguous b.ambiguous
  gates := fun feature => a.gates feature ++ b.gates feature

def record : Effect L → Option (ParseEffects L)
  | .lint lint => some { a with lints := a.lints ++ [lint] }
  | .ambiguous block expr => some { a with ambiguous := IndexMap.insert a.ambiguous block expr }
  | .gate feature span => some { a with gates := update a.gates feature (a.gates feature ++ [span]) }
  | .ungateLast feature _ =>
    -- the `unwrap` of a `pop` on an empty vector panics
    if a.gates feature = [] then none
    else some { a with gates := update a.gates feature (a.gates feature).dropLast }

def replay (es : List (Effect L)) : Option (ParseEffects L) := es.foldlM record a

def Distinct : Prop := (a.ambiguous.map Prod.fst).Nodup

end

theorem Distinct.empty : (empty : ParseEffects L).Distinct := nodup_nil

theorem append_empty (a : ParseEffects L) : a.append empty = a := by simp [append,ParseEffects.empty,IndexMap.extend]

theorem Distinct.record (h : a.Distinct) (hr : a.record e = some b) : b.Distinct := by
  cases e with
  | lint lint =>
    cases hr
    exact h
  | ambiguous block expr =>
    cases hr
    exact IndexMap.nodup_insert h
  | gate feature span =>
    cases hr
    exact h
  | ungateLast feature span =>
    rw [ParseEffects.record] at hr
    split at hr
    · cases hr
    · cases hr
      exact h

theorem append_gates_update (a b : ParseEffects L) (feature : Symbol) (spans : List Span) :
    (a.append { b with gates := update b.gates feature spans }).gates = update (a.append b).gates feature
    (a.gates feature ++ spans) := by
  funext f
  by_cases hf : f = feature
  · subst hf
    simp [append]
  · simp [append,update_of_ne hf]

theorem record_append (hb : b.Distinct) (h : b.record e = some c) : (a.append b).record e = some (a.append c) := by
  cases e with
  | lint lint =>
    cases h
    simp [record,append]
  | ambiguous block expr =>
    cases h
    simp [record,append,IndexMap.extend_insert hb]
  | gate feature span =>
    cases h
    have hg := append_gates_update a b feature (b.gates feature ++ [span])
    rw [record,← append_assoc] at *
    exact congrArg some (congrArg (ParseEffects.mk _ _) hg.symm)
  | ungateLast feature span =>
    rw [record] at h
    split at h
    · cases h
    rename_i hne
    cases h
    have hg := append_gates_update a b feature (b.gates feature).dropLast
    have ha : (a.append b).gates feature ≠ [] := by simp [append,hne]
    rw [record,if_neg ha]
    refine congrArg some (congrArg (ParseEffects.mk _ _) ?_)
    have hd : ((a.append b).gates feature).dropLast = a.gates feature ++ (b.gates feature).dropLast :=
      dropLast_append_of_ne_nil hne
    rw [hd]
    exact hg.symm

theorem replay_append (a : ParseEffects L) (es fs : List (Effect L)) :
    a.replay (es ++ fs) = (a.replay es).bind fun b => b.replay fs := by
  simp [replay,foldlM_append]

theorem replay_onto (hb : b.Distinct) (h : b.replay es = some c) : (a.append b).replay es = some (a.append c) := by
  induction es generalizing b with
  | nil =>
    cases h
    rfl
  | cons e es ih =>
    simp only [replay,foldlM_cons,Option.bind_eq_bind,Option.bind_eq_some_iff] at h ⊢
    obtain ⟨b',hb',h⟩ := h
    exact ⟨_,record_append hb hb',ih (hb.record hb') h⟩

theorem replay_of_empty (a : ParseEffects L) (h : empty.replay es = some c) : a.replay es = some (a.append c) := by
  have h' := replay_onto (a := a) Distinct.empty h
  rwa [append_empty] at h'

end ParseEffects

end Frontend.Parse
