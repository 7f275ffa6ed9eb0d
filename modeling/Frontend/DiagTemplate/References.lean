import Frontend.DiagTemplate.Render

namespace Frontend.DiagTemplate

open List

mutual

def walkPattern : Pattern → List Bytes
  | .mk es => walkElements es

def walkElements : List Element → List Bytes
  | [] => []
  | .Text _ :: es => walkElements es
  | .Placeable x :: es => walkExpression x ++ walkElements es

def walkExpression : Expression → List Bytes
  | .Inline i => walkInline i
  | .Select i vs => walkInline i ++ walkVariants vs

def walkVariants : List Variant → List Bytes
  | [] => []
  | .mk _ value _ :: vs => walkPattern value ++ walkVariants vs

def walkInline : Inline → List Bytes
  | .Variable name => [name]
  | .Literal _ => []
  | .Number _ => []
  | .StrEq a b => walkInline a ++ walkInline b
  | .Nested x => walkExpression x

end

def variableReferences (pattern : Pattern) : List Bytes := walkPattern pattern

def Misses (refs : List Bytes) (args : Args) (out out' : Rendered) : Prop :=
  ∀ n ∈ out'.unresolved, n ∈ out.unresolved ∨ n ∈ refs ∧ args n = none

namespace Misses

variable {args : Args} {a b c : Rendered}

theorem of_eq (h : b.unresolved = a.unresolved) : Misses refs args a b := by
  intro n hn
  exact .inl (h ▸ hn)

theorem miss (h : args name = none) : Misses [name] args a (a.miss name) := by
  intro n hn
  rcases mem_append.mp hn with hn | hn
  · exact .inl hn
  · obtain rfl := mem_singleton.mp hn
    exact .inr ⟨.head _,h⟩

section

variable (h : Misses refs args a b)

include h

theorem mono (hr : ∀ n ∈ refs, n ∈ refs') : Misses refs' args a b := by
  intro n hn
  exact (h n hn).imp_right (And.imp_left (hr n))

theorem left : Misses (refs ++ refs') args a b := h.mono fun _ => mem_append_left refs'

theorem right : Misses (refs' ++ refs) args a b := h.mono fun _ => mem_append_right refs'

theorem trans (h' : Misses refs' args b c) : Misses (refs ++ refs') args a c := by
  intro n hn
  rcases h' n hn with hb | ⟨hr,ha⟩
  · exact h.left n hb
  · exact .inr ⟨mem_append_right refs hr,ha⟩

end

end Misses

mutual

theorem writePattern_misses : ∀ (p : Pattern) (args : Args) (out : Rendered), Misses (walkPattern p) args out
    (writePattern p args out)
  | .mk es, args, out => by
    rw [walkPattern,writePattern]
    exact writeElements_misses es args out

theorem writeElements_misses : ∀ (es : List Element) (args : Args) (out : Rendered),
    Misses (walkElements es) args out (writeElements es args out)
  | [], _, _ => by
    rw [writeElements]
    exact .of_eq rfl
  | .Text text :: es, args, out => by
    rw [walkElements,writeElements,writeElement]
    exact writeElements_misses es args (out.push text)
  | .Placeable x :: es, args, out => by
    rw [walkElements,writeElements,writeElement]
    exact (writeExpression_misses x args out).trans (writeElements_misses es args _)

theorem writeExpression_misses : ∀ (x : Expression) (args : Args) (out : Rendered),
    Misses (walkExpression x) args out (writeExpression x args out)
  | .Inline i, args, out => by
    rw [walkExpression,writeExpression]
    exact writeInline_misses i args out
  | .Select i vs, args, out => by
    rw [walkExpression,writeExpression]
    refine (resolve_misses i args out).trans ?_
    generalize resolve i args out = r
    obtain ⟨selector,out⟩ := r
    simp only [writeMatching_eq,writeDefault_eq]
    split
    case h_1 out' hm =>
      split at hm
      · obtain ⟨v,hv,rfl⟩ := Option.map_eq_some_iff.mp hm
        exact chosen_misses vs _ v args out hv
      · cases hm
    case h_2 =>
      cases hd : vs.find? Variant.default with
      | none => exact .of_eq rfl
      | some v => exact chosen_misses vs _ v args out hd

theorem chosen_misses : ∀ (vs : List Variant) (chosen : Variant → Bool) (v : Variant) (args : Args) (out : Rendered),
    vs.find? chosen = some v → Misses (walkVariants vs) args out (writePattern v.value args out)
  | [], _, _, _, _, h => by cases h
  | .mk key value default :: vs, chosen, v, args, out, h => by
    rw [walkVariants]
    rw [find?_cons] at h
    split at h
    · cases h
      exact (writePattern_misses value args out).left
    · exact (chosen_misses vs chosen v args out h).right

theorem writeInline_misses : ∀ (i : Inline) (args : Args) (out : Rendered), Misses (walkInline i) args out
    (writeInline i args out)
  | .Variable name, args, out => by
    rw [walkInline,writeInline]
    split
    · exact .of_eq rfl
    · exact .of_eq rfl
    case h_3 h => exact .miss h
  | .Literal _, _, _ => by
    rw [writeInline]
    exact .of_eq rfl
  | .Number _, _, _ => by
    rw [writeInline]
    exact .of_eq rfl
  | .StrEq a b, args, out => by
    rw [walkInline,writeInline]
    have h := (resolve_misses a args out).trans (resolve_misses b args _)
    dsimp only
    split
    · exact h
    · exact h
    · exact h
  | .Nested x, args, out => by
    rw [walkInline,writeInline]
    exact writeExpression_misses x args out

theorem resolve_misses : ∀ (i : Inline) (args : Args) (out : Rendered), Misses (walkInline i) args out
    (resolve i args out).2
  | .Variable name, args, out => by
    rw [walkInline,resolve]
    split
    · exact .of_eq rfl
    · exact .of_eq rfl
    case h_3 h => exact .miss h
  | .Literal _, _, _ => by
    rw [resolve]
    exact .of_eq rfl
  | .Number _, _, _ => by
    rw [resolve]
    exact .of_eq rfl
  | .StrEq a b, args, out => by
    rw [walkInline,resolve]
    exact (resolve_misses a args out).trans (resolve_misses b args _)
  | .Nested x, args, out => by
    rw [walkInline,resolve]
    intro n hn
    rcases mem_append.mp hn with hn | hn
    · exact .inl hn
    · exact .inr ((writeExpression_misses x args .empty n hn).resolve_left not_mem_nil)

end

theorem unresolved_are_missing_references (pattern : Pattern) (args : Args) :
    ((∀ name ∈ variableReferences pattern, (args name).isSome) → (render pattern args).unresolved = []) ∧
      ∀ name ∈ (render pattern args).unresolved, name ∈ variableReferences pattern ∧ args name = none := by
  have h n (hn : n ∈ (render pattern args).unresolved) : n ∈ variableReferences pattern ∧ args n = none := by
    exact (writePattern_misses pattern args .empty n hn).resolve_left not_mem_nil
  refine ⟨fun ha => eq_nil_iff_forall_not_mem.mpr fun n hn => ?_,h⟩
  obtain ⟨hr,hm⟩ := h n hn
  simpa [hm] using ha n hr

def copies : Pattern :=
  .mk [.Placeable (.Select (.Variable (bytesOf "count"))
    [.mk (.Name (bytesOf "one")) (.mk [.Text (bytesOf "a copy")]) false,
    .mk (.Name (bytesOf "other")) (.mk [.Placeable (.Inline (.Variable (bytesOf "name")))]) true])]

def countOnly (count : Int) : Args := fun name => if name = bytesOf "count" then some (.Number count) else none

theorem copies_resolved : variableReferences copies = [bytesOf "count",bytesOf "name"] ∧
    (render copies fun _ => some (.Number 2)).unresolved = [] ∧ (render copies (countOnly 1)).unresolved = [] ∧
    (render copies (countOnly 2)).unresolved = [bytesOf "name"] := by
  exact ⟨by decide,(unresolved_are_missing_references copies _).1 fun _ _ => rfl,by decide,by decide⟩

end Frontend.DiagTemplate
