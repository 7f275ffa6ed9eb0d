import Frontend.Parse.Parallel
import Frontend.TokenStream.LookAhead

namespace Frontend.Parse

open Ast TokenStream TreeTokenCursor Option SpanFacts
open List (length_append length_singleton)

theorem checkedAdd_of_lt (h : a + b < 2 ^ 32) : checkedAdd a b = some (a + b) := if_pos h

theorem checkedAdd_of_ge (h : ¬a + b < 2 ^ 32) : checkedAdd a b = none := if_neg h

theorem bind_checkedAdd : (checkedAdd a b).bind (checkedAdd · m) = checkedAdd a (b + m) := by
  unfold checkedAdd
  split
  · rw [bind_some,Nat.add_assoc]
  · rw [if_neg (by omega),bind_none]

namespace Count

def Counts (counts : Nat × Nat) (n : Nat) (answer : Option (Nat × Nat)) : Prop :=
  (counts.1 + n < 2 ^ 32 → ∃ a ≤ n, answer = some (counts.1 + n,counts.2 + a)) ∧ (¬counts.1 + n < 2 ^ 32 → answer = none)

theorem length_delimited (span : DelimSpan) (spacing : DelimSpacing) (delim : Delimiter) (tts : List TokenTree) :
    (flattenTree (.Delimited span spacing delim tts)).length = (flatten tts).length + if delim.skip then 0 else 2 := by
  simp only [flattenTree,opening,closing,length_append]
  split
  · simp
  · simp only [length_singleton]
    omega

mutual

theorem countTree_counts (attrs : Bool) (p : Preceding) (h : counts.2 ≤ counts.1) :
    (tree : TokenTree) → Counts counts (flattenTree tree).length (countTree attrs p counts tree)
  | .Token token spacing => by
    refine ⟨fun hlt => ?_,fun hge => ?_⟩
    · have hlt : counts.1 + 1 < 2 ^ 32 := hlt
      rw [countTree,checkedAdd_of_lt hlt]
      by_cases hd : (attrs && isDocComment token) = true
      · exact ⟨1,Nat.le_refl _,by simp [hd,checkedAdd_of_lt (show counts.2 + 1 < 2 ^ 32 by omega),flattenTree]⟩
      · exact ⟨0,Nat.zero_le _,by simp [hd,flattenTree]⟩
    · rw [countTree,checkedAdd_of_ge (show ¬counts.1 + 1 < 2 ^ 32 from hge)]
      rfl
  | .Delimited span spacing delim inner => by
    have h0 : ((0,0) : Nat × Nat).1 < 2 ^ 32 := by decide
    obtain ⟨hs,hn⟩ := countTrees_counts (p.nestedAttrs delim attrs) .start (Nat.le_refl 0) h0 inner
    have hat : (attrs && p.isAttribute delim).toNat ≤ if delim.skip then 0 else 2 := by
      cases attrs <;> cases delim <;> simp [Preceding.isAttribute,Delimiter.skip,Nat.le_succ_of_le,Bool.toNat_le]
    rw [length_delimited]
    simp only [countTree,bind_checkedAdd,Nat.zero_add] at hs hn ⊢
    refine ⟨fun hlt => ?_,fun hge => ?_⟩
    · obtain ⟨a,ha,han⟩ := hs (by omega)
      refine ⟨a + (attrs && p.isAttribute delim).toNat,by omega,?_⟩
      rw [han]
      simp only [bind_eq_bind,bind_some]
      rw [checkedAdd_of_lt (by omega),checkedAdd_of_lt (by omega)]
      rfl
    · by_cases hin : (flatten inner).length < 2 ^ 32
      · obtain ⟨a,ha,han⟩ := hs hin
        rw [han]
        simp only [bind_eq_bind,bind_some]
        rw [checkedAdd_of_ge (by omega),bind_none]
      · rw [hn hin]
        rfl

theorem countTrees_counts (attrs : Bool) (p : Preceding) (h : counts.2 ≤ counts.1) (hb : counts.1 < 2 ^ 32) :
    (trees : List TokenTree) → Counts counts (flatten trees).length (countTrees attrs p counts trees)
  | [] => ⟨fun _ => ⟨0,Nat.zero_le _,rfl⟩,fun hge => absurd hb hge⟩
  | tree :: trees => by
    obtain ⟨hso,hno⟩ := countTree_counts attrs p h tree
    rw [flatten,length_append,countTrees]
    by_cases hlt : counts.1 + (flattenTree tree).length < 2 ^ 32
    · obtain ⟨a,ha,han⟩ := hso hlt
      have hle : (counts.1 + (flattenTree tree).length,counts.2 + a).2 ≤ counts.1 + (flattenTree tree).length := by
        simp only
        omega
      obtain ⟨hs,hn⟩ := countTrees_counts attrs (p.shift tree) hle hlt trees
      simp only [han,bind_eq_bind,bind_some,Counts,← Nat.add_assoc] at hs hn ⊢
      refine ⟨fun h' => ?_,hn⟩
      obtain ⟨b,hle,hb⟩ := hs h'
      exact ⟨a + b,by omega,by rw [hb,Nat.add_assoc counts.2]⟩
    · rw [hno hlt]
      exact ⟨fun h' => by omega,fun _ => rfl⟩

end

end Count

theorem count_eq (stream : TokenStream) (attrs : Bool) : (count stream attrs).map Prod.fst =
      if (flatten stream).length < 2 ^ 32 then some (flatten stream).length else none := by
  have h0 : ((0,0) : Nat × Nat).1 < 2 ^ 32 := by decide
  obtain ⟨hs,hn⟩ := Count.countTrees_counts attrs .start (Nat.le_refl 0) h0 stream
  simp only [Nat.zero_add] at hs hn
  rw [count]
  split
  case isTrue hlt =>
    obtain ⟨a,-,ha⟩ := hs hlt
    rw [ha]
    rfl
  case isFalse hge => rw [hn hge]; rfl

variable {facts : SpanFacts}

theorem SpanFacts.not_dummy (h : facts.valid span = true) : span ≠ .dummySp := by
  rintro rfl
  simp [valid] at h

mutual

theorem source_tree_spans : (tree : TokenTree) → facts.sourceTree tree = true → ∀ x ∈ flattenTree tree,
    x.1.span ≠ .dummySp
  | .Token token spacing, h, x, hx => by
    cases List.mem_singleton.mp hx
    exact not_dummy (Bool.and_eq_true _ _ ▸ h).1
  | .Delimited span spacing delim inner, h, x, hx => by
    simp only [sourceTree,Bool.and_eq_true] at h
    obtain ⟨⟨⟨-,hop⟩,hcl⟩,hin⟩ := h
    simp only [flattenTree,opening,closing,List.mem_append] at hx
    rcases hx with hx | hx | hx
    · split at hx
      · cases hx
      · cases List.mem_singleton.mp hx
        exact not_dummy hop
    · exact source_spans inner hin x hx
    · split at hx
      · cases hx
      · cases List.mem_singleton.mp hx
        exact not_dummy hcl

theorem source_spans : (trees : List TokenTree) → facts.sourceTokens trees = true → ∀ x ∈ flatten trees,
    x.1.span ≠ .dummySp
  | [], _, x, hx => by cases hx
  | tree :: trees, h, x, hx => by
    simp only [sourceTokens,Bool.and_eq_true] at h
    rcases List.mem_append.mp hx with hx | hx
    · exact source_tree_spans tree h.1 x hx
    · exact source_spans trees h.2 x hx

end

variable {c : TreeTokenCursor}

variable {state : State}

variable {tokens : List Token}

end Frontend.Parse
