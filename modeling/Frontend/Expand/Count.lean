import Mathlib

namespace Frontend.Expand

variable {α : Type}

inductive NamedMatch (α : Type)
  | matchedSeq (namedMatches : List (NamedMatch α))
  | matchedSingle (nt : α)

inductive CountError
  | outOfBounds (msg : String)
  | countRepetitionMisplaced

namespace NamedMatch

mutual

def count (depthMax depthCurr : Nat) : NamedMatch α → Nat
  | .matchedSingle _ => 1
  | .matchedSeq ms => if depthCurr = depthMax then ms.length else countAll depthMax (depthCurr + 1) ms

def countAll (depthMax depthCurr : Nat) : List (NamedMatch α) → Nat
  | [] => 0
  | m :: ms => count depthMax depthCurr m + countAll depthMax depthCurr ms

end

def depth (counter : Nat) : NamedMatch α → Nat
  | .matchedSingle _ => counter
  | .matchedSeq [] => counter + 1
  | .matchedSeq (m :: _) => depth (counter + 1) m

def outOfBoundsErr (max : Nat) (ty : String) : String :=
  if max = 0 then "meta-variable expression `" ++ ty ++
    "` with depth parameter must be called inside of a macro repetition"
  else "depth parameter of meta-variable expression `" ++ ty ++ "` must be less than " ++ toString max

-- An index past the end of its sequence panics.
def descend : List (Nat × Nat) → NamedMatch α → Option (NamedMatch α)
  | [], matched => some matched
  | (idx,_) :: repeats, .matchedSeq ads => ads[idx]?.bind (descend repeats)
  | _ :: repeats, matched => descend repeats matched

def depthMax (matched : NamedMatch α) (repeats : List (Nat × Nat)) : Nat := depth 0 matched - 1 - repeats.length

def countRepetitions (depthUser : Nat) (matched : NamedMatch α) (repeats : List (Nat × Nat)) :
    Option (Except CountError Nat) :=
  let depthMax := depthMax matched repeats
  if depthMax < depthUser then some (.error (.outOfBounds (outOfBoundsErr (depthMax + 1) "count")))
  else
    (descend repeats matched).map fun
      | .matchedSingle _ => .error .countRepetitionMisplaced
      | matched => .ok (count depthMax depthUser matched)

def Nested : Nat → NamedMatch α → Prop
  | 0, .matchedSingle _ => True
  | D + 1, .matchedSeq ms => ∀ m ∈ ms, Nested D m
  | _, _ => False

def nodesAt : Nat → NamedMatch α → Nat
  | 0, _ => 1
  | n + 1, .matchedSeq ms => (ms.map (nodesAt n)).sum
  | _ + 1, .matchedSingle _ => 0

variable {D : Nat} {matched sub : NamedMatch α} {repeats : List (Nat × Nat)}

theorem depth_le (h : Nested D matched) (c : Nat) : depth c matched ≤ c + D := by
  induction D generalizing c matched with
  | zero =>
    cases matched with
    | matchedSingle => simp [depth]
    | matchedSeq => cases h
  | succ D ih =>
    match matched, h with
    | .matchedSeq [], _ => simp [depth]
    | .matchedSeq (m :: ms), h =>
      have hm := ih (h m (.head _)) (c + 1)
      rw [depth]
      omega

theorem le_depth (c : Nat) (matched : NamedMatch α) : c ≤ depth c matched := by
  induction c, matched using depth.induct with
  | case1 | case2 => simp [depth]
  | case3 c m ms ih => exact (Nat.le_succ c).trans ih

theorem Nested.descend (h : Nested D matched) (hr : repeats.length < D) (hs : matched.descend repeats = some sub) :
    ∃ ms, sub = .matchedSeq ms ∧ Nested (D - repeats.length) sub := by
  induction repeats generalizing D matched with
  | nil =>
    cases hs
    match D, sub, h with
    | D + 1, .matchedSeq ms, h => exact ⟨ms,rfl,h⟩
  | cons r repeats ih =>
    match D, matched, h with
    | D + 1, .matchedSeq ads, h =>
      obtain ⟨m,hm,hs⟩ := Option.bind_eq_some_iff.mp hs
      have hi := ih (h m (List.mem_of_getElem? hm)) (Nat.lt_of_succ_lt_succ hr) hs
      rwa [List.length_cons,Nat.add_sub_add_right]

theorem countAll_eq (k d : Nat) (ms : List (NamedMatch α)) : countAll k d ms = (ms.map (count k d)).sum := by
  induction ms with
  | nil => rfl
  | cons m ms ih => rw [countAll,ih,List.map_cons,List.sum_cons]

theorem count_eq (h : Nested D matched) (k d : Nat) (hk : k < D) :
    count (d + k) d matched = nodesAt (k + 1) matched := by
  induction k generalizing D d matched with
  | zero =>
    match D, matched, h with
    | D + 1, .matchedSeq ms, _ => simp [count,nodesAt]
  | succ k ih =>
    match D, matched, h with
    | D + 1, .matchedSeq ms, h =>
      have hm m (hm : m ∈ ms) : count (d + (k + 1)) (d + 1) m = nodesAt (k + 1) m := by
        rw [← ih (h m hm) (d + 1) (Nat.lt_of_succ_lt_succ hk),Nat.add_right_comm,Nat.add_assoc]
      rw [count,if_neg (by omega),countAll_eq,List.map_congr_left hm,nodesAt]

-- The first elements of the nested sequences lead, after n steps, to one more sequence.
def Leads : Nat → NamedMatch α → Prop
  | 0, .matchedSeq _ => True
  | n + 1, .matchedSeq (m :: _) => Leads n m
  | _, _ => False

-- The first elements of the nested sequences lead, after n steps, to an empty sequence.
def StopsAt : Nat → NamedMatch α → Prop
  | 0, .matchedSeq [] => True
  | n + 1, .matchedSeq (m :: _) => StopsAt n m
  | _, _ => False

theorem leads_iff (n c : Nat) (matched : NamedMatch α) : Leads n matched ↔ c + n < depth c matched := by
  induction n generalizing c matched with
  | zero =>
    match matched with
    | .matchedSingle _ => simp [Leads,depth]
    | .matchedSeq [] => simp [Leads,depth]
    | .matchedSeq (m :: ms) =>
      have hm := le_depth (c + 1) m
      exact iff_of_true trivial (by rw [depth]; omega)
  | succ n ih =>
    match matched with
    | .matchedSingle _ => simp [Leads,depth]
    | .matchedSeq [] => simp [Leads,depth]
    | .matchedSeq (m :: ms) => rw [Leads,depth,ih (c + 1) m,Nat.add_right_comm,Nat.add_assoc]

theorem StopsAt.depth_eq (h : StopsAt n matched) (c : Nat) : depth c matched = c + n + 1 := by
  induction n generalizing c matched with
  | zero =>
    match matched, h with
    | .matchedSeq [], _ => rfl
  | succ n ih =>
    match matched, h with
    | .matchedSeq (m :: ms), h => rw [depth,ih h (c + 1),Nat.add_right_comm c 1 n,Nat.add_assoc c n 1]

theorem stopsAt_or_leads (h : Nested D matched) (hD : 0 < D) : (∃ n, StopsAt n matched) ∨ Leads (D - 1) matched := by
  induction D generalizing matched with
  | zero => cases hD
  | succ D ih =>
    match matched, h with
    | .matchedSeq [], _ => exact .inl ⟨0,trivial⟩
    | .matchedSeq (m :: ms), h =>
      match D with
      | 0 => exact .inr trivial
      | D + 1 => exact (ih (h m (.head _)) D.succ_pos).imp_left fun ⟨n,hn⟩ => ⟨n + 1,hn⟩

def Counts (D d : Nat) (matched sub : NamedMatch α) (repeats : List (Nat × Nat)) : Prop :=
  if d < D - repeats.length then countRepetitions d matched repeats = some (.ok (nodesAt (D - repeats.length - d) sub))
  else ∃ e, countRepetitions d matched repeats = some (.error e)

theorem depthMax_lt (h : Nested D matched) (hr : repeats.length < D) : depthMax matched repeats < D - repeats.length ∧
    (depthMax matched repeats + 1 = D - repeats.length ↔ Leads (D - 1) matched ∨ repeats.length + 1 = D) := by
  have hd := depth_le h 0
  rw [depthMax,leads_iff (D - 1) 0]
  omega

theorem StopsAt.depthMax_eq (h : StopsAt n matched) : depthMax matched repeats = n - repeats.length := by
  rw [depthMax,h.depth_eq,Nat.zero_add,Nat.add_sub_cancel]

theorem countRepetitions_of_le (h : Nested D matched) (hr : repeats.length < D) (hs : matched.descend repeats = some sub)
    (hd : d ≤ depthMax matched repeats) :
    countRepetitions d matched repeats = some (.ok (nodesAt (depthMax matched repeats - d + 1) sub)) := by
  have hm := (depthMax_lt h hr).1
  obtain ⟨ms,rfl,hn⟩ := h.descend hr hs
  obtain ⟨k,hk⟩ := Nat.exists_eq_add_of_le hd
  have hc := count_eq hn k d (by omega)
  rw [hk] at hm
  simp [countRepetitions,hs,hk,hc]

theorem counts_iff_depthMax (h : Nested D matched) (hr : repeats.length < D)
    (hs : matched.descend repeats = some sub) (d : Nat) :
    Counts D d matched sub repeats ↔ D - repeats.length ≤ d ∨ d ≤ depthMax matched repeats ∧
      nodesAt (depthMax matched repeats - d + 1) sub = nodesAt (D - repeats.length - d) sub := by
  have hm := (depthMax_lt h hr).1
  rw [Counts]
  split
  case isFalse hge => exact iff_of_true ⟨_,if_pos (by omega)⟩ (.inl (by omega))
  case isTrue hlt =>
    rw [or_iff_right (Nat.not_le.mpr hlt)]
    rcases Nat.lt_or_ge (depthMax matched repeats) d with hd | hd
    · exact iff_of_false (by simp [countRepetitions,hd]) (by omega)
    · simp [countRepetitions_of_le h hr hs hd,hd]

theorem counts_of_leads (h : Nested D matched) (hr : repeats.length < D) (hs : matched.descend repeats = some sub)
    (hl : Leads (D - 1) matched ∨ repeats.length + 1 = D) (d : Nat) : Counts D d matched sub repeats := by
  have he := (depthMax_lt h hr).2.mpr hl
  rw [counts_iff_depthMax h hr hs,← he]
  rcases Nat.lt_or_ge (depthMax matched repeats) d with hd | hd
  · exact .inl hd
  · exact .inr ⟨hd,by rw [Nat.sub_add_comm hd]⟩

theorem counts_iff (D : Nat) (matched sub : NamedMatch α) (repeats : List (Nat × Nat)) (h : Nested D matched)
    (hr : repeats.length < D)
    (hs : matched.descend repeats = some sub) :
    ((∀ d, Counts D d matched sub repeats) ↔ Leads (D - 1) matched ∨ repeats.length + 1 = D) ∧
    ∀ d, Counts D d matched sub repeats ↔ D - repeats.length ≤ d ∨ (Leads (D - 1) matched ∨ repeats.length + 1 = D) ∨
      ∃ n, StopsAt n matched ∧ d ≤ n - repeats.length ∧
        nodesAt (n - repeats.length - d + 1) sub = nodesAt (D - repeats.length - d) sub := by
  refine ⟨⟨?_,counts_of_leads h hr hs⟩,?_⟩
  · intro ha
    obtain ⟨hm,hM⟩ := depthMax_lt h hr
    -- the outermost repetitions are counted only where the inferred depth is the declared one
    have hd := (counts_iff_depthMax h hr hs (D - repeats.length - 1)).mp (ha _)
    exact hM.mp (by omega)
  · intro d
    constructor
    · intro hc
      rcases stopsAt_or_leads h (Nat.zero_lt_of_lt hr) with ⟨n,hn⟩ | hl
      · rw [counts_iff_depthMax h hr hs,hn.depthMax_eq] at hc
        exact hc.imp_right fun ⟨hd,he⟩ => .inr ⟨n,hn,hd,he⟩
      · exact .inr (.inl (.inl hl))
    · rintro (hd | hl | ⟨n,hn,hd,he⟩)
      · exact (counts_iff_depthMax h hr hs d).mpr (.inl hd)
      · exact counts_of_leads h hr hs hl d
      · rw [counts_iff_depthMax h hr hs,hn.depthMax_eq]
        exact .inr ⟨hd,he⟩

def tree : NamedMatch Nat := .matchedSeq [.matchedSeq [.matchedSeq [.matchedSingle 0,.matchedSingle 1]],.matchedSeq []]

def swapped : NamedMatch Nat := .matchedSeq [.matchedSeq [],
    .matchedSeq [.matchedSeq [.matchedSingle 0,.matchedSingle 1]]]

theorem tree_counts : Nested 3 tree ∧ Leads 2 tree ∧ Counts 3 0 tree tree [] ∧ nodesAt 3 tree = 2 := by
  have h : Nested 3 tree := by simp [tree,Nested]
  exact ⟨h,trivial,(counts_iff 3 tree tree [] h (by decide) rfl).1.mpr (.inl trivial) 0,rfl⟩

theorem swapped_miscounts : Nested 3 swapped ∧ swapped.descend [] = some swapped ∧ nodesAt 3 swapped = 2 ∧
    countRepetitions 0 swapped [] = some (.ok 1) ∧ ∃ e, countRepetitions 2 swapped [] = some (.error e) :=
  ⟨by simp [swapped,Nested],rfl,rfl,rfl,_,rfl⟩

end NamedMatch

end Frontend.Expand
