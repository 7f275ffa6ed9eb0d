import Mathlib.Logic.Relation

namespace Frontend.Facts.Docs

open List

abbrev Text := List Char

structure DocSection where
  heading : Text
  body : Text
deriving DecidableEq

inductive DocExampleKind
  | doctest
  | fenced

structure DocExample where
  kind : DocExampleKind
  text : Text

-- `char::is_whitespace`
variable (ws : Char → Bool)

def trimStart (line : Text) : Text := line.dropWhile ws

def trim (line : Text) : Text := (trimStart ws (trimStart ws line).reverse).reverse

def headingOf (line : Text) : Option Text :=
  match trimStart ws line with
  | '#' :: ' ' :: text => some (trim ws text)
  | _ => none

def startsWith (c : Char) (line : Text) : Bool := (replicate 3 c).isPrefixOf (trimStart ws line)

def fence (line : Text) : Bool := startsWith ws '\x60' line

def prompted (line : Text) : Bool := startsWith ws '>' line || startsWith ws '.' line

def join (lines : List Text) : Text := ['\n'].intercalate lines

structure Scan where
  sections : List DocSection
  heading : Option Text
  body : List Text

namespace Scan

def finish (s : Scan) : List DocSection := s.sections ++ (s.heading.map (⟨·,join s.body⟩)).toList

def extend (s : Scan) (lines : List Text) : Scan := if s.heading.isSome then { s with body := s.body ++ lines } else s

def step (s : Scan) (line : Text) : Scan :=
  match headingOf ws line with
  | some text => ⟨s.finish,some text,if s.heading.isSome then [] else s.body⟩
  | none => s.extend [line]

def run (lines : List Text) : Scan := lines.foldl (step ws) ⟨[],none,[]⟩

end Scan

def docSections (doc : Text) : List DocSection := (Scan.run ws (doc.splitOn '\n')).finish

def code (rest : List Text) : List Text := rest.takeWhile (!fence ws ·)

-- One turn of the loop of `doc_examples`: the example found and the lines left.
def turn (line : Text) (rest : List Text) : Option DocExample × List Text :=
  if fence ws line then (some ⟨.fenced,join (code ws rest)⟩,(rest.dropWhile (!fence ws ·)).drop 1)
  else if startsWith ws '>' line then
    (some ⟨.doctest,join ((line :: rest).takeWhile (prompted ws))⟩,(line :: rest).dropWhile (prompted ws))
  else (none,rest)

theorem turn_suffix (line : Text) (rest : List Text) : (turn ws line rest).2 <:+ rest := by
  unfold turn
  split
  · exact (drop_suffix _ _).trans (dropWhile_suffix _)
  split
  · rename_i h
    rw [dropWhile_cons_of_pos (by simp [prompted,h])]
    exact dropWhile_suffix _
  · exact suffix_rfl

def docExamples : List Text → List DocExample
  | [] => []
  | line :: rest => (turn ws line rest).1.toList ++ docExamples (turn ws line rest).2
termination_by lines => lines.length
decreasing_by exact Nat.lt_succ_of_le (turn_suffix ws line rest).length_le

abbrev Turns (lines left : List Text) : Prop := ∃ line rest, lines = line :: rest ∧ left = (turn ws line rest).2

-- A fenced block of the text: the lines before it, its opening fence and the lines after that.
structure Fenced (doc : Text) (before : List Text) (opening : Text) (rest : List Text) : Prop where
  lines : doc.splitOn '\n' = before ++ opening :: rest
  reached : Relation.ReflTransGen (Turns ws) (doc.splitOn '\n') (opening :: rest)
  isFence : fence ws opening = true

theorem turn_fenced_iff (line : Text) (rest : List Text) (text : Text) :
    (turn ws line rest).1 = some ⟨.fenced,text⟩ ↔ fence ws line = true ∧ text = join (code ws rest) := by
  unfold turn
  split
  · rename_i hf
    simp [hf,eq_comm]
  split <;> simp_all

theorem mem_docExamples_fenced (lines : List Text) (text : Text) : ⟨.fenced,text⟩ ∈ docExamples ws lines ↔
    ∃ opening rest, Relation.ReflTransGen (Turns ws) lines (opening :: rest) ∧
      fence ws opening = true ∧ text = join (code ws rest) := by
  induction lines using docExamples.induct ws with
  | case1 =>
    refine iff_of_false (by simp [docExamples]) ?_
    rintro ⟨opening,rest,hr,-⟩
    rcases hr.cases_head with h | ⟨left,⟨line,rest',h,-⟩,-⟩ <;> cases h
  | case2 line rest ih =>
    rw [docExamples,mem_append,Option.mem_toList,turn_fenced_iff,ih]
    constructor
    · rintro (hf | ⟨opening,left,hr,hf⟩)
      · exact ⟨line,rest,.refl,hf⟩
      · exact ⟨opening,left,.head ⟨line,rest,rfl,rfl⟩ hr,hf⟩
    · rintro ⟨opening,left,hr,hf⟩
      rcases hr.cases_head with h | ⟨_,⟨line',rest',h,rfl⟩,hr⟩
      · cases h
        exact .inl hf
      · cases h
        exact .inr ⟨opening,left,hr,hf⟩

theorem suffix_of_turns (h : Relation.ReflTransGen (Turns ws) lines left) : left <:+ lines := by
  induction h with
  | refl => exact suffix_rfl
  | tail _ ht ih =>
    obtain ⟨line,rest,rfl,rfl⟩ := ht
    exact ((turn_suffix ws line rest).trans (suffix_cons _ _)).trans ih

-- The fenced examples of a text are the code of its fenced blocks.
theorem fenced_example_iff (doc text : Text) : ⟨.fenced,text⟩ ∈ docExamples ws (doc.splitOn '\n') ↔
    ∃ before opening rest, Fenced ws doc before opening rest ∧ text = join (code ws rest) := by
  rw [mem_docExamples_fenced]
  constructor
  · rintro ⟨opening,rest,hr,hf,ht⟩
    obtain ⟨before,hl⟩ := suffix_of_turns ws hr
    exact ⟨before,opening,rest,⟨hl.symm,hr,hf⟩,ht⟩
  · rintro ⟨before,opening,rest,h,ht⟩
    exact ⟨opening,rest,h.reached,h.isFence,ht⟩

structure Grouped (lines before : List Text) (groups : List (Text × List Text)) : Prop where
  lines : lines = before ++ groups.flatMap fun g => g.1 :: g.2
  before : ∀ line ∈ before, headingOf ws line = none
  groups : ∀ g ∈ groups, (headingOf ws g.1).isSome ∧ ∀ line ∈ g.2, headingOf ws line = none

def sectionOf (g : Text × List Text) : DocSection := ⟨(headingOf ws g.1).getD [],join g.2⟩

structure Respects (doc : Text) : Prop where
  whole : ∀ before opening rest, Fenced ws doc before opening rest →
    Scan.run ws (before ++ opening :: code ws rest) = (Scan.run ws before).extend (opening :: code ws rest)
  reproduced : ∃ before groups, Grouped ws (doc.splitOn '\n') before groups ∧
    docSections ws doc = groups.map (sectionOf ws)

theorem headingOf_of_fence (h : fence ws line = true) : headingOf ws line = none := by
  unfold headingOf
  split
  · rename_i hl
    simp [fence,startsWith,hl,replicate] at h
  · rfl

namespace Scan

theorem extend_extend (s : Scan) (a b : List Text) : (s.extend a).extend b = s.extend (a ++ b) := by
  unfold extend
  split <;> simp_all

theorem length_finish_extend (s : Scan) (lines : List Text) : (s.extend lines).finish.length = s.finish.length := by
  unfold extend
  split <;> cases hs : s.heading <;> simp [finish,hs]

theorem length_finish_foldl (lines : List Text) (s : Scan) : (lines.foldl (step ws) s).finish.length =
    s.finish.length + lines.countP fun line => (headingOf ws line).isSome := by
  induction lines generalizing s with
  | nil => rfl
  | cons line lines ih =>
    rw [foldl_cons,ih,countP_cons]
    cases h : headingOf ws line with
    | none => simp [step,h,length_finish_extend]
    | some text => simp [step,h,finish]; omega

theorem foldl_eq_extend (lines : List Text) (s : Scan) :
    lines.foldl (step ws) s = s.extend lines ↔ ∀ line ∈ lines, headingOf ws line = none := by
  constructor
  · intro h
    have hl := length_finish_foldl ws lines s
    rw [h,length_finish_extend] at hl
    simpa [countP_eq_zero] using hl
  · intro h
    induction lines generalizing s with
    | nil => simp [extend]
    | cons line lines ih =>
      rw [foldl_cons,step,h line (.head _),ih _ fun l hl => h l (.tail _ hl),extend_extend]
      rfl

theorem foldl_groups (lines : List Text) (s : Scan) (h : s.heading = none → s.body = []) : ∃ before groups,
    Grouped ws lines before groups ∧ (lines.foldl (step ws) s).finish = (s.extend before).finish ++ groups.map
    (sectionOf ws) := by
  induction lines generalizing s with
  | nil => exact ⟨[],[],⟨rfl,nofun,nofun⟩,by simp [extend]⟩
  | cons line lines ih =>
    cases hl : headingOf ws line with
    | none =>
      obtain ⟨before,groups,⟨rfl,hb,hg⟩,he⟩ :=
        ih (s.extend [line]) (by unfold extend; split <;> simp_all [Option.isSome_iff_ne_none])
      refine ⟨line :: before,groups,⟨rfl,forall_mem_cons.mpr ⟨hl,hb⟩,hg⟩,?_⟩
      rw [foldl_cons,step,hl,he,extend_extend]
      rfl
    | some text =>
      obtain ⟨before,groups,⟨rfl,hb,hg⟩,he⟩ := ih (s.step ws line) (by simp [step,hl])
      refine ⟨[],(line,before) :: groups,⟨rfl,nofun,forall_mem_cons.mpr ⟨⟨by simp [hl],hb⟩,hg⟩⟩,?_⟩
      rw [foldl_cons,he]
      cases hs : s.heading with
      | none => simp [step,hl,hs,h hs,extend,finish,sectionOf]
      | some title => simp [step,hl,hs,extend,finish,sectionOf]

end Scan

theorem sections_respect_fences_iff (doc : Text) : Respects ws doc ↔ ∀ before opening rest,
    Fenced ws doc before opening rest →
      ∀ line ∈ code ws rest, headingOf ws line = none := by
  constructor
  · intro h before opening rest hf line hl
    have hw := h.whole before opening rest hf
    rw [Scan.run,foldl_append] at hw
    exact (Scan.foldl_eq_extend ws _ _).mp hw line (.tail _ hl)
  · intro h
    refine ⟨fun before opening rest hf => ?_,Scan.foldl_groups ws _ _ fun _ => rfl⟩
    rw [Scan.run,foldl_append]
    refine (Scan.foldl_eq_extend ws _ _).mpr (forall_mem_cons.mpr ⟨headingOf_of_fence ws hf.isFence,?_⟩)
    exact h before opening rest hf

def hiddenLine : Text := "# A\n\x60\x60\x60\n# h\n\x60\x60\x60".toList

theorem hidden_line_starts_section :
    ¬ Respects Char.isWhitespace hiddenLine ∧ (docSections Char.isWhitespace hiddenLine).map DocSection.heading =
    [['A'],['h']] := by
  refine ⟨fun h => ?_,by decide⟩
  have hw := h.whole [['#',' ','A']] ['\x60','\x60','\x60'] [['#',' ','h'],['\x60','\x60','\x60']]
    ⟨by decide,.single ⟨['#',' ','A'],_,by decide,rfl⟩,by decide⟩
  exact absurd (congrArg Scan.sections hw) (by decide)

end Frontend.Facts.Docs
