import Frontend.Facts.Effects

namespace Frontend.Facts

open List

-- What stands between a break and the body of the loop, innermost first.
inductive Frame
  | loop (label : Option String)
  | forHead (label : Option String)
  | block (label : String)
  | const
  deriving DecidableEq

abbrev Break := List Frame × Option String

def scopes : Visitor (List Frame) where
  loop label frames := .loop label :: frames
  forHead label frames := .forHead label :: frames
  block label frames := .block label :: frames
  const frames := .const :: frames

def Block.breaks (block : Block) : List Break := block.walk scopes []

namespace Frame

def isTarget (label : Option String) : Frame → Bool
  | .loop l => label.isNone || l = label
  | .block l => some l = label
  | _ => false

-- The pattern and the iterator of a `for` loop lie outside it; the search takes them for its inside.
def isTaken (label : Option String) : Frame → Bool
  | .forHead l => label.isNone || l = label
  | _ => false

def entry : Frame → Option (Option String × Bool)
  | .loop label | .forHead label => some (label,true)
  | .block label => some (some label,false)
  | .const => none

end Frame

-- The rules of `rustc_resolve` and `rustc_ast_lowering`: no break leaves a constant.
def targetsLoop (start : Option String) : List Frame → Option String → Bool
  | [], label => (Frame.loop start).isTarget label
  | .const :: _, _ => false
  | frame :: frames, label => !frame.isTarget label && targetsLoop start frames label

namespace Break

def targets (start : Option String) (b : Break) : Bool := targetsLoop start b.1 b.2

def aims (start : Option String) (b : Break) : Bool :=
  b.1.all (fun frame => !frame.isTarget b.2) && (Frame.loop start).isTarget b.2

def taken (b : Break) : Bool := b.1.any (Frame.isTaken b.2)

def inConst (b : Break) : Bool := .const ∈ b.1

end Break

-- The labels that the search keeps in the place of the frames.
def kept (start : Option String) (frames : List Frame) : Labels := frames.filterMap Frame.entry ++ [(start,true)]

-- A walk of the search meets the breaks that a walk with the frames meets, with the labels it keeps of them.
structure Keeps (start : Option String) (search : Labels → List (Labels × Option String))
    (walk : List Frame → List Break) : Prop where
  eq : ∀ s, search (kept start s) = (walk s).map (Prod.map (kept start) id)

namespace Keeps

variable {start : Option String} {f g : Labels → List (Labels × Option String)} {b c : List Frame → List Break}

theorem nothing : Keeps start (fun _ => []) fun _ => [] := ⟨fun _ => rfl⟩

theorem here (label : Option String) (hf : Keeps start f b) :
    Keeps start (fun l => (l,label) :: f l) fun s => (s,label) :: b s :=
  ⟨fun s => by rw [hf.eq,map_cons]; rfl⟩

theorem both (hf : Keeps start f b) (hg : Keeps start g c) : Keeps start (fun l => f l ++ g l) fun s => b s ++ c s :=
  ⟨fun s => by rw [map_append,hf.eq,hg.eq]⟩

theorem loop (label : Option String) (hf : Keeps start f b) :
    Keeps start (fun l => f (breakFinder.loop label l)) fun s => b (scopes.loop label s) :=
  ⟨fun s => hf.eq (.loop label :: s)⟩

theorem head (label : Option String) (hf : Keeps start f b) :
    Keeps start (fun l => f (breakFinder.forHead label l)) fun s => b (scopes.forHead label s) :=
  ⟨fun s => hf.eq (.forHead label :: s)⟩

theorem const (hf : Keeps start f b) : Keeps start (fun l => f (breakFinder.const l)) fun s => b (scopes.const s) :=
  ⟨fun s => hf.eq (.const :: s)⟩

theorem labelled (label : Option String) (hf : Keeps start f b) :
    Keeps start (fun l => f (breakFinder.labelled l label)) fun s => b (scopes.labelled s label) := by
  cases label with
  | none => exact hf
  | some label => exact ⟨fun s => hf.eq (.block label :: s)⟩

end Keeps

section

variable (start : Option String)

mutual
theorem Expr.keeps : (e : Expr) → Keeps start (e.walk breakFinder) (e.walk scopes)
  | .leaf _ _ | .macCall _ _ | .continue _ _ | .closure _ | .gen _ => .nothing
  | .unary _ _ value => value.keeps
  | .binary _ _ left right => .both left.keeps right.keeps
  | .repeat _ value count => .both value.keeps (.const count.keeps)
  | .group _ _ values => keeps_exprs values
  | .call _ _ head args => .both head.keeps (keeps_exprs args)
  | .structLit _ fields base => .both (keeps_exprs fields) (keeps_option base)
  | .range _ first last => .both (keeps_option first) (keeps_option last)
  | .exit _ (.break label) value => .here label (keeps_option value)
  | .exit _ .ret value | .exit _ .yeet value | .exit _ .yield value => keeps_option value
  | .letCond _ pat value => .both pat.keeps value.keeps
  | .ite _ cond thenBlock otherwise => .both (.both cond.keeps thenBlock.keeps) (keeps_option otherwise)
  | .while _ _ attrs cond body => .loop _ (.both (.both (.const (keeps_exprs attrs)) cond.keeps) body.keeps)
  | .loop _ _ attrs body => .loop _ (.both (.const (keeps_exprs attrs)) body.keeps)
  | .forLoop _ _ attrs pat iter body =>
    .both (.both (.both (.loop _ (.const (keeps_exprs attrs))) (.head _ pat.keeps)) (.head _ iter.keeps))
      (.loop _ body.keeps)
  | .matchOn _ scrutinee arms => .both scrutinee.keeps (keeps_arms arms)
  | .block _ _ attrs block => .labelled _ (.both (.const (keeps_exprs attrs)) block.keeps)
  | .tryBlock _ block => block.keeps
  | .constBlock _ value => .const value.keeps
  | .annotated consts expr => .both (.const (keeps_exprs consts)) expr.keeps

theorem keeps_option : (e : Option Expr) → Keeps start (walkOption breakFinder · e) (walkOption scopes · e)
  | none => .nothing
  | some value => value.keeps

theorem keeps_exprs : (es : List Expr) → Keeps start (walkExprs breakFinder · es) (walkExprs scopes · es)
  | [] => .nothing
  | value :: values => .both value.keeps (keeps_exprs values)

theorem Block.keeps : (b : Block) → Keeps start (b.walk breakFinder) (b.walk scopes)
  | .mk _ stmts => keeps_stmts stmts

theorem keeps_stmts : (ss : List Stmt) → Keeps start (walkStmts breakFinder · ss) (walkStmts scopes · ss)
  | [] => .nothing
  | stmt :: stmts => .both stmt.keeps (keeps_stmts stmts)

theorem Stmt.keeps : (s : Stmt) → Keeps start (s.walk breakFinder) (s.walk scopes)
  | .decl consts pat => .both (.const (keeps_exprs consts)) pat.keeps
  | .init consts pat init => .both (.both (.const (keeps_exprs consts)) pat.keeps) init.keeps
  | .initElse consts pat init els => .both (.both (.both (.const (keeps_exprs consts)) pat.keeps) init.keeps) els.keeps
  | .expr expr | .semi expr => expr.keeps
  | .macCall consts _ => .const (keeps_exprs consts)
  | .item | .empty => .nothing

theorem keeps_arms : (arms : List Arm) → Keeps start (walkArms breakFinder · arms) (walkArms scopes · arms)
  | [] => .nothing
  | arm :: arms => .both arm.keeps (keeps_arms arms)

theorem Arm.keeps : (arm : Arm) → Keeps start (arm.walk breakFinder) (arm.walk scopes)
  | .mk attrs pat guard body => .both (.both (.both (.const (keeps_exprs attrs)) pat.keeps) (keeps_option guard))
      (keeps_option body)

theorem Pat.keeps : (p : Pat) → Keeps start (p.walk breakFinder) (p.walk scopes)
  | .ident (some pat) | .deref pat | .ref pat | .paren pat => pat.keeps
  | .group pats => keeps_pats pats
  | .guard pat cond => .both pat.keeps cond.keeps
  | .expr expr => expr.keeps
  | .range first last => .both (keeps_option first) (keeps_option last)
  | .annotated consts pat => .both (.const (keeps_exprs consts)) pat.keeps
  | .ident none | .leaf => .nothing

theorem keeps_pats : (pats : List Pat) → Keeps start (walkPats breakFinder · pats) (walkPats scopes · pats)
  | [] => .nothing
  | pat :: pats => .both pat.keeps (keeps_pats pats)
end

end

def meansEntry (label : Option String) (entry : Option String × Bool) : Bool :=
  match label with
  | some name => entry.1 = some name
  | none => entry.2

theorem breakTargetsStart_cons (entry : Option String × Bool) (labels : Labels) (label : Option String) :
    breakTargetsStart (entry :: labels) label =
      if meansEntry label entry then labels.isEmpty && entry.2 else breakTargetsStart labels label := by
  cases label <;> rfl

theorem meansEntry_loop (label l : Option String) : meansEntry label (l,true) = (label.isNone || l = label) := by
  cases label <;> simp [meansEntry]

theorem meansEntry_block (label : Option String) (l : String) :
    meansEntry label (some l,false) = decide (some l = label) := by
  cases label <;> simp [meansEntry]

theorem kept_cons (start : Option String) (frame : Frame) (frames : List Frame) :
    kept start (frame :: frames) = frame.entry.toList ++ kept start frames := by
  cases frame <;> rfl

theorem breakTargetsStart_kept_cons (start label : Option String) (frame : Frame) (frames : List Frame) :
    breakTargetsStart (kept start (frame :: frames)) label =
      (!(frame.isTarget label || frame.isTaken label) && breakTargetsStart (kept start frames) label) := by
  have he : (kept start frames).isEmpty = false := by simp [kept]
  rw [kept_cons]
  cases frame with
  | const => rfl
  | loop l | forHead l =>
    simp only [Frame.entry,Option.toList_some,singleton_append,breakTargetsStart_cons,meansEntry_loop,
      he,Frame.isTarget,Frame.isTaken]
    cases label.isNone || decide (l = label) <;> rfl
  | block l =>
    simp only [Frame.entry,Option.toList_some,singleton_append,breakTargetsStart_cons,meansEntry_block,
      he,Frame.isTarget,Frame.isTaken]
    cases decide (some l = label) <;> rfl

theorem found_iff (start : Option String) (b : Break) : breakTargetsStart (kept start b.1) b.2 = true ↔
    b.aims start ∧ ¬ b.taken := by
  obtain ⟨frames,label⟩ := b
  induction frames with
  | nil => cases label <;> simp [kept,breakTargetsStart,targetsStart,Break.aims,Break.taken,Frame.isTarget]
  | cons frame frames ih =>
    rw [breakTargetsStart_kept_cons,Bool.and_eq_true,ih]
    simp only [Break.aims,Break.taken,all_cons,any_cons,Bool.not_or,Bool.and_eq_true,Bool.not_eq_true',
      Bool.not_eq_true,Bool.or_eq_false_iff]
    tauto

theorem targets_iff (start : Option String) (b : Break) : b.targets start = true ↔ b.aims start ∧ ¬ b.inConst := by
  obtain ⟨frames,label⟩ := b
  induction frames with
  | nil => simp [Break.targets,targetsLoop,Break.aims,Break.inConst]
  | cons frame frames ih =>
    have hc : Break.targets start (frame :: frames,label) =
        (frame ≠ .const && !frame.isTarget label && Break.targets start (frames,label)) := by
      cases frame <;> simp [Break.targets,targetsLoop]
    rw [hc,Bool.and_eq_true,ih]
    simp only [Break.aims,Break.inConst,all_cons,mem_cons,Bool.and_eq_true,decide_eq_true_eq,not_or,ne_comm]
    tauto

theorem loopHasBreak_eq (block : Block) (label : Option String) :
    loopHasBreak block label = block.breaks.any fun b => breakTargetsStart (kept label b.1) b.2 := by
  have hk := (block.keeps label).eq []
  rw [loopHasBreak,show [(label,true)] = kept label [] from rfl,hk,any_map]
  rfl

theorem loop_has_break_exact_iff (block : Block) (label : Option String) :
    loopHasBreak block label = block.breaks.any (Break.targets label) ↔
      (∃ b ∈ block.breaks, b.aims label ∧ ¬b.taken ∧ ¬b.inConst) ∨
        ((∃ b ∈ block.breaks, b.aims label ∧ b.taken ∧ ¬b.inConst) ↔ ∃ b ∈ block.breaks, b.aims label ∧
        ¬b.taken ∧ b.inConst) := by
  rw [loopHasBreak_eq,Bool.eq_iff_iff,any_eq_true,any_eq_true]
  simp only [found_iff,targets_iff]
  by_cases hg : ∃ b ∈ block.breaks, b.aims label ∧ ¬b.taken ∧ ¬b.inConst
  · obtain ⟨b,hm,ha,ht,hc⟩ := hg
    exact iff_of_true (iff_of_true ⟨b,hm,ha,ht⟩ ⟨b,hm,ha,hc⟩) (.inl ⟨b,hm,ha,ht,hc⟩)
  -- no break is seen rightly: the ones found stand in constants, the ones that count are taken
  have hf : (∃ b ∈ block.breaks, b.aims label ∧ ¬b.taken) ↔ ∃ b ∈ block.breaks, b.aims label ∧ ¬b.taken ∧ b.inConst := by
    refine exists_congr fun b => and_congr_right fun hm => and_congr_right fun ha => ?_
    exact ⟨fun ht => ⟨ht,by_contra fun hc => hg ⟨b,hm,ha,ht,hc⟩⟩,And.left⟩
  have hr : (∃ b ∈ block.breaks, b.aims label ∧ ¬b.inConst) ↔ ∃ b ∈ block.breaks, b.aims label ∧ b.taken ∧
      ¬b.inConst := by
    refine exists_congr fun b => and_congr_right fun hm => and_congr_right fun ha => ?_
    exact ⟨fun hc => ⟨by_contra fun ht => hg ⟨b,hm,ha,ht,hc⟩,hc⟩,And.right⟩
  rw [hf,hr,or_iff_right hg]
  exact Iff.comm

def emptySpan : TextRange := ⟨0,0⟩

def unlabelledBreak : Expr := .exit emptySpan (.break none) none

-- `for _ in break {}`
def breakInIterator : Block :=
  .mk emptySpan [.semi (.forLoop emptySpan none [] .leaf unlabelledBreak (.mk emptySpan []))]

-- `let x: [u8; { break; 1 }];`
def breakInLength : Block :=
  .mk emptySpan [.decl [.block emptySpan none [] (.mk emptySpan [.semi unlabelledBreak,.expr (.leaf emptySpan .lit)])]
    (.ident none)]

theorem iterator_break_is_missed :
    loopHasBreak breakInIterator none = false ∧ breakInIterator.breaks.any (Break.targets none) = true ∧
      loopHasBreak breakInLength none = true ∧ breakInLength.breaks.any (Break.targets none) = false := ⟨rfl,rfl,rfl,rfl⟩

end Frontend.Facts
