import Frontend.Library.Utf8

namespace Frontend.Lexer

open Library.Utf8 List

inductive FrontmatterAllowed where
  | Yes
  | No
deriving DecidableEq

structure Cursor where
  lenRemaining : Nat
  chars : List Char
  frontmatterAllowed : FrontmatterAllowed
deriving DecidableEq

def eofChar : Char := '\x00'

inductive DocStyle where
  | Outer
  | Inner
deriving DecidableEq

inductive RawStrError where
  | InvalidStarter (badChar : Char)
  | NoTerminator (expected found : Nat) (possibleTerminatorOffset : Option Nat)
  | TooManyDelimiters (found : Nat)
deriving DecidableEq

namespace Cursor

section

variable (c : Cursor)

def first : Char := c.chars.headD eofChar

def second : Char := c.chars.tail.headD eofChar

def posWithinToken : Nat := (c.lenRemaining - (bytes c.chars).length) % 2 ^ 32

def bump : Cursor := { c with chars := c.chars.tail }

def advanceBytes (n : Nat) : Option Cursor := (dropBytes n c.chars).map ({ c with chars := · })

def eatUntil (needle : Char) : Option Cursor :=
  match memchr [needle] (bytes c.chars) with
  | some index => c.advanceBytes index
  | none => some { c with chars := [] }

def commentStyle : Option DocStyle :=
  if c.first = '!' then some .Inner
  else if c.first = '*' ∧ c.second ≠ '*' ∧ c.second ≠ '/' then some .Outer
  else none

end

def blockLoop : Nat → Nat → Cursor → Option (Nat × Cursor)
  | 0, _, _ => none
  | fuel + 1, depth, c =>
    let rest := bytes c.chars
    match memchr ['/', '*'] rest with
    | none => (c.advanceBytes rest.length).map (depth,·)
    | some i => do
      let c ← c.advanceBytes (i + 1)
      let b ← rest[i]?
      if b = byte '/' ∧ c.first = '*' then blockLoop fuel (depth + 1) c.bump
      else if b = byte '*' ∧ c.first = '/' then
        if depth - 1 = 0 then some (0,c.bump) else blockLoop fuel (depth - 1) c.bump
      else blockLoop fuel depth c

def blockComment (c : Cursor) : Option ((Option DocStyle × Bool) × Cursor) := do
  let c := c.bump
  let (depth,rest) ← blockLoop (c.chars.length + 1) 1 c
  return ((c.commentStyle,depth == 0),rest)

def quotedLoop : Nat → Cursor → Option (Bool × Cursor)
  | 0, _ => none
  | fuel + 1, c =>
    let rest := bytes c.chars
    match memchr ['"', '\\'] rest with
    | none => (c.advanceBytes rest.length).map (false,·)
    | some i => do
      let c ← c.advanceBytes (i + 1)
      let b ← rest[i]?
      if b = byte '"' then some (true,c)
      else if c.first = '\\' ∨ c.first = '"' then quotedLoop fuel c.bump
      else quotedLoop fuel c

def doubleQuotedString (c : Cursor) : Option (Bool × Cursor) := quotedLoop (c.chars.length + 1) c

-- `eaten` is a `u32`.
def openingHashes : Nat → List Char → Nat × List Char
  | eaten, [] => (eaten,[])
  | eaten, ch :: text => if ch = '#' then openingHashes ((eaten + 1) % 2 ^ 32) text else (eaten,ch :: text)

def closingHashes (nStartHashes : Nat) : Nat → List Char → Nat × List Char
  | nEndHashes, [] => (nEndHashes,[])
  | nEndHashes, ch :: text =>
    if ch = '#' ∧ nEndHashes < nStartHashes then closingHashes nStartHashes (nEndHashes + 1) text
    else (nEndHashes,ch :: text)

def rawLoop (nStartHashes startPos prefixLen : Nat) : Nat → Nat → Option Nat → Cursor →
    Option (Except RawStrError Nat × Cursor)
  | 0, _, _, _ => none
  | fuel + 1, maxHashes, possibleTerminatorOffset, c => do
    let c ← c.eatUntil '"'
    if c.chars = [] then return (.error (.NoTerminator nStartHashes maxHashes possibleTerminatorOffset),c)
    let closing := closingHashes nStartHashes 0 c.chars.tail
    let c := { c with chars := closing.2 }
    if closing.1 = nStartHashes then return (.ok nStartHashes,c)
    if maxHashes < closing.1 then
      let offset := (c.posWithinToken + 2 ^ 33 - startPos - closing.1 + prefixLen) % 2 ^ 32
      rawLoop nStartHashes startPos prefixLen fuel closing.1 (some offset) c
    else rawLoop nStartHashes startPos prefixLen fuel maxHashes possibleTerminatorOffset c

def rawStringUnvalidated (c : Cursor) (prefixLen : Nat) : Option (Except RawStrError Nat × Cursor) :=
  let opening := openingHashes 0 c.chars
  match opening.2 with
  | [] => some (.error (.InvalidStarter eofChar),{ c with chars := [] })
  | ch :: text =>
    if ch = '"' then rawLoop opening.1 c.posWithinToken prefixLen (text.length + 1) 0 none { c with chars := text }
    else some (.error (.InvalidStarter ch),{ c with chars := text })

def rawDoubleQuotedString (c : Cursor) (prefixLen : Nat) : Option (Except RawStrError Nat × Cursor) := do
  let (answer,c) ← c.rawStringUnvalidated prefixLen
  return (answer.bind fun n => if n < 256 then .ok n else .error (.TooManyDelimiters n),c)

end Cursor

end Frontend.Lexer
