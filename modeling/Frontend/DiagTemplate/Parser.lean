import Frontend.DiagTemplate.Syntax

namespace Frontend.DiagTemplate

structure ParseError where
  offset : Nat
  message : String
deriving DecidableEq, Repr

inductive Failure where
  | parse (error : ParseError)
  | outOfFuel
deriving DecidableEq, Repr

abbrev Parsed := Except Failure

inductive Position where
  | InitialLineStart
  | LineStart
  | Continuation
deriving DecidableEq, Repr

inductive TextKind where
  | Blank
  | NonBlank
deriving DecidableEq, Repr

inductive Termination where
  | LineFeed
  | Crlf
  | PlaceableStart
  | Eof
deriving DecidableEq, Repr

inductive Placeholder where
  | Placeable (expression : Expression)
  | Text (start stop indent : Nat) (lineStart : Bool)

section

variable (b : UInt8)

def isAsciiDigit : Bool := byte '0' ≤ b && b ≤ byte '9'

def isAsciiAlphabetic : Bool := (byte 'a' ≤ b && b ≤ byte 'z') || (byte 'A' ≤ b && b ≤ byte 'Z')

def isAsciiHexdigit : Bool := isAsciiDigit b || (byte 'a' ≤ b && b ≤ byte 'f') || (byte 'A' ≤ b && b ≤ byte 'F')

def isIdentifierByte : Bool := isAsciiAlphabetic b || isAsciiDigit b || b = byte '-' || b = byte '_'

def isPatternContinuation : Bool := !(b = byte '.' || b = byte '}' || b = byte '[' || b = byte '*')

end

def digitsValue (ds : Bytes) : Nat := ds.foldl (fun n b => 10 * n + (b.toNat - 48)) 0

def parseI64 (negative : Bool) (digits : Bytes) : Option Int :=
  let n : Int := if negative then -digitsValue digits else digitsValue digits
  if -2 ^ 63 ≤ n ∧ n < 2 ^ 63 then some n else none

def hexDigitValue (b : UInt8) : Nat :=
  if isAsciiDigit b then b.toNat - 48
  else if byte 'a' ≤ b then b.toNat - 87 else b.toNat - 55

def hexValue (ds : Bytes) : Nat := ds.foldl (fun n b => 16 * n + hexDigitValue b) 0

def charFromU32 (n : Nat) : Char := if n.isValidChar then Char.ofNat n else '�'

def unicodeEscape (ds : Bytes) : Char :=
  if ds.all isAsciiHexdigit then charFromU32 (hexValue ds) else '�'

def unescapeLoop : Nat → Bytes → Bytes
  | 0, _ => []
  | _ + 1, [] => []
  | n + 1, b :: rest =>
    if b ≠ byte '\\' then b :: unescapeLoop n rest
    else match rest with
      | [] => String.utf8EncodeChar '�'
      | c :: rest =>
        if c = byte '\\' then byte '\\' :: unescapeLoop n rest
        else if c = byte '"' then byte '"' :: unescapeLoop n rest
        else if c = byte 'u' then
          String.utf8EncodeChar (unicodeEscape (rest.take 4)) ++ unescapeLoop n (rest.drop 4)
        else if c = byte 'U' then
          String.utf8EncodeChar (unicodeEscape (rest.take 6)) ++ unescapeLoop n (rest.drop 6)
        else String.utf8EncodeChar '�' ++ unescapeLoop n rest

def unescape (text : Bytes) : Bytes := unescapeLoop text.length text

section

variable (src : Bytes)

def fail {α : Type} (offset : Nat) (message : String) : Parsed α := .error (.parse ⟨offset,message⟩)

def slice (start stop : Nat) : Bytes := (src.drop start).take (stop - start)

def takeByteIf (c : Char) (ptr : Nat) : Bool × Nat :=
  if src[ptr]? = some (byte c) then (true,ptr + 1) else (false,ptr)

def expectByte (c : Char) (ptr : Nat) : Parsed Nat :=
  if src[ptr]? = some (byte c) then .ok (ptr + 1)
  else fail ptr ("expected `" ++ c.toString ++ "`")

def skipEol (ptr : Nat) : Bool × Nat :=
  if src[ptr]? = some (byte '\n') then (true,ptr + 1)
  else if src[ptr]? = some (byte '\r') ∧ src[ptr + 1]? = some (byte '\n') then (true,ptr + 2)
  else (false,ptr)

def skipWhile (f : UInt8 → Bool) (ptr : Nat) : Nat := ptr + ((src.drop ptr).takeWhile f).length

def skipBlankInline (ptr : Nat) : Nat := skipWhile src (· = byte ' ') ptr

def skipBlankBlockLoop : Nat → Nat → Nat
  | 0, ptr => ptr
  | n + 1, ptr =>
    match skipEol src (skipBlankInline src ptr) with
    | (true,ptr) => skipBlankBlockLoop n ptr
    | (false,_) => ptr

def skipBlankBlock (ptr : Nat) : Nat := skipBlankBlockLoop src src.length ptr

def skipBlankLoop : Nat → Nat → Nat
  | 0, ptr => ptr
  | n + 1, ptr =>
    if src[ptr]? = some (byte ' ') ∨ src[ptr]? = some (byte '\n') then skipBlankLoop n (ptr + 1)
    else if src[ptr]? = some (byte '\r') ∧ src[ptr + 1]? = some (byte '\n') then
      skipBlankLoop n (ptr + 2)
    else ptr

def skipBlank (ptr : Nat) : Nat := skipBlankLoop src src.length ptr

def byteIs (f : UInt8 → Bool) (pos : Nat) : Bool := src[pos]?.any f

def getIdentifierUnchecked (ptr : Nat) : Bytes × Nat :=
  (slice src (ptr - 1) (skipWhile src isIdentifierByte ptr),skipWhile src isIdentifierByte ptr)

def getIdentifier (ptr : Nat) : Parsed (Bytes × Nat) :=
  if byteIs src isAsciiAlphabetic ptr then .ok (getIdentifierUnchecked src (ptr + 1))
  else fail ptr "expected an identifier"

def getNumberLiteral (start : Nat) : Parsed (Int × Nat) :=
  let (negative,digitsStart) := takeByteIf src '-' start
  let ptr := skipWhile src isAsciiDigit digitsStart
  if ptr = digitsStart then fail ptr "expected a digit"
  else if src[ptr]? = some (byte '.') then
    fail ptr "fractional numbers are not supported in a message"
  else
    match parseI64 negative (slice src digitsStart ptr) with
    | some n => .ok (n,ptr)
    | none => fail start "number is too large for a message"

def textKind (text : Bytes) : TextKind :=
  if text.any (· ≠ byte ' ') then .NonBlank else .Blank

structure TextSlice where
  stop : Nat
  kind : TextKind
  termination : Termination
  ptr : Nat
deriving DecidableEq, Repr

def getTextSlice (ptr : Nat) : Parsed TextSlice :=
  let rest := src.drop ptr
  match rest.findIdx? (fun c => c = byte '\n' || c = byte '\x7b' || c = byte '\x7d') with
  | none => .ok ⟨ptr + rest.length,textKind rest,.Eof,ptr + rest.length⟩
  | some pos =>
    if rest[pos]? = some (byte '\x7d') then
      fail (ptr + pos) "unbalanced `\x7d`: write `\x7b\"\x7d\"\x7d` for a literal one"
    else if rest[pos]? = some (byte '\n') then
      if 0 < pos ∧ rest[pos - 1]? = some (byte '\r') then
        .ok ⟨ptr + pos - 1,textKind (rest.take (pos - 1)),.Crlf,ptr + pos⟩
      else .ok ⟨ptr + pos + 1,textKind (rest.take pos),.LineFeed,ptr + pos + 1⟩
    else .ok ⟨ptr + pos,textKind (rest.take pos),.PlaceableStart,ptr + pos⟩

structure Draft where
  elements : List Placeholder
  lastNonBlank : Option Nat
  commonIndent : Option Nat
  role : Position

namespace Draft

def start (role : Position) : Draft :=
  { elements := [], lastNonBlank := none, commonIndent := none, role := role }

def pushPlaceable (d : Draft) (expression : Expression) : Draft :=
  { elements := d.elements ++ [.Placeable expression]
    lastNonBlank := some d.elements.length
    commonIndent := if d.role = .LineStart then some 0 else d.commonIndent
    role := .Continuation }

def pushText (d : Draft) (sliceStart indent start : Nat) (text : TextSlice) : Draft :=
  let role : Position := match text.termination with
    | .LineFeed | .Crlf => .LineStart
    | .PlaceableStart | .Eof => .Continuation
  if start = text.stop then { d with role := role }
  else
    let commonIndent := if d.role = .LineStart ∧ text.kind = .NonBlank then
        some (match d.commonIndent with
          | some common => min common indent
          | none => indent)
      else d.commonIndent
    if d.role ≠ .LineStart ∨ text.kind = .NonBlank ∨ text.termination = .LineFeed then
      { elements := d.elements ++ [.Text sliceStart text.stop indent (d.role = .LineStart)]
        lastNonBlank := if text.kind = .NonBlank then some d.elements.length else d.lastNonBlank
        commonIndent := commonIndent
        role := role }
    else { d with commonIndent := commonIndent, role := role }

def trimEnd (text : Bytes) : Bytes := (text.reverse.dropWhile fun b => b = byte ' ' || b = byte '\r' || b =
    byte '\n').reverse

def finishElement (d : Draft) (last i : Nat) : Placeholder → Element
  | .Placeable expression => .Placeable expression
  | .Text start stop indent lineStart =>
    let start := if lineStart then
        match d.commonIndent with
        | some common => start + min indent common
        | none => start + indent
      else start
    let value := slice src start stop
    .Text (if i = last then trimEnd value else value)

def finish (d : Draft) : Option Pattern :=
  match d.lastNonBlank with
  | none => none
  | some last => some (.mk ((d.elements.take (last + 1)).mapIdx (d.finishElement src last)))

end Draft

inductive Line where
  | stop (ptr : Nat)
  | next (draft : Draft) (ptr : Nat)

def textElement (d : Draft) (start : Nat) : Parsed Line :=
  if d.role = .LineStart then
    let ptr := skipBlankInline src start
    match src[ptr]? with
    | none => .ok (.stop ptr)
    | some b =>
      if ptr = start then
        if b ≠ byte '\r' ∧ b ≠ byte '\n' then .ok (.stop ptr)
        else do
          let text ← getTextSlice src ptr
          return .next (d.pushText start 0 ptr text) text.ptr
      else if !isPatternContinuation b then .ok (.stop start)
      else do
        let text ← getTextSlice src ptr
        return .next (d.pushText start (ptr - start) ptr text) text.ptr
  else do
    let text ← getTextSlice src start
    return .next (d.pushText start 0 start text) text.ptr

def skipHexDigits (count start : Nat) : Parsed Nat :=
  let n := (((src.drop start).take count).takeWhile isAsciiHexdigit).length
  if n = count then .ok (start + n) else fail start "invalid unicode escape sequence"

def stringLoop : Nat → Nat → Parsed Nat
  | 0, _ => .error .outOfFuel
  | n + 1, ptr =>
    match src[ptr]? with
    | none => .ok ptr
    | some b =>
      if b = byte '\\' then
        if src[ptr + 1]? = some (byte '\\') ∨ src[ptr + 1]? = some (byte '"') then
          stringLoop n (ptr + 2)
        else if src[ptr + 1]? = some (byte 'u') then do
          let ptr ← skipHexDigits src 4 (ptr + 2)
          stringLoop n ptr
        else if src[ptr + 1]? = some (byte 'U') then do
          let ptr ← skipHexDigits src 6 (ptr + 2)
          stringLoop n ptr
        else fail ptr "unknown escape sequence"
      else if b = byte '"' then .ok ptr
      else if b = byte '\n' then fail ptr "unterminated string literal"
      else stringLoop n (ptr + 1)

def getStringLiteral (start : Nat) : Parsed (Bytes × Nat) := do
  let stop ← stringLoop src (src.length + 1) start
  let ptr ← expectByte src '"' stop
  return (unescape (slice src start (ptr - 1)),ptr)

def getVariantKey (ptr : Nat) : Parsed (Key × Nat) := do
  let ptr := skipBlank src ptr
  if byteIs src (fun b => isAsciiDigit b || b = byte '-') ptr then do
    let (n,ptr) ← getNumberLiteral src ptr
    let ptr ← expectByte src ']' (skipBlank src ptr)
    return (.Number n,ptr)
  else do
    let (name,ptr) ← getIdentifier src ptr
    let ptr ← expectByte src ']' (skipBlank src ptr)
    return (.Name name,ptr)

def asciiString (name : Bytes) : String := String.ofList (name.map fun b => Char.ofNat b.toNat)

mutual

def getPattern : Nat → Nat → Parsed (Option Pattern × Nat)
  | 0, _ => .error .outOfFuel
  | fuel + 1, ptr => do
    let (d,ptr) ← match skipEol src (skipBlankInline src ptr) with
      | (true,ptr) => patternLoop fuel (.start .LineStart) (skipBlankBlock src ptr)
      | (false,ptr) => patternLoop fuel (.start .InitialLineStart) ptr
    return (d.finish src,ptr)
termination_by structural x => x

def patternLoop : Nat → Draft → Nat → Parsed (Draft × Nat)
  | 0, _, _ => .error .outOfFuel
  | fuel + 1, d, ptr =>
    if ptr < src.length then
      if src[ptr]? = some (byte '\x7b') then do
        let (expression,ptr) ← getPlaceable fuel (ptr + 1)
        patternLoop fuel (d.pushPlaceable expression) ptr
      else do
        match ← textElement src d ptr with
        | .stop ptr => return (d,ptr)
        | .next d ptr => patternLoop fuel d ptr
    else .ok (d,ptr)
termination_by structural x => x

def getPlaceable : Nat → Nat → Parsed (Expression × Nat)
  | 0, _ => .error .outOfFuel
  | fuel + 1, ptr => do
    let (expression,ptr) ← getExpression fuel (skipBlank src ptr)
    let ptr ← expectByte src '\x7d' (skipBlankInline src ptr)
    return (expression,ptr)
termination_by structural x => x

def getExpression : Nat → Nat → Parsed (Expression × Nat)
  | 0, _ => .error .outOfFuel
  | fuel + 1, ptr => do
    let (selector,ptr) ← getInlineExpression fuel ptr
    let ptr := skipBlank src ptr
    if ¬(src[ptr]? = some (byte '-') ∧ src[ptr + 1]? = some (byte '>')) then
      return (.Inline selector,ptr)
    else
      match skipEol src (skipBlankInline src (ptr + 2)) with
      | (false,ptr) => fail ptr "`->` must be followed by a newline"
      | (true,ptr) => do
        let (variants,ptr) ← getVariants fuel [] false (skipBlank src ptr)
        return (.Select selector variants,ptr)
termination_by structural x => x

def getVariants : Nat → List Variant → Bool → Nat → Parsed (List Variant × Nat)
  | 0, _, _, _ => .error .outOfFuel
  | fuel + 1, variants, hasDefault, ptr =>
    let (default,ptr) := takeByteIf src '*' ptr
    if default ∧ hasDefault then fail ptr "a select may only have one default variant"
    else
      match takeByteIf src '[' ptr with
      | (false,ptr) =>
        if default || hasDefault then .ok (variants,ptr)
        else fail ptr "a select must have a default variant, marked `*[...]`"
      | (true,ptr) => do
        let (key,ptr) ← getVariantKey src ptr
        match ← getPattern fuel ptr with
        | (none,ptr) => fail ptr "a variant must have a value"
        | (some value,ptr) =>
          getVariants fuel (variants ++ [.mk key value default]) (default || hasDefault) (skipBlank src ptr)
termination_by structural x => x

def getInlineExpression : Nat → Nat → Parsed (Inline × Nat)
  | 0, _ => .error .outOfFuel
  | fuel + 1, ptr =>
    match src[ptr]? with
    | none => fail ptr "expected an expression"
    | some b =>
      if b = byte '"' then do
        let (text,ptr) ← getStringLiteral src (ptr + 1)
        return (.Literal text,ptr)
      else if isAsciiDigit b then do
        let (n,ptr) ← getNumberLiteral src ptr
        return (.Number n,ptr)
      else if b = byte '-' then
        if byteIs src isAsciiAlphabetic (ptr + 1) then
          fail ptr "term references (`\x7b-name\x7d`) are not supported"
        else do
          let (n,ptr) ← getNumberLiteral src ptr
          return (.Number n,ptr)
      else if b = byte '$' then do
        let (name,ptr) ← getIdentifier src (ptr + 1)
        return (.Variable name,ptr)
      else if isAsciiAlphabetic b then
        let (name,next) := getIdentifierUnchecked src (ptr + 1)
        match takeByteIf src '(' (skipBlank src next) with
        | (false,_) => fail ptr ("message references and named call arguments are not " ++
            "supported; write `\x7b$name\x7d` for an argument")
        | (true,next) => getCall fuel ptr name next
      else if b = byte '\x7b' then do
        let (expression,ptr) ← getPlaceable fuel (ptr + 1)
        return (.Nested expression,ptr)
      else fail ptr "expected an expression"
termination_by structural x => x

def getCall : Nat → Nat → Bytes → Nat → Parsed (Inline × Nat)
  | 0, _, _, _ => .error .outOfFuel
  | fuel + 1, nameStart, name, ptr =>
    if name ≠ bytesOf "STREQ" then
      fail nameStart ("`" ++ asciiString name ++ "` is not a known function; the only one is `STREQ`")
    else do
      let (args,ptr) ← getArguments fuel [] (skipBlank src ptr)
      let ptr ← expectByte src ')' ptr
      match args with
      | [a,b] => return (.StrEq a b,ptr)
      | _ => fail nameStart "`STREQ` takes exactly two arguments"
termination_by structural x => x

def getArguments : Nat → List Inline → Nat → Parsed (List Inline × Nat)
  | 0, _, _ => .error .outOfFuel
  | fuel + 1, args, ptr =>
    if ptr < src.length ∧ src[ptr]? ≠ some (byte ')') then do
      let (arg,ptr) ← getInlineExpression fuel ptr
      getArguments fuel (args ++ [arg]) (skipBlank src (takeByteIf src ',' (skipBlank src ptr)).2)
    else .ok (args,ptr)
termination_by structural x => x

end

end

def parse (message : Bytes) : Parsed Pattern := do
  let src := message ++ [byte '\n']
  let (pattern,ptr) ← getPattern src (8 * src.length + 8) 0
  if ptr < src.length then
    fail ptr ("message ends here: a continuation line must be indented, and must not begin with " ++ "`.`, `[` or `*`")
  else
    match pattern with
    | none => fail 0 "message is empty"
    | some pattern => return pattern

end Frontend.DiagTemplate
