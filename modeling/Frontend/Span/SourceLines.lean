import Frontend.Library.Pointwise
import Frontend.Serialize.Leb128
import Mathlib.Data.List.Perm.Subperm
import Mathlib.Data.List.Nodup

namespace Frontend.LineTables

open Library Serialize List

abbrev RelativeBytePos := UInt32

def maxFileSize : Nat := 2 ^ 32 - 2

structure MultiByteChar where
  pos : RelativeBytePos
  bytes : Nat
deriving DecidableEq, Repr

structure Analysis where
  lines : List RelativeBytePos
  multiByteChars : List MultiByteChar

def analyzeGeneric : List Char → Nat → Analysis → Analysis
  | [], _, a => a
  | c :: src, i, a =>
    if c = '\n' then
      analyzeGeneric src (i + 1) { a with lines := a.lines ++ [UInt32.ofNat i + 1] }
    else if c.toNat ≥ 128 then
      analyzeGeneric src (i + c.utf8Size) { a with multiByteChars := a.multiByteChars ++ [⟨UInt32.ofNat i,c.utf8Size⟩] }
    else analyzeGeneric src (i + 1) a

def byteLen (src : List Char) : Nat := (src.map Char.utf8Size).sum

def popAtEnd (lines : List RelativeBytePos) (len : Nat) : List RelativeBytePos :=
  if lines.getLast? = some (UInt32.ofNat len) then lines.dropLast else lines

def analyzeSourceFile (src : List Char) : Analysis :=
  let a := analyzeGeneric src 0 ⟨[0],[]⟩
  { a with lines := popAtEnd a.lines (byteLen src) }

structure SourceFileDiffs where
  bytesPerDiff : Nat
  numDiffs : Nat
  rawDiffs : List UInt8

inductive SourceFileLines where
  | Lines (lines : List RelativeBytePos)
  | Diffs (diffs : SourceFileDiffs)

structure SourceFile (H T : Type) where
  header : H
  lines : SourceFileLines
  trailer : T

def diffs : List RelativeBytePos → List RelativeBytePos
  | fst :: snd :: lines => (snd - fst) :: diffs (snd :: lines)
  | _ => []

def maxLineLength (lines : List RelativeBytePos) : Nat := ((diffs lines).map UInt32.toNat).foldl max 0

def bytesPerDiff (maxLineLength : Nat) : Nat :=
  if maxLineLength ≤ 0xFF then 1 else if maxLineLength ≤ 0xFFFF then 2 else 4

def encodeLines : SourceFileLines → Option (List UInt8)
  | .Diffs _ => none
  | .Lines [] => some (emitU32 0)
  | .Lines (first :: lines) =>
    let width := bytesPerDiff (maxLineLength (first :: lines))
    if first ≠ 0 then none
    else
      some (emitU32 (UInt32.ofNat (first :: lines).length) ++ UInt8.ofNat width ::
        ((diffs (first :: lines)).map UInt32.toNat).flatMap (leBytes width))

def decodeLines (bytes : List UInt8) : Option (SourceFileLines × List UInt8) := do
  let (numLines,bytes) ← readU32 bytes
  if numLines > 0 then
    match bytes with
    | [] => none
    | width :: bytes =>
      let numDiffs := numLines.toNat - 1
      let len := width.toNat * numDiffs
      if len > bytes.length then none
      else some (.Diffs ⟨width.toNat,numDiffs,bytes.take len⟩,bytes.drop len)
  else some (.Lines [],bytes)

def runningSums : RelativeBytePos → List Nat → List RelativeBytePos
  | _, [] => []
  | lineStart, diff :: diffs => (lineStart + UInt32.ofNat diff) :: runningSums (lineStart + UInt32.ofNat diff) diffs

def SourceFileDiffs.toLines (d : SourceFileDiffs) : Option (List RelativeBytePos) :=
  if d.numDiffs ≠ d.rawDiffs.length / d.bytesPerDiff then none
  else
    match d.bytesPerDiff with
    | 1 => some (0 :: runningSums 0 (d.rawDiffs.map UInt8.toNat))
    | 2 => do
      let diffs ← (List.range d.numDiffs).mapM (readLe d.rawDiffs 2)
      some (0 :: runningSums 0 diffs)
    | 4 => do
      let diffs ← (List.range d.numDiffs).mapM (readLe d.rawDiffs 4)
      some (0 :: runningSums 0 diffs)
    | _ => none

def convertDiffsToLinesFrozen : SourceFileLines → Option (List RelativeBytePos)
  | .Lines lines => some lines
  | .Diffs diffs => diffs.toLines

variable {H T : Type} (headers : Codec H) (trailers : Codec T)

def encode (file : SourceFile H T) : Option (List UInt8) := do
  let lines ← encodeLines file.lines
  some (headers.encode file.header ++ lines ++ trailers.encode file.trailer)

def decode (bytes : List UInt8) : Option (SourceFile H T × List UInt8) := do
  let (header,bytes) ← headers.decode bytes
  let (lines,bytes) ← decodeLines bytes
  let (trailer,bytes) ← trailers.decode bytes
  some (⟨header,lines,trailer⟩,bytes)

structure LineTable where
  lines : List RelativeBytePos
  head_eq : ∀ first ∈ lines.head?, first = 0
  sorted : lines.Pairwise (· < ·)
  le_max : ∀ line ∈ lines, line.toNat ≤ maxFileSize

theorem LineTable.length_lt (table : LineTable) : table.lines.length < 2 ^ 32 := by
  have hs : (table.lines.map UInt32.toNat).Pairwise (· < ·) := pairwise_map.2 table.sorted
  have hno : (table.lines.map UInt32.toNat).Nodup := hs.imp fun h => Nat.ne_of_lt h
  have hsu : table.lines.map UInt32.toNat ⊆ List.range (maxFileSize + 1) := by
    intro n hn
    obtain ⟨line,hl,rfl⟩ := mem_map.1 hn
    exact mem_range.2 (Nat.lt_succ_of_le (table.le_max line hl))
  have hle := (hno.subperm hsu).length_le
  rw [length_map,length_range] at hle
  exact hle.trans_lt (by decide)

theorem runningSums_diffs (first : RelativeBytePos) (lines : List RelativeBytePos) :
    runningSums first ((diffs (first :: lines)).map UInt32.toNat) = lines := by
  induction lines generalizing first with
  | nil => rfl
  | cons snd lines ih =>
    have ha : first + (snd - first) = snd := by rw [UInt32.add_comm,UInt32.sub_add_cancel]
    simp [diffs,runningSums,ha,ih]

theorem length_diffs (first : RelativeBytePos) (lines : List RelativeBytePos) :
    (diffs (first :: lines)).length = lines.length := by
  induction lines generalizing first with
  | nil => rfl
  | cons snd lines ih => simp [diffs,ih]

theorem lt_pow_bytesPerDiff (hn : n < 2 ^ 32) (h : n ≤ m) : n < 256 ^ bytesPerDiff m := by
  unfold bytesPerDiff
  split
  · omega
  · split
    · omega
    · exact hn

theorem diffs_fit (lines : List RelativeBytePos) :
    ∀ n ∈ (diffs lines).map UInt32.toNat, n < 256 ^ bytesPerDiff (maxLineLength lines) := by
  intro n hn
  obtain ⟨d,-,rfl⟩ := mem_map.1 hn
  exact lt_pow_bytesPerDiff d.toNat_lt ((le_foldl_max _ 0).2 _ hn)

theorem bytesPerDiff_cases (m : Nat) : bytesPerDiff m = 1 ∨ bytesPerDiff m = 2 ∨ bytesPerDiff m = 4 := by
  unfold bytesPerDiff
  split
  · exact .inl rfl
  · split
    · exact .inr (.inl rfl)
    · exact .inr (.inr rfl)

theorem flatMap_leBytes_one {vs : List Nat} (h : ∀ v ∈ vs, v < 256 ^ 1) :
    (vs.flatMap (leBytes 1)).map UInt8.toNat = vs := by
  induction vs with
  | nil => rfl
  | cons v vs ih =>
    have hv : v % 256 = v := Nat.mod_eq_of_lt (h v (.head _))
    have ih' := ih fun v' hv' => h v' (.tail _ hv')
    rw [flatMap_cons,map_append,ih',leBytes,leBytes,hv]
    simp [hv]

theorem toLines_encoded (lines : List RelativeBytePos) :
    SourceFileDiffs.toLines ⟨bytesPerDiff (maxLineLength (0 :: lines)),lines.length,
      ((diffs (0 :: lines)).map UInt32.toNat).flatMap (leBytes (bytesPerDiff (maxLineLength (0 :: lines))))⟩ =
      some (0 :: lines) := by
  have hf := diffs_fit (0 :: lines)
  set ds := (diffs (0 :: lines)).map UInt32.toNat with hds
  have hl : ds.length = lines.length := by rw [hds,length_map,length_diffs]
  have hs : runningSums 0 ds = lines := runningSums_diffs 0 lines
  have hn (width : Nat) (hw : 0 < width) : lines.length = (ds.flatMap (leBytes width)).length / width := by
    rw [length_flatMap_leBytes,Nat.mul_div_cancel_left _ hw,hl]
  unfold SourceFileDiffs.toLines
  rcases bytesPerDiff_cases (maxLineLength (0 :: lines)) with hw | hw | hw
  · rw [hw] at hf
    simp only [hw]
    rw [if_neg (not_not.2 (hn 1 (by decide))),flatMap_leBytes_one hf,hs]
  · rw [hw] at hf
    simp only [hw]
    rw [if_neg (not_not.2 (hn 2 (by decide))),← hl,mapM_readLe hf]
    simp [hs]
  · rw [hw] at hf
    simp only [hw]
    rw [if_neg (not_not.2 (hn 4 (by decide))),← hl,mapM_readLe hf]
    simp [hs]

theorem decodeLines_diffs (hp : 0 < num) (hl : raw.length = width.toNat * (num.toNat - 1)) (rest : List UInt8) :
    decodeLines (emitU32 num ++ width :: (raw ++ rest)) = some (.Diffs ⟨width.toNat,num.toNat - 1,raw⟩,rest) := by
  rw [decodeLines,readU32_emitU32]
  simp [hp,← hl]

theorem decodeLines_encodeLines (table : LineTable) (rest : List UInt8) :
    ∃ bytes lines, encodeLines (.Lines table.lines) = some bytes ∧ decodeLines (bytes ++ rest) = some (lines,rest) ∧
      convertDiffsToLinesFrozen lines = some table.lines := by
  have hlt := table.length_lt
  have hh := table.head_eq
  cases ht : table.lines with
  | nil =>
    refine ⟨emitU32 0,.Lines [],rfl,?_,rfl⟩
    simp [decodeLines,readU32_emitU32]
  | cons first lines =>
    rw [ht] at hh hlt
    obtain rfl : first = 0 := hh first rfl
    set width := bytesPerDiff (maxLineLength (0 :: lines)) with hw
    set raw := ((diffs (0 :: lines)).map UInt32.toNat).flatMap (leBytes width) with hr
    have hw' : (UInt8.ofNat width).toNat = width := by
      refine toNat_ofNat_of_lt ?_
      rcases bytesPerDiff_cases (maxLineLength (0 :: lines)) with h | h | h <;> omega
    have hn : (UInt32.ofNat (0 :: lines).length).toNat = lines.length + 1 := Nat.mod_eq_of_lt hlt
    have hl : raw.length = width * lines.length := by rw [hr,length_flatMap_leBytes,length_map,length_diffs]
    have hp : UInt32.ofNat (0 :: lines).length > 0 := by
      rw [gt_iff_lt,UInt32.lt_iff_toNat_lt,hn]
      exact Nat.succ_pos _
    refine ⟨emitU32 (UInt32.ofNat (0 :: lines).length) ++ UInt8.ofNat width :: raw,
      .Diffs ⟨width,lines.length,raw⟩,?_,?_,toLines_encoded lines⟩
    · simp [encodeLines,hw,hr]
    · have hr' : raw.length = (UInt8.ofNat width).toNat * ((UInt32.ofNat (0 :: lines).length).toNat - 1) := by
        rw [hw',hn,hl,Nat.add_sub_cancel]
      have hd := decodeLines_diffs hp hr' rest
      rw [hw',hn,Nat.add_sub_cancel] at hd
      simpa using hd

theorem line_table_round_trip (table : LineTable) (header : H) (trailer : T) (rest : List UInt8) :
    ∃ bytes file, encode headers trailers ⟨header,.Lines table.lines,trailer⟩ = some bytes ∧
      decode headers trailers (bytes ++ rest) = some (file,rest) ∧
      file.header = headers.reread header ∧ file.trailer = trailers.reread trailer ∧
      convertDiffsToLinesFrozen file.lines = some table.lines := by
  obtain ⟨bytes,lines,he,hd,hl⟩ := decodeLines_encodeLines table (trailers.encode trailer ++ rest)
  refine ⟨headers.encode header ++ bytes ++ trailers.encode trailer,
    ⟨headers.reread header,lines,trailers.reread trailer⟩,?_,?_,
    rfl,rfl,hl⟩
  · simp [encode,he]
  · have ha : headers.encode header ++ bytes ++ trailers.encode trailer ++ rest =
        headers.encode header ++ (bytes ++ (trailers.encode trailer ++ rest)) := by
      simp
    rw [ha,decode,headers.decode_encode]
    simp [hd,trailers.decode_encode]

def plainNumber : Codec UInt32 := ⟨emitU32,readU32,id,readU32_emitU32⟩

-- A crate number, which the reading session replaces by its own for that crate.
def crateNumber (ours : UInt32 → UInt32) : Codec UInt32 where
  encode := emitU32
  decode bytes := (readU32 bytes).map (Prod.map ours id)
  reread := ours
  decode_encode n rest := by simp [readU32_emitU32]

def wideTable : LineTable where
  lines := [0,300,70000]
  head_eq := by simp
  sorted := by decide
  le_max := by simp [maxFileSize]

theorem wideTable_round_trip : ∃ bytes file, encode plainNumber (crateNumber (· + 2)) ⟨7,.Lines [0,300,70000],9⟩ =
    some bytes ∧
      bytes.length = 12 ∧ decode plainNumber (crateNumber (· + 2)) (bytes ++ [5]) = some (file,[5]) ∧
      file.header = 7 ∧ file.trailer = 11 ∧ convertDiffsToLinesFrozen file.lines = some [0,300,70000] := by
  obtain ⟨bytes,file,he,hd,hh,ht,hl⟩ := line_table_round_trip plainNumber (crateNumber (· + 2)) wideTable 7 9 [5]
  have hb : (encode plainNumber (crateNumber (· + 2)) ⟨7,.Lines [0,300,70000],9⟩).map length = some 12 := by
    decide +kernel
  have hb' : bytes.length = 12 := by
    rw [show [0,300,70000] = wideTable.lines from rfl,he] at hb
    exact Option.some.inj hb
  exact ⟨bytes,file,he,hb',hd,hh,ht,hl⟩

structure Scanned (i : Nat) (lines : List RelativeBytePos) : Prop where
  head : lines.head? = some 0
  sorted : lines.Pairwise (· < ·)
  le : ∀ line ∈ lines, line.toNat ≤ i

theorem Scanned.mono (h : Scanned i lines) (hij : i ≤ j) : Scanned j lines :=
  ⟨h.head,h.sorted,fun line hl => (h.le line hl).trans hij⟩

theorem Scanned.newline (h : Scanned i lines) (hi : i + 1 < 2 ^ 32) :
    Scanned (i + 1) (lines ++ [UInt32.ofNat i + 1]) := by
  have hn : (UInt32.ofNat i + 1).toNat = i + 1 := by
    rw [UInt32.toNat_add,UInt32.toNat_ofNat_of_lt' (Nat.lt_of_succ_lt hi)]
    exact Nat.mod_eq_of_lt hi
  refine ⟨?_,?_,?_⟩
  · rw [head?_append,h.head]
    rfl
  · refine pairwise_append.2 ⟨h.sorted,pairwise_singleton _ _,fun a ha b hb => ?_⟩
    obtain rfl := mem_singleton.1 hb
    rw [UInt32.lt_iff_toNat_lt,hn]
    exact Nat.lt_succ_of_le (h.le a ha)
  · exact forall_mem_append.mpr ⟨fun line hl => (h.le line hl).trans (Nat.le_succ i),forall_mem_singleton.mpr hn.le⟩

theorem Scanned.analyzeGeneric (h : Scanned i a.lines) (hl : i + byteLen src ≤ len) (hm : len ≤ maxFileSize) :
    Scanned len (analyzeGeneric src i a).lines := by
  induction src generalizing i a with
  | nil => exact h.mono (by simpa [byteLen] using hl)
  | cons c src ih =>
    have hs := c.utf8Size_pos
    have hc : byteLen (c :: src) = c.utf8Size + byteLen src := by simp [byteLen]
    have hm' : maxFileSize = 4294967294 := rfl
    unfold LineTables.analyzeGeneric
    split
    · exact ih (h.newline (by omega)) (by omega)
    · split
      · exact ih (h.mono (Nat.le_add_right ..)) (by omega)
      · exact ih (h.mono (Nat.le_succ i)) (by omega)

-- A character of the text and the byte it starts at.
def At (src : List Char) (c : Char) (k : Nat) : Prop := ∃ pre post, src = pre ++ c :: post ∧ byteLen pre = k

theorem at_cons {c d : Char} {k : Nat} : At (d :: src) c k ↔ d = c ∧ 0 = k ∨ ∃ j, At src c j ∧ d.utf8Size + j = k := by
  -- Either nothing precedes the character or the first one does.
  simp only [At,cons_eq_append_iff,or_and_right,exists_or]
  refine or_congr (by simp [byteLen,eq_comm]) ?_
  simp only [byteLen]
  grind

theorem analyzeGeneric_records (src : List Char) (i : Nat) (a : Analysis) :
    (∀ line, line ∈ (analyzeGeneric src i a).lines ↔ line ∈ a.lines ∨ ∃ k, At src '\n' k ∧
    line = UInt32.ofNat (i + k) + 1) ∧
    ∀ wide, wide ∈ (analyzeGeneric src i a).multiByteChars ↔ wide ∈ a.multiByteChars ∨
      ∃ c k, At src c k ∧ 128 ≤ c.toNat ∧ wide = ⟨UInt32.ofNat (i + k),c.utf8Size⟩ := by
  induction src generalizing i a with
  | nil => simp [analyzeGeneric,At]
  | cons d src ih =>
    have hs (h : ¬ d.toNat ≥ 128) : d.utf8Size = 1 := Char.utf8Size_eq_one_iff.mpr (Nat.le_of_lt_succ (Nat.not_le.mp h))
    unfold analyzeGeneric
    split_ifs with hd hw
    · rw [← hs (by simp [hd])]
      simp [ih,at_cons,or_and_right,exists_or,or_assoc,Nat.add_assoc,-UInt32.ofNat_add,hd]
    · simp [ih,at_cons,or_and_right,exists_or,or_assoc,Nat.add_assoc,-UInt32.ofNat_add,hd,hw]
    · simp [ih,at_cons,or_and_right,exists_or,Nat.add_assoc,-UInt32.ofNat_add,hd,hw,hs hw]

theorem Scanned.mem_popAtEnd {line : RelativeBytePos} (h : Scanned len lines) (hm : len ≤ maxFileSize) :
    line ∈ popAtEnd lines len ↔ line.toNat < len ∧ line ∈ lines := by
  have he : (UInt32.ofNat len).toNat = len := UInt32.toNat_ofNat_of_lt' (hm.trans_lt (by decide))
  rcases eq_nil_or_concat' lines with rfl | ⟨init,last,rfl⟩
  · simp [popAtEnd]
  have hl := h.le last (by simp)
  have hi a (ha : a ∈ init) : a.toNat < len :=
    (UInt32.lt_iff_toNat_lt.mp ((pairwise_append.1 h.sorted).2.2 a ha last (by simp))).trans_le hl
  simp only [popAtEnd,getLast?_concat,Option.some.injEq,dropLast_concat,← UInt32.toNat_inj,he]
  split <;> grind

theorem popAtEnd_prefix (lines : List RelativeBytePos) (len : Nat) : popAtEnd lines len <+: lines := by
  unfold popAtEnd
  split
  · exact dropLast_prefix lines
  · exact prefix_rfl

theorem analysis_exact (src : List Char) (hm : byteLen src ≤ maxFileSize) :
    (∃ table : LineTable, table.lines = (analyzeSourceFile src).lines) ∧
    (∀ line, line ∈ (analyzeSourceFile src).lines ↔ line.toNat < byteLen src ∧
    (line = 0 ∨ ∃ k, At src '\n' k ∧ line = UInt32.ofNat k + 1)) ∧
    ∀ wide, wide ∈ (analyzeSourceFile src).multiByteChars ↔
      ∃ c k, At src c k ∧ 128 ≤ c.toNat ∧ wide = ⟨UInt32.ofNat k,c.utf8Size⟩ := by
  have hs : Scanned (byteLen src) (analyzeGeneric src 0 ⟨[0],[]⟩).lines :=
    Scanned.analyzeGeneric ⟨rfl,pairwise_singleton _ _,by simp⟩ (by simp) hm
  obtain ⟨hl,hw⟩ := analyzeGeneric_records src 0 ⟨[0],[]⟩
  have hp := popAtEnd_prefix (analyzeGeneric src 0 ⟨[0],[]⟩).lines (byteLen src)
  refine ⟨⟨⟨_,fun first hf => ?_,hs.sorted.sublist hp.sublist,fun line hl => (hs.le line (hp.subset hl)).trans hm⟩,rfl⟩,
    fun line => ?_,fun wide => ?_⟩
  · obtain ⟨_,ht⟩ := hp
    have hh := hs.head
    rw [← ht,head?_append,Option.mem_def.1 hf] at hh
    exact Option.some.inj hh
  · rw [analyzeSourceFile,hs.mem_popAtEnd hm,hl]
    simp
  · rw [analyzeSourceFile,hw]
    simp

theorem two_lines_analyzed : byteLen ['a','\n','é'] ≤ maxFileSize ∧
    (∃ table : LineTable, table.lines = (analyzeSourceFile ['a','\n','é']).lines) ∧
      2 ∈ (analyzeSourceFile ['a','\n','é']).lines ∧ ⟨2,2⟩ ∈ (analyzeSourceFile ['a','\n','é']).multiByteChars := by
  obtain ⟨ht,hl,hw⟩ := analysis_exact ['a','\n','é'] (by decide)
  refine ⟨by decide,ht,(hl 2).mpr ⟨by decide,.inr ⟨1,⟨['a'],['é'],rfl,rfl⟩,rfl⟩⟩,(hw _).mpr ?_⟩
  exact ⟨'é',2,⟨['a','\n'],[],rfl,rfl⟩,by decide,rfl⟩

end Frontend.LineTables
