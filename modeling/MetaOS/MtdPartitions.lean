/-
src/bootable/recovery/mtdutils/mtdutils.c: the table of the flash partitions,
as it is scanned from /proc/mtd.

The table has a fixed number of entries and the scan does not look at it; a
store outside of it gives nothing.
-/
import MetaOS.CString
import MetaOS.KeyFile
import MetaOS.LineLoop

namespace MetaOS

namespace MtdPartitions

open InstallPackage MinZip KeyFile

structure MtdPartition where
  deviceIndex : Int
  size : Nat
  eraseSize : Nat
  name : Option Bytes
deriving DecidableEq

/-- The entries that are allocated. -/
abbrev nump : Nat := 32

/-- `sizeof(buf)` -/
def bufSize : Nat := 2048

abbrev Table := Vector MtdPartition nump

/-- `%d` -/
def scanD (text : Bytes) : Option (Int × Bytes) :=
  let (negative, digits) := scanSign (skipSpace text)
  (scanNumber storeInt 10 negative digits).map fun (word, rest) =>
    (toLong word, rest)

/-- `%63[^"]` -/
def scanName (text : Bytes) : Option (Bytes × Bytes) :=
  let name := (text.takeWhile fun c => c != 34).take 63
  if name = [] then none else some (name, text.drop name.length)

/-- `sscanf(bufp, "mtd%d: %x %x \"%63[^\"]", …)` with four matches. -/
def scanPartition (bufp : Bytes) : Option (Int × Nat × Nat × Bytes) := do
  let text ← scanChar 'm' (CString.cstr bufp)
  let text ← scanChar 't' text
  let text ← scanChar 'd' text
  let (mtdnum, text) ← scanD text
  let text ← scanChar ':' text
  let (mtdsize, text) ← scanX (skipSpace text)
  let (mtderasesize, text) ← scanX (skipSpace text)
  let text ← scanChar '"' (skipSpace text)
  let (mtdname, _) ← scanName text
  return (mtdnum, mtdsize, mtderasesize, mtdname)

/-- `g_mtd_state.partitions[p.deviceIndex] = p` -/
def store (table : Table) (p : MtdPartition) : Option Table :=
  if hindex : p.deviceIndex.toNat < nump then
    if 0 ≤ p.deviceIndex then some (table.set p.deviceIndex.toNat p) else none
  else none

def addPartition (state : Nat × Table) (p : MtdPartition) :
    Option (Nat × Table) :=
  (store state.2 p).map (state.1 + 1, ·)

def scanLine (state : Nat × Table) (bufp : Bytes) : Option (Nat × Table) :=
  match scanPartition bufp with
  | some (mtdnum, mtdsize, mtderasesize, mtdname) =>
      addPartition state ⟨mtdnum, mtdsize, mtderasesize, some mtdname⟩
  | none => some state

/-- Forget what the last scan found, but for the sizes. -/
def clear (table : Table) : Table :=
  table.map fun p => { p with name := none, deviceIndex := -1 }

/-- The result and the table, from what can be read of `/proc/mtd`. -/
def mtdScanPartitions (table : Table) (file : Option Bytes) :
    Option (Int × Table) :=
  match file with
  | none => some (-1, clear table)
  | some text =>
      (Lines.eachLine 10 scanLine (0, clear table)
        (text.take (bufSize - 1))).map fun (count, table) => (count, table)

def mtdFindPartitionByName (table : Table) (name : Bytes) :
    Option MtdPartition :=
  table.toList.find? fun p => decide (0 ≤ p.deviceIndex ∧ p.name = some name)

/-- The numbers of a line as texts, and the name. -/
structure ProcLine where
  index : Bytes
  size : Bytes
  eraseSize : Bytes
  name : Bytes

namespace ProcLine

/-- `mtd<index>: <size> <erasesize> "<name>"` -/
def text (l : ProcLine) : Bytes :=
  [109, 116, 100] ++ (l.index ++ 58 :: 32 :: (l.size ++ 32 ::
    (l.eraseSize ++ 32 :: 34 :: (l.name ++ [34]))))

def number (l : ProcLine) : Nat := value 10 l.index

def partition (l : ProcLine) : MtdPartition :=
  ⟨l.number, value 16 l.size, value 16 l.eraseSize, some l.name⟩

/-- A line for a partition that the table has an entry for. -/
structure Listed (l : ProcLine) : Prop where
  index : Digits 10 l.index
  number_lt : l.number < nump
  size : HexNumber l.size (value 16 l.size)
  eraseSize : HexNumber l.eraseSize (value 16 l.eraseSize)
  name_ne_nil : l.name ≠ []
  name_length : l.name.length ≤ 63
  name_char : ∀ c ∈ l.name, c ≠ 0 ∧ c ≠ 10 ∧ c ≠ 34

end ProcLine

/-- The column headers. -/
def header : Bytes := .ofString "dev:    size   erasesize  name"

def procMtd (lines : List ProcLine) : Bytes :=
  header ++ 10 :: lines.flatMap fun l => l.text ++ [10]

section Line

variable {base : Nat} {digits rest : Bytes} {l : ProcLine}

theorem skipSpace_digits (hdigits : Digits base digits) (hbase : base ≤ 16)
    (rest : Bytes) : skipSpace (digits ++ rest) = digits ++ rest := by
  obtain ⟨c, hc, hdigit⟩ := hdigits.head hbase
  obtain ⟨more, rfl⟩ : ∃ more, digits = c :: more :=
    ⟨digits.tail, List.eq_cons_of_mem_head? hc⟩
  rw [skipSpace, List.cons_append, List.dropWhile_cons_of_neg]
  rw [isSpace_of_digit hdigit]
  exact Bool.false_ne_true

theorem skipSpace_blank (rest : Bytes) :
    skipSpace (32 :: rest) = skipSpace rest :=
  List.dropWhile_cons_of_pos rfl

theorem toLong_storeInt {n : Nat} (hn : n < nump) :
    toLong (storeInt false n) = n := by
  have hlt : n < 32 := hn
  have hword : storeInt false n = n := by
    rw [storeInt, if_neg Bool.false_ne_true, Nat.min_eq_left (by omega),
      Nat.mod_eq_of_lt (by omega)]
  have hmod : n % 2 ^ 32 = n := Nat.mod_eq_of_lt (by omega)
  rw [hword, toLong, hmod, if_pos (by omega)]

theorem scanD_digits (hdigits : Digits 10 digits)
    (hlt : value 10 digits < nump) (rest : Bytes) :
    scanD (digits ++ 58 :: rest) =
      some ((value 10 digits : Int), 58 :: rest) := by
  have hsign := scanSign_eq (.plain digits) (hdigits.head (by decide))
    (58 :: rest)
  have hnumber : scanNumber storeInt 10 false (digits ++ 58 :: rest) =
      some (storeInt false (value 10 digits), 58 :: rest) :=
    scanNumber_eq_some_iff.mpr ⟨digits, rfl, hdigits, fun c hc => by
      cases hc
      decide, rfl⟩
  rw [scanD, skipSpace_digits hdigits (by decide), hsign]
  dsimp only
  rw [hnumber, Option.map_some, toLong_storeInt hlt]

theorem scanX_number {word : Nat} (hnumber : HexNumber digits word)
    (rest : Bytes) :
    scanX (skipSpace (32 :: (digits ++ 32 :: rest))) =
      some (word, 32 :: rest) := by
  have hskip := skipSpace_digits hnumber.1 le_rfl (32 :: rest)
  refine scanX_eq hnumber.taken (fun c hc => ?_) ?_
  · cases hc
    exact .inl rfl
  · rw [skipSpace_blank, hskip, hskip]

theorem scanName_name (hl : l.Listed) (rest : Bytes) :
    scanName (l.name ++ 34 :: rest) = some (l.name, 34 :: rest) := by
  have hfound : ((l.name ++ 34 :: rest).takeWhile
      fun c => c != 34).take 63 = l.name := by
    rw [List.takeWhile_append_of_pos fun c hc => by
        simpa using (hl.name_char c hc).2.2,
      List.takeWhile_cons_of_neg (by decide), List.append_nil,
      List.take_of_length_le hl.name_length]
  unfold scanName
  rw [hfound]
  dsimp only
  rw [if_neg hl.name_ne_nil, List.drop_left]

/-- No character of a line is a newline or a zero. -/
theorem char_text (hl : l.Listed) : ∀ c ∈ l.text, c ≠ 0 ∧ c ≠ 10 := by
  have hdigit : ∀ {base : Nat} {body : Bytes}, Digits base body → base ≤ 16 →
      ∀ c ∈ body, c ≠ 0 ∧ c ≠ 10 := by
    intro base body hbody hbase c hc
    have hlt := (hbody.2 c hc).trans_le hbase
    refine ⟨?_, ?_⟩
    · rintro rfl
      exact absurd hlt (by decide)
    · rintro rfl
      exact absurd hlt (by decide)
  have hindex := hdigit hl.index (by decide)
  have hsize := hdigit hl.size.1 le_rfl
  have herase := hdigit hl.eraseSize.1 le_rfl
  intro c hc
  simp only [ProcLine.text, List.mem_append, List.mem_cons] at hc
  rcases hc with (rfl | rfl | rfl | hc) | hc | rfl | rfl | hc | rfl | hc |
    rfl | rfl | hc | rfl | hc
  all_goals first
    | exact hindex c hc
    | exact hsize c hc
    | exact herase c hc
    | exact ⟨(hl.name_char c hc).1, (hl.name_char c hc).2.1⟩
    | exact absurd hc List.not_mem_nil
    | decide

theorem cstr_text (hl : l.Listed) (rest : Bytes) :
    CString.cstr (l.text ++ rest) = l.text ++ CString.cstr rest := by
  rw [CString.cstr, List.takeWhile_append_of_pos]
  · rfl
  · intro c hc
    exact bne_iff_ne.mpr (char_text hl c hc).1

theorem scanChar_char {c : Char} {b : UInt8} (hb : b.toNat = c.toNat)
    (rest : Bytes) : scanChar c (b :: rest) = some rest :=
  if_pos hb

theorem skipSpace_quote (rest : Bytes) :
    skipSpace (32 :: 34 :: rest) = 34 :: rest := by
  rw [skipSpace_blank]
  exact List.dropWhile_cons_of_neg (by decide)

theorem scanPartition_line (hl : l.Listed) (rest : Bytes) :
    scanPartition (l.text ++ rest) =
      some ((l.number : Int), value 16 l.size, value 16 l.eraseSize,
        l.name) := by
  have hindex := scanD_digits hl.index hl.number_lt
    (32 :: (l.size ++ 32 :: (l.eraseSize ++ 32 :: 34 :: (l.name ++
      34 :: CString.cstr rest))))
  have hsize := scanX_number hl.size
    (l.eraseSize ++ 32 :: 34 :: (l.name ++ 34 :: CString.cstr rest))
  have herase := scanX_number hl.eraseSize
    (34 :: (l.name ++ 34 :: CString.cstr rest))
  have hname := scanName_name hl (CString.cstr rest)
  unfold scanPartition
  rw [cstr_text hl]
  simp only [ProcLine.text, List.append_assoc, List.cons_append,
    List.nil_append, ProcLine.number]
  simp only [scanChar_char (show (109 : UInt8).toNat = 'm'.toNat from rfl),
    scanChar_char (show (116 : UInt8).toNat = 't'.toNat from rfl),
    scanChar_char (show (100 : UInt8).toNat = 'd'.toNat from rfl),
    scanChar_char (show (58 : UInt8).toNat = ':'.toNat from rfl),
    scanChar_char (show (34 : UInt8).toNat = '"'.toNat from rfl),
    Option.bind_eq_bind, Option.bind_some, hindex, hsize, herase,
    skipSpace_quote, hname]
  rfl

end Line

section Rescan

variable {text : Bytes} {table table' : Table} {count count' : Int}

/-- The entries with a name stand at their own numbers, and `table'` has them
too. -/
def Shares (table table' : Table) : Prop :=
  ∀ (i : Nat) (p : MtdPartition), table[i]? = some p → p.name ≠ none →
    p.deviceIndex = i ∧ table'[i]? = some p

theorem shares_clear (table table' : Table) :
    Shares (clear table) table' := by
  intro i p hp hname
  rw [clear, Vector.getElem?_map, Option.map_eq_some_iff] at hp
  obtain ⟨q, -, rfl⟩ := hp
  exact absurd rfl hname

theorem Shares.store (hshares : Shares table table') {p : MtdPartition}
    {next next' : Table} (hstore : store table p = some next)
    (hstore' : MtdPartitions.store table' p = some next') :
    Shares next next' := by
  unfold MtdPartitions.store at hstore hstore'
  split_ifs at hstore hstore' with hindex hpos
  cases hstore
  cases hstore'
  intro i q hq hname
  by_cases hi : i = p.deviceIndex.toNat
  · subst hi
    rw [Vector.getElem?_set_self hindex] at hq ⊢
    cases hq
    exact ⟨(Int.toNat_of_nonneg hpos).symm, rfl⟩
  · rw [Vector.getElem?_set_ne hindex (Ne.symm hi)] at hq ⊢
    exact hshares i q hq hname

theorem Shares.scanLine {state state' next next' : Nat × Table}
    (hshares : Shares state.2 state'.2) {bufp : Bytes}
    (hnext : scanLine state bufp = some next)
    (hnext' : MtdPartitions.scanLine state' bufp = some next') :
    Shares next.2 next'.2 := by
  unfold MtdPartitions.scanLine at hnext hnext'
  cases hscan : scanPartition bufp with
  | none =>
      rw [hscan] at hnext hnext'
      cases hnext
      cases hnext'
      exact hshares
  | some found =>
      rw [hscan] at hnext hnext'
      obtain ⟨table, hstore, rfl⟩ := Option.map_eq_some_iff.mp hnext
      obtain ⟨table', hstore', rfl⟩ := Option.map_eq_some_iff.mp hnext'
      exact hshares.store hstore hstore'

/-- What a scan finds does not depend on the table of the scan before. -/
theorem shares_of_scans {prior prior' : Table}
    (hscan : mtdScanPartitions prior (some text) = some (count, table))
    (hscan' : mtdScanPartitions prior' (some text) = some (count', table')) :
    Shares table table' := by
  obtain ⟨state, hloop, hstate⟩ := Option.map_eq_some_iff.mp hscan
  obtain ⟨state', hloop', hstate'⟩ := Option.map_eq_some_iff.mp hscan'
  cases hstate
  cases hstate'
  exact Lines.eachLine_rel
    (fun state state' : Nat × Table => Shares state.2 state'.2)
    hloop hloop' (shares_clear prior _)
    fun hshares hnext hnext' => hshares.scanLine hnext hnext'

end Rescan

section Scan

variable {table : Table} {lines : List ProcLine}

theorem exists_addPartition {l : ProcLine} (hl : l.Listed) (count : Nat)
    (table : Table) :
    ∃ table' : Table, addPartition (count, table) l.partition =
        some (count + 1, table') ∧
      table'[l.number]? = some l.partition ∧
      ∀ i ≠ l.number, table'[i]? = table[i]? := by
  have hlt := hl.number_lt
  refine ⟨table.set l.number l.partition hlt, ?_, ?_, fun i hi => ?_⟩
  · have hstore : store table l.partition =
        some (table.set l.number l.partition hlt) :=
      (dif_pos hlt).trans (if_pos (Int.natCast_nonneg _))
    rw [addPartition, hstore, Option.map_some]
  · exact Vector.getElem?_set_self hlt
  · exact Vector.getElem?_set_ne hlt (Ne.symm hi)

/-- The entries after partitions with different numbers have been added. -/
theorem exists_addPartitions (hlisted : ∀ l ∈ lines, l.Listed)
    (hdistinct : lines.Pairwise fun l l' => l.number ≠ l'.number)
    (count : Nat) (table : Table) :
    ∃ table' : Table,
      lines.foldlM (fun state l => addPartition state l.partition)
        (count, table) = some (count + lines.length, table') ∧
      (∀ l ∈ lines, table'[l.number]? = some l.partition) ∧
      ∀ i, (∀ l ∈ lines, l.number ≠ i) → table'[i]? = table[i]? := by
  induction lines generalizing count table with
  | nil => exact ⟨table, rfl, nofun, fun _ _ => rfl⟩
  | cons l lines ih =>
      obtain ⟨hfirst, hrest⟩ := List.pairwise_cons.mp hdistinct
      obtain ⟨next, hadd, hnext, hkept⟩ :=
        exists_addPartition (hlisted l List.mem_cons_self) count table
      obtain ⟨table', hfold, hstored, hother⟩ := ih
        (fun l hl => hlisted l (List.mem_cons_of_mem _ hl)) hrest
        (count + 1) next
      refine ⟨table', ?_, ?_, fun i hi => ?_⟩
      · rw [List.foldlM_cons, hadd, List.length_cons, Nat.add_comm
          lines.length, ← Nat.add_assoc]
        exact hfold
      · intro l' hl'
        rcases List.mem_cons.mp hl' with rfl | hl'
        · rw [hother l'.number fun l hl => (hfirst l hl).symm, hnext]
        · exact hstored l' hl'
      · rw [List.forall_mem_cons] at hi
        rw [hother i hi.2, hkept i hi.1.symm]

theorem scanLine_header (state : Nat × Table) (rest : Bytes) :
    scanLine state (header ++ 10 :: rest) = some state := by
  have hscan : scanPartition (header ++ 10 :: rest) = none := by
    rw [scanPartition, CString.cstr, show header = 100 :: header.tail from rfl,
      List.cons_append, List.takeWhile_cons_of_pos rfl]
    rfl
  rw [scanLine, hscan]

theorem eachLine_procMtd (hlisted : ∀ l ∈ lines, l.Listed)
    (state : Nat × Table) :
    Lines.eachLine 10 scanLine state (procMtd lines) =
      lines.foldlM (fun state l => addPartition state l.partition) state := by
  have hheader : (10 : UInt8) ∉ header := by decide
  have hloop := @Lines.eachLine_items _ _ _ _ 10 scanLine
    (fun l : ProcLine => l.text ++ [10])
    (fun state l => addPartition state l.partition) lines
    (fun l hl => ⟨l.text, fun hmem => (char_text (hlisted l hl) 10 hmem).2 rfl,
      rfl⟩)
    (fun l hl state rest => by
      rw [scanLine, List.append_assoc, scanPartition_line (hlisted l hl)]
      rfl)
    state []
  rw [List.append_nil] at hloop
  rw [procMtd, Lines.eachLine_line hheader, scanLine_header, Option.bind_some,
    hloop]
  cases lines.foldlM (fun state l => addPartition state l.partition) state with
  | none => rfl
  | some state' => rw [Option.bind_some, Lines.eachLine]

theorem getElem?_clear (table : Table) {i : Nat} {p : MtdPartition}
    (hp : (clear table)[i]? = some p) : p.name = none := by
  rw [clear, Vector.getElem?_map, Option.map_eq_some_iff] at hp
  obtain ⟨q, -, rfl⟩ := hp
  rfl

/-- The search finds the first entry of the table that has the name. -/
theorem findPartition_eq_some_iff (table : Table) (name : Bytes)
    (p : MtdPartition) :
    mtdFindPartitionByName table name = some p ↔
      (0 ≤ p.deviceIndex ∧ p.name = some name) ∧
        ∃ i : Nat, table[i]? = some p ∧
          ∀ j < i, ∀ q : MtdPartition, table[j]? = some q →
            ¬ (0 ≤ q.deviceIndex ∧ q.name = some name) := by
  unfold mtdFindPartitionByName
  rw [List.find?_eq_some_iff_getElem, decide_eq_true_iff]
  refine and_congr_right fun _ => exists_congr fun i => ?_
  constructor
  · rintro ⟨hi, hp, hbefore⟩
    refine ⟨?_, fun j hj q hq => ?_⟩
    · rw [← Vector.getElem?_toList, List.getElem?_eq_getElem hi, hp]
    · rw [← Vector.getElem?_toList,
        List.getElem?_eq_getElem (hj.trans hi)] at hq
      have hnot := hbefore j hj
      rwa [Option.some.inj hq, Bool.not_eq_true', decide_eq_false_iff_not]
        at hnot
  · rintro ⟨hp, hbefore⟩
    rw [← Vector.getElem?_toList] at hp
    obtain ⟨hi, hp⟩ := List.getElem?_eq_some_iff.mp hp
    refine ⟨hi, hp, fun j hj => ?_⟩
    rw [Bool.not_eq_true', decide_eq_false_iff_not]
    refine hbefore j hj _ ?_
    rw [← Vector.getElem?_toList, List.getElem?_eq_getElem (hj.trans hi)]

/-- The partition of a name is the first one that the kernel lists under it,
in the order of the device numbers. -/
theorem scan_procMtd (prior : Table) (lines : List ProcLine)
    (hlisted : ∀ l ∈ lines, l.Listed)
    (hdistinct : lines.Pairwise fun l l' => l.number ≠ l'.number)
    (hsize : (procMtd lines).length < bufSize) :
    ∃ table, mtdScanPartitions prior (some (procMtd lines)) =
        some ((lines.length : Int), table) ∧
      ∀ name p, mtdFindPartitionByName table name = some p ↔
        ∃ l ∈ lines, l.name = name ∧ l.partition = p ∧
          ∀ l' ∈ lines, l'.name = name → l.number ≤ l'.number := by
  obtain ⟨table, hfold, hstored, hother⟩ :=
    exists_addPartitions hlisted hdistinct 0 (clear prior)
  refine ⟨table, ?_, fun name p => ?_⟩
  · rw [mtdScanPartitions, List.take_of_length_le (by omega),
      eachLine_procMtd hlisted, hfold, Nat.zero_add]
    rfl
  · have hentry : ∀ {i : Nat} {q : MtdPartition},
        table[i]? = some q → q.name = some name →
          ∃ l ∈ lines, l.number = i ∧ l.partition = q ∧ l.name = name := by
      intro i q hq hname
      by_cases hsome : ∃ l ∈ lines, l.number = i
      · obtain ⟨l, hl, rfl⟩ := hsome
        obtain rfl : l.partition = q :=
          Option.some.inj ((hstored l hl).symm.trans hq)
        exact ⟨l, hl, rfl, rfl, Option.some.inj hname⟩
      · rw [hother i fun l hl heq => hsome ⟨l, hl, heq⟩] at hq
        rw [getElem?_clear prior hq] at hname
        nomatch hname
    rw [findPartition_eq_some_iff]
    constructor
    · rintro ⟨⟨-, hname⟩, i, hi, hbefore⟩
      obtain ⟨l, hl, rfl, rfl, rfl⟩ := hentry hi hname
      refine ⟨l, hl, rfl, rfl, fun l' hl' hname' => ?_⟩
      by_contra hlt
      exact hbefore l'.number (not_le.mp hlt) _ (hstored l' hl')
        ⟨Int.natCast_nonneg _, congrArg some hname'⟩
    · rintro ⟨l, hl, rfl, rfl, hfirst⟩
      refine ⟨⟨Int.natCast_nonneg _, rfl⟩, l.number, hstored l hl,
        fun j hj q hq => ?_⟩
      rintro ⟨-, hname⟩
      obtain ⟨l', hl', rfl, -, hname'⟩ := hentry hq hname
      exact absurd (hfirst l' hl' hname') (not_le.mpr hj)

end Scan

namespace MtdPartitionsWitness

theorem digits {base : Nat} {body : Bytes} (hne : body ≠ [])
    (hall : (body.all fun c => decide (digitValue c < base)) = true) :
    Digits base body :=
  ⟨hne, fun c hc => of_decide_eq_true (List.all_eq_true.mp hall c hc)⟩

theorem listed {l : ProcLine}
    (hnumbers : (l.index ≠ [] ∧ l.size ≠ [] ∧ l.eraseSize ≠ []) ∧
      l.number < nump ∧ value 16 l.size < 2 ^ 32 ∧
      value 16 l.eraseSize < 2 ^ 32)
    (hdigits : ((l.index.all fun c => decide (digitValue c < 10)) &&
      (l.size ++ l.eraseSize).all fun c => decide (digitValue c < 16)) = true)
    (hname : l.name ≠ [] ∧ l.name.length ≤ 63)
    (hchars : (l.name.all fun c => c != 0 && (c != 10 && c != 34)) = true) :
    l.Listed := by
  rw [Bool.and_eq_true, List.all_append, Bool.and_eq_true] at hdigits
  refine ⟨digits hnumbers.1.1 hdigits.1, hnumbers.2.1,
    ⟨digits hnumbers.1.2.1 hdigits.2.1, rfl, hnumbers.2.2.1⟩,
    ⟨digits hnumbers.1.2.2 hdigits.2.2, rfl, hnumbers.2.2.2⟩, hname.1,
    hname.2, fun c hc => ?_⟩
  simpa using List.all_eq_true.mp hchars c hc

def lines : List ProcLine :=
  [⟨.ofString "0", .ofString "00080000", .ofString "00020000",
      .ofString "bootloader"⟩,
    ⟨.ofString "4", .ofString "04000000", .ofString "00020000",
      .ofString "system"⟩]

theorem lines_listed : ∀ l ∈ lines, l.Listed := by
  intro l hl
  rcases List.mem_cons.mp hl with rfl | hl
  · exact listed (by decide) (by decide) (by decide) (by decide)
  · rw [List.mem_singleton.mp hl]
    exact listed (by decide) (by decide) (by decide) (by decide)

/-- The table before the first scan. -/
def empty : Table := Vector.replicate nump ⟨0, 0, 0, none⟩

theorem system_found :
    ∃ table, mtdScanPartitions empty (some (procMtd lines)) =
        some (2, table) ∧
      mtdFindPartitionByName table (.ofString "system") =
        some ⟨4, 0x4000000, 0x20000, some (.ofString "system")⟩ := by
  obtain ⟨table, hscan, hfind⟩ :=
    scan_procMtd empty lines lines_listed (by decide) (by decide)
  refine ⟨table, hscan, (hfind _ _).mpr ⟨lines[1],
    List.getElem_mem (by decide), rfl, rfl, ?_⟩⟩
  decide

end MtdPartitionsWitness

end MtdPartitions

end MetaOS
