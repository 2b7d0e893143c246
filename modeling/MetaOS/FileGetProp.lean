/-
bootable/recovery/updater/install.c: `FileGetPropFn` on the buffer that it
reads a property file into.  `strtok` cuts the buffer into lines, and pointers
that move towards each other cut a line into its key and its value.  A pointer
is an offset in the buffer here, and nothing is what a use of memory outside
the buffer comes to.  `reference` says line by line what the file means.
-/
import MetaOS.ArgumentCounts

namespace MetaOS

namespace FileGetProp

open Bytes CString Edify Updater

/-- The characters of `while (*p && isspace(*p)) ++p`. -/
def spaces : Bytes → Option Nat
  | [] => none
  | c :: rest =>
      if c ≠ 0 ∧ isSpace c then (spaces rest).map (· + 1) else some 0

def skipSpace (buf : Bytes) (p : Nat) : Option Nat :=
  (spaces (buf.drop p)).map (p + ·)

/-- `while (last > start && isspace(*last)) --last`, where `last` is the
character in front of `stop`; the result is the place of `last[1]`. -/
def trimBack (buf : Bytes) (start : Nat) : (stop : Nat) → Option Nat
  | 0 => some 0
  | last + 1 =>
      if start < last then
        match buf[last]? with
        | none => none
        | some c => if isSpace c then trimBack buf start last
            else some (last + 1)
      else some (last + 1)

/-- `buf[p] = '\0'` -/
def putNul (buf : Bytes) (p : Nat) : Option Bytes :=
  if p < buf.length then some (buf.set p 0) else none

def strchr (text : Bytes) (c : UInt8) : Option Nat :=
  if c ∈ text then some (text.takeWhile (· != c)).length else none

/-- How the body of the loop ends for a line. -/
inductive Line
  | passed
  | malformed (line : Bytes)
  | found (value : Bytes)
  deriving DecidableEq, Repr

/-- The body of the loop. -/
def readLine (key buf : Bytes) (line : Nat) : Option (Line × Bytes) := do
  let line ← skipSpace buf line
  let c ← buf[line]?
  if c = 0 ∨ c = 35 then pure (.passed, buf)
  else
    match strchr (cstr (buf.drop line)) 61 with
    | none => pure (.malformed (cstr (buf.drop line)), buf)
    | some off =>
        let equal := line + off
        let keyEnd ← trimBack buf line equal
        let buf ← putNul buf keyEnd
        if key ≠ cstr (buf.drop line) then pure (.passed, buf)
        else
          let valStart ← skipSpace buf (equal + 1)
          let valEnd ← trimBack buf valStart
            (valStart + (cstr (buf.drop valStart)).length)
          let buf ← putNul buf valEnd
          pure (.found (cstr (buf.drop valStart)), buf)

/-- `strtok` for the lines: where the next one starts, the buffer, and where
the call behind it will go on. -/
def nextLine (buf : Bytes) (pos : Nat) : Option (Nat × Bytes × Nat) :=
  (strtok (· == 10) buf pos).map fun call =>
    (pos + ((cstr (buf.drop pos)).takeWhile (· == 10)).length, call.2)

/-- The loop from a line on, for as many lines as there may be. -/
def readLines (key : Bytes) : Nat → (buf : Bytes) → (line pos : Nat) →
    Option Line
  | 0, _, _, _ => none
  | count + 1, buf, line, pos => do
      match ← readLine key buf line with
      | (.passed, buf) =>
          match nextLine buf pos with
          | none => pure .passed
          | some (line, buf, pos) => readLines key count buf line pos
      | (last, _) => pure last

/-- What the loop makes of a file.  The first line is used whether there is
one or not. -/
def searchFile (key file : Bytes) : Option Line := do
  let buffer := file ++ [0]
  let (line, buffer, pos) ← nextLine buffer 0
  readLines key buffer.length buffer line pos

/-- The end of the function, from the loop on. -/
def search (name filename key file : Bytes) : Action Outcome :=
  match searchFile key file with
  | none => pure .undefined
  | some .passed => pure (stringValue (some []))
  | some (.found value) => pure (stringValue (some value))
  | some (.malformed line) =>
      errorAbort (name ++ .ofString ": malformed line " ++ quoted line ++
        .ofString ": " ++ filename ++ .ofString " not a prop file?")

def readFile (name filename key : Bytes) : Action Outcome := do
  match ← ask (.stat filename) with
  | none =>
      let (error : Bytes) ← ask .strerror
      errorAbort (name ++ .ofString ": failed to stat " ++ quoted filename ++
        .ofString ": " ++ error)
  | some size =>
      if MAX_FILE_GETPROP_SIZE < size then
        errorAbort (filename ++ .ofString " too large for " ++ name ++
          .ofString " (max " ++ decimal MAX_FILE_GETPROP_SIZE ++
          .ofString ")")
      else
        match ← ask (.fopenRead filename) with
        | none =>
            let (error : Bytes) ← ask .strerror
            errorAbort (name ++ .ofString ": failed to open " ++ filename ++
              .ofString ": " ++ error)
        | some pieces =>
            let file := (List.flatten pieces).take size
            let _ ← ask .fclose
            if file.length ≠ size then
              errorAbort (name ++ .ofString ": failed to read " ++
                decimal (size + 1) ++ .ofString " bytes from " ++ filename)
            else search name filename key file

def FileGetPropFn (name : Bytes) : Body Outcome := do
  match ← readArgs 2 with
  | some [filename, key] => readFile name filename key
  | _ => pure null

def trim (text : Bytes) : Bytes := trimEnd (text.dropWhile isSpace)

/-- The value of a key, the empty one if no line has the key, or nothing if a
line that is neither blank nor a comment has no '='. -/
def lookup (key : Bytes) : List Bytes → Option Bytes
  | [] => some []
  | line :: lines =>
      if trim line = [] ∨ (trim line).head? = some 35 then lookup key lines
      else if 61 ∉ line then none
      else if trim (line.takeWhile (· != 61)) = key then
        some (trim (line.dropWhile (· != 61)).tail)
      else lookup key lines

def reference (key file : Bytes) : Option Bytes :=
  lookup key (file.splitOn 10)

theorem spaces_eq {text : Bytes} (htext : (0 : UInt8) ∉ text) (rest : Bytes) :
    spaces (text ++ 0 :: rest) = some (text.takeWhile isSpace).length := by
  induction text with
  | nil => rfl
  | cons c text ih =>
      rw [List.mem_cons, not_or] at htext
      have hc : c ≠ 0 := fun hzero => htext.1 hzero.symm
      rw [List.cons_append, spaces, ih htext.2]
      by_cases hspace : isSpace c = true
      · rw [if_pos ⟨hc, hspace⟩, List.takeWhile_cons_of_pos hspace]
        rfl
      · rw [if_neg (fun h => hspace h.2), List.takeWhile_cons_of_neg hspace]
        rfl

section Pointers

variable {buf text rest : Bytes} {p : Nat}

theorem drop_add_of_drop {more : Bytes} (hbuf : buf.drop p = text ++ more) :
    buf.drop (p + text.length) = more := by
  rw [← List.drop_drop, hbuf, List.drop_left]

theorem skipSpace_eq (hbuf : buf.drop p = text ++ 0 :: rest)
    (htext : (0 : UInt8) ∉ text) :
    skipSpace buf p = some (p + (text.takeWhile isSpace).length) ∧
      buf.drop (p + (text.takeWhile isSpace).length) =
        text.dropWhile isSpace ++ 0 :: rest := by
  refine ⟨?_, ?_⟩
  · rw [skipSpace, hbuf, spaces_eq htext]
    rfl
  · refine drop_add_of_drop ?_
    rw [hbuf, ← List.append_assoc, List.takeWhile_append_dropWhile]

/-- The first character stays, as the pointers do not pass each other; it is
none of the white space anyway. -/
theorem trimBack_eq {more : Bytes} (hbuf : buf.drop p = text ++ more)
    (hhead : ∀ c ∈ text.head?, isSpace c = false) :
    trimBack buf p (p + text.length) =
      some (p + (trimEnd text).length) := by
  induction text using List.reverseRecOn generalizing more with
  | nil =>
      cases p with
      | zero => rfl
      | succ p =>
          change trimBack buf (p + 1) (p + 1) = _
          rw [trimBack, if_neg (by omega)]
          rfl
  | append_singleton text c ih =>
      have hlast : buf[p + text.length]? = some c := by
        rw [← List.getElem?_drop, hbuf, List.append_assoc,
          List.getElem?_append_right le_rfl, Nat.sub_self]
        rfl
      rw [List.length_append, List.length_singleton, ← Nat.add_assoc,
        trimBack]
      cases text with
      | nil =>
          have hc : isSpace c = false := hhead c rfl
          rw [if_neg (by simp), trimEnd, List.nil_append,
            List.rdropWhile_singleton, if_neg (by simp [hc])]
          rfl
      | cons first text =>
          rw [if_pos (by simp), hlast]
          dsimp only
          by_cases hc : isSpace c = true
          · rw [if_pos hc, trimEnd, List.rdropWhile_concat_pos _ _ _ hc]
            rw [List.append_assoc] at hbuf
            exact ih hbuf fun d hd => hhead d hd
          · rw [if_neg hc, trimEnd, List.rdropWhile_concat_neg _ _ _ hc,
              List.length_append, List.length_singleton, ← Nat.add_assoc]

/-- A NUL behind a part of what stands at `p`. -/
theorem putNul_eq {more : Bytes} (hbuf : buf.drop p = text ++ more)
    (hmore : more ≠ []) :
    ∃ buf', putNul buf (p + text.length) = some buf' ∧
      buf'.drop p = text ++ 0 :: more.tail ∧ buf'.length = buf.length ∧
      ∀ q, p + text.length < q → buf'.drop q = buf.drop q := by
  have hlength := congrArg List.length hbuf
  have hpos := List.length_pos_iff.mpr hmore
  rw [List.length_drop, List.length_append] at hlength
  refine ⟨buf.set (p + text.length) 0, if_pos (by omega), ?_,
    List.length_set, fun q hq => List.drop_set_of_lt hq⟩
  obtain ⟨c, rest, rfl⟩ := List.exists_cons_of_ne_nil hmore
  rw [List.drop_set, if_neg (by omega), Nat.add_sub_cancel_left, hbuf,
    List.set_append_right _ _ le_rfl, Nat.sub_self]
  rfl

end Pointers

/-- What is made of a line. -/
def lineOf (key line : Bytes) : Line :=
  match propLine line with
  | .error malformed => .malformed malformed
  | .ok none => .passed
  | .ok (some (found, value)) =>
      if key = found then .found value else .passed

theorem lineOf_blank (key : Bytes) {line : Bytes}
    (hblank : line.dropWhile isSpace = []) : lineOf key line = .passed := by
  rw [lineOf, propLine, hblank]

theorem lineOf_comment (key : Bytes) {line text : Bytes}
    (hcomment : line.dropWhile isSpace = 35 :: text) :
    lineOf key line = .passed := by
  rw [lineOf, propLine, hcomment]
  rfl

theorem propLine_eq {line text : Bytes} {c : UInt8}
    (htext : line.dropWhile isSpace = c :: text) (hc : c ≠ 35) :
    propLine line =
      if 61 ∈ c :: text then
        .ok (some (trimEnd ((c :: text).takeWhile (· != 61)),
          trimEnd (((c :: text).dropWhile (· != 61)).tail.dropWhile isSpace)))
      else .error (c :: text) := by
  rw [propLine, htext]
  split
  · contradiction
  · rename_i heq
    exact absurd (List.cons.inj heq).1 hc
  · rfl

theorem lineOf_malformed (key : Bytes) {line text : Bytes} {c : UInt8}
    (htext : line.dropWhile isSpace = c :: text) (hc : c ≠ 35)
    (hequal : 61 ∉ c :: text) : lineOf key line = .malformed (c :: text) := by
  rw [lineOf, propLine_eq htext hc, if_neg hequal]

theorem lineOf_keyed (key : Bytes) {line text : Bytes} {c : UInt8}
    (htext : line.dropWhile isSpace = c :: text) (hc : c ≠ 35)
    (hequal : 61 ∈ c :: text) :
    lineOf key line =
      if key = trimEnd ((c :: text).takeWhile (· != 61)) then
        .found (trimEnd
          (((c :: text).dropWhile (· != 61)).tail.dropWhile isSpace))
      else .passed := by
  rw [lineOf, propLine_eq htext hc, if_pos hequal]

theorem strchr_eq_some {text : Bytes} {c : UInt8} (hmem : c ∈ text) :
    strchr text c = some (text.takeWhile (· != c)).length :=
  if_pos hmem

/-- A text is cut at the first of a character that it has. -/
theorem cut_at {text : Bytes} {c : UInt8} (hmem : c ∈ text) :
    text = text.takeWhile (· != c) ++
      c :: (text.dropWhile (· != c)).tail := by
  conv_lhs => rw [← List.takeWhile_append_dropWhile (p := (· != c))
    (l := text)]
  congr 1
  induction text with
  | nil => cases hmem
  | cons d text ih =>
      by_cases hd : d = c
      · simp [hd]
      · rw [List.dropWhile_cons_of_pos (by simpa using hd)]
        exact ih ((List.mem_cons.mp hmem).resolve_left fun h => hd h.symm)

section Body

variable {key buf token rest : Bytes} {p : Nat}

theorem head_takeWhile {text : Bytes} {q : UInt8 → Bool} {c : UInt8}
    (hc : c ∈ (text.takeWhile q).head?) : c ∈ text.head? := by
  rw [Option.mem_def] at hc ⊢
  rw [← List.takeWhile_append_dropWhile (p := q) (l := text),
    List.head?_append, hc]
  rfl

/-- The key is cut off behind its last character, and the value is left. -/
theorem keyed_line (hbuf : buf.drop p = token ++ 0 :: rest)
    (hhead : ∀ c ∈ token.head?, isSpace c = false) (hequal : 61 ∈ token) :
    ∃ keyEnd buf₁,
      trimBack buf p (p + (token.takeWhile (· != 61)).length) =
        some keyEnd ∧
      putNul buf keyEnd = some buf₁ ∧
      (∃ more, buf₁.drop p =
        trimEnd (token.takeWhile (· != 61)) ++ 0 :: more) ∧
      buf₁.length = buf.length ∧
      buf₁.drop (p + token.length) = buf.drop (p + token.length) ∧
      buf₁.drop (p + (token.takeWhile (· != 61)).length + 1) =
        (token.dropWhile (· != 61)).tail ++ 0 :: rest := by
  have hcut := cut_at hequal
  have hhead' : ∀ c ∈ (token.takeWhile (· != 61)).head?,
      isSpace c = false := fun c hc => hhead c (head_takeWhile hc)
  generalize token.takeWhile (· != 61) = front at hcut hhead' ⊢
  generalize (token.dropWhile (· != 61)).tail = value at hcut ⊢
  obtain ⟨blanks, hblanks⟩ := List.rdropWhile_prefix isSpace (l := front)
  rw [← trimEnd] at hblanks
  have hlength := congrArg List.length hblanks
  rw [List.length_append] at hlength
  subst hcut
  rw [List.append_assoc] at hbuf
  have hback := trimBack_eq hbuf hhead'
  rw [← hblanks, List.append_assoc] at hbuf
  obtain ⟨buf₁, hput, hfront, hsame, hbehind⟩ :=
    putNul_eq hbuf (by simp)
  refine ⟨_, buf₁, hback, hput, ⟨_, hfront⟩, hsame, hbehind _ ?_, ?_⟩
  · rw [List.length_append, List.length_cons]
    omega
  · rw [hbehind _ (by omega), ← List.drop_drop, ← List.drop_drop,
      hbuf, ← List.append_assoc, hblanks, List.drop_left]
    rfl

/-- The value is cut off behind its last character. -/
theorem found_value {value : Bytes} (hbuf : buf.drop p = value ++ 0 :: rest)
    (hvalue : (0 : UInt8) ∉ value) :
    ∃ valStart valEnd buf₁, skipSpace buf p = some valStart ∧
      trimBack buf valStart
        (valStart + (cstr (buf.drop valStart)).length) = some valEnd ∧
      putNul buf valEnd = some buf₁ ∧
      cstr (buf₁.drop valStart) = trimEnd (value.dropWhile isSpace) := by
  obtain ⟨hskip, hstart⟩ := skipSpace_eq hbuf hvalue
  have hclean : (0 : UInt8) ∉ value.dropWhile isSpace := fun hmem =>
    hvalue ((List.dropWhile_suffix _).subset hmem)
  have hhead : ∀ c ∈ (value.dropWhile isSpace).head?, isSpace c = false := by
    intro c hc
    have hnot := List.head?_dropWhile_not isSpace value
    rw [Option.mem_def.mp hc] at hnot
    simpa using hnot
  have hback := trimBack_eq hstart hhead
  have htext : cstr (buf.drop (p + (value.takeWhile isSpace).length)) =
      value.dropWhile isSpace := by
    rw [hstart, cstr_append_zero hclean]
  obtain ⟨blanks, hblanks⟩ := List.rdropWhile_prefix isSpace
    (l := value.dropWhile isSpace)
  rw [← trimEnd] at hblanks
  have hcut := hstart
  rw [← hblanks, List.append_assoc] at hcut
  obtain ⟨buf₁, hput, hfront, -⟩ := putNul_eq hcut (by simp)
  refine ⟨_, _, buf₁, hskip, ?_, hput, ?_⟩
  · rw [htext]
    exact hback
  · rw [hfront, cstr_append_zero fun hmem =>
      hclean (hblanks ▸ List.mem_append_left _ hmem)]

/-- The body of the loop on a line that is in the buffer. -/
theorem readLine_eq (key : Bytes) (hbuf : buf.drop p = token ++ 0 :: rest)
    (htoken : (0 : UInt8) ∉ token) :
    ∃ buf₁, readLine key buf p = some (lineOf key token, buf₁) ∧
      (lineOf key token = .passed → buf₁.length = buf.length ∧
        buf₁.drop (p + token.length) = buf.drop (p + token.length)) := by
  obtain ⟨hskip, hstart⟩ := skipSpace_eq hbuf htoken
  have hlength := congrArg List.length
    (List.takeWhile_append_dropWhile (p := isSpace) (l := token))
  rw [List.length_append] at hlength
  have hclean : (0 : UInt8) ∉ token.dropWhile isSpace := fun hmem =>
    htoken ((List.dropWhile_suffix _).subset hmem)
  have hhead : ∀ c ∈ (token.dropWhile isSpace).head?, isSpace c = false := by
    intro c hc
    have hnot := List.head?_dropWhile_not isSpace token
    rw [Option.mem_def.mp hc] at hnot
    simpa using hnot
  have hplace : p + token.length = p + (token.takeWhile isSpace).length +
      (token.dropWhile isSpace).length := by omega
  rw [hplace]
  unfold readLine
  rw [hskip]
  generalize p + (token.takeWhile isSpace).length = line at hstart ⊢
  have hchar : buf[line]? =
      (token.dropWhile isSpace ++ 0 :: rest).head? := by
    rw [← hstart, List.head?_drop]
  have hcstr : cstr (buf.drop line) = token.dropWhile isSpace := by
    rw [hstart, cstr_append_zero hclean]
  rw [Option.bind_eq_bind, Option.bind_some, hchar]
  cases htext : token.dropWhile isSpace with
  | nil =>
      rw [lineOf_blank key htext]
      exact ⟨buf, rfl, fun _ => ⟨rfl, rfl⟩⟩
  | cons c text =>
      rw [htext] at hstart hclean hhead hcstr
      have hzero : c ≠ 0 := fun hc => hclean (hc ▸ List.mem_cons_self)
      rw [List.cons_append, List.head?_cons, Option.bind_eq_bind,
        Option.bind_some, hcstr]
      by_cases hcomment : c = 35
      · subst hcomment
        rw [lineOf_comment key htext]
        exact ⟨buf, rfl, fun _ => ⟨rfl, rfl⟩⟩
      · rw [if_neg (by simp [hzero, hcomment])]
        by_cases hequal : 61 ∈ c :: text
        · obtain ⟨keyEnd, buf₁, hback, hput, ⟨more, hkey⟩, hsame, hbehind,
            hvalue⟩ := keyed_line hstart hhead hequal
          have hfront : (0 : UInt8) ∉
              trimEnd ((c :: text).takeWhile (· != 61)) := fun hmem =>
            hclean ((List.takeWhile_prefix _).subset
              ((List.rdropWhile_prefix isSpace _).subset hmem))
          have hname : cstr (buf₁.drop line) =
              trimEnd ((c :: text).takeWhile (· != 61)) := by
            rw [hkey, cstr_append_zero hfront]
          have hback' : (0 : UInt8) ∉
              ((c :: text).dropWhile (· != 61)).tail := fun hmem =>
            hclean ((List.dropWhile_suffix _).subset
              (List.mem_of_mem_tail hmem))
          rw [strchr_eq_some hequal, lineOf_keyed key htext hcomment hequal]
          dsimp only
          rw [hback, Option.bind_eq_bind, Option.bind_some, hput,
            Option.bind_some, hname]
          by_cases hfound : key = trimEnd ((c :: text).takeWhile (· != 61))
          · rw [if_neg (not_not.mpr hfound), if_pos hfound]
            obtain ⟨valStart, valEnd, buf₂, hskip', hback₂, hput₂, hcut⟩ :=
              found_value hvalue hback'
            rw [hskip', Option.bind_some, hback₂, Option.bind_some, hput₂,
              Option.bind_some, hcut]
            exact ⟨buf₂, rfl, fun hline => by cases hline⟩
          · rw [if_pos hfound, if_neg hfound]
            exact ⟨buf₁, rfl, fun _ => ⟨hsame, hbehind⟩⟩
        · rw [lineOf_malformed key htext hcomment hequal, strchr,
            if_neg hequal]
          exact ⟨buf, rfl, fun hline => by cases hline⟩

end Body

def Line.value : Line → Except Bytes Bytes
  | .passed => .ok []
  | malformed line => .error line
  | found value => .ok value

theorem findProp_cons (key line : Bytes) (lines : List Bytes) :
    findProp key (line :: lines) =
      match lineOf key line with
      | .passed => findProp key lines
      | other => other.value := by
  rw [findProp, lineOf]
  cases propLine line with
  | error malformed => rfl
  | ok found =>
      cases found with
      | none => rfl
      | some found =>
          dsimp only
          by_cases hkey : key = found.1
          · rw [if_pos hkey, if_pos hkey]
            rfl
          · rw [if_neg hkey, if_neg hkey]

/-- A line that `strtok` finds stands in the buffer with a NUL behind it, and
the next call goes on behind the line. -/
theorem nextLine_spec {buf : Bytes} {pos : Nat} (hnul : 0 ∈ buf.drop pos) :
    match nextLine buf pos with
    | none => tokens (· == 10) (cstr (buf.drop pos)) = []
    | some (line, buf', pos') => ∃ token rest,
        tokens (· == 10) (cstr (buf.drop pos)) =
          token :: tokens (· == 10) (cstr (buf'.drop pos')) ∧
        buf'.drop line = token ++ 0 :: rest ∧ (0 : UInt8) ∉ token ∧
        line + token.length ≤ pos' ∧ 0 ∈ buf'.drop pos' := by
  have hspec := strtok_spec (· == 10) buf pos
  have hbuf : buf.drop pos = cstr (buf.drop pos) ++
      0 :: ((buf.drop pos).dropWhile (· != 0)).tail := cut_at hnul
  have hclean := zero_not_mem_cstr (buf.drop pos)
  unfold nextLine
  unfold strtok at hspec ⊢
  dsimp only at hspec ⊢
  generalize cstr (buf.drop pos) = text at hspec hbuf hclean ⊢
  generalize ((buf.drop pos).dropWhile (· != 0)).tail = more at hbuf
  have hsplit : text = text.takeWhile (· == 10) ++
      ((text.dropWhile (· == 10)).takeWhile (fun c => !(c == 10)) ++
        (text.dropWhile (· == 10)).dropWhile fun c => !(c == 10)) := by
    rw [List.takeWhile_append_dropWhile, List.takeWhile_append_dropWhile]
  generalize text.takeWhile (· == 10) = skip at hspec hsplit ⊢
  generalize (text.dropWhile (· == 10)).takeWhile (fun c => !(c == 10)) =
    token at hspec hsplit ⊢
  generalize (text.dropWhile (· == 10)).dropWhile (fun c => !(c == 10)) =
    rest at hsplit
  subst hsplit
  have htoken : (0 : UInt8) ∉ token := fun hmem => hclean
    (List.mem_append_right _ (List.mem_append_left _ hmem))
  have hstart : buf.drop (pos + skip.length) =
      token ++ (rest ++ 0 :: more) := by
    refine drop_add_of_drop ?_
    rw [hbuf]
    simp only [List.append_assoc]
  split_ifs at hspec ⊢ with hnone hmore
  · exact hspec
  · obtain ⟨buf', hput, hline, -, -⟩ := putNul_eq hstart (by simp)
    rw [putNul] at hput
    split_ifs at hput
    cases hput
    obtain ⟨d, rest, rfl⟩ : ∃ d rest', rest = d :: rest' := by
      refine List.exists_cons_of_ne_nil fun hnil => ?_
      rw [hnil] at hmore
      simp only [List.length_append, List.length_nil] at hmore
      omega
    refine ⟨token, _, hspec, hline, htoken, Nat.le_succ _, ?_⟩
    have hcut : (buf.set (pos + skip.length + token.length) 0).drop
        (pos + skip.length) = token ++ [0] ++ (rest ++ 0 :: more) := by
      simpa using hline
    have hnext := drop_add_of_drop hcut
    rw [List.length_append, List.length_singleton, ← Nat.add_assoc] at hnext
    rw [hnext]
    simp
  · have hrest : rest = [] := by
      simp only [List.length_append] at hmore
      exact List.eq_nil_of_length_eq_zero (by omega)
    subst hrest
    refine ⟨token, more, hspec, hstart, htoken, le_rfl, ?_⟩
    rw [drop_add_of_drop hstart]
    exact List.mem_cons_self

/-- The loop does to the lines what the search through them does. -/
theorem readLines_eq (key : Bytes) {count : Nat} {buf token rest : Bytes}
    {line pos : Nat} (hbuf : buf.drop line = token ++ 0 :: rest)
    (htoken : (0 : UInt8) ∉ token) (hpos : line + token.length ≤ pos)
    (hnul : 0 ∈ buf.drop pos)
    (hcount : (tokens (· == 10) (cstr (buf.drop pos))).length < count) :
    (readLines key count buf line pos).map Line.value =
      some (findProp key
        (token :: tokens (· == 10) (cstr (buf.drop pos)))) := by
  induction count generalizing buf token rest line pos with
  | zero => omega
  | succ count ih =>
      obtain ⟨buf₁, hread, hkept⟩ := readLine_eq key hbuf htoken
      rw [readLines, hread, Option.bind_eq_bind, Option.bind_some,
        findProp_cons]
      cases hline : lineOf key token with
      | malformed malformed => rfl
      | found value => rfl
      | passed =>
          obtain ⟨-, hbehind⟩ := hkept hline
          have hsame : buf₁.drop pos = buf.drop pos := by
            obtain ⟨more, rfl⟩ := Nat.exists_eq_add_of_le hpos
            rw [← List.drop_drop, hbehind, List.drop_drop]
          have hnext := @nextLine_spec buf₁ pos (hsame ▸ hnul)
          dsimp only
          rw [hsame] at hnext
          cases hcall : nextLine buf₁ pos with
          | none =>
              rw [hcall] at hnext
              rw [show tokens _ _ = [] from hnext]
              rfl
          | some call =>
              obtain ⟨line', buf₂, pos'⟩ := call
              rw [hcall] at hnext
              obtain ⟨token', rest', htokens, hbuf', htoken', hpos', hnul'⟩ :=
                hnext
              rw [htokens, List.length_cons] at hcount
              rw [htokens]
              exact ih hbuf' htoken' hpos' hnul' (by omega)

theorem nextLine_length {buf buf' : Bytes} {pos line pos' : Nat}
    (hcall : nextLine buf pos = some (line, buf', pos')) :
    buf'.length = buf.length := by
  obtain ⟨⟨token, call⟩, hstrtok, heq⟩ := Option.map_eq_some_iff.mp hcall
  obtain rfl : call = (buf', pos') := (Prod.mk.inj heq).2
  exact strtok_length hstrtok

theorem length_tokens_le (text : Bytes) :
    (tokens (· == 10) text).length ≤ 1 + text.length := by
  have hone : ∀ n ∈ (tokens (· == 10) text).map fun token => 1 + token.length,
      1 ≤ n := by
    intro n hn
    obtain ⟨token, -, rfl⟩ := List.mem_map.mp hn
    exact Nat.le_add_right 1 _
  have hlength := List.length_le_sum_of_one_le _ hone
  rw [List.length_map] at hlength
  exact hlength.trans (sum_tokens_le text)

/-- The code reads the text up to the first NUL, and uses a null pointer if
there is no line in it. -/
theorem searchFile_eq (key file : Bytes) :
    (searchFile key file).map Line.value =
      match tokens (· == 10) (cstr file) with
      | [] => none
      | lines => some (findProp key lines) := by
  have hcstr : cstr ((file ++ [0]).drop 0) = cstr file := cstr_append_nul _ _
  have hnext := @nextLine_spec (file ++ [0]) 0 (by simp)
  rw [hcstr] at hnext
  rw [searchFile]
  dsimp only
  cases hcall : nextLine (file ++ [0]) 0 with
  | none =>
      rw [hcall] at hnext
      rw [show tokens _ _ = [] from hnext]
      rfl
  | some call =>
      obtain ⟨line, buf, pos⟩ := call
      rw [hcall] at hnext
      obtain ⟨token, rest, htokens, hbuf, htoken, hpos, hnul⟩ := hnext
      rw [htokens, Option.bind_eq_bind, Option.bind_some]
      refine readLines_eq key hbuf htoken hpos hnul ?_
      have hfit := length_tokens_le (cstr file)
      have hlength := cstr_length_le file
      rw [htokens, List.length_cons] at hfit
      dsimp only at hfit ⊢
      rw [nextLine_length hcall, List.length_append, List.length_singleton]
      omega

theorem search_eq (name filename key file : Bytes) :
    search name filename key file = fileGetProp name filename key file := by
  have hsearch := searchFile_eq key file
  rw [search, fileGetProp]
  cases hlines : tokens (· == 10) (cstr file) with
  | nil =>
      rw [hlines] at hsearch
      rw [Option.map_eq_none_iff.mp hsearch]
  | cons line lines =>
      rw [hlines] at hsearch
      obtain ⟨last, hlast, hvalue⟩ := Option.map_eq_some_iff.mp hsearch
      rw [hlast]
      dsimp only
      rw [← hvalue]
      cases last <;> rfl

/-- The function is the one that the rest of the updater's model calls. -/
theorem fileGetPropFn_eq (name : Bytes) :
    FileGetPropFn name = fileGetPropFn name := by
  have hsearch : search = fileGetProp :=
    funext fun name => funext fun filename => funext fun key =>
      funext fun file => search_eq name filename key file
  unfold FileGetPropFn fileGetPropFn readFile readPropFile
  rewrite [hsearch]
  rfl

/-- `strtok` leaves out the empty lines. -/
theorem tokens_eq_filter (text : Bytes) :
    tokens (· == 10) text =
      (text.splitOn 10).filter fun line => !line.isEmpty := by
  induction text with
  | nil => rfl
  | cons c text ih =>
      rw [List.splitOn_cons_eq_if_modifyHead]
      by_cases hc : c = 10
      · rw [if_pos (by simp [hc]), tokens_cons_delim (by simp [hc]), ih]
        rfl
      · have hkeep : ¬ (c == 10) = true := by simp [hc]
        rw [if_neg hkeep]
        cases text with
        | nil =>
            rw [tokens, if_neg hkeep]
            rfl
        | cons d text =>
            rw [List.splitOn_cons_eq_if_modifyHead] at ih ⊢
            rw [tokens, if_neg hkeep]
            by_cases hd : (d == 10) = true
            · rw [if_pos hd] at ih ⊢
              rw [if_pos hd, ih]
              rfl
            · rw [if_neg hd] at ih ⊢
              rw [if_neg hd, ih]
              cases htail : text.splitOn 10 with
              | nil => exact absurd htail (List.splitOn_ne_nil _ _)
              | cons first rest => rfl

theorem lookup_filter (key : Bytes) (lines : List Bytes) :
    lookup key (lines.filter fun line => !line.isEmpty) =
      lookup key lines := by
  induction lines with
  | nil => rfl
  | cons line lines ih =>
      cases line with
      | nil =>
          rw [List.filter_cons_of_neg (by simp), ih, lookup]
          exact (if_pos (.inl rfl)).symm
      | cons c line =>
          rw [List.filter_cons_of_pos (by simp), lookup, lookup, ih]

section Nested

variable {p q : UInt8 → Bool} (hq : ∀ c, p c = true → q c = true)
include hq

theorem dropWhile_takeWhile (text : Bytes) :
    (text.takeWhile q).dropWhile p = (text.dropWhile p).takeWhile q := by
  induction text with
  | nil => rfl
  | cons c text ih =>
      by_cases hc : p c = true
      · rw [List.takeWhile_cons_of_pos (hq c hc),
          List.dropWhile_cons_of_pos hc, List.dropWhile_cons_of_pos hc, ih]
      · rw [List.dropWhile_cons_of_neg hc]
        by_cases hqc : q c = true
        · rw [List.takeWhile_cons_of_pos hqc, List.dropWhile_cons_of_neg hc]
        · rw [List.takeWhile_cons_of_neg hqc]
          rfl

theorem dropWhile_dropWhile (text : Bytes) :
    (text.dropWhile p).dropWhile q = text.dropWhile q := by
  induction text with
  | nil => rfl
  | cons c text ih =>
      by_cases hc : p c = true
      · rw [List.dropWhile_cons_of_pos hc, ih,
          List.dropWhile_cons_of_pos (hq c hc)]
      · rw [List.dropWhile_cons_of_neg hc]

end Nested

theorem ne_equal_of_isSpace (c : UInt8) (hc : isSpace c = true) :
    (c != 61) = true := by
  rw [bne_iff_ne]
  rintro rfl
  exact absurd hc (by decide)

theorem mem_dropWhile (line : Bytes) :
    61 ∈ line.dropWhile isSpace ↔ 61 ∈ line := by
  conv_rhs => rw [← List.takeWhile_append_dropWhile (p := isSpace) (l := line)]
  rw [List.mem_append]
  refine ⟨.inr, fun h => h.resolve_left fun hmem => ?_⟩
  exact absurd (List.mem_takeWhile_imp hmem) (by decide)

/-- Trimming keeps a first character that is not white space. -/
theorem trimEnd_cons {c : UInt8} (hc : isSpace c = false) (text : Bytes) :
    ∃ rest, trimEnd (c :: text) = c :: rest := by
  induction text using List.reverseRecOn with
  | nil =>
      refine ⟨[], ?_⟩
      rw [trimEnd, List.rdropWhile_singleton, if_neg (by simp [hc])]
  | append_singleton text d ih =>
      obtain ⟨rest, hrest⟩ := ih
      by_cases hd : isSpace d = true
      · refine ⟨rest, ?_⟩
        rw [← hrest, trimEnd, ← List.cons_append,
          List.rdropWhile_concat_pos _ _ _ hd]
        rfl
      · refine ⟨text ++ [d], ?_⟩
        rw [trimEnd, ← List.cons_append, List.rdropWhile_concat_neg _ _ _ hd]

/-- The search for the key is the reference's. -/
theorem findProp_eq_lookup (key : Bytes) (lines : List Bytes) :
    (findProp key lines).toOption = lookup key lines := by
  induction lines with
  | nil => rfl
  | cons line lines ih =>
      rw [findProp, lookup, trim]
      cases htext : line.dropWhile isSpace with
      | nil =>
          rw [propLine, htext, if_pos (.inl rfl)]
          exact ih
      | cons c text =>
          have hc : isSpace c = false := by
            have hnot := List.head?_dropWhile_not isSpace line
            rw [htext] at hnot
            simpa using hnot
          obtain ⟨rest, htrim⟩ := trimEnd_cons hc text
          by_cases hcomment : c = 35
          · subst hcomment
            rw [propLine, htext, htrim, if_pos (.inr rfl)]
            exact ih
          · have hkeyed :
                ¬ (c :: rest = [] ∨ (c :: rest).head? = some 35) := by
              simp [hcomment]
            rw [propLine_eq htext hcomment, htrim, if_neg hkeyed, ← htext]
            by_cases hequal : 61 ∈ line
            · rw [if_pos ((mem_dropWhile line).mpr hequal),
                if_neg (not_not.mpr hequal), trim,
                dropWhile_takeWhile ne_equal_of_isSpace,
                dropWhile_dropWhile ne_equal_of_isSpace]
              dsimp only
              by_cases hkey : key = trimEnd
                  ((line.dropWhile isSpace).takeWhile (· != 61))
              · rw [if_pos hkey, if_pos hkey.symm]
                rfl
              · rw [if_neg hkey, if_neg (Ne.symm hkey)]
                exact ih
            · rw [if_neg (mt (mem_dropWhile line).mp hequal),
                if_pos hequal]
              rfl

/-- What the code finds is what the reference finds in the text up to the
first NUL. -/
theorem findProp_eq_reference (key file : Bytes) :
    (findProp key (tokens (· == 10) (cstr file))).toOption =
      reference key (cstr file) := by
  rw [findProp_eq_lookup, tokens_eq_filter, lookup_filter, reference]

/-- A file that is not too large. -/
structure PropFile where
  bytes : Bytes
  hsize : bytes.length ≤ MAX_FILE_GETPROP_SIZE

open UpdaterArgumentsWitness in
/-- The arguments are the name of a file and a key; the state is
`state->errmsg`. -/
def answers (filename key : Bytes) (file : PropFile) :
    (c : Call Outside) → Option Bytes →
      c.Answer Outside.Answer × Option Bytes
  | .evaluate i, errmsg => (if i = 0 then some filename else some key, errmsg)
  | .evaluateValue _, errmsg => (none, errmsg)
  | .span _, errmsg => ((0, 0), errmsg)
  | .script, errmsg => ([], errmsg)
  | .errmsg text, _ => ((), some text)
  | .fputs _, errmsg | .sleep _, errmsg => ((), errmsg)
  | .outside (.stat path), errmsg =>
      (if path = filename then some file.bytes.length else none, errmsg)
  | .outside (.fopenRead path), errmsg =>
      (if path = filename then some [file.bytes] else none, errmsg)
  | .outside e, errmsg => (nothing e, errmsg)

def run (name filename key : Bytes) (file : PropFile) :
    Outcome × Option Bytes :=
  (FileGetPropFn name).eval (answers filename key file) none

/-- The value is returned; where there is none, the script is aborted with a
message. -/
def Agrees (result : Outcome × Option Bytes) : Option Bytes → Prop
  | some value => result = (stringValue (some value), none)
  | none => result.1 = null ∧ result.2.isSome

/-- In front of the first NUL there is more than newlines, and what is behind
makes no difference to the reference. -/
def Readable (key : Bytes) (file : PropFile) : Prop :=
  (∃ c ∈ cstr file.bytes, c ≠ 10) ∧
    reference key (cstr file.bytes) = reference key file.bytes

section Run

variable (name filename key : Bytes) (file : PropFile)

/-- A call of an action, answered. -/
theorem eval_ask (e : Outside) (next : e.Answer → Action Outcome)
    (errmsg : Option Bytes) :
    (act (ask e >>= next)).eval (answers filename key file) errmsg =
      (act (next (answers filename key file (.outside e) errmsg).1)).eval
        (answers filename key file)
        (answers filename key file (.outside e) errmsg).2 := rfl

/-- The file is read whole. -/
theorem run_eq :
    run name filename key file =
      (act (search name filename key file.bytes)).eval
        (answers filename key file) none := by
  have hread : run name filename key file =
      (act (readFile name filename key)).eval
        (answers filename key file) none := rfl
  have hstat : (answers filename key file (.outside (.stat filename))
      none).1 = some file.bytes.length := if_pos rfl
  have hopen : (answers filename key file (.outside (.fopenRead filename))
      none).1 = some [file.bytes] := if_pos rfl
  rw [hread, readFile, eval_ask, hstat]
  dsimp only
  rw [if_neg (not_lt.mpr file.hsize)]
  change (act (ask (.fopenRead filename) >>= _)).eval _ none = _
  rw [eval_ask, hopen]
  dsimp only
  rw [eval_ask, List.flatten_singleton, List.take_length,
    if_neg (not_not.mpr rfl)]
  rfl

theorem tokens_eq_nil_iff (text : Bytes) :
    tokens (· == 10) text = [] ↔ ∀ c ∈ text, c = 10 := by
  constructor
  · intro hnil c hc
    have hflat := @flatten_tokens (· == 10) text
    rw [hnil, List.flatten_nil, eq_comm, List.filter_eq_nil_iff] at hflat
    simpa using hflat c hc
  · intro hall
    have hskip := tokens_append_delims
      (fun c hc => beq_iff_eq.mpr (hall c hc)) []
    rwa [List.append_nil, tokens_nil] at hskip

theorem agrees_value_iff (value : Bytes) (expected : Option Bytes) :
    Agrees (stringValue (some value), none) expected ↔
      some value = expected := by
  cases expected with
  | none => simp [Agrees, stringValue, null]
  | some other => simp [Agrees, stringValue]

theorem agrees_abort_iff (message : Bytes) (expected : Option Bytes) :
    Agrees (null, some message) expected ↔ none = expected := by
  cases expected with
  | none => simp [Agrees]
  | some other => simp [Agrees]

theorem not_agrees_undefined (expected : Option Bytes) :
    ¬ Agrees (.undefined, none) expected := by
  cases expected with
  | none => simp [Agrees, null]
  | some other => simp [Agrees, stringValue]

/-- The function agrees with the reference if and only if it can read the
file. -/
theorem run_agrees_iff :
    Agrees (run name filename key file) (reference key file.bytes) ↔
      Readable key file := by
  have hfound := findProp_eq_reference key file.bytes
  have hlines := tokens_eq_nil_iff (cstr file.bytes)
  rw [run_eq, search_eq, fileGetProp, Readable, ← hfound]
  cases htokens : tokens (· == 10) (cstr file.bytes) with
  | nil =>
      refine iff_of_false (not_agrees_undefined _) ?_
      rintro ⟨⟨c, hc, hother⟩, -⟩
      exact hother (hlines.mp htokens c hc)
  | cons line lines =>
      have hsome : ∃ c ∈ cstr file.bytes, c ≠ 10 := by
        by_contra hnone
        push Not at hnone
        rw [hlines.mpr hnone] at htokens
        cases htokens
      rw [and_iff_right hsome]
      dsimp only
      cases findProp key (line :: lines) with
      | ok value => exact agrees_value_iff value _
      | error malformed => exact agrees_abort_iff _ _

end Run

/-- A file without a NUL is read whole; only a file of newlines, or of nothing
at all, is not readable. -/
theorem readable_iff_of_clean {key : Bytes} {file : PropFile}
    (hclean : (0 : UInt8) ∉ file.bytes) :
    Readable key file ↔ ∃ c ∈ file.bytes, c ≠ 10 := by
  rw [Readable, cstr_eq_self hclean, and_iff_left rfl]

namespace FileGetPropWitness

def empty : PropFile where
  bytes := []
  hsize := by decide

/-- There is no first line to look at. -/
theorem empty_not_read :
    ¬ ∀ (name filename key : Bytes) (file : PropFile),
      Agrees (run name filename key file) (reference key file.bytes) := by
  intro hagrees
  exact not_agrees_undefined _ (hagrees [] [] [] empty)

example : searchFile (ofString "k") (ofString "# c\n\n =x\n k = v w \n") =
    some (.found (ofString "v w")) := by decide

end FileGetPropWitness

end FileGetProp

end MetaOS
