/-
src/bootable/recovery/ui.c: the log on the screen.

The rows are used in turn, and the row behind the current one is the top of
the screen.  A store outside of the array gives nothing.
-/
import MetaOS.CString
import MetaOS.WrappedText

namespace MetaOS

namespace TextScreen

open CString WrappedText

abbrev MAX_COLS : Nat := 64
abbrev MAX_ROWS : Nat := 32

def CHAR_WIDTH : Nat := 10
def CHAR_HEIGHT : Nat := 18

abbrev Text := Vector (Vector UInt8 MAX_COLS) MAX_ROWS

def Text.row (text : Text) (k : Nat) : Bytes :=
  if hrow : k < MAX_ROWS then text[k].toList else []

structure Screen where
  text : Text
  textCols : Nat
  textRows : Nat
  textCol : Nat
  textRow : Nat
  textTop : Nat

namespace Screen

/-- The static variables at the start. -/
def start : Screen :=
  ⟨Vector.replicate MAX_ROWS (Vector.replicate MAX_COLS 0), 0, 0, 0, 0, 0⟩

def uiInit (s : Screen) (gr_fb_width gr_fb_height : Nat) : Screen :=
  { s with
    textCol := 0
    textRow := 0
    textRows := min (gr_fb_height / CHAR_HEIGHT) MAX_ROWS
    textTop := 1
    textCols := min (gr_fb_width / CHAR_WIDTH) (MAX_COLS - 1) }

/-- `text[row][col] = c` -/
def store (s : Screen) (row col : Nat) (c : UInt8) : Option Screen :=
  if hrow : row < MAX_ROWS then
    if hcol : col < MAX_COLS then
      some { s with text := s.text.set row (s.text[row].set col c) }
    else none
  else none

def nextRow (s : Screen) : Option Screen := do
  let s ← s.store s.textRow s.textCol 0
  let textRow := (s.textRow + 1) % s.textRows
  pure { s with
    textCol := 0
    textRow := textRow
    textTop :=
      if textRow = s.textTop then (s.textTop + 1) % s.textRows
      else s.textTop }

/-- One round of the loop in `ui_print`. -/
def printChar (s : Screen) (c : UInt8) : Option Screen := do
  let s ← if c = 10 ∨ s.textCols ≤ s.textCol then s.nextRow else some s
  if c = 10 then pure s
  else
    let s ← s.store s.textRow s.textCol c
    pure { s with textCol := s.textCol + 1 }

/-- What `vsnprintf` leaves in a buffer of 256 bytes. -/
def printed (formatted : Bytes) : Bytes := cstr (formatted.take 255)

def uiPrint (s : Screen) (formatted : Bytes) : Option Screen :=
  if 0 < s.textRows ∧ 0 < s.textCols then do
    let s ← (printed formatted).foldlM printChar s
    s.store s.textRow s.textCol 0
  else some s

/-- The rows that `draw_screen_locked` draws from `i` on. -/
def textLines (s : Screen) (i : Nat) : List Bytes :=
  (List.range' i (s.textRows - i)).map fun i =>
    cstr (s.text.row ((i + s.textTop) % s.textRows))

/-- The last `n` of all lines, behind empty ones. -/
def lastLines (n : Nat) (lines : List Bytes) : List Bytes :=
  (List.replicate n [] ++ lines).drop lines.length

section Rows

variable {s : Screen} {n row col i k : Nat}

theorem length_row (text : Text) (hk : k < MAX_ROWS) :
    (text.row k).length = MAX_COLS := by
  rw [Text.row, dif_pos hk, Vector.length_toList]

theorem exists_store (s : Screen) (hrow : row < MAX_ROWS)
    (hcol : col < MAX_COLS) (c : UInt8) :
    ∃ text : Text, s.store row col c = some { s with text := text } ∧
      text.row row = (s.text.row row).set col c ∧
      ∀ k ≠ row, text.row k = s.text.row k := by
  refine ⟨s.text.set row (s.text[row].set col c), ?_, ?_, fun k hk => ?_⟩
  · rw [store, dif_pos hrow, dif_pos hcol]
  · simp [Text.row, hrow, Vector.toList_set]
  · simp [Text.row, Ne.symm hk]

/-- The rows from the one behind the current row on, around the ring. -/
theorem ring_eq (hrow : row < n) (hi : i < n) :
    (i + (row + 1) % n) % n =
      if i + row + 1 < n then i + row + 1 else i + row + 1 - n := by
  rw [Nat.add_mod_mod, ← Nat.add_assoc]
  split
  next hlt => exact Nat.mod_eq_of_lt hlt
  next hge =>
    rw [Nat.mod_eq_sub_mod (by omega), Nat.mod_eq_of_lt (by omega)]

theorem ring_ne (hrow : row < n) (hi : i + 1 < n) :
    (i + (row + 1) % n) % n ≠ row := by
  rw [ring_eq hrow (by omega)]
  split
  · omega
  · omega

theorem ring_last (hrow : row < n) (hi : i + 1 = n) :
    (i + (row + 1) % n) % n = row := by
  rw [ring_eq hrow (by omega)]
  split
  · omega
  · omega

theorem take_set_succ {buf : Bytes} (hcol : col < buf.length) (c : UInt8) :
    (buf.set col c).take (col + 1) = buf.take col ++ [c] := by
  rw [List.set_eq_take_append_cons_drop, if_pos hcol, List.append_cons,
    List.take_left']
  simp [Nat.le_of_lt hcol]

end Rows

/-- The lines stand in the rows above the current one, which is not terminated
yet. -/
structure Shows (s : Screen) (lines : List Bytes) (cur : Bytes) : Prop where
  two_rows : 2 ≤ s.textRows
  rows_le : s.textRows ≤ MAX_ROWS
  cols_pos : 0 < s.textCols
  cols_lt : s.textCols < MAX_COLS
  row_lt : s.textRow < s.textRows
  top_eq : s.textTop = (s.textRow + 1) % s.textRows
  col_eq : s.textCol = cur.length
  cur_le : cur.length ≤ s.textCols
  cur_clean : (0 : UInt8) ∉ cur
  cur_eq : (s.text.row s.textRow).take cur.length = cur
  above : ∀ i, i + 1 < s.textRows →
    (List.replicate s.textRows [] ++ lines)[lines.length + 1 + i]? =
      some (cstr (s.text.row ((i + s.textTop) % s.textRows)))
  ended : ∀ k < MAX_ROWS, k ≠ s.textRow → (0 : UInt8) ∈ s.text.row k

namespace Shows

variable {s : Screen} {lines : List Bytes} {cur : Bytes} {text : Text}

theorem row_in (hs : s.Shows lines cur) : s.textRow < MAX_ROWS :=
  hs.row_lt.trans_le hs.rows_le

theorem col_in (hs : s.Shows lines cur) : s.textCol < MAX_COLS := by
  rw [hs.col_eq]
  exact hs.cur_le.trans_lt hs.cols_lt

/-- Only the current row has changed. -/
theorem retext (hs : s.Shows lines cur) {next : Bytes}
    (hothers : ∀ k ≠ s.textRow, text.row k = s.text.row k)
    (hlength : next.length ≤ s.textCols) (hclean : (0 : UInt8) ∉ next)
    (hnext : (text.row s.textRow).take next.length = next) :
    Screen.Shows { s with text := text, textCol := next.length } lines
      next where
  two_rows := hs.two_rows
  rows_le := hs.rows_le
  cols_pos := hs.cols_pos
  cols_lt := hs.cols_lt
  row_lt := hs.row_lt
  top_eq := hs.top_eq
  col_eq := rfl
  cur_le := hlength
  cur_clean := hclean
  cur_eq := hnext
  above := by
    intro i hi
    have hne : (i + s.textTop) % s.textRows ≠ s.textRow := by
      rw [hs.top_eq]
      exact ring_ne hs.row_lt hi
    rw [hs.above i hi, hothers _ hne]
  ended := by
    intro k hk hne
    rw [hothers k hne]
    exact hs.ended k hk hne

/-- What a NUL behind the current line makes of its row. -/
theorem store_zero (hs : s.Shows lines cur) :
    ∃ text : Text, s.store s.textRow s.textCol 0 =
        some { s with text := text } ∧
      (∀ k ≠ s.textRow, text.row k = s.text.row k) ∧
      (text.row s.textRow).take cur.length = cur ∧
      cstr (text.row s.textRow) = cur ∧
      (0 : UInt8) ∈ text.row s.textRow := by
  obtain ⟨text, hstore, hrow, hothers⟩ := exists_store s hs.row_in hs.col_in 0
  have hcol : s.textCol < (s.text.row s.textRow).length := by
    rw [length_row _ hs.row_in]
    exact hs.col_in
  have hset : text.row s.textRow =
      cur ++ 0 :: (s.text.row s.textRow).drop (s.textCol + 1) := by
    rw [hrow, List.set_eq_take_append_cons_drop, if_pos hcol, hs.col_eq,
      hs.cur_eq]
  refine ⟨text, hstore, hothers, ?_, ?_, ?_⟩
  · rw [hset, List.take_left]
  · rw [hset, cstr_append_zero hs.cur_clean]
  · simp [hset]

theorem nextRow (hs : s.Shows lines cur) :
    ∃ s', s.nextRow = some s' ∧ s'.Shows (lines ++ [cur]) [] ∧
      s'.textRows = s.textRows ∧ s'.textCols = s.textCols := by
  obtain ⟨text, hstore, hothers, -, hcstr, hzero⟩ := hs.store_zero
  have hpos : 0 < s.textRows := Nat.lt_of_lt_of_le Nat.two_pos hs.two_rows
  rw [Screen.nextRow, hstore]
  refine ⟨_, rfl, ?_, rfl, rfl⟩
  simp only [← hs.top_eq, if_pos]
  constructor
  case two_rows => exact hs.two_rows
  case rows_le => exact hs.rows_le
  case cols_pos => exact hs.cols_pos
  case cols_lt => exact hs.cols_lt
  case row_lt =>
    rw [hs.top_eq]
    exact Nat.mod_lt _ hpos
  case top_eq => rfl
  case col_eq => rfl
  case cur_le => exact Nat.zero_le _
  case cur_clean => exact List.not_mem_nil
  case cur_eq => rfl
  case above =>
    intro i hi
    dsimp only at hi ⊢
    have hring : (i + (s.textTop + 1) % s.textRows) % s.textRows =
        (i + 1 + s.textTop) % s.textRows := by
      rw [Nat.add_mod_mod, Nat.add_right_comm, Nat.add_assoc]
    rw [hring, ← List.append_assoc, List.length_append, List.length_singleton]
    have hlength : (List.replicate s.textRows ([] : Bytes) ++ lines).length =
        s.textRows + lines.length := by simp
    by_cases hlast : i + 1 + 1 = s.textRows
    · -- the line that has just ended
      rw [hs.top_eq, ring_last hs.row_lt hlast, hcstr,
        List.getElem?_append_right (by omega), hlength,
        show lines.length + 1 + 1 + i - (s.textRows + lines.length) = 0 by
          omega]
      rfl
    · have hne : (i + 1 + s.textTop) % s.textRows ≠ s.textRow := by
        rw [hs.top_eq]
        exact ring_ne hs.row_lt (by omega)
      rw [List.getElem?_append_left (by omega), hothers _ hne,
        ← hs.above (i + 1) (by omega),
        show lines.length + 1 + 1 + i = lines.length + 1 + (i + 1) by omega]
  case ended =>
    intro k hk hne
    by_cases hrow : k = s.textRow
    · rw [hrow]
      exact hzero
    · dsimp only
      rw [hothers k hrow]
      exact hs.ended k hk hrow

theorem storeChar (hs : s.Shows lines cur) {c : UInt8}
    (hroom : cur.length < s.textCols) (hc : c ≠ 0) :
    ∃ text : Text, s.store s.textRow s.textCol c =
        some { s with text := text } ∧
      Screen.Shows { s with text := text, textCol := s.textCol + 1 } lines
        (cur ++ [c]) := by
  obtain ⟨text, hstore, hrow, hothers⟩ := exists_store s hs.row_in hs.col_in c
  have hcol : s.textCol < (s.text.row s.textRow).length := by
    rw [length_row _ hs.row_in]
    exact hs.col_in
  have hlength : (cur ++ [c]).length = s.textCol + 1 := by
    rw [List.length_append, hs.col_eq]
    rfl
  have hclean : (0 : UInt8) ∉ cur ++ [c] := by
    simpa [hs.cur_clean] using Ne.symm hc
  refine ⟨text, hstore, ?_⟩
  rw [← hlength]
  apply hs.retext hothers _ hclean
  · rw [hrow, hlength, take_set_succ hcol, hs.col_eq, hs.cur_eq]
  · rw [hlength, hs.col_eq]
    exact hroom

end Shows

/-- The text is on the screen, as far as it fits. -/
def Prints (s : Screen) (text : Bytes) : Prop :=
  ∃ lines cur, s.Shows lines cur ∧
    wrapped 10 s.textCols text = lines ++ [cur]

namespace Prints

variable {s : Screen} {text : Bytes} {c : UInt8}

theorem printChar (hs : s.Prints text) (hc : c ≠ 0) :
    ∃ s', s.printChar c = some s' ∧ s'.Prints (text ++ [c]) ∧
      s'.textRows = s.textRows ∧ s'.textCols = s.textCols := by
  obtain ⟨lines, cur, hshows, htext⟩ := hs
  obtain ⟨s', hnext, hshows', hrows, hcols⟩ := hshows.nextRow
  by_cases hnewline : c = 10
  · refine ⟨s', ?_, ⟨_, _, hshows', ?_⟩, hrows, hcols⟩
    · rw [Screen.printChar, if_pos (.inl hnewline), hnext]
      exact if_pos hnewline
    · rw [hcols, hnewline]
      exact wrapped_append_newline hshows.cols_pos htext
  · have hother := wrapped_append_other hshows.cols_pos htext hnewline
    by_cases hroom : cur.length < s.textCols
    · obtain ⟨after, hstore, hafter⟩ := hshows.storeChar hroom hc
      have hcol : ¬ s.textCols ≤ s.textCol := by
        rw [hshows.col_eq]
        exact Nat.not_le_of_lt hroom
      rw [if_pos hroom] at hother
      refine ⟨_, ?_, ⟨_, _, hafter, hother⟩, rfl, rfl⟩
      simp [Screen.printChar, hnewline, hcol, hstore]
    · -- the character is the first one of a row
      have hcol : s.textCols ≤ s.textCol := by
        rw [hshows.col_eq]
        exact Nat.le_of_not_lt hroom
      obtain ⟨after, hstore, hafter⟩ := hshows'.storeChar hshows'.cols_pos hc
      rw [if_neg hroom, ← hcols] at hother
      refine ⟨_, ?_, ⟨_, _, hafter, hother⟩, hrows, hcols⟩
      simp [Screen.printChar, hnewline, hcol, hnext, hstore]

theorem foldlM_printChar (hs : s.Prints text) {buf : Bytes}
    (hbuf : (0 : UInt8) ∉ buf) :
    ∃ s', buf.foldlM Screen.printChar s = some s' ∧ s'.Prints (text ++ buf) ∧
      s'.textRows = s.textRows ∧ s'.textCols = s.textCols := by
  induction buf generalizing s text with
  | nil => exact ⟨s, rfl, by simpa using hs, rfl, rfl⟩
  | cons c buf ih =>
      rw [List.mem_cons, not_or] at hbuf
      obtain ⟨next, hnext, hprints, hrows, hcols⟩ :=
        hs.printChar (Ne.symm hbuf.1)
      obtain ⟨s', hrest, hprints', hrows', hcols'⟩ := ih hprints hbuf.2
      refine ⟨s', ?_, by simpa using hprints', hrows'.trans hrows,
        hcols'.trans hcols⟩
      rw [List.foldlM_cons, hnext]
      exact hrest

end Prints

/-- Between two calls the current row is terminated as well. -/
structure Settled (s : Screen) (lines : List Bytes) (cur : Bytes) : Prop
    extends Shows s lines cur where
  cstr_eq : cstr (s.text.row s.textRow) = cur
  zero_mem : (0 : UInt8) ∈ s.text.row s.textRow

namespace Settled

variable {s : Screen} {lines : List Bytes} {cur : Bytes}

theorem textLines_eq (hs : s.Settled lines cur) (i : Nat) :
    s.textLines i = (lastLines s.textRows (lines ++ [cur])).drop i := by
  have hlength : (List.replicate s.textRows ([] : Bytes) ++ lines).length =
      s.textRows + lines.length := by simp
  apply List.ext_getElem?
  intro j
  rw [textLines, lastLines, List.drop_drop, List.getElem?_drop,
    List.getElem?_map, ← List.append_assoc, List.length_append,
    List.length_singleton]
  by_cases hj : j < s.textRows - i
  · rw [List.getElem?_range' hj, Option.map_some, Nat.one_mul]
    by_cases hlast : i + j + 1 = s.textRows
    · rw [hs.top_eq, ring_last hs.row_lt hlast, hs.cstr_eq,
        List.getElem?_append_right (by omega), hlength,
        show lines.length + 1 + i + j - (s.textRows + lines.length) = 0 by
          omega]
      rfl
    · rw [List.getElem?_append_left (by omega), Nat.add_assoc _ i j]
      exact (hs.above (i + j) (by omega)).symm
  · rw [List.getElem?_eq_none (by simpa using hj), List.getElem?_eq_none]
    · rfl
    · rw [List.length_append, hlength, List.length_singleton]
      omega

theorem uiPrint (hs : s.Settled lines cur) {text : Bytes}
    (htext : wrapped 10 s.textCols text = lines ++ [cur])
    (formatted : Bytes) :
    ∃ s' lines' cur', s.uiPrint formatted = some s' ∧
      s'.Settled lines' cur' ∧
      wrapped 10 s.textCols (text ++ printed formatted) =
        lines' ++ [cur'] ∧
      s'.textRows = s.textRows ∧ s'.textCols = s.textCols := by
  have hprints : s.Prints text := ⟨lines, cur, hs.toShows, htext⟩
  obtain ⟨next, hnext, ⟨lines', cur', hshows, htext'⟩, hrows, hcols⟩ :=
    hprints.foldlM_printChar (zero_not_mem_cstr (formatted.take 255))
  obtain ⟨after, hstore, hothers, hcur, hcstr, hzero⟩ := hshows.store_zero
  have hscreen : 0 < s.textRows ∧ 0 < s.textCols :=
    ⟨Nat.lt_of_lt_of_le Nat.two_pos hs.two_rows, hs.cols_pos⟩
  refine ⟨{ next with text := after }, lines', cur', ?_,
    ⟨?_, hcstr, hzero⟩, ?_, hrows, hcols⟩
  · rw [Screen.uiPrint, if_pos hscreen, printed, hnext]
    exact hstore
  · have hkept := hshows.retext hothers hshows.cur_le hshows.cur_clean hcur
    rw [← hshows.col_eq] at hkept
    exact hkept
  · rw [hcols] at htext'
    exact htext'

end Settled

section Init

variable {width height : Nat}

theorem two_rows_init (hrows : 2 ≤ height / CHAR_HEIGHT) :
    2 ≤ (start.uiInit width height).textRows :=
  Nat.le_min.mpr ⟨hrows, by decide⟩

theorem rows_init_le : (start.uiInit width height).textRows ≤ MAX_ROWS :=
  Nat.min_le_right _ _

theorem top_init (hrows : 2 ≤ height / CHAR_HEIGHT) :
    (start.uiInit width height).textTop =
      ((start.uiInit width height).textRow + 1) %
        (start.uiInit width height).textRows :=
  (Nat.mod_eq_of_lt (two_rows_init hrows)).symm

theorem row_init {k : Nat} (hk : k < MAX_ROWS) :
    (start.uiInit width height).text.row k = List.replicate MAX_COLS 0 := by
  simp [Text.row, uiInit, start, hk]

theorem settled_init (hrows : 2 ≤ height / CHAR_HEIGHT)
    (hcols : 0 < width / CHAR_WIDTH) :
    (start.uiInit width height).Settled [] [] := by
  have hzero : (0 : UInt8) ∈ List.replicate MAX_COLS (0 : UInt8) := by
    simp
  have hpos : 0 < (start.uiInit width height).textRows :=
    Nat.lt_of_lt_of_le Nat.two_pos (two_rows_init hrows)
  have hfirst : (start.uiInit width height).text.row
      (start.uiInit width height).textRow = List.replicate MAX_COLS 0 :=
    row_init (Nat.succ_pos _)
  refine ⟨⟨two_rows_init hrows, rows_init_le,
    Nat.lt_min.mpr ⟨hcols, by decide⟩, ?_, hpos, top_init hrows, rfl,
    Nat.zero_le _, List.not_mem_nil, rfl, ?_, ?_⟩, ?_, ?_⟩
  · exact Nat.lt_of_le_of_lt (Nat.min_le_right _ _) (by decide)
  · intro i hi
    rw [row_init ((Nat.mod_lt _ hpos).trans_le rows_init_le), List.append_nil,
      List.getElem?_replicate, if_pos (by rw [List.length_nil]; omega)]
    rfl
  · intro k hk _
    rw [row_init hk]
    exact hzero
  · rw [hfirst]
    rfl
  · rw [hfirst]
    exact hzero

end Init

def prints (s : Screen) (calls : List Bytes) : Option Screen :=
  calls.foldlM uiPrint s

/-- All that has been printed. -/
def output (calls : List Bytes) : Bytes := calls.flatMap printed

/-- What is true of the screen when the text has been printed. -/
structure Logs (s : Screen) (text : Bytes) : Prop where
  row_lt : s.textRow < s.textRows
  top_lt : s.textTop < s.textRows
  col_le : s.textCol ≤ s.textCols
  top_eq : s.textTop = (s.textRow + 1) % s.textRows
  terminated : ∀ k < MAX_ROWS, (0 : UInt8) ∈ s.text.row k
  shown : ∀ i, s.textLines i =
    (lastLines s.textRows (wrapped 10 s.textCols text)).drop i

theorem Settled.logs {s : Screen} {lines : List Bytes} {cur text : Bytes}
    (hs : s.Settled lines cur)
    (htext : wrapped 10 s.textCols text = lines ++ [cur]) : s.Logs text where
  row_lt := hs.row_lt
  top_lt := by
    rw [hs.top_eq]
    exact Nat.mod_lt _ (Nat.zero_lt_of_lt hs.row_lt)
  col_le := by
    rw [hs.col_eq]
    exact hs.cur_le
  top_eq := hs.top_eq
  terminated := by
    intro k hk
    by_cases hrow : k = s.textRow
    · rw [hrow]
      exact hs.zero_mem
    · exact hs.ended k hk hrow
  shown := by
    rw [htext]
    exact hs.textLines_eq

theorem Settled.prints {s : Screen} {lines : List Bytes} {cur text : Bytes}
    (hs : s.Settled lines cur)
    (htext : wrapped 10 s.textCols text = lines ++ [cur])
    (calls : List Bytes) :
    ∃ s', s.prints calls = some s' ∧ s'.Logs (text ++ output calls) := by
  induction calls generalizing s lines cur text with
  | nil => exact ⟨s, rfl, by simpa [output] using hs.logs htext⟩
  | cons formatted calls ih =>
      obtain ⟨next, lines', cur', hnext, hsettled, htext', -, hcols⟩ :=
        hs.uiPrint htext formatted
      rw [← hcols] at htext'
      obtain ⟨s', hrest, hlogs⟩ := ih hsettled htext'
      refine ⟨s', ?_, by simpa [output] using hlogs⟩
      rw [Screen.prints, List.foldlM_cons, hnext]
      exact hrest

/-- Without rows or columns nothing is printed. -/
theorem prints_of_none {s : Screen}
    (hnone : ¬ (0 < s.textRows ∧ 0 < s.textCols)) (calls : List Bytes) :
    s.prints calls = some s := by
  induction calls with
  | nil => rfl
  | cons formatted calls ih =>
      rw [prints, List.foldlM_cons, uiPrint, if_neg hnone]
      exact ih

/-- There are no lines on a screen without columns. -/
theorem logs_init {width height : Nat} (hrows : 2 ≤ height / CHAR_HEIGHT)
    (hcols : (start.uiInit width height).textCols = 0) (text : Bytes) :
    (start.uiInit width height).Logs text := by
  have htwo := @two_rows_init width height hrows
  have hpos := Nat.lt_of_lt_of_le Nat.two_pos htwo
  refine ⟨hpos, Nat.lt_of_lt_of_le Nat.one_lt_two htwo, Nat.zero_le _,
    top_init hrows, fun k hk => ?_, fun i => ?_⟩
  · rw [row_init hk]
    simp
  · rw [wrapped, if_pos hcols, lastLines, List.append_nil, List.length_nil,
      List.drop_zero, List.drop_replicate, textLines]
    refine List.eq_replicate_iff.mpr ⟨by simp, fun line hline => ?_⟩
    obtain ⟨k, -, rfl⟩ := List.mem_map.mp hline
    rw [row_init ((Nat.mod_lt _ hpos).trans_le rows_init_le)]
    rfl

/-- On a screen with two rows the log shows the last lines of all that has
been printed since `ui_init`. -/
theorem prints_last_lines {width height : Nat}
    (hrows : 2 ≤ height / CHAR_HEIGHT) (early calls : List Bytes) :
    ∃ s, (do
        let s ← start.prints early
        (s.uiInit width height).prints calls) = some s ∧
      s.Logs (output calls) := by
  have hearly : start.prints early = some start :=
    prints_of_none (by simp [start]) early
  rw [hearly]
  by_cases hcols : 0 < width / CHAR_WIDTH
  · have hinit := settled_init hrows hcols
    exact hinit.prints (wrapped_nil 10 hinit.cols_pos) calls
  · have hnone : (start.uiInit width height).textCols = 0 := by
      simp [uiInit, Nat.eq_zero_of_not_pos hcols]
    exact ⟨_, prints_of_none (by simp [hnone]) calls,
      logs_init hrows hnone _⟩

-- a newline behind a full row does not leave an empty one
example : ((start.uiInit 30 36).prints
    [.ofString "ab", .ofString "c\nd"]).map (·.textLines 0) =
      some [.ofString "abc", .ofString "d"] := by decide

end Screen

namespace TextScreenWitness

open Screen

/-- Three columns and two rows, after a text that came too early. -/
theorem small_screen : ∃ s, (do
      let s ← start.prints [.ofString "early"]
      (s.uiInit 30 36).prints [.ofString "abcd\n", .ofString "ef"]) = some s ∧
    s.Logs (output [.ofString "abcd\n", .ofString "ef"]) :=
  @prints_last_lines 30 36 (by decide) _ _

end TextScreenWitness

end TextScreen

end MetaOS
