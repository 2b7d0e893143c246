/-
hardware/ril/libril/ril.cpp: the dispatch functions whose body begins with a
count.  The count sizes an array on the stack, bounds a loop and, times four,
is the length the vendor is told.
-/
import MetaOS.RilDispatch

namespace MetaOS

namespace RilDispatch

/-- The functions that read a count and then as many elements. -/
inductive Listed where
  | strings
  | ints
  | gsmBrSmsCnf
  | cdmaBrSmsCnf
deriving DecidableEq

def Listed.dispatch : Listed → Dispatch
  | strings => .strings
  | ints => .ints
  | gsmBrSmsCnf => .gsmBrSmsCnf
  | cdmaBrSmsCnf => .cdmaBrSmsCnf

/-- How many elements the vendor finds behind the pointer. -/
def Payload.elements : Payload → Nat
  | strings texts => (texts.getD []).length
  | ints values => values.length
  | gsmBroadcast infos => infos.length
  | cdmaBroadcast infos => infos.length
  | _ => 0

section Elements

variable {P : Type} (lib : Library P)

/-- Whether an integer is read, and where the parcel stands then. -/
def Library.intAt (p : P) : Bool × P :=
  ((lib.readInt32 p).1.isSome, (lib.readInt32 p).2)

/-- As many integers, one after the other. -/
def Library.intsAt : Nat → P → Bool × P
  | 0, p => (true, p)
  | k + 1, p =>
      let (there, p) := lib.intAt p
      let (all, p) := Library.intsAt k p
      (there && all, p)

/-- A string is read, or the length -1 of a null string stands there. -/
def Library.stringAt (p : P) : Bool × P :=
  ((lib.readString16Inplace p).1.isSome || (lib.readInt32 p).1 == some (-1),
    (lib.readString16Inplace p).2)

def Listed.element : Listed → P → Bool × P
  | strings => lib.stringAt
  | ints => lib.intAt
  | gsmBrSmsCnf => lib.intsAt 5
  | cdmaBrSmsCnf => lib.intsAt 3

/-- How many of `n` elements are read successfully. -/
def successes (element : P → Bool × P) : (n : Nat) → P → Nat
  | 0, _ => 0
  | n + 1, p => (element p).1.toNat + successes element n (element p).2

theorem successes_le (element : P → Bool × P) (n : Nat) (p : P) :
    successes element n p ≤ n := by
  induction n generalizing p with
  | zero => exact le_refl 0
  | succ n ih =>
      have hrest := ih (element p).2
      have hfirst := Bool.toNat_le (element p).1
      rw [successes]
      omega

/-- All elements are there if the first is and all that follow are. -/
theorem successes_succ_iff {element : P → Bool × P} {n : Nat} {p : P} :
    successes element (n + 1) p = n + 1 ↔
      (element p).1 = true ∧ successes element n (element p).2 = n := by
  have hrest := successes_le element n (element p).2
  rw [successes]
  cases (element p).1 with
  | false => simp; omega
  | true => simp; omega

/-- A read past the end returns an error and leaves the parcel where it is, so
that the next read does, too. -/
structure Library.Stops : Prop where
  int32 (p : P) (hnone : (lib.readInt32 p).1 = none) :
    (lib.readInt32 (lib.readInt32 p).2).1 = none

/-- The request is turned away, or the vendor is told the size of exactly the
elements that were read: as many as the count says, all of them
successfully. -/
def Passes (d : Listed) (p : P) : Outcome → Prop
  | .invalidCommandBlock => True
  | .crashed => False
  | .onRequest data datalen =>
      ∃ count : Nat, (lib.readInt32 p).1 = some (count : Int) ∧
        data.elements = count ∧
        successes (d.element lib) count (lib.readInt32 p).2 = count ∧
        datalen = 4 * count

def PassesWhatIsRead (m : Machine) (version : Int) (d : Listed) (p : P) :
    Prop :=
  Passes lib d p ((d.dispatch.function m version).eval lib.answer p).1

/-- The count is not negative and its arrays fit the stack, in bytes counted
without overflow, and all strings are there.  A list of integers whose array
overflows is still turned away if it ends before the array does. -/
def Passable (m : Machine) (count : Int) (p : P) : Listed → Prop
  | .strings => 0 ≤ count ∧ 4 * count < 2 ^ 32 ∧ 4 * count ≤ m.stack ∧
      successes lib.stringAt count.toNat p = count.toNat
  | .ints => 0 ≤ count ∧ sizeT (4 * count) ≤ m.stack ∧
      (4 * count < 2 ^ 32 ∨
        successes lib.intAt (sizeT (4 * count) / 4) p < sizeT (4 * count) / 4)
  | .gsmBrSmsCnf => 0 ≤ count ∧ 20 * count < 2 ^ 32 ∧ 24 * count ≤ m.stack
  | .cdmaBrSmsCnf => 0 ≤ count ∧ 12 * count < 2 ^ 32 ∧ 16 * count ≤ m.stack

variable {lib} {m : Machine}

theorem eval_askInt32 (p : P) :
    askInt32.eval lib.answer p = lib.readInt32 p := rfl

theorem eval_readInt32 (t : Int) (p : P) :
    (readInt32 t).eval lib.answer p =
      (((lib.readInt32 p).1.isSome, (lib.readInt32 p).1.getD t),
        (lib.readInt32 p).2) := by
  rw [readInt32, Prog.eval_bind, eval_askInt32]
  cases (lib.readInt32 p).1 with
  | none => rfl
  | some value => rfl

theorem eval_askCountInts (p : P) :
    askCountInts.eval lib.answer p = lib.readInt32 p := rfl

theorem eval_strdupReadString (p : P) :
    strdupReadString.eval lib.answer p =
      (lib.strndup16to8 (lib.readString16Inplace p).1,
        (lib.readString16Inplace p).2) := rfl

/-- An array has room for as many elements as its size is computed for, unless
the product overflows. -/
theorem le_room_iff {count n : Int} {size : Nat} (hsize : 0 < size)
    (hcount : 0 ≤ count) (hn : n = count * size) :
    count.toNat ≤ sizeT n / size ↔ n < 2 ^ 32 := by
  have hnat : (count.toNat : Int) = count := Int.toNat_of_nonneg hcount
  have hpos : 0 ≤ n := hn ▸ Int.mul_nonneg hcount (Int.natCast_nonneg size)
  have hmod : (sizeT n : Int) = n % 2 ^ 32 :=
    Int.toNat_of_nonneg (Int.emod_nonneg n (by norm_num))
  have hle : n % 2 ^ 32 ≤ n := by omega
  have hprod : (count.toNat * size : Nat) = n := by
    rw [Nat.cast_mul, hnat, hn]
  rw [Nat.le_div_iff_mul_le hsize]
  constructor
  · intro hroom
    omega
  · intro hlt
    omega

theorem sizeT_of_lt {n : Int} (hneg : 0 ≤ n) (hlt : n < 2 ^ 32) :
    sizeT n = n.toNat := by
  rw [sizeT, Int.emod_eq_of_lt hneg hlt]

/-- A negative count is not passed. -/
theorem not_passes_of_neg {d : Listed} {p : P} {count : Int}
    (hread : (lib.readInt32 p).1 = some count) (hneg : count < 0)
    (data : Payload) (datalen : Nat) :
    ¬ Passes lib d p (.onRequest data datalen) := by
  rintro ⟨count', hcount, -⟩
  rw [hread] at hcount
  have hsame := Option.some_inj.mp hcount
  omega

/-- A list that is handed over whole. -/
theorem passes_onRequest_iff {d : Listed} {p : P} {count : Int}
    (hread : (lib.readInt32 p).1 = some count) (hcount : 0 ≤ count)
    {data : Payload} (hdata : data.elements = count.toNat) {datalen : Nat}
    (hdatalen : datalen = 4 * count.toNat) :
    Passes lib d p (.onRequest data datalen) ↔
      successes (d.element lib) count.toNat (lib.readInt32 p).2 =
        count.toNat := by
  constructor
  · rintro ⟨count', hcount', -, hall, -⟩
    rw [hread] at hcount'
    obtain rfl := Option.some_inj.mp hcount'
    exact hall
  · intro hall
    refine ⟨count.toNat, ?_, hdata, hall, hdatalen⟩
    rw [hread, Int.toNat_of_nonneg hcount]

/-- The array of `dispatchStrings` is filled, or overrun. -/
theorem readStrings_filled {n room : Nat} (hroom : n ≤ room) (p : P) :
    ∃ texts, ((readStrings n room).eval lib.answer p).1 = .ok texts ∧
      texts.length = n := by
  induction n generalizing room p with
  | zero => exact ⟨[], rfl, rfl⟩
  | succ n ih =>
      cases room with
      | zero => exact absurd hroom (Nat.not_succ_le_zero n)
      | succ room =>
          obtain ⟨texts, htexts, hlength⟩ := ih
            (Nat.le_of_succ_le_succ hroom) (lib.readString16Inplace p).2
          rw [readStrings, Prog.eval_bind, eval_strdupReadString]
          dsimp only
          rw [Prog.eval_bind, htexts]
          exact ⟨_ :: texts, rfl, congrArg Nat.succ hlength⟩

theorem readStrings_overrun {n room : Nat} (hroom : room < n) (p : P) :
    ((readStrings n room).eval lib.answer p).1 = .error .crashed := by
  induction n generalizing room p with
  | zero => exact absurd hroom (Nat.not_lt_zero room)
  | succ n ih =>
      rw [readStrings, Prog.eval_bind, eval_strdupReadString]
      dsimp only
      cases room with
      | zero => rfl
      | succ room =>
          dsimp only
          rw [Prog.eval_bind, ih (Nat.lt_of_succ_lt_succ hroom)]
          rfl

/-- The loop of `dispatchInts` gives up at the first integer that is not
there, if it comes to it before the end of the array. -/
theorem readInts_invalid {n room : Nat} (t : Int) (p : P)
    (hmissing : successes lib.intAt (min n room) p < min n room) :
    ((readInts n room t).eval lib.answer p).1 =
      .error .invalidCommandBlock := by
  induction n generalizing room t p with
  | zero => simp at hmissing
  | succ n ih =>
      cases room with
      | zero => simp at hmissing
      | succ room =>
          rw [Nat.succ_min_succ, successes] at hmissing
          rw [readInts, Prog.eval_bind, eval_readInt32]
          dsimp only
          cases hthere : (lib.readInt32 p).1.isSome with
          | false => rfl
          | true =>
              dsimp only [Library.intAt] at hmissing
              rw [hthere, Bool.toNat_true] at hmissing
              rw [if_neg (by decide), Prog.eval_bind,
                ih _ (lib.readInt32 p).2 (by omega)]
              rfl

theorem readInts_filled {n room : Nat} (hroom : n ≤ room) (t : Int) (p : P)
    (hall : successes lib.intAt n p = n) :
    ∃ ints, ((readInts n room t).eval lib.answer p).1 = .ok ints ∧
      ints.length = n := by
  induction n generalizing room t p with
  | zero => exact ⟨[], rfl, rfl⟩
  | succ n ih =>
      cases room with
      | zero => exact absurd hroom (Nat.not_succ_le_zero n)
      | succ room =>
          obtain ⟨hthere, hrest⟩ := successes_succ_iff.mp hall
          dsimp only [Library.intAt] at hthere hrest
          obtain ⟨ints, hints, hlength⟩ := ih (Nat.le_of_succ_le_succ hroom)
            ((lib.readInt32 p).1.getD t) (lib.readInt32 p).2 hrest
          rw [readInts, Prog.eval_bind, eval_readInt32, hthere]
          dsimp only
          rw [if_neg (by decide), Prog.eval_bind, hints]
          exact ⟨_ :: ints, rfl, congrArg Nat.succ hlength⟩

theorem readInts_overrun {n room : Nat} (hroom : room < n) (t : Int) (p : P)
    (hall : successes lib.intAt room p = room) :
    ((readInts n room t).eval lib.answer p).1 = .error .crashed := by
  induction n generalizing room t p with
  | zero => exact absurd hroom (Nat.not_lt_zero room)
  | succ n ih =>
      rw [readInts, Prog.eval_bind, eval_readInt32]
      cases room with
      | zero => rfl
      | succ room =>
          obtain ⟨hthere, hrest⟩ := successes_succ_iff.mp hall
          dsimp only [Library.intAt] at hthere hrest
          dsimp only
          rw [hthere, if_neg (by decide), Prog.eval_bind,
            ih (Nat.lt_of_succ_lt_succ hroom) _ _ hrest]
          rfl

/-- The parcel after `k` reads. -/
def Library.skip (lib : Library P) (k : Nat) (p : P) : P :=
  (fun p => (lib.readInt32 p).2)^[k] p

/-- If an integer is read, so were those before. -/
theorem Library.Stops.intsAt_eq (hstops : lib.Stops) {k : Nat} {p : P}
    (hlast : (lib.readInt32 (lib.skip k p)).1.isSome = true) :
    (lib.readInt32 p).1.isSome = true ∧
      lib.intsAt (k + 1) p = (true, lib.skip (k + 1) p) := by
  induction k generalizing p with
  | zero =>
      refine ⟨hlast, ?_⟩
      change ((lib.readInt32 p).1.isSome && true, _) = _
      rw [show (lib.readInt32 p).1.isSome = true from hlast]
      rfl
  | succ k ih =>
      obtain ⟨hnext, hrest⟩ := ih hlast
      have hfirst : (lib.readInt32 p).1.isSome = true := by
        cases hread : (lib.readInt32 p).1 with
        | none =>
            rw [hstops.int32 p hread] at hnext
            exact hnext
        | some value => rfl
      refine ⟨hfirst, ?_⟩
      rw [Library.intsAt, Library.intAt]
      dsimp only
      rw [hfirst, hrest]
      rfl

theorem Library.Stops.next (hstops : lib.Stops) (p : P)
    (hnone : (lib.readInt32 p).1.isSome = false) :
    (lib.readInt32 (lib.readInt32 p).2).1 = none :=
  hstops.int32 p (Option.isNone_iff_eq_none.mp
    (Option.isSome_eq_false_iff.mp hnone))

/-- The status of the last read is that of all reads: how an array of
entries is filled by `infos`, of which each reads `k` integers. -/
structure Filling {α : Type} (lib : Library P) (k : Nat)
    (infos : (n room : Nat) → Bool → Int →
      Reader (Except Outcome (Bool × List α))) : Prop where
  filled {n room : Nat} (hroom : n ≤ room) (status : Bool) (t : Int) (p : P)
    (hstatus : status = false → (lib.readInt32 p).1 = none) :
    ∃ last list, ((infos n room status t).eval lib.answer p).1 =
      .ok (last, list) ∧ list.length = n ∧
      (last = true → status = true ∧ successes (lib.intsAt k) n p = n) ∧
      (n = 0 → last = status)
  overrun {n room : Nat} (hroom : room < n) (status : Bool) (t : Int) (p : P) :
    ((infos n room status t).eval lib.answer p).1 = .error .crashed

/-- A loop fills an array when each turn reads its integers and goes on with
the status of the last one. -/
theorem Library.Stops.filling (hstops : lib.Stops) {α : Type} {k : Nat}
    {infos : (n room : Nat) → Bool → Int →
      Reader (Except Outcome (Bool × List α))}
    (hzero : ∀ room status t, infos 0 room status t = pure (.ok (status, [])))
    (hfull : ∀ n status t, infos (n + 1) 0 status t = pure (.error .crashed))
    (hturn : ∀ n room status t p, ∃ entry t',
      ((infos (n + 1) (room + 1) status t).eval lib.answer p).1 =
        ((infos n room (lib.readInt32 (lib.skip k p)).1.isSome t').eval
          lib.answer (lib.skip (k + 1) p)).1.map
            fun (status, list) => (status, entry :: list)) :
    Filling lib (k + 1) infos := by
  constructor
  · intro n room hroom status t p hstatus
    induction n generalizing room status t p with
    | zero =>
        rw [hzero]
        exact ⟨status, [], rfl, rfl, fun hlast => ⟨hlast, rfl⟩, fun _ => rfl⟩
    | succ n ih =>
        cases room with
        | zero => exact absurd hroom (Nat.not_succ_le_zero n)
        | succ room =>
            obtain ⟨entry, t', heval⟩ := hturn n room status t p
            have hbehind : lib.skip (k + 1) p =
                (lib.readInt32 (lib.skip k p)).2 :=
              Function.iterate_succ_apply' _ k p
            obtain ⟨last, list, hlater, hlength, hlast, -⟩ := ih
              (Nat.le_of_succ_le_succ hroom)
              (lib.readInt32 (lib.skip k p)).1.isSome t' (lib.skip (k + 1) p)
              (hbehind ▸ hstops.next (lib.skip k p))
            rw [hlater] at heval
            refine ⟨last, entry :: list, heval, congrArg Nat.succ hlength, ?_,
              fun hzero => by cases hzero⟩
            intro htrue
            obtain ⟨hstatus', hrest⟩ := hlast htrue
            obtain ⟨hfirst, hall⟩ := hstops.intsAt_eq hstatus'
            refine ⟨?_, successes_succ_iff.mpr (by
              rw [hall]
              exact ⟨rfl, hrest⟩)⟩
            cases status with
            | true => rfl
            | false => rw [hstatus rfl] at hfirst; exact hfirst
  · intro n room hroom status t p
    induction n generalizing room status t p with
    | zero => exact absurd hroom (Nat.not_lt_zero room)
    | succ n ih =>
        cases room with
        | zero =>
            rw [hfull]
            rfl
        | succ room =>
            obtain ⟨entry, t', heval⟩ := hturn n room status t p
            rw [heval, ih (Nat.lt_of_succ_lt_succ hroom)]
            rfl

theorem readGsmInfos_filling (hstops : lib.Stops) :
    Filling lib 5 readGsmInfos := by
  refine hstops.filling (fun _ _ _ => rfl) (fun _ _ _ => rfl) ?_
  intro n room status t p
  simp only [readGsmInfos, Prog.eval_bind, eval_readInt32]
  exact ⟨_, _, rfl⟩

theorem readCdmaInfos_filling (hstops : lib.Stops) :
    Filling lib 3 readCdmaInfos := by
  refine hstops.filling (fun _ _ _ => rfl) (fun _ _ _ => rfl) ?_
  intro n room status t p
  simp only [readCdmaInfos, Prog.eval_bind, eval_readInt32]
  exact ⟨_, _, rfl⟩

/-- What the functions that read one array make of what their loop returns. -/
def passRead {α : Type} (data : α → Payload) (written : Nat) :
    Except Outcome α → Outcome
  | .error outcome => outcome
  | .ok list => .onRequest (data list) written

theorem dispatchStrings_passes_iff (m : Machine) {p : P} {count : Int}
    (hread : (lib.readInt32 p).1 = some count) :
    Passes lib .strings p ((dispatchStrings m).eval lib.answer p).1 ↔
      Passable lib m count (lib.readInt32 p).2 .strings := by
  have heval : ((dispatchStrings m).eval lib.answer p).1 =
      if count = 0 then .onRequest (.strings (some [])) 0
      else if count = -1 then .onRequest (.strings none) 0
      else if sizeT (4 * count) ≤ m.stack then
        passRead (fun texts => .strings (some texts)) (sizeT (4 * count))
          ((readStrings count.toNat (sizeT (4 * count) / 4)).eval lib.answer
            (lib.readInt32 p).2).1
      else .crashed := by
    rw [dispatchStrings, Prog.eval_bind, eval_readInt32, hread]
    dsimp only [Option.isSome_some, Option.getD_some, Bool.not_true]
    rw [if_neg (by decide)]
    unfold alloca
    split_ifs
    · rfl
    · rfl
    · rw [Prog.eval_bind]
      cases ((readStrings count.toNat (sizeT (4 * count) / 4)).eval
          lib.answer (lib.readInt32 p).2).1 with
      | error outcome => rfl
      | ok texts => rfl
    · rfl
  rw [heval]
  unfold Passable
  dsimp only
  by_cases hneg : count < 0
  · have hnot : ¬ 0 ≤ count := Int.not_le.mpr hneg
    have hzero : count.toNat = 0 := Int.toNat_of_nonpos hneg.le
    rw [if_neg (by omega), hzero]
    refine iff_of_false ?_ (fun h => hnot h.1)
    split_ifs
    · exact not_passes_of_neg hread hneg _ _
    · exact not_passes_of_neg hread hneg _ _
    · exact id
  · have hcount : 0 ≤ count := Int.not_lt.mp hneg
    by_cases hzero : count = 0
    · subst hzero
      have hempty : (Payload.strings (some [])).elements = Int.toNat 0 := rfl
      rw [if_pos rfl]
      refine iff_of_true ?_ ⟨hcount, by decide, by omega, rfl⟩
      exact (passes_onRequest_iff hread hcount hempty rfl).mpr rfl
    · rw [if_neg hzero, if_neg (by omega)]
      have hroom : count.toNat ≤ sizeT (4 * count) / 4 ↔ 4 * count < 2 ^ 32 :=
        le_room_iff (by decide) hcount (Int.mul_comm 4 count)
      by_cases hlt : 4 * count < 2 ^ 32
      · obtain ⟨texts, htexts, hlength⟩ := readStrings_filled
          (hroom.mpr hlt) (lib.readInt32 p).2
        rw [htexts, sizeT_of_lt (by omega) hlt]
        split_ifs with hstack
        · have helements : (Payload.strings (some texts)).elements =
              count.toNat := hlength
          dsimp only [passRead]
          rw [passes_onRequest_iff hread hcount helements (by omega)]
          constructor
          · exact fun hall => ⟨hcount, hlt, by omega, hall⟩
          · exact fun h => h.2.2.2
        · refine iff_of_false id fun h => hstack ?_
          omega
      · rw [readStrings_overrun (Nat.not_le.mp (mt hroom.mp hlt))]
        refine iff_of_false ?_ (fun h => hlt h.2.1)
        split_ifs
        · exact id
        · exact id

theorem dispatchInts_passes_iff (m : Machine) {p : P} {count : Int}
    (hread : (lib.readInt32 p).1 = some count) :
    Passes lib .ints p ((dispatchInts m).eval lib.answer p).1 ↔
      Passable lib m count (lib.readInt32 p).2 .ints := by
  have heval : ((dispatchInts m).eval lib.answer p).1 =
      if count = 0 then .invalidCommandBlock
      else if sizeT (4 * count) ≤ m.stack then
        passRead .ints (sizeT (4 * count))
          ((readInts count.toNat (sizeT (4 * count) / 4) m.t).eval lib.answer
            (lib.readInt32 p).2).1
      else .crashed := by
    rw [dispatchInts, Prog.eval_bind, eval_askCountInts, hread]
    dsimp only
    unfold alloca
    split_ifs
    · rfl
    · rw [Prog.eval_bind]
      cases ((readInts count.toNat (sizeT (4 * count) / 4) m.t).eval
          lib.answer (lib.readInt32 p).2).1 with
      | error outcome => rfl
      | ok ints => rfl
    · rfl
  rw [heval]
  unfold Passable
  dsimp only
  by_cases hneg : count < 0
  · have hnot : ¬ 0 ≤ count := Int.not_le.mpr hneg
    have hzero : count.toNat = 0 := Int.toNat_of_nonpos hneg.le
    rw [if_neg (by omega), hzero]
    refine iff_of_false ?_ (fun h => hnot h.1)
    split_ifs
    · exact not_passes_of_neg hread hneg _ _
    · exact id
  · have hcount : 0 ≤ count := Int.not_lt.mp hneg
    by_cases hzero : count = 0
    · subst hzero
      rw [if_pos rfl]
      refine iff_of_true trivial ⟨hcount, Nat.zero_le _, .inl (by decide)⟩
    · rw [if_neg hzero]
      have hroom : count.toNat ≤ sizeT (4 * count) / 4 ↔ 4 * count < 2 ^ 32 :=
        le_room_iff (by decide) hcount (Int.mul_comm 4 count)
      generalize hrest : (lib.readInt32 p).2 = rest
      by_cases hlt : 4 * count < 2 ^ 32
      · have hsize := sizeT_of_lt (by omega) hlt
        have hle := hroom.mpr hlt
        split_ifs with hstack
        · refine iff_of_true ?_ ⟨hcount, hstack, .inl hlt⟩
          obtain hall | hmissing :=
            (successes_le lib.intAt count.toNat rest).eq_or_lt
          · obtain ⟨ints, hints, hlength⟩ := readInts_filled hle m.t rest hall
            rw [hints]
            have helements : (Payload.ints ints).elements = count.toNat :=
              hlength
            refine (passes_onRequest_iff hread hcount helements ?_).mpr ?_
            · rw [hsize]
              omega
            · rw [hrest]
              exact hall
          · rw [readInts_invalid m.t rest (by rwa [min_eq_left hle])]
            trivial
        · exact iff_of_false id fun h => hstack h.2.1
      · have hover : sizeT (4 * count) / 4 < count.toNat :=
          Nat.not_le.mp (mt hroom.mp hlt)
        split_ifs with hstack
        · obtain hall | hmissing :=
            (successes_le lib.intAt (sizeT (4 * count) / 4) rest).eq_or_lt
          · rw [readInts_overrun hover m.t rest hall]
            refine iff_of_false id ?_
            rintro ⟨-, -, hlt' | hmissing⟩
            · exact hlt hlt'
            · exact hmissing.ne hall
          · rw [readInts_invalid m.t rest (by rwa [min_eq_right hover.le])]
            exact iff_of_true trivial ⟨hcount, hstack, .inr hmissing⟩
        · exact iff_of_false id fun h => hstack h.2.1

/-- What the functions that read entries make of what their loop returns:
their two arrays take the size of an entry and of a pointer for each. -/
def passEntries {α : Type} (m : Machine) (size : Nat)
    (data : List α → Payload) (num : Int)
    (loop : Nat → Except Outcome (Bool × List α)) : Outcome :=
  if sizeT (num * size) + sizeT (num * 4) ≤ m.stack then
    match loop (min (sizeT (num * size) / size) (sizeT (num * 4) / 4)) with
    | .error outcome => outcome
    | .ok (false, _) => .invalidCommandBlock
    | .ok (true, list) => .onRequest (data list) (sizeT (num * 4))
  else .crashed

theorem passEntries_passes_iff {α : Type} {k : Nat}
    {infos : (n room : Nat) → Bool → Int →
      Reader (Except Outcome (Bool × List α))}
    (hfilling : Filling lib k infos) {d : Listed}
    (hd : d.element lib = lib.intsAt k) {p : P} {num : Int}
    (hread : (lib.readInt32 p).1 = some num) {size : Nat} (hsize : 4 ≤ size)
    {data : List α → Payload}
    (hdata : ∀ list, (data list).elements = list.length) :
    Passes lib d p (passEntries m size data num fun room =>
      ((infos num.toNat room true m.t).eval lib.answer
        (lib.readInt32 p).2).1) ↔
      0 ≤ num ∧ num * size < 2 ^ 32 ∧ num * size + num * 4 ≤ m.stack := by
  unfold passEntries
  dsimp only
  generalize hrest : (lib.readInt32 p).2 = rest
  by_cases hneg : num < 0
  · have hzero : num.toNat = 0 := Int.toNat_of_nonpos hneg.le
    refine iff_of_false ?_ (fun h => (Int.not_le.mpr hneg) h.1)
    rw [hzero]
    obtain ⟨last, list, heval, -, -, hlast⟩ := hfilling.filled
      (Nat.zero_le (min (sizeT (num * size) / size) (sizeT (num * 4) / 4)))
      true m.t rest (fun h => by cases h)
    obtain rfl := hlast rfl
    rw [heval]
    split_ifs
    · exact not_passes_of_neg hread hneg _ _
    · exact id
  · have hnum : 0 ≤ num := Int.not_lt.mp hneg
    have hpos : 0 < size := by omega
    have hroom := le_room_iff hpos hnum rfl
    have hmul : num * 4 ≤ num * size :=
      Int.mul_le_mul_of_nonneg_left (by omega) hnum
    by_cases hlt : num * size < 2 ^ 32
    · have hroom₄ : num.toNat ≤ sizeT (num * 4) / 4 ↔ num * 4 < 2 ^ 32 :=
        le_room_iff (by decide) hnum rfl
      have hle := Nat.le_min.mpr ⟨hroom.mpr hlt, hroom₄.mpr (by omega)⟩
      have hsize := sizeT_of_lt (Int.mul_nonneg hnum (by omega)) hlt
      have hsize₄ : sizeT (num * 4) = (num * 4).toNat :=
        sizeT_of_lt (by omega) (by omega)
      obtain ⟨last, list, heval, hlength, hlast, -⟩ := hfilling.filled hle
        true m.t rest (fun h => by cases h)
      rw [heval]
      split_ifs with hstack
      · refine iff_of_true ?_ ⟨hnum, hlt, by omega⟩
        cases last with
        | false => trivial
        | true =>
            refine (passes_onRequest_iff hread hnum ?_ ?_).mpr ?_
            · rw [hdata, hlength]
            · rw [hsize₄]
              omega
            · rw [hd, hrest]
              exact (hlast rfl).2
      · refine iff_of_false id fun h => hstack ?_
        omega
    · have hover : min (sizeT (num * size) / size) (sizeT (num * 4) / 4) <
          num.toNat :=
        (Nat.min_le_left _ _).trans_lt (Nat.not_le.mp (mt hroom.mp hlt))
      refine iff_of_false ?_ (fun h => hlt h.2.1)
      rw [hfilling.overrun hover]
      split_ifs
      · exact id
      · exact id

theorem dispatchGsmBrSmsCnf_eval (m : Machine) {p : P} {count : Int}
    (hread : (lib.readInt32 p).1 = some count) :
    ((dispatchGsmBrSmsCnf m).eval lib.answer p).1 =
      passEntries m 20 .gsmBroadcast count fun room =>
        ((readGsmInfos count.toNat room true m.t).eval lib.answer
          (lib.readInt32 p).2).1 := by
  rw [dispatchGsmBrSmsCnf, Prog.eval_bind, eval_readInt32, hread]
  dsimp only [Option.isSome_some, Option.getD_some, Bool.not_true]
  rw [if_neg (by decide)]
  unfold alloca passEntries
  dsimp only [Nat.cast_ofNat]
  split_ifs
  · rw [Prog.eval_bind]
    cases ((readGsmInfos count.toNat (min (sizeT (count * 20) / 20)
        (sizeT (count * 4) / 4)) true m.t).eval lib.answer
        (lib.readInt32 p).2).1 with
    | error outcome => rfl
    | ok result =>
        obtain ⟨status, infos⟩ := result
        cases status with
        | false => rfl
        | true => rfl
  · rfl

theorem dispatchCdmaBrSmsCnf_eval (m : Machine) {p : P} {count : Int}
    (hread : (lib.readInt32 p).1 = some count) :
    ((dispatchCdmaBrSmsCnf m).eval lib.answer p).1 =
      passEntries m 12 .cdmaBroadcast count fun room =>
        ((readCdmaInfos count.toNat room true m.t).eval lib.answer
          (lib.readInt32 p).2).1 := by
  rw [dispatchCdmaBrSmsCnf, Prog.eval_bind, eval_readInt32, hread]
  dsimp only [Option.isSome_some, Option.getD_some, Bool.not_true]
  rw [if_neg (by decide)]
  unfold alloca passEntries
  dsimp only [Nat.cast_ofNat]
  split_ifs
  · rw [Prog.eval_bind]
    cases ((readCdmaInfos count.toNat (min (sizeT (count * 12) / 12)
        (sizeT (count * 4) / 4)) true m.t).eval lib.answer
        (lib.readInt32 p).2).1 with
    | error outcome => rfl
    | ok result =>
        obtain ⟨status, infos⟩ := result
        cases status with
        | false => rfl
        | true => rfl
  · rfl

/-- Each of the functions passes on what it reads, or nothing, if and only if
the count that it reads is passable. -/
theorem passes_what_is_read_iff (hstops : lib.Stops) (m : Machine)
    (version : Int) (d : Listed) (p : P) :
    PassesWhatIsRead lib m version d p ↔ ∀ count,
      (lib.readInt32 p).1 = some count →
        Passable lib m count (lib.readInt32 p).2 d := by
  cases hread : (lib.readInt32 p).1 with
  | none =>
      refine iff_of_true ?_ (fun _ h => by cases h)
      unfold PassesWhatIsRead
      cases d with
      | strings =>
          change Passes lib _ p ((dispatchStrings m).eval lib.answer p).1
          rw [dispatchStrings, Prog.eval_bind, eval_readInt32, hread]
          trivial
      | ints =>
          change Passes lib _ p ((dispatchInts m).eval lib.answer p).1
          rw [dispatchInts, Prog.eval_bind, eval_askCountInts, hread]
          trivial
      | gsmBrSmsCnf =>
          change Passes lib _ p ((dispatchGsmBrSmsCnf m).eval lib.answer p).1
          rw [dispatchGsmBrSmsCnf, Prog.eval_bind, eval_readInt32, hread]
          trivial
      | cdmaBrSmsCnf =>
          change Passes lib _ p ((dispatchCdmaBrSmsCnf m).eval lib.answer p).1
          rw [dispatchCdmaBrSmsCnf, Prog.eval_bind, eval_readInt32, hread]
          trivial
  | some count =>
      simp only [Option.some.injEq, forall_eq']
      unfold PassesWhatIsRead
      cases d with
      | strings => exact dispatchStrings_passes_iff m hread
      | ints => exact dispatchInts_passes_iff m hread
      | gsmBrSmsCnf =>
          change Passes lib _ p ((dispatchGsmBrSmsCnf m).eval lib.answer p).1 ↔
            0 ≤ count ∧ 20 * count < 2 ^ 32 ∧ 24 * count ≤ m.stack
          rw [dispatchGsmBrSmsCnf_eval m hread, passEntries_passes_iff
            (readGsmInfos_filling hstops) rfl hread (by decide) fun _ => rfl]
          omega
      | cdmaBrSmsCnf =>
          change Passes lib _ p ((dispatchCdmaBrSmsCnf m).eval lib.answer p).1 ↔
            0 ≤ count ∧ 12 * count < 2 ^ 32 ∧ 16 * count ≤ m.stack
          rw [dispatchCdmaBrSmsCnf_eval m hread, passEntries_passes_iff
            (readCdmaInfos_filling hstops) rfl hread (by decide) fun _ => rfl]
          omega

end Elements

namespace RilDispatchWitness

theorem plain_stops : plain.Stops := by
  constructor
  intro p hnone
  change (plainInt32 p).1 = none at hnone
  change (plainInt32 (plainInt32 p).2).1 = none
  by_cases hlength : 4 ≤ p.length
  · rw [plainInt32, if_pos hlength] at hnone
    cases hnone
  · have hsame : plainInt32 p = (none, p) := if_neg hlength
    rw [hsame, hsame]

/-- Two strings, of which none is there. -/
def missing : Bytes := [2, 0, 0, 0]

/-- Two strings, of which the second is a null string. -/
def twoStrings : Bytes :=
  [2, 0, 0, 0, 1, 0, 0, 0, 65, 0, 0, 0, 255, 255, 255, 255]

theorem twoStrings_passes :
    PassesWhatIsRead plain machine 3 .strings twoStrings := by
  refine (passes_what_is_read_iff plain_stops machine 3 .strings
    twoStrings).mpr ?_
  intro count hread
  obtain rfl : 2 = count := Option.some_inj.mp hread
  exact ⟨by decide, by decide, by decide, by decide⟩

theorem passes_missing_strings :
    ¬ ∀ (P : Type) (lib : Library P), lib.Stops → ∀ m version d p,
      PassesWhatIsRead lib m version d p := by
  intro hclaim
  obtain ⟨count, hread, -, hall, -⟩ :=
    hclaim Bytes plain plain_stops machine 3 .strings missing
  obtain rfl : 2 = count := Int.ofNat_inj.mp (Option.some_inj.mp hread)
  exact absurd hall (by decide)

end RilDispatchWitness

end RilDispatch

end MetaOS
