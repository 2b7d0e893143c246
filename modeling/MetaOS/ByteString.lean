/-
Byte strings with bounded windows, little-endian numbers and pattern
positions.  Offsets are natural numbers; a window that leaves the string is
short, and the lemmas say when it does not.
-/
import Mathlib.Data.List.Basic
import Mathlib.Tactic

namespace MetaOS

abbrev Bytes := List UInt8

namespace Bytes

/-- The `len` bytes of `file` from `off` on. -/
def window (file : Bytes) (off len : Nat) : Bytes :=
  (file.drop off).take len

@[simp] theorem window_length (file : Bytes) (off len : Nat) :
    (file.window off len).length = min len (file.length - off) := by
  simp [window]

@[simp] theorem window_zero_length (file : Bytes) :
    file.window 0 file.length = file := by
  simp [window]

theorem window_of_append_left (file rest : Bytes) (off len : Nat)
    (hin : off + len ≤ file.length) :
    Bytes.window (file ++ rest) off len = file.window off len := by
  simp only [window]
  rw [List.drop_append_of_le_length (by omega),
    List.take_append_of_le_length (by simp; omega)]

/-- A window inside a prefix only depends on the prefix. -/
theorem window_take (file : Bytes) (stop off len : Nat)
    (hin : off + len ≤ stop) :
    Bytes.window (file.take stop) off len = file.window off len := by
  simp only [window, List.drop_take, List.take_take]
  rw [Nat.min_eq_left (by omega)]

theorem getElem?_of_window {file : Bytes} {off len i : Nat} {a : UInt8}
    (ha : (file.window off len)[i]? = some a) : file[off + i]? = some a := by
  rw [window, List.getElem?_take] at ha
  split at ha
  · rwa [List.getElem?_drop] at ha
  · cases ha

/-- The bytes of a string constant. -/
def ofString (text : String) : Bytes :=
  text.toList.map fun c => UInt8.ofNat c.toNat

/-- The number a little-endian byte string denotes. -/
def leNat : Bytes → Nat
  | [] => 0
  | b :: rest => b.toNat + 256 * leNat rest

/-- `width` little-endian bytes of a number, high bytes dropped. -/
def ofLeNat : Nat → Nat → Bytes
  | 0, _ => []
  | width + 1, n => UInt8.ofNat n :: ofLeNat width (n / 256)

@[simp] theorem ofLeNat_length (width n : Nat) :
    (ofLeNat width n).length = width := by
  induction width generalizing n with
  | zero => rfl
  | succ width ih => simp [ofLeNat, ih]

theorem leNat_ofLeNat (width n : Nat) :
    leNat (ofLeNat width n) = n % 256 ^ width := by
  induction width generalizing n with
  | zero => simp [ofLeNat, leNat, Nat.mod_one]
  | succ width ih =>
      simp only [ofLeNat, leNat, ih]
      rw [pow_succ', Nat.mod_mul]
      simp

theorem leNat_lt (bytes : Bytes) : leNat bytes < 256 ^ bytes.length := by
  induction bytes with
  | nil => exact Nat.one_pos
  | cons b rest ih =>
      have hb := b.toNat_lt
      rw [leNat, List.length_cons, Nat.pow_succ]
      omega

/-- Equal-length byte strings denote the same number only if they are equal. -/
theorem leNat_injective {first second : Bytes}
    (hlength : first.length = second.length)
    (hvalue : leNat first = leNat second) : first = second := by
  induction first generalizing second with
  | nil =>
      cases second with
      | nil => rfl
      | cons b rest => simp at hlength
  | cons a first ih =>
      cases second with
      | nil => simp at hlength
      | cons b second =>
          have ha : a.toNat < 256 := a.toNat_lt
          have hb : b.toNat < 256 := b.toNat_lt
          simp only [leNat] at hvalue
          have hhead : a = b := UInt8.toNat_inj.mp (by omega)
          have htail : first = second :=
            ih (by simpa using hlength) (by omega)
          rw [hhead, htail]

/-- The signed number a little-endian byte string denotes. -/
def leInt (bytes : Bytes) : Int :=
  (leNat bytes : Int).bmod (256 ^ bytes.length)

/-- `width` little-endian bytes of a signed number, high bytes dropped. -/
def ofLeInt (width : Nat) (x : Int) : Bytes :=
  ofLeNat width (x % 256 ^ width).toNat

@[simp] theorem ofLeInt_length (width : Nat) (x : Int) :
    (ofLeInt width x).length = width :=
  ofLeNat_length _ _

theorem leInt_ofLeInt (width : Nat) (x : Int) :
    leInt (ofLeInt width x) = x.bmod (256 ^ width) := by
  have hpos : (0 : Int) < 256 ^ width := by positivity
  have hnonneg : 0 ≤ x % 256 ^ width := Int.emod_nonneg x hpos.ne'
  have hlt : (x % 256 ^ width).toNat < 256 ^ width := by
    have hmod := Int.emod_lt_of_pos x hpos
    zify
    rwa [Int.toNat_of_nonneg hnonneg]
  rw [leInt, ofLeInt_length, ofLeInt, leNat_ofLeNat, Nat.mod_eq_of_lt hlt,
    Int.toNat_of_nonneg hnonneg]
  exact_mod_cast Int.emod_bmod (n := 256 ^ width) x

theorem ofLeInt_leInt (bytes : Bytes) :
    ofLeInt bytes.length (leInt bytes) = bytes := by
  refine leNat_injective (ofLeInt_length _ _) ?_
  have hmod : leInt bytes % 256 ^ bytes.length =
      (leNat bytes : Int) % 256 ^ bytes.length := by
    exact_mod_cast Int.bmod_emod
  have hcast : (leNat bytes : Int) % 256 ^ bytes.length =
      ((leNat bytes % 256 ^ bytes.length : Nat) : Int) := by
    simp
  have hlt := leNat_lt bytes
  rw [ofLeInt, hmod, leNat_ofLeNat, hcast, Int.toNat_natCast, Nat.mod_mod,
    Nat.mod_eq_of_lt hlt]

/-- The low byte comes first. -/
theorem ofLeInt_succ (width : Nat) (x : Int) :
    ofLeInt (width + 1) x =
      UInt8.ofNat (x % 256).toNat :: ofLeInt width (x / 256) := by
  have hpow : (256 : Int) ^ (width + 1) = 256 * 256 ^ width := pow_succ' _ _
  have hnonneg : 0 ≤ x % 256 ^ (width + 1) :=
    Int.emod_nonneg x (by positivity)
  have hlow : (x % 256 ^ (width + 1)) % 256 = x % 256 :=
    Int.emod_emod_of_dvd x ⟨256 ^ width, hpow⟩
  have hhigh : (x % 256 ^ (width + 1)) / 256 = x / 256 % 256 ^ width := by
    rw [hpow, Int.emod_def, Int.mul_assoc,
      Int.sub_mul_ediv_left _ _ (by decide), Int.emod_def,
      ← Int.ediv_ediv_of_nonneg (by decide)]
  rw [ofLeInt, ofLeNat, ofLeInt, ← hhigh, ← hlow]
  congr 1
  · apply UInt8.toNat_inj.mp
    simp only [UInt8.toNat_ofNat']
    omega
  · congr 1
    omega

/-- The bytes of a number, each by a shift. -/
theorem ofLeInt_shift (width n : Nat) (x : Int) :
    ofLeInt (width + 1) (x >>> n) =
      UInt8.ofNat (x >>> n % 256).toNat :: ofLeInt width (x >>> (n + 8)) := by
  rw [ofLeInt_succ, Int.shiftRight_add, Int.shiftRight_eq_div_pow (x >>> n) 8]
  rfl

theorem leInt_range (bytes : Bytes) :
    -(256 ^ bytes.length : Int) ≤ 2 * leInt bytes ∧
      2 * leInt bytes < 256 ^ bytes.length := by
  have hpos : 0 < 256 ^ bytes.length := by positivity
  have hlow := Int.le_bmod (x := (leNat bytes : Int)) hpos
  have hhigh := Int.bmod_lt (x := (leNat bytes : Int)) hpos
  rw [← leInt] at hlow hhigh
  push_cast at hlow hhigh
  omega

/-- The number stored in `width` bytes at `off`. -/
def leAt (file : Bytes) (off width : Nat) : Nat :=
  leNat (file.window off width)

/-- `pattern` stands at offset `off`. -/
def MatchAt (file : Bytes) (off : Nat) (pattern : Bytes) : Prop :=
  file.window off pattern.length = pattern

instance (file : Bytes) (off : Nat) (pattern : Bytes) :
    Decidable (file.MatchAt off pattern) :=
  inferInstanceAs (Decidable (_ = _))

theorem matchAt_drop (file pattern : Bytes) (start off : Nat) :
    Bytes.MatchAt (file.drop start) off pattern ↔
      file.MatchAt (start + off) pattern := by
  simp only [MatchAt, window, List.drop_drop]

theorem MatchAt.getElem {file pattern : Bytes} {off : Nat}
    (hmatch : file.MatchAt off pattern) (i : Nat) (hi : i < pattern.length) :
    file[off + i]? = pattern[i]? := by
  have hget := congrArg (fun bytes => bytes[i]?) hmatch
  simpa [window, List.getElem?_take, hi] using hget

/-- `pattern` stands at offset `off`, and all of it is in the file. -/
def StandsAt (file : Bytes) (off : Nat) (pattern : Bytes) : Prop :=
  off + pattern.length ≤ file.length ∧ file.MatchAt off pattern

instance (file : Bytes) (off : Nat) (pattern : Bytes) :
    Decidable (file.StandsAt off pattern) :=
  inferInstanceAs (Decidable (_ ∧ _))

theorem standsAt_zero (file : Bytes) : file.StandsAt 0 file :=
  ⟨by omega, by rw [MatchAt, window_zero_length]⟩

theorem standsAt_append {file first second : Bytes} {off : Nat} :
    file.StandsAt off (first ++ second) ↔
      file.StandsAt off first ∧
        file.StandsAt (off + first.length) second := by
  have hsplit : file.window off (first.length + second.length) =
      file.window off first.length ++
        file.window (off + first.length) second.length := by
    simp only [window, ← List.drop_drop, List.take_add]
  simp only [StandsAt, MatchAt, List.length_append, hsplit]
  constructor
  · rintro ⟨hle, hmatch⟩
    have hlength : (file.window off first.length).length = first.length := by
      rw [window_length]
      omega
    obtain ⟨hfirst, hsecond⟩ := List.append_inj hmatch hlength
    exact ⟨⟨by omega, hfirst⟩, by omega, hsecond⟩
  · rintro ⟨⟨-, hfirst⟩, hle, hsecond⟩
    exact ⟨by omega, by rw [hfirst, hsecond]⟩

end Bytes

end MetaOS
