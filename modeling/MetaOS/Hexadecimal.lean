/-
Hexadecimal texts and the bytes that they denote, two digits a byte with the
high one first, in either case.
-/
import MetaOS.ByteString

namespace MetaOS

namespace Hexadecimal

def lowerDigits : Bytes := .ofString "0123456789abcdef"

def upperDigits : Bytes := .ofString "0123456789ABCDEF"

/-- The digit `c` stands for the value. -/
def HexValue (c : UInt8) (value : Nat) : Prop :=
  lowerDigits[value]? = some c ∨ upperDigits[value]? = some c

instance (c : UInt8) (value : Nat) : Decidable (HexValue c value) :=
  inferInstanceAs (Decidable (_ ∨ _))

theorem HexValue.lt {c : UInt8} {value : Nat} (hc : HexValue c value) :
    value < 16 := by
  rcases hc with hc | hc
  · exact (List.getElem?_eq_some_iff.mp hc).1
  · exact (List.getElem?_eq_some_iff.mp hc).1

inductive Denotes : Bytes → Bytes → Prop
  | nil : Denotes [] []
  | cons {c d byte : UInt8} {high low : Nat} {text bytes : Bytes}
      (hhigh : HexValue c high) (hlow : HexValue d low)
      (hbyte : byte.toNat = 16 * high + low) (htext : Denotes text bytes) :
      Denotes (c :: d :: text) (byte :: bytes)

theorem Denotes.length {text bytes : Bytes} (htext : Denotes text bytes) :
    text.length = 2 * bytes.length := by
  induction htext with
  | nil => rfl
  | cons _ _ _ _ ih =>
      simp only [List.length_cons]
      omega

theorem Denotes.digits {text bytes : Bytes} (htext : Denotes text bytes) :
    ∀ c ∈ text, ∃ value, HexValue c value := by
  induction htext with
  | nil => exact nofun
  | cons hhigh hlow _ _ ih =>
      intro c hmem
      rcases List.mem_cons.mp hmem with rfl | hmem
      · exact ⟨_, hhigh⟩
      rcases List.mem_cons.mp hmem with rfl | hmem
      · exact ⟨_, hlow⟩
      · exact ih c hmem

/-- An even number of digits denotes bytes. -/
theorem exists_denotes {count : Nat} {text : Bytes}
    (hlength : text.length = 2 * count)
    (hdigits : ∀ c ∈ text, ∃ value, HexValue c value) :
    ∃ bytes, bytes.length = count ∧ Denotes text bytes := by
  induction count generalizing text with
  | zero =>
      rw [List.length_eq_zero_iff.mp hlength]
      exact ⟨[], rfl, .nil⟩
  | succ count ih =>
      match text, hlength with
      | c :: d :: text, hlength =>
          obtain ⟨high, hhigh⟩ := hdigits c List.mem_cons_self
          obtain ⟨low, hlow⟩ :=
            hdigits d (List.mem_cons_of_mem c List.mem_cons_self)
          obtain ⟨bytes, hcount, hbytes⟩ := ih
            (by simp only [List.length_cons] at hlength; omega)
            fun e he => hdigits e
              (List.mem_cons_of_mem c (List.mem_cons_of_mem d he))
          have hsum : 16 * high + low < 256 := by
            have := hhigh.lt
            have := hlow.lt
            omega
          exact ⟨UInt8.ofNat (16 * high + low) :: bytes, by simp [hcount],
            .cons hhigh hlow (by simp [Nat.mod_eq_of_lt hsum]) hbytes⟩

end Hexadecimal

end MetaOS
