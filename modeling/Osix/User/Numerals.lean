import Osix.Kern.Printf
import Osix.User.Passwd
import Mathlib.Data.Nat.Digits.Lemmas

/-!
# Numbers as text

The loops of `fprintn` of `lib/libc/printf.c` and of `printn` of `sys/libkern/printf.c`. The
digits are stored in a small array from the last one on, so what can go wrong is that there are
too many of them. They are the numeral of the number, and `atoi` reads it back.
-/

namespace Osix.Numerals

open Stdio (Word byteOf)

/-- `sizeof(tmp)`. -/
def tmpSize : ℕ := 4 * 8 / 3 + 1

/-- `"0123456789abcdef"[d]`, or the same in upper case. -/
def digit (upper : Bool) (d : ℕ) : Byte :=
  ((if upper then "0123456789ABCDEF" else "0123456789abcdef").toList.map byteOf).getD d 0

/--
The loop over the digits, with so much room left in `tmp`. What is stored is listed from the last
digit stored, which is printed first; a digit beyond the array is `none`.
-/
def digitLoop (base : ℕ) (upper : Bool) : ℕ → ℕ → List Byte → Option (List Byte)
  | 0, _, _ => none
  | room + 1, ul, tmp =>
      if ul / base = 0 then some (digit upper (ul % base) :: tmp)
      else digitLoop base upper room (ul / base) (digit upper (ul % base) :: tmp)

/-- What `fprintn` puts out. -/
def fprintn (ul : Word) (base : ℕ) (fill : Byte) (width : ℕ) (upper : Bool) :
    Option (List Byte) := do
  let tmp ← digitLoop base upper tmpSize ul.toNat []
  return List.replicate (width - tmp.length) fill ++ tmp

/-- What `printn` puts out, which always fills with zeros. -/
def printn (ul : Word) (base width : ℕ) (upper : Bool) : Option (List Byte) :=
  fprintn ul base (byteOf '0') width upper

/-- The conversion `%d`, in a field filled with zeros if it has a width. -/
def printSigned (l : Word) (width : ℕ) : Option (List Byte) :=
  if l.toInt < 0 then
    (fprintn (-l) 10 (byteOf '0') (width - 1) false).map (byteOf '-' :: ·)
  else fprintn l 10 (byteOf '0') width false

/-! ## Numerals -/

/-- The bases that the conversions use. -/
inductive Base where
  | octal
  | decimal
  | hexadecimal

def Base.value : Base → ℕ
  | .octal => 8
  | .decimal => 10
  | .hexadecimal => 16

/-- The digits of a number, the first one first; 0 has one. -/
def digitsOf (base n : ℕ) : List ℕ := if n = 0 then [0] else (Nat.digits base n).reverse

/-- The canonical numeral. -/
def numeral (base : ℕ) (upper : Bool) (n : ℕ) : List Byte := (digitsOf base n).map (digit upper)

/-- The numeral with zeros before it, up to a width. -/
def padded (base : ℕ) (upper : Bool) (width n : ℕ) : List Byte :=
  List.replicate (width - (numeral base upper n).length) (byteOf '0') ++ numeral base upper n

section

variable {base n room : ℕ}

theorem numeral_of_lt (upper : Bool) (isDigit : n < base) :
    numeral base upper n = [digit upper n] := by
  rw [numeral, digitsOf]
  split
  · rename_i isZero
    rw [isZero, List.map_singleton]
  · rename_i notZero
    rw [Nat.digits_of_lt base n notZero isDigit]
    rfl

/-- The last digit of a numeral. -/
theorem numeral_of_le (upper : Bool) (isBase : 2 ≤ base) (isLong : base ≤ n) :
    numeral base upper n = numeral base upper (n / base) ++ [digit upper (n % base)] := by
  have quotient : n / base ≠ 0 := (Nat.div_pos isLong (by omega)).ne'
  rw [numeral, numeral, digitsOf, digitsOf, if_neg (by omega), if_neg quotient,
    Nat.digits_def' (by omega) (by omega), List.reverse_cons, List.map_append]
  rfl

/-- The loop stores the numeral if there is room for it. -/
theorem digitLoop_spec (upper : Bool) (isBase : 2 ≤ base) (fits : n < base ^ (room + 1))
    (tmp : List Byte) :
    digitLoop base upper (room + 1) n tmp = some (numeral base upper n ++ tmp) := by
  induction room generalizing n tmp with
  | zero =>
      rw [Nat.zero_add, Nat.pow_one] at fits
      rw [digitLoop, if_pos (Nat.div_eq_of_lt fits), numeral_of_lt upper fits,
        Nat.mod_eq_of_lt fits]
      rfl
  | succ room ih =>
      rw [digitLoop]
      split
      · rename_i isDigit
        have small := (Nat.div_eq_zero_iff.mp isDigit).resolve_left (by omega)
        rw [numeral_of_lt upper small, Nat.mod_eq_of_lt small]
        rfl
      · rename_i isLong
        have atLeast : base ≤ n := by
          by_contra small
          exact isLong (Nat.div_eq_of_lt (by omega))
        have smaller : n / base < base ^ (room + 1) := by
          rw [Nat.div_lt_iff_lt_mul (by omega), ← Nat.pow_succ]
          exact fits
        rw [ih smaller, numeral_of_le upper isBase atLeast, List.append_assoc]
        rfl

/-- The size of the array is that of the longest numeral. -/
theorem length_numeral_le (upper : Bool) (isBase : 2 ≤ base) (fits : n < base ^ (room + 1)) :
    (numeral base upper n).length ≤ room + 1 := by
  rw [numeral, List.length_map, digitsOf]
  split
  · exact Nat.succ_le_succ (Nat.zero_le room)
  · rw [List.length_reverse]
    exact (Nat.digits_length_le_iff (by omega) n).mpr fits

end

theorem lt_pow_tmpSize (base : Base) (ul : Word) : ul.toNat < base.value ^ tmpSize := by
  have small := ul.isLt
  have room : 2 ^ 32 ≤ base.value ^ tmpSize := by
    cases base <;> decide
  omega

theorem two_le_value (base : Base) : 2 ≤ base.value := by
  cases base <;> decide

theorem fprintn_eq (ul : Word) (base : Base) (width : ℕ) (upper : Bool) :
    fprintn ul base.value (byteOf '0') width upper =
      some (padded base.value upper width ul.toNat) := by
  rw [fprintn, tmpSize, digitLoop_spec upper (two_le_value base) (lt_pow_tmpSize base ul),
    List.append_nil]
  rfl

/-! ## The same text as in the models of the conversions -/

theorem digit_eq_digitChar : ∀ upper : Bool, ∀ d < 16,
    digit upper d = byteOf (if upper then (Nat.digitChar d).toUpper else Nat.digitChar d) := by
  decide

theorem numeral_eq_toDigits {base : ℕ} (upper : Bool) (isBase : 2 ≤ base) (fewDigits : base ≤ 16)
    (n : ℕ) : numeral base upper n =
      (Nat.toDigits base n).map fun c => byteOf (if upper then c.toUpper else c) := by
  induction n using Nat.strong_induction_on with
  | h n ih =>
      rw [Nat.toDigits_eq_if (by omega)]
      by_cases isDigit : n < base
      · rw [if_pos isDigit, numeral_of_lt upper isDigit, digit_eq_digitChar upper n (by omega)]
        rfl
      · have lastDigit := Nat.mod_lt n (show 0 < base by omega)
        rw [if_neg isDigit, numeral_of_le upper isBase (by omega),
          ih (n / base) (Nat.div_lt_self (by omega) isBase),
          digit_eq_digitChar upper _ (by omega), List.map_append]
        rfl

/-- The loops print what the models of `vfprintf` and of the kernel's `printf` print. -/
theorem padded_eq_numberText (base : Base) (upper : Bool) (width : ℕ) (ul : Word) :
    padded base.value upper width ul.toNat =
        Stdio.numberText ul base.value (byteOf '0') width upper ∧
      padded base.value upper width ul.toNat = Printf.printn ul base.value width upper := by
  have fewDigits : base.value ≤ 16 := by
    cases base <;> decide
  rw [padded, numeral_eq_toDigits upper (two_le_value base) fewDigits]
  exact ⟨rfl, rfl⟩

theorem printSigned_eq_signedText (l : Word) (width : ℕ) :
    printSigned l width = some (Stdio.signedText l (byteOf '0') width) := by
  have printed : ∀ (ul : Word) (width : ℕ), fprintn ul 10 (byteOf '0') width false =
      some (Stdio.numberText ul 10 (byteOf '0') width false) := by
    intro ul width
    have isText := fprintn_eq ul .decimal width false
    rw [(padded_eq_numberText .decimal false width ul).1] at isText
    exact isText
  rw [printSigned, Stdio.signedText, printed, printed]
  split <;> rfl

/-! ## Reading a number back -/

open Passwd (charOf digitsValue AreDigits)

theorem charOf_digit : ∀ d < 10, Ctype.isdigit (charOf (digit false d)) = true ∧
    (charOf (digit false d)).toNat - '0'.toNat = d := by
  decide

theorem isDigit_of_mem_digitsOf {n d : ℕ} (isIn : d ∈ digitsOf 10 n) : d < 10 := by
  rw [digitsOf] at isIn
  split at isIn
  · rw [List.mem_singleton] at isIn
    omega
  · exact Nat.digits_lt_base (by decide) (List.mem_reverse.mp isIn)

theorem areDigits_padded (width n : ℕ) :
    AreDigits ((padded 10 false width n).map charOf) := by
  have isLong : numeral 10 false n ≠ [] := by
    rw [numeral, digitsOf]
    split
    · exact nofun
    · rename_i notZero
      simpa [Nat.digits_ne_nil_iff_ne_zero] using notZero
  refine ⟨by simp [padded, isLong], ?_⟩
  intro c isIn
  rw [padded, List.map_append, List.mem_append, List.map_replicate, numeral, List.map_map] at isIn
  rcases isIn with isFill | isDigit
  · rw [List.eq_of_mem_replicate isFill]
    decide
  · rcases List.mem_map.mp isDigit with ⟨d, isIn, rfl⟩
    exact (charOf_digit d (isDigit_of_mem_digitsOf isIn)).1

theorem digitsValue_append (first : List Char) (c : Char) :
    digitsValue (first ++ [c]) = digitsValue first * 10 + (c.toNat - '0'.toNat) := by
  rw [digitsValue, List.foldl_append]
  rfl

/-- Zeros before a number change nothing. -/
theorem digitsValue_zeros (zeros : ℕ) (digits : List Char) :
    digitsValue (List.replicate zeros (charOf (byteOf '0')) ++ digits) = digitsValue digits := by
  induction zeros with
  | zero => rfl
  | succ zeros ih =>
      rw [List.replicate_succ, List.cons_append, digitsValue, List.foldl_cons]
      exact ih

theorem digitsValue_numeral (n : ℕ) : digitsValue ((numeral 10 false n).map charOf) = n := by
  induction n using Nat.strong_induction_on with
  | h n ih =>
      by_cases isDigit : n < 10
      · rw [numeral_of_lt false isDigit]
        exact (digitsValue_append [] _).trans ((Nat.zero_add _).trans (charOf_digit n isDigit).2)
      · have lastDigit := Nat.mod_lt n (show 0 < 10 by decide)
        rw [numeral_of_le false (by decide) (by omega), List.map_append, List.map_singleton,
          digitsValue_append, ih (n / 10) (by omega), (charOf_digit (n % 10) lastDigit).2]
        omega

theorem digitsValue_padded (width n : ℕ) :
    digitsValue ((padded 10 false width n).map charOf) = n := by
  rw [padded, List.map_append, List.map_replicate, digitsValue_zeros, digitsValue_numeral]

/-- `atoi` of what `%d` prints. -/
theorem atoi_printSigned (l : Word) (width : ℕ) :
    ∃ text, printSigned l width = some text ∧ Passwd.atoi text = l := by
  rw [printSigned]
  split
  · have printed := fprintn_eq (-l) .decimal (width - 1) false
    rw [Base.value] at printed
    rw [printed, Option.map_some]
    refine ⟨_, rfl, ?_⟩
    have isDecimal : Passwd.Decimal (byteOf '-' :: padded 10 false (width - 1) (-l).toNat)
        (-((-l).toNat : ℤ)) := by
      refine Or.inr ⟨_, rfl, areDigits_padded _ _, ?_⟩
      rw [digitsValue_padded]
    rw [Passwd.atoi_decimal isDecimal, BitVec.ofInt_neg, BitVec.ofInt_natCast,
      BitVec.ofNat_toNat, BitVec.setWidth_eq, neg_neg]
  · have printed := fprintn_eq l .decimal width false
    rw [Base.value] at printed
    rw [printed]
    refine ⟨_, rfl, ?_⟩
    have isDecimal : Passwd.Decimal (padded 10 false width l.toNat) (l.toNat : ℤ) := by
      refine Or.inl ⟨areDigits_padded _ _, ?_⟩
      rw [digitsValue_padded]
    rw [Passwd.atoi_decimal isDecimal, BitVec.ofInt_natCast, BitVec.ofNat_toNat,
      BitVec.setWidth_eq]

/--
The library and the kernel print the same numeral, filled with zeros up to the width, from an
array in which it has room, and `atoi` reads back what `%d` prints of any number.
-/
theorem numbers_formatted :
    (∀ (ul : Word) (base : Base) (width : Fin 10) (upper : Bool),
      fprintn ul base.value (byteOf '0') width upper =
          some (padded base.value upper width ul.toNat) ∧
        printn ul base.value width upper = some (padded base.value upper width ul.toNat) ∧
        (numeral base.value upper ul.toNat).length ≤ tmpSize) ∧
    ∀ (l : Word) (width : Fin 10),
      ∃ text, printSigned l width = some text ∧ Passwd.atoi text = l := by
  refine ⟨fun ul base width upper => ⟨?_, ?_, ?_⟩, fun l width => atoi_printSigned l width⟩
  · exact fprintn_eq ul base width upper
  · exact fprintn_eq ul base width upper
  · exact length_numeral_le upper (two_le_value base) (lt_pow_tmpSize base ul)

end Osix.Numerals
