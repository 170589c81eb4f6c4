import Mathlib.Data.Nat.Digits.Lemmas
import Mathlib.Data.List.TakeWhile

/-!
# Byte strings and numbers

Byte strings, the decimal text of an integer and how it is read back, and the little-endian bytes
of a natural number.
-/

namespace Rdbms

/-- A byte string. -/
abbrev Bytes := List UInt8

/-- The bytes of an ASCII literal. -/
def ascii (s : String) : Bytes := s.toList.map fun c => UInt8.ofNat c.toNat

namespace Decimal

/-- The character of a digit. -/
def digit (d : Nat) : UInt8 := UInt8.ofNat (48 + d)

/-- The value of a digit's character. -/
def value (c : UInt8) : Nat := c.toNat - 48

/-- `isdigit`. -/
def isDigit (c : UInt8) : Bool := 48 ≤ c && c ≤ 57

/-- `isspace`. -/
def isSpace (c : UInt8) : Bool := c = 32 || 9 ≤ c && c ≤ 13

/-- The number that a run of digits stands for. -/
def readNat (s : Bytes) : Nat := Nat.ofDigits 10 (s.reverse.map value)

/-- The digits of a number, the highest first. -/
def printNat (n : Nat) : Bytes :=
  if n = 0 then [digit 0] else (Nat.digits 10 n).reverse.map digit

/-- Whether a text starts with a minus sign, and what follows its sign. -/
def sign : Bytes → Bool × Bytes
  | 45 :: s => (true, s)
  | 43 :: s => (false, s)
  | s => (false, s)

/-- A number with its sign. -/
def signed (negative : Bool) (n : Nat) : Int := if negative then -n else n

/-- The integer at the front of a text: white space, a sign and digits. What follows the digits does
not matter. -/
def readInt (s : Bytes) : Option Int :=
  let rest := sign (s.dropWhile isSpace)
  match rest.2.takeWhile isDigit with
  | [] => none
  | digits => some (signed rest.1 (readNat digits))

/-- The text of an integer. -/
def printInt (z : Int) : Bytes :=
  if z < 0 then 45 :: printNat z.natAbs else printNat z.natAbs

/-- A digit is read back. -/
theorem value_digit {d : Nat} (hd : d < 10) : value (digit d) = d := by
  have h : (UInt8.ofNat (48 + d)).toNat = 48 + d := UInt8.toNat_ofNat_of_lt' (by
    show 48 + d < 256
    omega)
  rw [value, digit, h]
  omega

/-- What is printed for a digit is one. -/
theorem isDigit_digit {d : Nat} (hd : d < 10) : isDigit (digit d) = true := by
  interval_cases d <;> rfl

/-- A digit is neither white space nor a sign. -/
theorem of_isDigit {c : UInt8} (h : isDigit c = true) :
    isSpace c = false ∧ c ≠ 45 ∧ c ≠ 43 := by
  simp only [isDigit, Bool.and_eq_true, decide_eq_true_eq, UInt8.le_iff_toNat_le] at h
  simp only [isSpace, Bool.or_eq_false_iff, Bool.and_eq_false_iff, decide_eq_false_iff_not,
    UInt8.le_iff_toNat_le, ne_eq, ← UInt8.toNat_inj]
  obtain ⟨h1, h2⟩ := h
  have h1 : 48 ≤ c.toNat := h1
  refine ⟨⟨fun h => ?_, .inr fun h => ?_⟩, fun h => ?_, fun h => ?_⟩
  · have h : c.toNat = 32 := h
    omega
  · have h : c.toNat ≤ 13 := h
    omega
  · have h : c.toNat = 45 := h
    omega
  · have h : c.toNat = 43 := h
    omega

/-- A printed number is read back. -/
theorem readNat_printNat (n : Nat) : readNat (printNat n) = n := by
  unfold printNat
  split_ifs with hn
  · rw [hn]
    rfl
  · simp only [readNat, List.map_reverse, List.reverse_reverse, List.map_map]
    have hvalues : (Nat.digits 10 n).map (value ∘ digit) = Nat.digits 10 n := by
      refine (List.map_congr_left fun d hd => ?_).trans (List.map_id _)
      exact value_digit (Nat.digits_lt_base (by omega) hd)
    rw [hvalues, Nat.ofDigits_digits]

/-- A number is printed in digits only. -/
theorem isDigit_of_mem_printNat {n : Nat} {c : UInt8} (h : c ∈ printNat n) : isDigit c = true := by
  unfold printNat at h
  split_ifs at h with hn
  · rw [List.mem_singleton.1 h]
    exact isDigit_digit (by omega)
  · obtain ⟨d, hd, rfl⟩ := List.mem_map.1 h
    exact isDigit_digit (Nat.digits_lt_base (by omega) (List.mem_reverse.1 hd))

/-- Every number has a digit. -/
theorem printNat_ne_nil (n : Nat) : printNat n ≠ [] := by
  unfold printNat
  split_ifs with hn
  · exact List.cons_ne_nil _ _
  · intro h
    exact Nat.digits_ne_nil_iff_ne_zero.2 hn (List.reverse_eq_nil_iff.1 (List.map_eq_nil_iff.1 h))

/-- The text of a number is all digits. -/
theorem takeWhile_printNat (n : Nat) : (printNat n).takeWhile isDigit = printNat n :=
  List.takeWhile_eq_self_iff.2 fun _ h => isDigit_of_mem_printNat h

/-- The text of a number starts with a digit. -/
theorem exists_printNat (n : Nat) : ∃ c s, printNat n = c :: s ∧ isDigit c = true := by
  obtain ⟨c, s, h⟩ := List.exists_cons_of_ne_nil (printNat_ne_nil n)
  have hmem : c ∈ printNat n := by
    rw [h]
    exact List.mem_cons_self
  exact ⟨c, s, h, isDigit_of_mem_printNat hmem⟩

/-- A text that starts with a digit has no white space and no sign to take off. -/
theorem sign_cons {c : UInt8} (s : Bytes) (h1 : c ≠ 45) (h2 : c ≠ 43) :
    sign (c :: s) = (false, c :: s) := by
  unfold sign
  split
  · next heq => exact absurd (List.cons.inj heq).1 h1
  · next heq => exact absurd (List.cons.inj heq).1 h2
  · rfl

/-- A printed number has no space and no sign in front. -/
theorem sign_printNat (n : Nat) : sign ((printNat n).dropWhile isSpace) = (false, printNat n) := by
  obtain ⟨c, s, h, hc⟩ := exists_printNat n
  obtain ⟨hspace, hminus, hplus⟩ := of_isDigit hc
  rw [h, List.dropWhile_cons_of_neg (by rw [hspace]; exact Bool.false_ne_true)]
  exact sign_cons s hminus hplus

/-- A number is read behind its spaces and its sign. -/
theorem readInt_of_sign {s : Bytes} {negative : Bool} {n : Nat}
    (h : sign (s.dropWhile isSpace) = (negative, printNat n)) :
    readInt s = some (signed negative n) := by
  unfold readInt
  simp only [h, takeWhile_printNat]
  split
  · next hnil => exact absurd hnil (printNat_ne_nil n)
  · rw [readNat_printNat]

/-- The text of an integer reads back as the integer. -/
theorem readInt_printInt (z : Int) : readInt (printInt z) = some z := by
  unfold printInt
  split_ifs with hz
  · have hsign : sign ((45 :: printNat z.natAbs).dropWhile isSpace) = (true, printNat z.natAbs) :=
      rfl
    rw [readInt_of_sign hsign, signed, if_pos rfl]
    congr 1
    omega
  · rw [readInt_of_sign (sign_printNat _), signed, if_neg Bool.false_ne_true]
    congr 1
    omega

end Decimal

namespace LittleEndian

/-- The low `width` bytes of a number, the lowest first. -/
def encode : Nat → Nat → Bytes
  | 0, _ => []
  | width + 1, n => UInt8.ofNat n :: encode width (n / 256)

/-- The number with these bytes. -/
def decode : Bytes → Nat
  | [] => 0
  | b :: bytes => b.toNat + 256 * decode bytes

/-- A number takes as many bytes as it is given. -/
theorem length_encode (width n : Nat) : (encode width n).length = width := by
  induction width generalizing n with
  | zero => rfl
  | succ width ih => rw [encode, List.length_cons, ih]

/-- Reading back keeps a number modulo the width. -/
theorem decode_encode (width n : Nat) : decode (encode width n) = n % 256 ^ width := by
  induction width generalizing n with
  | zero =>
    rw [pow_zero, Nat.mod_one]
    rfl
  | succ width ih =>
    have hbyte : (UInt8.ofNat n).toNat = n % 256 := UInt8.toNat_ofNat'
    rw [encode, decode, ih, hbyte, pow_succ', Nat.mod_mul]

end LittleEndian

end Rdbms
