/-!
# Decimal numerals

Numbers are written with the ten ASCII digits and the fewest of them, a negative
one after a minus sign (`digits`, `numeral`).  They are read from one or more
ASCII digits after at most one sign, which may be a plus (`readInt32?`), so leading
zeros are accepted but never written.  A numeral outside the range of 32 bits is
not read at all: nothing wraps around.

Main statements: a number is read back from the digits it is written with
(`value_digits`), and a 32-bit integer from its text (`readInt32?_int32Text`).
-/

namespace Fixity.Text

/-- The character of a digit. -/
def digitChar (d : Nat) : Char := Char.ofNat ('0'.toNat + d % 10)

/-- The value of a digit character. -/
def digitValue (c : Char) : Nat := c.toNat - '0'.toNat

/-- The decimal digits of a number, most significant first, without leading zeros. -/
def digits (n : Nat) : List Char :=
  if n < 10 then [digitChar n] else digits (n / 10) ++ [digitChar n]
termination_by n
decreasing_by omega

/-- The number that a list of digit characters stands for. -/
def value (cs : List Char) : Nat :=
  cs.foldl (fun n c => 10 * n + digitValue c) 0

@[simp] theorem digitValue_digitChar (d : Nat) : digitValue (digitChar d) = d % 10 := by
  have : ∀ k, k < 10 → (Char.ofNat ('0'.toNat + k)).toNat - '0'.toNat = k := by decide
  exact this (d % 10) (Nat.mod_lt _ (by decide))

theorem isDigit_digitChar (d : Nat) : (digitChar d).isDigit = true := by
  have : ∀ k, k < 10 → (Char.ofNat ('0'.toNat + k)).isDigit = true := by decide
  exact this (d % 10) (Nat.mod_lt _ (by decide))

@[simp] theorem value_append_singleton (cs : List Char) (c : Char) :
    value (cs ++ [c]) = 10 * value cs + digitValue c := by
  simp [value]

/-- **The digits of a number stand for it.** -/
theorem value_digits (n : Nat) : value (digits n) = n := by
  fun_induction digits n with
  | case1 n h =>
      simp only [value, List.foldl_cons, List.foldl_nil, digitValue_digitChar]
      omega
  | case2 n h ih =>
      rw [value_append_singleton, ih, digitValue_digitChar]
      omega

/-- A numeral holds digits only. -/
theorem isDigit_of_mem_digits {n : Nat} {c : Char} (h : c ∈ digits n) : c.isDigit = true := by
  fun_induction digits n with
  | case1 n hn =>
      rw [List.mem_singleton.mp h]
      exact isDigit_digitChar n
  | case2 n hn ih =>
      rcases List.mem_append.mp h with h | h
      · exact ih h
      · rw [List.mem_singleton.mp h]
        exact isDigit_digitChar n

theorem digits_ne_nil (n : Nat) : digits n ≠ [] := by
  rw [digits]
  split <;> simp

/-! ## Signed numerals -/

/-- The numeral of an integer: its digits, after a minus sign if it is negative. -/
def numeral : Int → List Char
  | .ofNat n => digits n
  | .negSucc n => '-' :: digits (n + 1)

/-- The number of a non-empty list of ASCII digits. -/
def readNat? (cs : List Char) : Option Nat :=
  if !cs.isEmpty && cs.all Char.isDigit then some (value cs) else none

/-- The integer of a numeral with at most one sign. -/
def readInt? : List Char → Option Int
  | '+' :: cs => (readNat? cs).map Int.ofNat
  | '-' :: cs => (readNat? cs).map fun n => - Int.ofNat n
  | cs => (readNat? cs).map Int.ofNat

/-- The integer of a numeral, if it fits in 32 bits with a sign. -/
def readInt32? (cs : List Char) : Option Int32 :=
  (readInt? cs).bind fun n =>
    if Int32.minValue.toInt ≤ n ∧ n ≤ Int32.maxValue.toInt then some (Int32.ofInt n) else none

@[simp] theorem readNat?_digits (n : Nat) : readNat? (digits n) = some n := by
  have hne : (digits n).isEmpty = false := by simp [digits_ne_nil]
  have hall : (digits n).all Char.isDigit = true :=
    List.all_eq_true.mpr fun _ h => isDigit_of_mem_digits h
  simp [readNat?, hne, hall, value_digits]

/-- **An integer is read back from its numeral.** -/
theorem readInt?_numeral (z : Int) : readInt? (numeral z) = some z := by
  cases z with
  | ofNat n =>
      cases hdigits : digits n with
      | nil => exact absurd hdigits (digits_ne_nil n)
      | cons c cs =>
          -- The numeral starts with a digit, which is no sign.
          have hc : c.isDigit = true := isDigit_of_mem_digits (hdigits ▸ List.mem_cons_self)
          have hplus : c ≠ '+' := by
            rintro rfl
            exact absurd hc (by decide)
          have hminus : c ≠ '-' := by
            rintro rfl
            exact absurd hc (by decide)
          rw [numeral, hdigits, readInt?, ← hdigits, readNat?_digits]
          · rfl
          · rintro cs' ⟨⟩
            exact hplus rfl
          · rintro cs' ⟨⟩
            exact hminus rfl
  | negSucc n =>
      show (readNat? (digits (n + 1))).map (fun n => - Int.ofNat n) = some (Int.negSucc n)
      rw [readNat?_digits]
      rfl

/-- The text of a natural number. -/
def natText (n : Nat) : String := String.ofList (digits n)

/-- The text of a 32-bit integer. -/
def int32Text (n : Int32) : String := String.ofList (numeral n.toInt)

/-- **A 32-bit integer is read back from its text.** -/
theorem readInt32?_int32Text (n : Int32) : readInt32? (int32Text n).toList = some n := by
  have hrange : Int32.minValue.toInt ≤ n.toInt ∧ n.toInt ≤ Int32.maxValue.toInt :=
    ⟨Int32.minValue_le_toInt n, Int32.toInt_le n⟩
  rw [int32Text, String.toList_ofList, readInt32?, readInt?_numeral, Option.bind_some,
    if_pos hrange, Int32.ofInt_toInt]

end Fixity.Text
