/-!
# Integers in decimal

Reading and writing of integers, and the 64-bit words that a text denotes.

* `digits`, `value`: a natural number as decimal digits and back (`value_digits`).
* `Int64.ofDecimal?`: the word a signed decimal numeral denotes, if it is in range.
-/

namespace MicroC.Decimal

/-- The digit character of a number below ten. -/
def digitChar (d : Nat) : Char := Char.ofNat (48 + d)

/-- The value of a digit character. -/
def digitValue (c : Char) : Nat := c.toNat - 48

/-- The decimal digits of a natural number, the highest first. -/
def digits (n : Nat) : List Char :=
  if n < 10 then [digitChar n] else digits (n / 10) ++ [digitChar (n % 10)]
termination_by n
decreasing_by omega

/-- The number that a list of digits denotes. -/
def value (cs : List Char) : Nat := cs.foldl (fun n c => 10 * n + digitValue c) 0

theorem value_concat (cs : List Char) (c : Char) :
    value (cs ++ [c]) = 10 * value cs + digitValue c := by
  simp [value, List.foldl_append]

theorem digitValue_digitChar {d : Nat} (h : d < 10) : digitValue (digitChar d) = d := by
  match d, h with
  | 0, _ | 1, _ | 2, _ | 3, _ | 4, _ | 5, _ | 6, _ | 7, _ | 8, _ | 9, _ => rfl

theorem isDigit_digitChar {d : Nat} (h : d < 10) : (digitChar d).isDigit = true := by
  match d, h with
  | 0, _ | 1, _ | 2, _ | 3, _ | 4, _ | 5, _ | 6, _ | 7, _ | 8, _ | 9, _ => rfl

/-- Writing a number and reading it gives the number. -/
@[simp] theorem value_digits (n : Nat) : value (digits n) = n := by
  fun_induction digits n with
  | case1 n h => simp [value, digitValue_digitChar h]
  | case2 n h ih =>
    rw [value_concat, ih, digitValue_digitChar (Nat.mod_lt _ (by omega))]
    omega

theorem isDigit_of_mem_digits {n : Nat} {c : Char} (h : c ∈ digits n) : c.isDigit = true := by
  fun_induction digits n with
  | case1 n hn =>
    rw [List.mem_singleton] at h
    exact h ▸ isDigit_digitChar hn
  | case2 n hn ih =>
    rcases List.mem_append.1 h with h | h
    · exact ih h
    · rw [List.mem_singleton] at h
      exact h ▸ isDigit_digitChar (Nat.mod_lt _ (by omega))

theorem digits_ne_nil (n : Nat) : digits n ≠ [] := by
  unfold digits
  split <;> simp

/-- An integer in decimal, with a minus sign below zero. -/
def intChars (i : Int) : List Char :=
  if i < 0 then '-' :: digits i.natAbs else digits i.natAbs

/-- A nonempty list of digits as a number. -/
def nat? (cs : List Char) : Option Nat :=
  if cs ≠ [] ∧ cs.all Char.isDigit then some (value cs) else none

/-- A decimal numeral with at most one sign in front. -/
def int? : List Char → Option Int
  | '-' :: cs => (nat? cs).map fun (n : Nat) => -(n : Int)
  | '+' :: cs => (nat? cs).map Int.ofNat
  | cs => (nat? cs).map Int.ofNat

/-- The word of a value that lies in the signed 64-bit range. -/
def word? (i : Int) : Option Int64 :=
  if Int64.minValue.toInt ≤ i ∧ i ≤ Int64.maxValue.toInt then some (Int64.ofInt i) else none

theorem nat?_digits (n : Nat) : nat? (digits n) = some n := by
  have h : (digits n).all Char.isDigit = true := List.all_eq_true.2 fun _ => isDigit_of_mem_digits
  simp [nat?, digits_ne_nil, h]

theorem int?_digits (n : Nat) : int? (digits n) = some (n : Int) := by
  have h : ∀ c ∈ digits n, c.isDigit = true := fun _ => isDigit_of_mem_digits
  unfold int?
  split
  · next heq => exact absurd (h '-' (by simp [heq])) (by decide)
  · next heq => exact absurd (h '+' (by simp [heq])) (by decide)
  · rw [nat?_digits]; rfl

/-- Writing an integer and reading it gives the integer. -/
@[simp] theorem int?_intChars (i : Int) : int? (intChars i) = some i := by
  unfold intChars
  split
  · next h =>
    rw [int?, nat?_digits, Option.map_some, Option.some.injEq]
    omega
  · next h =>
    rw [int?_digits, Option.some.injEq]
    omega

end MicroC.Decimal

namespace MicroC

/-- A word in decimal. -/
def wordText (w : Int64) : String := String.ofList (Decimal.intChars w.toInt)

/-- The word that a signed decimal numeral denotes, if it is in range. -/
def word? (text : String) : Option Int64 := (Decimal.int? text.toList).bind Decimal.word?

/-- Writing a word and reading it gives the word. -/
@[simp] theorem word?_wordText (w : Int64) : word? (wordText w) = some w := by
  have h : Int64.minValue.toInt ≤ w.toInt ∧ w.toInt ≤ Int64.maxValue.toInt :=
    ⟨w.minValue_le_toInt, w.toInt_le⟩
  rw [word?, wordText, String.toList_ofList, Decimal.int?_intChars, Option.bind_some, Decimal.word?,
    if_pos h, Int64.ofInt_toInt]

end MicroC
