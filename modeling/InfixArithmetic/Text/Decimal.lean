/-!
# Decimal numbers

The value of a run of ASCII digits, and the decimal text of an integer. The two are inverse
to each other on natural numbers: `ofDigits_digits`.
-/

namespace InfixArithmetic.Text.Decimal

def digitValue (c : Char) : Nat :=
  c.toNat - '0'.toNat

def digit (n : Nat) : Char :=
  Char.ofNat ('0'.toNat + n)

/-- The number that a run of digits writes after `value` has been read. -/
def ofDigitsFrom (value : Nat) (digits : List Char) : Nat :=
  digits.foldl (fun n c => n * 10 + digitValue c) value

def ofDigits (digits : List Char) : Nat :=
  ofDigitsFrom 0 digits

def digits (n : Nat) : List Char :=
  if n < 10 then [digit n] else digits (n / 10) ++ [digit (n % 10)]
termination_by n
decreasing_by omega

def ofInt (n : Int) : String :=
  if n < 0 then String.ofList ('-' :: digits n.natAbs) else String.ofList (digits n.natAbs)

theorem digitValue_digit {n : Nat} (hn : n < 10) : digitValue (digit n) = n := by
  revert n
  decide

theorem ofDigits_digits (n : Nat) : ofDigits (digits n) = n := by
  induction n using Nat.strongRecOn with
  | ind n ih =>
    rw [digits]
    split
    · rename_i hsmall
      simp [ofDigits, ofDigitsFrom, digitValue_digit hsmall]
    · have hquotient := ih (n / 10) (by omega)
      simp only [ofDigits, ofDigitsFrom] at hquotient ⊢
      rw [List.foldl_append, hquotient]
      simp only [List.foldl_cons, List.foldl_nil,
        digitValue_digit (Nat.mod_lt n (by decide : 0 < 10))]
      omega

theorem digits_ne_nil (n : Nat) : digits n ≠ [] := by
  rw [digits]
  split <;> simp

theorem isDigit_of_mem_digits (n : Nat) : ∀ c ∈ digits n, c.isDigit = true := by
  have hdigit : ∀ d, d < 10 → (digit d).isDigit = true := by decide
  induction n using Nat.strongRecOn with
  | ind n ih =>
    intro c hc
    rw [digits] at hc
    split at hc
    · rename_i hsmall
      rw [List.mem_singleton.1 hc]
      exact hdigit n hsmall
    · rcases List.mem_append.1 hc with hc | hc
      · exact ih (n / 10) (by omega) c hc
      · rw [List.mem_singleton.1 hc]
        exact hdigit _ (Nat.mod_lt n (by decide))

end InfixArithmetic.Text.Decimal
