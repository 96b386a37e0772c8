namespace Apidoc.Text

/-- The value of a digit, where a letter counts from ten on. -/
def digitValue? (c : Char) : Option Nat :=
  if c.isDigit then some (c.toNat - '0'.toNat)
  else if 'a' ≤ c ∧ c ≤ 'f' then some (c.toNat - 'a'.toNat + 10)
  else if 'A' ≤ c ∧ c ≤ 'F' then some (c.toNat - 'A'.toNat + 10)
  else none

theorem ten_le_of_digitValue? {c : Char} {n : Nat} (hdigit : c.isDigit = false)
    (h : digitValue? c = some n) : 10 ≤ n := by
  unfold digitValue? at h
  rw [hdigit, if_neg Bool.false_ne_true] at h
  split at h
  · cases h
    exact Nat.le_add_left _ _
  · split at h
    · cases h
      exact Nat.le_add_left _ _
    · cases h

end Apidoc.Text
