/-!
# Integers of 64 bits

Arithmetic on 64-bit integers is done on mathematical integers; `Integer.ofInt?` brings a result
back if it fits (`toInt_of_ofInt?`, `exists_ofInt?`).
-/

namespace ConfigLang.Integer

/-- The least 64-bit integer. -/
def least : Int := -Nat.pow 2 63

/-- The greatest 64-bit integer. -/
def greatest : Int := Nat.pow 2 63 - 1

/-- The 64-bit integer of a mathematical one, if it fits. -/
def ofInt? (n : Int) : Option Int64 :=
  if least ≤ n ∧ n ≤ greatest then some (Int64.ofInt n) else none

/-- The magnitude of an integer. That of the least one does not fit, and counts as the greatest
integer. -/
def magnitude (n : Int64) : Int64 :=
  (ofInt? n.toInt.natAbs).getD (Int64.ofInt greatest)

theorem least_eq : least = -9223372036854775808 := rfl

theorem greatest_eq : greatest = 9223372036854775807 := rfl

theorem exists_ofInt? {n : Int} (hleast : least ≤ n) (hgreatest : n ≤ greatest) :
    ∃ i, ofInt? n = some i ∧ i.toInt = n := by
  have hlow : -2 ^ 63 ≤ n := hleast
  have hhigh : n < 2 ^ 63 := Int.lt_add_one_of_le hgreatest
  exact ⟨Int64.ofInt n, if_pos ⟨hleast, hgreatest⟩, Int64.toInt_ofInt_of_le hlow hhigh⟩

theorem toInt_of_ofInt? {n : Int} {i : Int64} (h : ofInt? n = some i) :
    i.toInt = n ∧ least ≤ n ∧ n ≤ greatest := by
  by_cases hn : least ≤ n ∧ n ≤ greatest
  · obtain ⟨j, hj, htoInt⟩ := exists_ofInt? hn.1 hn.2
    cases h.symm.trans hj
    exact ⟨htoInt, hn⟩
  · rw [ofInt?, if_neg hn] at h
    cases h

end ConfigLang.Integer
