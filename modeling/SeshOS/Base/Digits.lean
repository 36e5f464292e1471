/-
  Numbers with a fixed count of digits, the least significant first.
-/
import Mathlib

namespace Base

/-- A digit of a number that is given by its digits. -/
theorem ofDigits_digit {b : Nat} {ds : List Nat} (h : ∀ d ∈ ds, d < b) {k : Nat}
    (hk : k < ds.length) : Nat.ofDigits b ds / b ^ k % b = ds[k] := by
  have hdigit := h _ (List.getElem_mem hk)
  rw [Nat.ofDigits_div_pow_eq_ofDigits_drop k (by omega) ds h, List.drop_eq_getElem_cons hk,
    Nat.ofDigits_cons, Nat.add_mul_mod_self_left, Nat.mod_eq_of_lt hdigit]

/-- The number of the last `m` digits. -/
theorem ofDigits_range (b n m : Nat) :
    Nat.ofDigits b ((List.range m).map fun k => n / b ^ k % b) = n % b ^ m := by
  induction m with
  | zero => rw [Nat.pow_zero, Nat.mod_one]; rfl
  | succ m ih =>
    rw [List.range_succ, List.map_append, Nat.ofDigits_append, ih, List.length_map,
      List.length_range, List.map_singleton, Nat.ofDigits_singleton, Nat.mod_pow_succ]

/-- A number built from its most significant digit on, behind the digits of `r`. -/
theorem foldr_digits {α : Type} [CommSemiring α] (b : Nat) (r : α) (ds : List Nat) :
    ds.foldr (fun (d : Nat) r => r * (b : α) + (d : α)) r =
      r * (b : α) ^ ds.length + (Nat.ofDigits b ds : Nat) := by
  induction ds with
  | nil => simp
  | cons d ds ih =>
    rw [List.foldr_cons, ih, Nat.ofDigits_cons, List.length_cons]
    push_cast
    ring

end Base
