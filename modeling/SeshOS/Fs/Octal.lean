/-
  `getsize` over the whole domain of its size field (kernel/fs/ramfs.c).

  The loop multiplies its weight by 8 modulo `2 ^ 32`, so the eleven digits give their number
  modulo `2 ^ 32`: `getsize_octal` for the digits of a number, `getsize_value` for any digits.
-/
import SeshOS.Base.Digits
import SeshOS.Fs.Ustar

namespace SeshOS.Fs

open Base Libc

/-- The number that a string of octal digits stands for, the most significant first. -/
def octalValue (s : List Byte) : Nat :=
  Nat.ofDigits 8 (s.reverse.map fun b => (b - chr '0').toNat)

/-- The eleven octal digits of `n`, with leading zeros. -/
def octalText (n : Nat) : List Byte := (List.range 11).map fun k => octalDigit n (10 - k)

/-- The character is an octal digit. -/
def IsOctal (b : Byte) : Prop := chr '0' ≤ b ∧ b ≤ chr '7'

theorem isOctal_digit {b : Byte} (h : IsOctal b) :
    (b - chr '0').toNat < 8 ∧ chr '0' + BitVec.ofNat 8 (b - chr '0').toNat = b := by
  obtain ⟨hlow, hhigh⟩ := h
  constructor
  · have hzero : chr '0' = 48 := rfl
    have hseven : chr '7' = 55 := rfl
    rw [hzero] at hlow ⊢
    rw [hseven] at hhigh
    bv_omega
  · rw [BitVec.ofNat_toNat, BitVec.setWidth_eq, add_sub_cancel]

theorem octalDigits_lt {s : List Byte} (h : ∀ b ∈ s, IsOctal b) :
    ∀ d ∈ s.reverse.map fun b => (b - chr '0').toNat, d < 8 := by
  intro d hd
  obtain ⟨b, hb, rfl⟩ := List.mem_map.mp hd
  exact (isOctal_digit (h b (List.mem_reverse.mp hb))).1

theorem octalValue_lt {s : List Byte} (h : ∀ b ∈ s, IsOctal b) {n : Nat} (hn : s.length = n) :
    octalValue s < 8 ^ n := by
  have hlt := Nat.ofDigits_lt_base_pow_length (by decide) (octalDigits_lt h)
  rwa [List.length_map, List.length_reverse, hn] at hlt

/-- The digit of weight `8 ^ k` is the `k`-th from the right. -/
theorem octalDigit_value {s : List Byte} (h : ∀ b ∈ s, IsOctal b) {k : Nat}
    (hk : k < s.length) : octalDigit (octalValue s) k = s[s.length - 1 - k] := by
  have hlen : k < (s.reverse.map fun b => (b - chr '0').toNat).length := by
    rw [List.length_map, List.length_reverse]
    exact hk
  have hdigit : octalValue s / 8 ^ k % 8 = (s[s.length - 1 - k] - chr '0').toNat := by
    rw [octalValue, ofDigits_digit (octalDigits_lt h) hlen, List.getElem_map,
      List.getElem_reverse]
  rw [octalDigit, hdigit]
  exact (isOctal_digit (h _ (List.getElem_mem _))).2

/-- For every size field: eleven octal digits are read as their value modulo `2 ^ 32`, and those
    of a number below `2 ^ 32` as the number. -/
theorem getsize_value (mem : Mem) (p : Nat) :
    ((∀ b ∈ bytesAt mem p 11, IsOctal b) →
      getsize mem p = octalValue (bytesAt mem p 11) % 2 ^ 32) ∧
    ∀ n < 2 ^ 32, bytesAt mem p 11 = octalText n → getsize mem p = n := by
  have hbyte : ∀ k, k < 11 → (bytesAt mem p 11)[k]? = some (mem (p + k)) := by
    intro k hk
    rw [bytesAt, List.getElem?_map, List.getElem?_range hk]
    rfl
  have hlen : (bytesAt mem p 11).length = 11 := by
    rw [bytesAt, List.length_map, List.length_range]
  constructor
  · intro h
    have hfield : ∀ k, k < 11 →
        mem (p + k) = octalDigit (octalValue (bytesAt mem p 11)) (10 - k) := by
      intro k hk
      rw [octalDigit_value h (by omega)]
      refine (List.getElem_eq_iff _).mpr ?_ |>.symm
      rw [hlen, show 11 - 1 - (10 - k) = k by omega]
      exact hbyte k hk
    rw [getsize_octal hfield, Nat.mod_eq_of_lt (octalValue_lt h hlen)]
  · intro n hn htext
    have hfield : ∀ k, k < 11 → mem (p + k) = octalDigit n (10 - k) := by
      intro k hk
      have hdigit := hbyte k hk
      rw [htext, octalText, List.getElem?_map, List.getElem?_range hk] at hdigit
      exact (Option.some_inj.mp hdigit).symm
    rw [getsize_octal hfield, Nat.mod_eq_of_lt (by omega : n < 8 ^ 11), Nat.mod_eq_of_lt hn]

end SeshOS.Fs
