/-
  `comout_num` (kernel/serial/comout.c): a 64-bit value in hexadecimal, on the debug port.

  It shifts the digits out at the top, one call of `comout` for each; `to_hstring` goes through
  the bytes from the bottom. Digit by digit both are the value over a power of 16
  (`comoutNum_rounds`, `hexDigit_nibble`).
-/
import SeshOS.Base.Run
import SeshOS.Libc.Hex
import SeshOS.Video.Log

namespace SeshOS.Serial

open Base Libc Video

/-- `"0123456789abcdef"` -/
def hexCharacters : List Byte := ascii "0123456789abcdef"

/-- One round of `comout_num`; the digit is in a buffer of its own. -/
def comoutNumRound (s : Console × BitVec 64) (_ : Nat) : Option (Console × BitVec 64) := do
  let digit ← (hexCharacters ++ [0])[(s.2 >>> 60).toNat]?
  let c ← comout s.1 [digit, 0]
  some (c, s.2 <<< 4)

def comoutNum (c : Console) (num : BitVec 64) : Option Console :=
  ((List.range 16).foldlM comoutNumRound (c, num)).map Prod.fst

/-- The character for the digit of weight `16 ^ (15 - k)`. -/
def sentDigit (value : BitVec 64) (k : Nat) : Byte :=
  hexCharacters.getD (value.toNat / 16 ^ (15 - k) % 16) 0

theorem hexCharacters_sent : ∀ d < 16, (hexCharacters ++ [0])[d]? = some (hexCharacters.getD d 0) ∧
    hexCharacters.getD d 0 ≠ 0 := by
  decide

theorem comout_character (c : Console) {b : Byte} (hb : b ≠ 0) :
    comout c [b, 0] = some { c with serial := c.serial ++ [b] } := by
  have hlen : stringEnd [b, 0] = some 1 :=
    stringEnd_terminated (s := [b]) (fun h => hb (List.mem_singleton.mp h).symm) []
  rw [comout, hlen]
  rfl

/-- The top digit of the number that is left after `k` rounds. -/
theorem shifted_top (value : BitVec 64) {k : Nat} (hk : k < 16) :
    ((value <<< (4 * k)) >>> 60).toNat = value.toNat / 16 ^ (15 - k) % 16 := by
  have hlow : (2 : Nat) ^ 64 = 16 ^ (16 - k) * 16 ^ k := by
    rw [← Nat.pow_add, Nat.sub_add_cancel (Nat.le_of_lt hk)]
    rfl
  have hhigh : (2 : Nat) ^ 60 = 16 ^ (15 - k) * 16 ^ k := by
    rw [← Nat.pow_add, Nat.sub_add_cancel (Nat.le_of_lt_succ hk)]
    rfl
  have hdigit : 16 ^ (16 - k) = 16 ^ (15 - k) * 16 := by
    rw [← Nat.pow_succ, show (15 - k).succ = 16 - k by omega]
  have hshift : (2 : Nat) ^ (4 * k) = 16 ^ k := Nat.pow_mul 2 4 k
  rw [BitVec.toNat_ushiftRight, BitVec.toNat_shiftLeft, Nat.shiftLeft_eq,
    Nat.shiftRight_eq_div_pow, hshift, hlow, Nat.mul_mod_mul_right, hhigh,
    Nat.mul_div_mul_right _ _ (Nat.pow_pos (by decide)), hdigit, Nat.mod_mul_right_div_self]

/-- The rounds send the digits from the top down. -/
theorem comoutNum_rounds (c : Console) (value : BitVec 64) {n : Nat} (hn : n ≤ 16) :
    (List.range n).foldlM comoutNumRound (c, value) =
      some ({ c with serial := c.serial ++ (List.range n).map (sentDigit value) },
        value <<< (4 * n)) := by
  induction n with
  | zero =>
    rw [List.range_zero, List.map_nil, List.append_nil, Nat.mul_zero, BitVec.shiftLeft_zero]
    rfl
  | succ n ih =>
    obtain ⟨hdigit, hne⟩ := hexCharacters_sent (value.toNat / 16 ^ (15 - n) % 16)
      (Nat.mod_lt _ (by decide))
    have hround : comoutNumRound
        ({ c with serial := c.serial ++ (List.range n).map (sentDigit value) },
          value <<< (4 * n)) n =
          some ({ c with
            serial := c.serial ++ (List.range n).map (sentDigit value) ++ [sentDigit value n] },
              value <<< (4 * (n + 1))) := by
      rw [comoutNumRound, shifted_top value (by omega), hdigit, Option.bind_eq_bind,
        Option.bind_some, comout_character _ hne, Nat.mul_succ, BitVec.shiftLeft_add]
      rfl
    rw [List.range_succ, List.map_append, ← List.append_assoc]
    exact foldlM_concat_of (ih (by omega)) hround

/-- `a` to `z` become `A` to `Z`. -/
def upperCase (b : Byte) : Byte := if chr 'a' ≤ b ∧ b ≤ chr 'z' then b - 32 else b

theorem upperCase_hexCharacters : ∀ d < 16,
    upperCase (hexCharacters.getD d 0) = hexChar (BitVec.ofNat 8 d) := by
  decide

/-- For every value, whatever is behind it and in the buffer: `comout_num` sends 16 characters,
    and `to_hstring` returns them in upper case; they are the digits of the value. -/
theorem hex_printers_agree (c : Console) (value : BitVec 64) (behind : Nat → Byte)
    (o : HexOutput) :
    ∃ sent, comoutNum c value = some { c with serial := c.serial ++ sent } ∧ sent.length = 16 ∧
      Holds (toHstring value behind o).buffer (sent.map upperCase) ∧
      hexNumber (sent.map upperCase) = value.toNat := by
  have hupper : ((List.range 16).map (sentDigit value)).map upperCase = hexDigits value := by
    rw [List.map_map, hexDigits]
    refine List.map_congr_left fun k hk => ?_
    rw [hexDigit_nibble value (List.mem_range.mp hk)]
    exact upperCase_hexCharacters _ (Nat.mod_lt _ (by decide))
  refine ⟨(List.range 16).map (sentDigit value), ?_, rfl, ?_, ?_⟩
  · rw [comoutNum, comoutNum_rounds c value (Nat.le_refl 16)]
    rfl
  · rw [hupper]
    exact toHstring_holds value behind o
  · rw [hupper]
    exact hexNumber_hexDigits value

end SeshOS.Serial
