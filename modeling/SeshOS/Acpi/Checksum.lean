/-
  `doChecksum` (acpi/acpi.c), over the tables of `acpi/acpi.h`.

  The bytes of a table are added as signed characters into 64 bits, and the sum is compared with
  0 without a reduction. So it is the sum of the bytes less 256 for each byte from 128 on
  (`checksumLoop_eq`), and a table whose bytes add up to a multiple of 256 passes only when the
  multiple is the number of those bytes (`checksum_right_iff`).
-/
import SeshOS.Boot.CheckLoader

namespace SeshOS.Acpi

open Base Libc
open Boot (loglevelWarn)

/-! ## acpi.c -/

/-- A call `log(MODNAME, msg, level)`. -/
abbrev Logged := List Byte × Byte

/-- `sizeof(ACPISDTHeader)`. -/
def sdtHeaderSize : Nat := 36

/-- `tableHeader->length`. -/
def sdtLength (m : Mem) (tableHeader : Nat) : Nat := m.loadLE (tableHeader + 4) 4

/-- `((char *)tableHeader)[i]` -/
def tableByte (m : Mem) (tableHeader i : Nat) : Byte := m ((tableHeader + i) % 2 ^ 64)

/-- `sum` after `n` rounds. A `char` is signed; `uint_fast32_t` has 64 bits. -/
def checksumLoop (m : Mem) (tableHeader : Nat) : Nat → BitVec 64
  | 0 => 0
  | n + 1 => checksumLoop m tableHeader n + (tableByte m tableHeader n).signExtend 64

/-- The result, and what is logged. -/
def doChecksum (m : Mem) (tableHeader : Nat) : Bool × List Logged :=
  let sum := checksumLoop m tableHeader (sdtLength m tableHeader)
  (sum = 0,
    if sum ≠ 0 then [(ascii "Checksum wrong by " ++ ascii (toString sum.toNat), loglevelWarn)]
    else [])

/-! ## The sum of the bytes -/

/-- The sum of the first `n` bytes. -/
def byteSum (m : Mem) (tableHeader : Nat) : Nat → Nat
  | 0 => 0
  | n + 1 => byteSum m tableHeader n + (tableByte m tableHeader n).toNat

/-- How many of them are negative as characters. -/
def highBytes (m : Mem) (tableHeader : Nat) : Nat → Nat
  | 0 => 0
  | n + 1 =>
    highBytes m tableHeader n + if 128 ≤ (tableByte m tableHeader n).toNat then 1 else 0

/-- The bytes of the table, over its length, add up to a multiple of 256. -/
def ChecksumZero (m : Mem) (tableHeader : Nat) : Prop :=
  byteSum m tableHeader (sdtLength m tableHeader) % 256 = 0

instance (m : Mem) (tableHeader : Nat) : Decidable (ChecksumZero m tableHeader) :=
  inferInstanceAs (Decidable (_ = _))

theorem checksumLoop_eq (m : Mem) (tableHeader n : Nat) :
    checksumLoop m tableHeader n =
      BitVec.ofInt 64 ((byteSum m tableHeader n : Int) - 256 * highBytes m tableHeader n) := by
  induction n with
  | zero => rfl
  | succ n ih =>
    have hbyte : ∀ b : Byte, b.signExtend 64 =
        BitVec.ofInt 64 ((b.toNat : Int) - 256 * ((if 128 ≤ b.toNat then 1 else 0 : Nat) : Int)) := by
      intro b
      rw [BitVec.signExtend, BitVec.toInt_eq_toNat_cond]
      congr 1
      split <;> split <;> omega
    rw [checksumLoop, ih, hbyte, ← BitVec.ofInt_add, byteSum, highBytes]
    congr 1
    omega

theorem byteSum_le (m : Mem) (tableHeader n : Nat) :
    byteSum m tableHeader n ≤ 255 * n ∧ highBytes m tableHeader n ≤ n := by
  induction n with
  | zero => exact ⟨Nat.le_refl 0, Nat.le_refl 0⟩
  | succ n ih =>
    have hbyte := (tableByte m tableHeader n).isLt
    rw [byteSum, highBytes]
    split <;> omega

/-- 32 bits of length cannot make the sum wrap around. -/
theorem checksumLoop_zero_iff (m : Mem) (tableHeader : Nat) {n : Nat} (hn : n < 2 ^ 32) :
    checksumLoop m tableHeader n = 0 ↔
      byteSum m tableHeader n = 256 * highBytes m tableHeader n := by
  obtain ⟨hsum, hhigh⟩ := byteSum_le m tableHeader n
  rw [checksumLoop_eq]
  constructor
  · intro h
    have hint := congrArg BitVec.toInt h
    rw [BitVec.toInt_ofInt_eq_self (by decide) (by omega) (by omega)] at hint
    have hzero : (0 : BitVec 64).toInt = 0 := rfl
    omega
  · intro h
    have hzero : (byteSum m tableHeader n : Int) - 256 * highBytes m tableHeader n = 0 := by omega
    rw [hzero]
    rfl

/-! ## What passes -/

/-- For every memory and every table in it, of any length: the result is true exactly for the
    tables whose bytes add up to a multiple of 256, if and only if these are no multiple, or the
    multiple is the number of bytes from 128 on. -/
theorem checksum_right_iff (m : Mem) (tableHeader : Nat) :
    ((doChecksum m tableHeader).1 = true ↔ ChecksumZero m tableHeader) ↔
      byteSum m tableHeader (sdtLength m tableHeader) % 256 ≠ 0 ∨
        byteSum m tableHeader (sdtLength m tableHeader) =
          256 * highBytes m tableHeader (sdtLength m tableHeader) := by
  have hresult : (doChecksum m tableHeader).1 = true ↔
      byteSum m tableHeader (sdtLength m tableHeader) =
        256 * highBytes m tableHeader (sdtLength m tableHeader) := by
    rw [doChecksum, decide_eq_true_iff]
    exact checksumLoop_zero_iff m tableHeader (Mem.loadLE_lt m (tableHeader + 4) 4)
  rw [hresult, ChecksumZero]
  omega

/-- A table of 36 bytes at 4096: its length, a revision and a checksum of 110 each, and zeros. -/
def smallTable : Mem := fun x => if x = 4100 then 36 else if x = 4104 ∨ x = 4105 then 110 else 0

/-- Its bytes add up to 256, and it is refused. -/
theorem smallTable_refused :
    ¬ ∀ (m : Mem) (tableHeader : Nat),
      (doChecksum m tableHeader).1 = true ↔ ChecksumZero m tableHeader := by
  intro h
  have hright := h smallTable 4096
  exact absurd hright (by decide)

end SeshOS.Acpi
