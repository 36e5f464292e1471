/-
  `to_hstring` (string.c): a 64-bit value in hexadecimal, in a static buffer.

  The loop runs 15 rounds over a value of 8 bytes. From the ninth round on it reads behind the
  value and stores in front of the buffer; a store outside of it changes nothing modelled and
  is recorded in `stores`. Inside of the buffer are the digits of the value
  (`toHstring_holds`), and they determine it (`hexDigits_injective`, `hexNumber_hexDigits`); the
  strays are there for every value (`toHstring_strays`).
-/
import SeshOS.Base.Digits
import SeshOS.Libc.Strings

namespace SeshOS.Libc

open Base

/-- `hexTo_StringOutput`, with the indices of the stores to it and the offsets from `&value` of
    the bytes read so far. -/
structure HexOutput where
  buffer : Vector Byte 128
  stores : List Int
  reads : List Nat

def HexOutput.store (o : HexOutput) (k : Int) (v : Byte) : HexOutput :=
  { o with
    buffer := if h : 0 ≤ k ∧ k < 128 then o.buffer.set k.toNat v (by omega) else o.buffer
    stores := o.stores ++ [k] }

/-- `tmp + (tmp > 9 ? 55 : '0')` -/
def hexChar (tmp : Byte) : Byte := tmp + (if tmp > 9 then 55 else chr '0')

/-- Round `i`; `valPtr` are the bytes from `&value` on. -/
def hexRound (valPtr : Nat → Byte) (o : HexOutput) (i : Nat) : HexOutput :=
  let ptr := valPtr i
  let o := { o with reads := o.reads ++ [i, i] }
  let o := o.store (15 - (i * 2 + 1)) (hexChar ((ptr &&& 0xF0) >>> 4))
  o.store (15 - i * 2) (hexChar (ptr &&& 0x0F))

/-- The value, least significant byte first, and what is behind it. -/
def valueBytes (value : BitVec 64) (behind : Nat → Byte) (i : Nat) : Byte :=
  if i < 8 then value.extractLsb' (8 * i) 8 else behind (i - 8)

def toHstring (value : BitVec 64) (behind : Nat → Byte) (o : HexOutput) : HexOutput :=
  ((List.range 15).foldl (hexRound (valueBytes value behind)) o).store 16 0

/-! ## The digits -/

/-- The digit at index `k` of the output. -/
def hexDigit (valPtr : Nat → Byte) (k : Nat) : Byte :=
  if k % 2 = 0 then hexChar ((valPtr ((15 - k) / 2) &&& 0xF0) >>> 4)
  else hexChar (valPtr ((15 - k) / 2) &&& 0x0F)

/-- The 16 digits of a value, the most significant first. -/
def hexDigits (value : BitVec 64) : List Byte :=
  (List.range 16).map (hexDigit (valueBytes value fun _ => 0))

theorem store_inside (o : HexOutput) {k : Nat} (hk : k < 128) (v : Byte) :
    (o.store k v).buffer = o.buffer.set k v := by
  have h : 0 ≤ (k : Int) ∧ (k : Int) < 128 := by omega
  rw [HexOutput.store]
  dsimp only
  rw [dif_pos h]
  rfl

theorem store_outside (o : HexOutput) {k : Int} (hk : k < 0) (v : Byte) :
    (o.store k v).buffer = o.buffer := by
  rw [HexOutput.store]
  exact dif_neg fun h => by omega

/-- One of the first eight rounds stores two digits. -/
theorem hexRound_inside (valPtr : Nat → Byte) (o : HexOutput) {i : Nat} (hi : i < 8) :
    (hexRound valPtr o i).buffer =
      (o.buffer.set (14 - 2 * i) (hexDigit valPtr (14 - 2 * i))).set (15 - 2 * i)
        (hexDigit valPtr (15 - 2 * i)) := by
  have hhigh : (15 - (i * 2 + 1) : Int) = ((14 - 2 * i : Nat) : Int) := by omega
  have hlow : (15 - i * 2 : Int) = ((15 - 2 * i : Nat) : Int) := by omega
  have hround : (15 - (14 - 2 * i)) / 2 = i ∧ (15 - (15 - 2 * i)) / 2 = i := by omega
  unfold hexRound hexDigit
  dsimp only
  rw [hhigh, hlow, store_inside _ (by omega), store_inside _ (by omega), hround.1, hround.2,
    if_pos (by omega), if_neg (by omega)]

/-- The others store in front of the buffer. -/
theorem hexRound_outside (valPtr : Nat → Byte) (o : HexOutput) {i : Nat} (hi : 8 ≤ i) :
    (hexRound valPtr o i).buffer = o.buffer := by
  unfold hexRound
  dsimp only
  rw [store_outside _ (by omega), store_outside _ (by omega)]

/-- After `n` of the first eight rounds the last `2 * n` digits are there. -/
theorem hexRounds_buffer (valPtr : Nat → Byte) (o : HexOutput) {n : Nat} (hn : n ≤ 8) (k : Nat)
    (hk : k < 128) :
    ((List.range n).foldl (hexRound valPtr) o).buffer[k] =
      if 16 - 2 * n ≤ k ∧ k < 16 then hexDigit valPtr k else o.buffer[k] := by
  induction n with
  | zero => rw [if_neg (by omega)]; rfl
  | succ n ih =>
    rw [List.range_succ, List.foldl_append, List.foldl_cons, List.foldl_nil]
    simp only [hexRound_inside valPtr _ (show n < 8 by omega), Vector.getElem_set]
    by_cases hlow : 15 - 2 * n = k
    · rw [if_pos hlow, if_pos (by omega), hlow]
    · rw [if_neg hlow]
      by_cases hhigh : 14 - 2 * n = k
      · rw [if_pos hhigh, if_pos (by omega), hhigh]
      · rw [if_neg hhigh, ih (by omega)]
        by_cases hin : 16 - 2 * n ≤ k ∧ k < 16
        · rw [if_pos hin, if_pos (by omega)]
        · rw [if_neg hin, if_neg (by omega)]

theorem hexRounds_outside (valPtr : Nat → Byte) (o : HexOutput) (n : Nat) :
    ((List.range' 8 n).foldl (hexRound valPtr) o).buffer = o.buffer := by
  induction n with
  | zero => rfl
  | succ n ih =>
    rw [List.range'_1_concat, List.foldl_append, List.foldl_cons, List.foldl_nil,
      hexRound_outside _ _ (by omega), ih]

/-- All that the call leaves in the buffer. -/
theorem toHstring_buffer (value : BitVec 64) (behind : Nat → Byte) (o : HexOutput) (k : Nat)
    (hk : k < 128) :
    (toHstring value behind o).buffer[k] =
      if k < 16 then hexDigit (valueBytes value behind) k
      else if k = 16 then 0 else o.buffer[k] := by
  have hsplit : List.range 15 = List.range 8 ++ List.range' 8 7 := by decide
  have hrounds : ((List.range 15).foldl (hexRound (valueBytes value behind)) o).buffer =
      ((List.range 8).foldl (hexRound (valueBytes value behind)) o).buffer := by
    rw [hsplit, List.foldl_append, hexRounds_outside]
  have hend : (toHstring value behind o).buffer =
      ((List.range 15).foldl (hexRound (valueBytes value behind)) o).buffer.set 16 0 :=
    store_inside _ (k := 16) (by decide) 0
  have hdigits := hexRounds_buffer (valueBytes value behind) o (Nat.le_refl 8) k hk
  simp only [hend, hrounds, Vector.getElem_set, hdigits]
  by_cases h16 : 16 = k
  · rw [if_pos h16, if_neg (by omega), if_pos h16.symm]
  · rw [if_neg h16]
    by_cases hlt : k < 16
    · rw [if_pos (by omega), if_pos hlt]
    · rw [if_neg (by omega), if_neg hlt, if_neg (Ne.symm h16)]

/-- The digits do not depend on what is behind the value. -/
theorem hexDigit_value (value : BitVec 64) (behind : Nat → Byte) {k : Nat} (hk : k < 16) :
    hexDigit (valueBytes value behind) k = hexDigit (valueBytes value fun _ => 0) k := by
  have hinside : (15 - k) / 2 < 8 := by omega
  have hsame : valueBytes value behind ((15 - k) / 2) =
      valueBytes value (fun _ => 0) ((15 - k) / 2) := by
    rw [valueBytes, valueBytes, if_pos hinside, if_pos hinside]
  rw [hexDigit, hexDigit, hsame]

theorem hexChar_ne_zero : ∀ b : Byte, hexChar ((b &&& 0xF0) >>> 4) ≠ 0 ∧ hexChar (b &&& 0x0F) ≠ 0 := by
  decide +kernel

theorem zero_notMem_hexDigits (value : BitVec 64) : 0 ∉ hexDigits value := by
  intro h
  obtain ⟨k, -, hk⟩ := List.mem_map.mp h
  unfold hexDigit at hk
  split at hk
  · exact (hexChar_ne_zero _).1 hk
  · exact (hexChar_ne_zero _).2 hk

/-- The string that `to_hstring` returns, whatever was in the buffer. -/
theorem toHstring_holds (value : BitVec 64) (behind : Nat → Byte) (o : HexOutput) :
    Holds (toHstring value behind o).buffer (hexDigits value) := by
  refine ⟨zero_notMem_hexDigits value, (toHstring value behind o).buffer.toList.drop 17, ?_⟩
  have hlen : (hexDigits value).length = 16 := rfl
  apply List.ext_getElem
  · rw [List.length_append, List.length_cons, List.length_drop, hlen, Vector.length_toList]
  · intro k hk _
    have hk' : k < 128 := by simpa using hk
    rw [Vector.getElem_toList, toHstring_buffer value behind o k hk']
    by_cases hlt : k < 16
    · rw [if_pos hlt, List.getElem_append_left (by omega), hexDigit_value value behind hlt]
      simp [hexDigits]
    · rw [if_neg hlt, List.getElem_append_right (by omega)]
      by_cases h16 : k = 16
      · subst h16
        rfl
      · rw [if_neg h16]
        have hpos : k - (hexDigits value).length = k - 17 + 1 := by omega
        simp only [hpos, List.getElem_cons_succ, List.getElem_drop, Vector.getElem_toList]
        rw [toHstring_buffer _ _ _ _ (by omega), if_neg (by omega), if_neg (by omega)]
        congr 1
        omega

/-! ## Reading the digits back -/

/-- The value of a digit. -/
def hexValue (b : Byte) : Byte := if b ≤ chr '9' then b - chr '0' else b - 55

theorem hexValue_digits : ∀ b : Byte,
    hexValue (hexChar ((b &&& 0xF0) >>> 4)) <<< 4 ||| hexValue (hexChar (b &&& 0x0F)) = b := by
  decide +kernel

/-- Byte `i` of a value from its two digits. -/
theorem byte_hexDigits (value : BitVec 64) {i : Nat} (hi : i < 8) :
    hexValue ((hexDigits value).getD (14 - 2 * i) 0) <<< 4 |||
      hexValue ((hexDigits value).getD (15 - 2 * i) 0) = value.extractLsb' (8 * i) 8 := by
  have hround : (15 - (14 - 2 * i)) / 2 = i ∧ (15 - (15 - 2 * i)) / 2 = i := by omega
  have hget : ∀ k, k < 16 → (hexDigits value).getD k 0 =
      hexDigit (valueBytes value fun _ => 0) k := by
    intro k hk
    simp [hexDigits, hk]
  rw [hget _ (by omega), hget _ (by omega), hexDigit, if_pos (by omega), hexDigit,
    if_neg (by omega), hround.1, hround.2, hexValue_digits, valueBytes, if_pos hi]

theorem hexDigits_injective : Function.Injective hexDigits := by
  intro v w h
  have hbyte : ∀ i, i < 8 → v.extractLsb' (8 * i) 8 = w.extractLsb' (8 * i) 8 := by
    intro i hi
    rw [← byte_hexDigits v hi, ← byte_hexDigits w hi, h]
  apply BitVec.eq_of_getLsbD_eq
  intro j hj
  have hbit := congrArg (·.getLsbD (j % 8)) (hbyte (j / 8) (by omega))
  have hj' : j % 8 < 8 := Nat.mod_lt _ (by decide)
  have hindex : 8 * (j / 8) + j % 8 = j := Nat.div_add_mod j 8
  simpa only [BitVec.getLsbD_extractLsb', hj', decide_true, Bool.true_and, hindex] using hbit

/-- Digit `k` of the output is that of weight `16 ^ (15 - k)`. -/
theorem hexDigit_nibble (value : BitVec 64) {k : Nat} (hk : k < 16) :
    hexDigit (valueBytes value fun _ => 0) k =
      hexChar (BitVec.ofNat 8 (value.toNat / 16 ^ (15 - k) % 16)) := by
  have hinside : (15 - k) / 2 < 8 := by omega
  have hhalves : ∀ b : Byte, (b &&& 0xF0) >>> 4 = BitVec.ofNat 8 (b.toNat / 16 % 16) ∧
      b &&& 0x0F = BitVec.ofNat 8 (b.toNat % 16) := by decide +kernel
  have hbyte : (valueBytes value (fun _ => 0) ((15 - k) / 2)).toNat =
      value.toNat / 256 ^ ((15 - k) / 2) % 256 := by
    rw [valueBytes, if_pos hinside, BitVec.extractLsb'_toNat, Nat.shiftRight_eq_div_pow,
      Nat.pow_mul]
  obtain ⟨hhigh, hlow⟩ := hhalves (valueBytes value (fun _ => 0) ((15 - k) / 2))
  rw [hbyte] at hhigh hlow
  have hpow : 16 ^ (2 * ((15 - k) / 2)) = 256 ^ ((15 - k) / 2) := Nat.pow_mul 16 2 _
  unfold hexDigit
  by_cases heven : k % 2 = 0
  · have hweight : 16 ^ (15 - k) = 256 ^ ((15 - k) / 2) * 16 := by
      rw [← hpow, ← Nat.pow_succ]
      congr 1
      omega
    rw [if_pos heven, hhigh, hweight, ← Nat.div_div_eq_div_mul]
    congr 2
    omega
  · have hweight : 16 ^ (15 - k) = 256 ^ ((15 - k) / 2) := by
      rw [← hpow]
      congr 1
      omega
    rw [if_neg heven, hlow, hweight]
    congr 2
    omega

theorem hexValue_hexChar : ∀ d < 16, (hexValue (hexChar (BitVec.ofNat 8 d))).toNat = d := by
  decide

/-- The number that hexadecimal digits stand for, the most significant first. -/
def hexNumber (s : List Byte) : Nat := Nat.ofDigits 16 (s.reverse.map fun b => (hexValue b).toNat)

theorem hexNumber_hexDigits (value : BitVec 64) : hexNumber (hexDigits value) = value.toNat := by
  have hdigits : ((hexDigits value).reverse.map fun b => (hexValue b).toNat) =
      (List.range 16).map fun k => value.toNat / 16 ^ k % 16 := by
    have hlen : (hexDigits value).length = 16 := rfl
    apply List.ext_getElem
    · rw [List.length_map, List.length_reverse, hlen]
      rfl
    · intro k hk _
      rw [List.length_map, List.length_reverse, hlen] at hk
      simp only [List.getElem_map, List.getElem_reverse, List.getElem_range, hexDigits]
      rw [hexDigit_nibble value (by simp; omega), hexValue_hexChar _ (Nat.mod_lt _ (by decide))]
      congr 3
      simp
      omega
  rw [hexNumber, hdigits, ofDigits_range]
  exact Nat.mod_eq_of_lt value.isLt

/-! ## Stores and reads -/

/-- Every store is to one of the 128 bytes of the buffer. -/
def StoresInside (value : BitVec 64) (behind : Nat → Byte) (buffer : Vector Byte 128) : Prop :=
  ∀ k ∈ (toHstring value behind ⟨buffer, [], []⟩).stores, 0 ≤ k ∧ k < 128

/-- Every byte read is one of the eight of the value. -/
def ReadsInside (value : BitVec 64) (behind : Nat → Byte) (buffer : Vector Byte 128) : Prop :=
  ∀ i ∈ (toHstring value behind ⟨buffer, [], []⟩).reads, i < 8

theorem hexRound_records (valPtr : Nat → Byte) (o : HexOutput) (i : Nat) :
    (hexRound valPtr o i).stores = o.stores ++ [(15 - (i * 2 + 1) : Int), 15 - i * 2] ∧
      (hexRound valPtr o i).reads = o.reads ++ [i, i] := by
  refine ⟨?_, rfl⟩
  show o.stores ++ _ ++ _ = _
  rw [List.append_assoc]
  rfl

theorem hexRounds_records (valPtr : Nat → Byte) (o : HexOutput) (rounds : List Nat) :
    (rounds.foldl (hexRound valPtr) o).stores =
        o.stores ++ rounds.flatMap (fun i : Nat => [(15 - (i * 2 + 1) : Int), 15 - i * 2]) ∧
      (rounds.foldl (hexRound valPtr) o).reads = o.reads ++ rounds.flatMap fun i => [i, i] := by
  induction rounds generalizing o with
  | nil => exact ⟨(List.append_nil _).symm, (List.append_nil _).symm⟩
  | cons i rounds ih =>
    obtain ⟨hstores, hreads⟩ := ih (hexRound valPtr o i)
    obtain ⟨hstores', hreads'⟩ := hexRound_records valPtr o i
    rw [hstores', List.append_assoc] at hstores
    rw [hreads', List.append_assoc] at hreads
    exact ⟨hstores, hreads⟩

/-- For every value, whatever is behind it and in the buffer: the ninth round stores in front of
    the buffer, and reads the byte behind the value. -/
theorem toHstring_strays (value : BitVec 64) (behind : Nat → Byte) (buffer : Vector Byte 128) :
    ¬StoresInside value behind buffer ∧ ¬ReadsInside value behind buffer := by
  obtain ⟨hstores, hreads⟩ := hexRounds_records (valueBytes value behind) ⟨buffer, [], []⟩
    (List.range 15)
  rw [List.nil_append] at hstores hreads
  have hstore : (-2 : Int) ∈ (toHstring value behind ⟨buffer, [], []⟩).stores := by
    refine List.mem_append_left _ ?_
    rw [hstores]
    decide
  have hread : 8 ∈ (toHstring value behind ⟨buffer, [], []⟩).reads := by
    show 8 ∈ ((List.range 15).foldl (hexRound (valueBytes value behind)) ⟨buffer, [], []⟩).reads
    rw [hreads]
    decide
  exact ⟨fun h => absurd (h _ hstore).1 (by decide), fun h => absurd (h _ hread) (by decide)⟩

/-- So it does for 0. -/
theorem zero_strays :
    ¬∀ (value : BitVec 64) (behind : Nat → Byte) (buffer : Vector Byte 128),
      StoresInside value behind buffer ∧ ReadsInside value behind buffer := by
  intro h
  have hstores := (h 0 (fun _ => 0) (Vector.replicate 128 0)).1
  have hstore : (-2 : Int) ∈
      (toHstring 0 (fun _ => 0) ⟨Vector.replicate 128 0, [], []⟩).stores := by
    decide
  exact absurd (hstores _ hstore).1 (by decide)

end SeshOS.Libc
