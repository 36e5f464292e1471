/-
  A 64-bit byte memory: single bytes, little-endian integers, forward copies.

  `Mem` maps addresses to bytes; every access reduces its address modulo `2 ^ 64`, as the
  machine does. Each operation has one lemma that says what every byte of the memory is
  afterwards (`set_apply`, `storeLE_apply`, `copy_apply`), for accesses that do not wrap, and
  the loads are determined by the bytes they cover (`loadLE_congr`). For addresses that may
  wrap, `Apart` says that two ranges share no byte: a store then leaves a load as it was
  (`loadLE_storeLE_apart`), and a load gives back what was stored at the same address
  (`loadLE_storeLE_self`).
-/
import Mathlib

namespace Base

abbrev Byte := BitVec 8

/-- Byte memory. Only addresses below `2 ^ 64` are ever used. -/
abbrev Mem := Nat → Byte

namespace Mem

/-- Write one byte. -/
def set (m : Mem) (a : Nat) (v : Byte) : Mem :=
  fun x => if x = a % 2 ^ 64 then v else m x

/-- Write the low `k` bytes of `v` at `a`, least significant byte first. -/
def storeLE (m : Mem) (a v : Nat) : Nat → Mem
  | 0 => m
  | k + 1 => (storeLE m a v k).set (a + k) (BitVec.ofNat 8 (v / 256 ^ k))

/-- Read `k` bytes at `a` as an integer, least significant byte first. -/
def loadLE (m : Mem) (a : Nat) : Nat → Nat
  | 0 => 0
  | k + 1 => loadLE m a k + (m ((a + k) % 2 ^ 64)).toNat * 256 ^ k

/-- Copy `k` bytes from `s` to `d` one after the other, lowest address first. -/
def copy (m : Mem) (d s : Nat) : Nat → Mem
  | 0 => m
  | k + 1 => (copy m d s k).set (d + k) (copy m d s k ((s + k) % 2 ^ 64))

/-- Set `k` bytes from `a` on to `v`. -/
def fill (m : Mem) (a : Nat) (v : Byte) : Nat → Mem
  | 0 => m
  | k + 1 => (fill m a v k).set (a + k) v

variable (m : Mem)

theorem set_apply {a : Nat} (h : a < 2 ^ 64) (v : Byte) (x : Nat) :
    m.set a v x = if x = a then v else m x := by
  rw [set, Nat.mod_eq_of_lt h]

theorem storeLE_apply {a k : Nat} (v : Nat) (h : a + k ≤ 2 ^ 64) (x : Nat) :
    m.storeLE a v k x =
      if a ≤ x ∧ x < a + k then BitVec.ofNat 8 (v / 256 ^ (x - a)) else m x := by
  induction k with
  | zero =>
    rw [if_neg (by omega)]
    rfl
  | succ k ih =>
    rw [storeLE, set_apply _ (by omega), ih (by omega)]
    by_cases hx : x = a + k
    · subst hx
      rw [if_pos rfl, if_pos (by omega), Nat.add_sub_cancel_left]
    · rw [if_neg hx]
      by_cases hin : a ≤ x ∧ x < a + k
      · rw [if_pos hin, if_pos (by omega)]
      · rw [if_neg hin, if_neg (by omega)]

/-- A store changes nothing outside its `k` bytes. -/
theorem storeLE_frame {a k x : Nat} (v : Nat) (h : a + k ≤ 2 ^ 64) (hx : x < a ∨ a + k ≤ x) :
    m.storeLE a v k x = m x := by
  rw [storeLE_apply m v h, if_neg (by omega)]

/-- A load is determined by the bytes it covers. -/
theorem loadLE_congr {m m' : Mem} {a k : Nat} (h : a + k ≤ 2 ^ 64)
    (hb : ∀ i, i < k → m (a + i) = m' (a + i)) : m.loadLE a k = m'.loadLE a k := by
  induction k with
  | zero => rfl
  | succ k ih =>
    rw [loadLE, loadLE, ih (by omega) (fun i hi => hb i (by omega)),
      Nat.mod_eq_of_lt (by omega), hb k (by omega)]

theorem loadLE_lt (a k : Nat) : m.loadLE a k < 256 ^ k := by
  induction k with
  | zero => exact Nat.one_pos
  | succ k ih =>
    have hb : (m ((a + k) % 2 ^ 64)).toNat ≤ 255 := Nat.le_of_lt_succ (BitVec.isLt _)
    have hm := Nat.mul_le_mul_right (256 ^ k) hb
    have hp : 256 ^ (k + 1) = 256 ^ k * 256 := Nat.pow_succ 256 k
    rw [loadLE, hp]
    omega

/-- A forward copy between disjoint ranges: the destination gets the source's bytes and
    nothing else changes. -/
theorem copy_apply {d s k : Nat} (hd : d + k ≤ 2 ^ 64) (hs : s + k ≤ 2 ^ 64)
    (hdis : s + k ≤ d ∨ d + k ≤ s) (x : Nat) :
    m.copy d s k x = if d ≤ x ∧ x < d + k then m (s + (x - d)) else m x := by
  induction k generalizing x with
  | zero =>
    rw [if_neg (by omega)]
    rfl
  | succ k ih =>
    have ih' := ih (by omega) (by omega) (by omega)
    rw [copy, set_apply _ (by omega), ih', ih', Nat.mod_eq_of_lt (by omega : s + k < 2 ^ 64)]
    by_cases hx : x = d + k
    · subst hx
      -- the source byte is still the original one
      rw [if_pos rfl, if_neg (by omega), if_pos (by omega), Nat.add_sub_cancel_left]
    · rw [if_neg hx]
      by_cases hin : d ≤ x ∧ x < d + k
      · rw [if_pos hin, if_pos (by omega)]
      · rw [if_neg hin, if_neg (by omega)]

/-! ## Addresses that may wrap -/

/-- The `k` bytes at `a` and the `l` bytes at `b` have no address in common. -/
def Apart (a k b l : Nat) : Prop := ∀ i < k, ∀ j < l, (a + i) % 2 ^ 64 ≠ (b + j) % 2 ^ 64

theorem Apart.symm {a k b l : Nat} (h : Apart a k b l) : Apart b l a k :=
  fun j hj i hi => (h i hi j hj).symm

/-- A part of a range is apart from what the range is apart from. -/
theorem Apart.part {a k b l o n : Nat} (h : Apart a k b l) (ho : o + n ≤ k) :
    Apart (a + o) n b l := by
  intro i hi j hj
  rw [Nat.add_assoc]
  exact h (o + i) (by omega) j hj

theorem Apart.head {a k b l n : Nat} (h : Apart a k b l) (hn : n ≤ k) : Apart a n b l :=
  fun i hi j hj => h i (by omega) j hj

/-- Ranges at two offsets from one address, when the offsets are apart. -/
theorem apart_offsets (a : Nat) {o k o' l : Nat} (h : o + k ≤ o' ∨ o' + l ≤ o)
    (ho : o + k ≤ 2 ^ 64) (ho' : o' + l ≤ 2 ^ 64) : Apart (a + o) k (a + o') l := by
  intro i hi j hj
  omega

/-- A range behind the start of another. -/
theorem apart_behind (a : Nat) {o k l : Nat} (h : l ≤ o) (ho : o + k ≤ 2 ^ 64) :
    Apart (a + o) k a l := by
  intro i hi j hj
  omega

theorem apart_mod (a k b l : Nat) : Apart (a % 2 ^ 64) k b l ↔ Apart a k b l := by
  simp only [Apart, Nat.mod_add_mod]

variable {m}

theorem set_eq_storeLE (a : Nat) (v : Byte) : m.set a v = m.storeLE a v.toNat 1 := by
  simp [storeLE]

theorem set_other {a x : Nat} (v : Byte) (h : x ≠ a % 2 ^ 64) : m.set a v x = m x := if_neg h

theorem storeLE_other {a k x : Nat} (v : Nat) (h : ∀ i < k, x ≠ (a + i) % 2 ^ 64) :
    m.storeLE a v k x = m x := by
  induction k with
  | zero => rfl
  | succ k ih =>
    rw [storeLE, set, if_neg (h k (Nat.lt_succ_self k))]
    exact ih fun i hi => h i (Nat.lt_succ_of_lt hi)

theorem copy_other {d s k x : Nat} (h : ∀ i < k, x ≠ (d + i) % 2 ^ 64) :
    m.copy d s k x = m x := by
  induction k with
  | zero => rfl
  | succ k ih =>
    rw [copy, set, if_neg (h k (Nat.lt_succ_self k))]
    exact ih fun i hi => h i (Nat.lt_succ_of_lt hi)

theorem fill_other {a k x : Nat} (v : Byte) (h : ∀ i < k, x ≠ (a + i) % 2 ^ 64) :
    m.fill a v k x = m x := by
  induction k with
  | zero => rfl
  | succ k ih =>
    rw [fill, set, if_neg (h k (Nat.lt_succ_self k))]
    exact ih fun i hi => h i (Nat.lt_succ_of_lt hi)

/-- A load is determined by the bytes it covers, wherever they are. -/
theorem loadLE_of_bytes {m' : Mem} {a k : Nat}
    (h : ∀ i < k, m ((a + i) % 2 ^ 64) = m' ((a + i) % 2 ^ 64)) :
    m.loadLE a k = m'.loadLE a k := by
  induction k with
  | zero => rfl
  | succ k ih =>
    rw [loadLE, loadLE, ih fun i hi => h i (Nat.lt_succ_of_lt hi), h k (Nat.lt_succ_self k)]

/-- A store leaves every load apart from it as it was. -/
theorem loadLE_storeLE_apart {a k b l : Nat} (v : Nat) (h : Apart a k b l) :
    (m.storeLE a v k).loadLE b l = m.loadLE b l :=
  loadLE_of_bytes fun j hj => storeLE_other v fun i hi => (h i hi j hj).symm

/-- Loading what was stored gives its low `k` bytes. -/
theorem loadLE_storeLE_self {a k : Nat} (v : Nat) (hk : k ≤ 2 ^ 64) :
    (m.storeLE a v k).loadLE a k = v % 256 ^ k := by
  induction k with
  | zero => simp [loadLE, Nat.mod_one]
  | succ k ih =>
    have hlow : (m.storeLE a v (k + 1)).loadLE a k = (m.storeLE a v k).loadLE a k := by
      refine loadLE_of_bytes fun i hi => ?_
      rw [storeLE, set, if_neg (by omega)]
    have htop : (m.storeLE a v (k + 1) ((a + k) % 2 ^ 64)).toNat = v / 256 ^ k % 256 := by
      rw [storeLE, set, if_pos rfl, BitVec.toNat_ofNat]
    have hdigit : v % 256 ^ (k + 1) = v % 256 ^ k + 256 ^ k * (v / 256 ^ k % 256) :=
      Nat.mod_pow_succ
    rw [loadLE, hlow, ih (by omega), htop, hdigit, Nat.mul_comm (256 ^ k)]

/-- Storing what is there changes nothing. -/
theorem storeLE_same {a k : Nat} (v : Nat) (h : m.loadLE a k = v % 256 ^ k) :
    m.storeLE a v k = m := by
  induction k with
  | zero => rfl
  | succ k ih =>
    have hpos : 0 < 256 ^ k := Nat.pow_pos (by decide)
    have hlow := loadLE_lt m a k
    have hmod : v % 256 ^ k < 256 ^ k := Nat.mod_lt _ hpos
    have hdigit : v % 256 ^ (k + 1) = v % 256 ^ k + 256 ^ k * (v / 256 ^ k % 256) :=
      Nat.mod_pow_succ
    rw [loadLE, Nat.mul_comm _ (256 ^ k)] at h
    -- the last byte and the ones below it
    obtain ⟨hbyte, hrest⟩ := (Nat.div_mod_unique hpos).mpr ⟨h, hlow⟩
    rw [hdigit, Nat.add_mul_div_left _ _ hpos, Nat.div_eq_of_lt hmod, Nat.zero_add] at hbyte
    rw [hdigit, Nat.add_mul_mod_self_left, Nat.mod_eq_of_lt hmod] at hrest
    rw [storeLE, ih hrest.symm]
    funext x
    rw [set]
    split
    · next hx =>
      rw [hx]
      exact BitVec.eq_of_toNat_eq (by rw [BitVec.toNat_ofNat]; exact hbyte)
    · rfl

/-- A store to one field of a structure at `a`, and a load from another. -/
theorem loadLE_storeLE_field {a o k o' l : Nat} (v : Nat) (h : o + k ≤ o' ∨ o' + l ≤ o)
    (ho : o + k ≤ 2 ^ 64) (ho' : o' + l ≤ 2 ^ 64) :
    (m.storeLE (a + o) v k).loadLE (a + o') l = m.loadLE (a + o') l :=
  loadLE_storeLE_apart v (apart_offsets a h ho ho')

/-- Every byte of a filled range. -/
theorem fill_inside {a k i : Nat} (v : Byte) (h : i < k) :
    m.fill a v k ((a + i) % 2 ^ 64) = v := by
  induction k with
  | zero => omega
  | succ k ih =>
    rw [fill, set]
    split
    · rfl
    · next hne =>
      have hi : i ≠ k := fun hi => hne (by rw [hi])
      exact ih (by omega)

theorem loadLE_zeros {a k : Nat} (h : ∀ i < k, m ((a + i) % 2 ^ 64) = 0) : m.loadLE a k = 0 := by
  induction k with
  | zero => rfl
  | succ k ih =>
    rw [loadLE, ih fun i hi => h i (Nat.lt_succ_of_lt hi), h k (Nat.lt_succ_self k)]
    simp

/-- A load from a cleared range. -/
theorem loadLE_fill_zero {a o k n : Nat} (h : o + k ≤ n) : (m.fill a 0 n).loadLE (a + o) k = 0 :=
  loadLE_zeros fun i hi => by
    rw [Nat.add_assoc]
    exact fill_inside 0 (by omega)

end Mem

end Base
