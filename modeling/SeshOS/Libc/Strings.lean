/-
  The C strings of the kernel: `kernel/string.c` and the `memcmp` of `kernel/memory/mem.c`.

  A `char *` is modelled by the bytes from the pointer to the end of the object it points
  into, terminator and everything behind it included. A function that would read past these
  bytes gives `none`, and so does one that would store outside its buffers or never return
  (`strlen`, whose counter wraps). For a search of one character the bytes in front of the
  terminator decide (`strstr_char`).
-/
import SeshOS.Base.Bytes

namespace SeshOS.Libc

open Base

/-- The byte of an ASCII character. -/
def chr (c : Char) : Byte := BitVec.ofNat 8 c.toNat

/-- The bytes of an ASCII text, without a terminator. -/
def ascii (s : String) : List Byte := s.toList.map chr

/-! ## string.c and mem.c -/

/-- The loop of `strlen` at `i`, with `str` the bytes from there on. The counter has 32 bits:
    behind its last value it starts over, on bytes that are no terminator, and never ends. -/
def strlenLoop (i : BitVec 32) : List Byte → Option (BitVec 32)
  | [] => none
  | b :: str =>
    if b = 0 then some i
    else if i + 1 = 0 then none
    else strlenLoop (i + 1) str

def strlen (str : List Byte) : Option Nat := (strlenLoop 0 str).map BitVec.toNat

/-- Where the terminator is, for a loop that goes up to it without a counter. -/
def stringEnd : List Byte → Option Nat
  | [] => none
  | b :: str => if b = 0 then some 0 else (stringEnd str).map (· + 1)

/-- The loop stops at the end of `str1` or at the first difference; the result is the
    difference of the two bytes it stopped at. -/
def strcmp : List Byte → List Byte → Option Int
  | a :: str1, b :: str2 => if a ≠ 0 ∧ a = b then strcmp str1 str2 else some (a.toNat - b.toNat)
  | _, _ => none

def memcmp : List Byte → List Byte → Nat → Option Int
  | _, _, 0 => some 0
  | p :: s1, q :: s2, len + 1 => if p ≠ q then some (if q < p then 1 else -1) else memcmp s1 s2 len
  | _, _, _ => none

/-- The search loop of `strstr`, with `size` the length of the needle. The result is the
    offset of the match; `some none` is the null pointer. -/
def strstrLoop (needle : List Byte) (size : Nat) : List Byte → Option (Option Nat)
  | [] => none
  | b :: haystack =>
    if b = 0 then some none
    else
      (memcmp (b :: haystack) needle size).bind fun r =>
        if r = 0 then some (some 0) else (strstrLoop needle size haystack).map (·.map (· + 1))

def strstr (haystack needle : List Byte) : Option (Option Nat) :=
  (strlen needle).bind fun size => strstrLoop needle size haystack

/-- The loop of `atoi`, at the running total `res`. A `char` is signed, and the 32-bit `int`
    wraps. -/
def atoiLoop (res : BitVec 32) : List Byte → Option (BitVec 32)
  | [] => none
  | b :: nptr =>
    if b = 0 then some res else atoiLoop (res * 10 + b.signExtend 32 - (chr '0').signExtend 32) nptr

def atoi (nptr : List Byte) : Option (BitVec 32) := atoiLoop 0 nptr

structure TwoStrings where
  a : Vector Byte 128
  b : Vector Byte 128

/-- Store `bs` at `k`, `k + 1`, … of a buffer. -/
def storeBytes {n : Nat} (buf : Vector Byte n) (k : Nat) : List Byte → Option (Vector Byte n)
  | [] => some buf
  | b :: bs => if h : k < n then storeBytes (buf.set k b) (k + 1) bs else none

def strcpy {n : Nat} (destination : Vector Byte n) (source : List Byte) :
    Option (Vector Byte n) := do
  let k ← stringEnd source
  storeBytes destination 0 (source.take k ++ [0])

def memcpy {n : Nat} (destination : Vector Byte n) (source : List Byte) (num : Nat) :
    Option (Vector Byte n) :=
  if num ≤ source.length then storeBytes destination 0 (source.take num) else none

def strcat {n : Nat} (destination : Vector Byte n) (source : List Byte) :
    Option (Vector Byte n) := do
  let ptr ← strlen destination.toList
  let k ← stringEnd source
  storeBytes destination ptr (source.take k ++ [0])

/-- `p1` and `p2` are not initialised: `stack` is what they hold before. -/
def strsplit (stack : TwoStrings) (str : List Byte) (split : Byte) : Option TwoStrings := do
  let n ← strlen str
  let first := (str.take n).takeWhile (· ≠ split)
  let p1 ← storeBytes stack.a 0 (first ++ [0])
  -- without a `split` character `i` is past the end here, and `p2` gets its terminator only
  let p2 ← storeBytes stack.b 0 ((str.take n).drop (first.length + 1) ++ [0])
  some ⟨p1, p2⟩

/-! ## Strings with their terminator -/

/-- The bytes in front of the first NUL. -/
def visible : List Byte → List Byte
  | [] => []
  | b :: s => if b = 0 then [] else b :: visible s

/-- Behind a terminator nothing is visible. -/
theorem visible_terminated (s t : List Byte) : visible (s ++ 0 :: t) = visible s := by
  induction s with
  | nil => rfl
  | cons b s ih => rw [List.cons_append, visible, visible, ih]

theorem visible_append_of_notMem {s : List Byte} (h : 0 ∉ s) (t : List Byte) :
    visible (s ++ t) = s ++ visible t := by
  induction s with
  | nil => rfl
  | cons b s ih =>
    have hb : b ≠ 0 := (List.ne_of_not_mem_cons h).symm
    rw [List.cons_append, visible, if_neg hb, ih (List.not_mem_of_not_mem_cons h)]
    rfl

theorem visible_eq_self {s : List Byte} (h : 0 ∉ s) : visible s = s := by
  have hs := visible_append_of_notMem h []
  rwa [List.append_nil, visible, List.append_nil] at hs

theorem visible_append_of_mem {s : List Byte} (h : 0 ∈ s) (t : List Byte) :
    visible (s ++ t) = visible s := by
  obtain ⟨u, v, rfl⟩ := List.append_of_mem h
  rw [List.append_assoc, List.cons_append, visible_terminated, visible_terminated]

/-- One round of the search for a single character. -/
theorem strstrLoop_char (x b : Byte) (s : List Byte) :
    strstrLoop [x, 0] 1 (b :: s) =
      if b = 0 then some none
      else if b = x then some (some 0)
      else (strstrLoop [x, 0] 1 s).map (·.map (· + 1)) := by
  rw [strstrLoop]
  by_cases hbx : b = x
  · have hcmp : memcmp (b :: s) [x, 0] 1 = some 0 := by
      rw [memcmp, if_neg (not_not.mpr hbx), memcmp]
    rw [hcmp, Option.bind_some, if_pos rfl, if_pos hbx]
  · have hcmp : memcmp (b :: s) [x, 0] 1 = some (if x < b then 1 else -1) := by
      rw [memcmp, if_pos hbx]
    have hne : (if x < b then 1 else -1 : Int) ≠ 0 := by split <;> decide
    rw [hcmp, Option.bind_some, if_neg hne, if_neg hbx]

theorem strstr_char {x : Byte} (hx : x ≠ 0) (s : List Byte) :
    strstr s [x, 0] = strstrLoop [x, 0] 1 s := by
  have hlen : strlen [x, 0] = some 1 := by
    rw [strlen, strlenLoop, if_neg hx, if_neg (by decide), strlenLoop, if_pos rfl]
    rfl
  rw [strstr, hlen, Option.bind_some]

/-- A character in front of the terminator is found at its first place. -/
theorem strstr_found {x : Byte} (hx : x ≠ 0) {s : List Byte} (hs : x ∈ visible s) :
    ∃ u t, s = u ++ x :: t ∧ x ∉ u ∧ 0 ∉ u ∧ strstr s [x, 0] = some (some u.length) := by
  rw [strstr_char hx]
  induction s with
  | nil => cases hs
  | cons b s ih =>
    rw [visible] at hs
    by_cases hb : b = 0
    · rw [if_pos hb] at hs
      cases hs
    · rw [if_neg hb] at hs
      rw [strstrLoop_char, if_neg hb]
      by_cases hbx : b = x
      · exact ⟨[], s, by rw [hbx]; rfl, List.not_mem_nil, List.not_mem_nil, if_pos hbx⟩
      · have hs' : x ∈ visible s := (List.mem_cons.mp hs).resolve_left (Ne.symm hbx)
        obtain ⟨u, t, rfl, hxu, h0u, hrun⟩ := ih hs'
        refine ⟨b :: u, t, rfl, ?_, ?_, ?_⟩
        · simpa using ⟨Ne.symm hbx, hxu⟩
        · intro h
          rcases List.mem_cons.mp h with h | h
          · exact hb h.symm
          · exact h0u h
        · rw [if_neg hbx, hrun]
          rfl

/-- A character that is not in front of the terminator is not found. -/
theorem strstr_missing {x : Byte} (hx : x ≠ 0) {s : List Byte} (h0 : 0 ∈ s)
    (hs : x ∉ visible s) : strstr s [x, 0] = some none := by
  rw [strstr_char hx]
  induction s with
  | nil => cases h0
  | cons b s ih =>
    rw [visible] at hs
    rw [strstrLoop_char]
    by_cases hb : b = 0
    · exact if_pos hb
    · rw [if_neg hb] at hs
      have hbx : ¬b = x := (List.ne_of_not_mem_cons hs).symm
      have h0' : 0 ∈ s := (List.mem_cons.mp h0).resolve_left (Ne.symm hb)
      rw [if_neg hb, if_neg hbx, ih h0' (List.not_mem_of_not_mem_cons hs)]
      rfl

/-! ## Buffers -/

/-- Stores that fit replace the bytes they cover. -/
theorem storeBytes_fits {n : Nat} (buf : Vector Byte n) (bs : List Byte) {k : Nat}
    (h : k + bs.length ≤ n) :
    ∃ buf', storeBytes buf k bs = some buf' ∧
      buf'.toList = buf.toList.take k ++ (bs ++ buf.toList.drop (k + bs.length)) := by
  induction bs generalizing buf k with
  | nil => exact ⟨buf, rfl, by simp⟩
  | cons b bs ih =>
    rw [List.length_cons] at h
    have hk : k < n := by omega
    obtain ⟨buf', hrun, hlist⟩ := ih (buf.set k b) (k := k + 1) (by omega)
    refine ⟨buf', ?_, ?_⟩
    · rw [storeBytes, dif_pos hk]
      exact hrun
    · have hset : (buf.set k b).toList = buf.toList.set k b := Vector.toList_set hk
      have htake : (buf.toList.set k b).take (k + 1) = buf.toList.take k ++ [b] := by
        rw [List.take_succ_eq_append_getElem (by simpa using hk), List.getElem_set_self,
          List.take_set_of_le (Nat.le_refl k)]
      rw [hlist, hset, htake, List.drop_set_of_lt (by omega)]
      simp [Nat.add_assoc, Nat.add_comm 1]

/-- Stores that do not fit. -/
theorem storeBytes_overflow {n : Nat} (buf : Vector Byte n) {k : Nat} {bs : List Byte}
    (hne : bs ≠ []) (h : n < k + bs.length) : storeBytes buf k bs = none := by
  induction bs generalizing buf k with
  | nil => exact absurd rfl hne
  | cons b bs ih =>
    rw [List.length_cons] at h
    rw [storeBytes]
    by_cases hk : k < n
    · rw [dif_pos hk]
      have hbs : bs ≠ [] := by
        rintro rfl
        simp at h
        omega
      exact ih (buf.set k b) hbs (by omega)
    · exact dif_neg hk

/-! ## Strings in buffers -/

theorem stringEnd_terminated {s : List Byte} (h : 0 ∉ s) (t : List Byte) :
    stringEnd (s ++ 0 :: t) = some s.length := by
  induction s with
  | nil => rfl
  | cons b s ih =>
    have hb : b ≠ 0 := (List.ne_of_not_mem_cons h).symm
    rw [List.cons_append, stringEnd, if_neg hb, ih (List.not_mem_of_not_mem_cons h)]
    rfl

/-- The loop of `strlen` comes to the terminator unless its counter wraps before. -/
theorem strlenLoop_terminated {s : List Byte} (h : 0 ∉ s) (t : List Byte) (i : BitVec 32) :
    strlenLoop i (s ++ 0 :: t) =
      if i.toNat + s.length < 2 ^ 32 then some (i + BitVec.ofNat 32 s.length) else none := by
  induction s generalizing i with
  | nil =>
    rw [List.nil_append, strlenLoop, if_pos rfl, List.length_nil, Nat.add_zero, if_pos i.isLt]
    exact congrArg some (BitVec.add_zero i).symm
  | cons b s ih =>
    have hb : b ≠ 0 := (List.ne_of_not_mem_cons h).symm
    have hlt := i.isLt
    have hwraps : i + 1 = 0 ↔ i.toNat + 1 = 2 ^ 32 := by bv_omega
    rw [List.cons_append, strlenLoop, if_neg hb, List.length_cons]
    by_cases hwrap : i + 1 = 0
    · rw [if_pos hwrap, if_neg (by rw [hwraps] at hwrap; omega)]
    · have hsucc : (i + 1).toNat = i.toNat + 1 :=
        BitVec.toNat_add_of_lt (show i.toNat + 1 < 2 ^ 32 by rw [hwraps] at hwrap; omega)
      rw [if_neg hwrap, ih (List.not_mem_of_not_mem_cons h), hsucc, Nat.add_assoc,
        Nat.add_comm 1, BitVec.ofNat_add, BitVec.add_assoc, BitVec.add_comm 1]
      rfl

theorem strlen_terminated {s : List Byte} (h : 0 ∉ s) (hlen : s.length < 2 ^ 32) (t : List Byte) :
    strlen (s ++ 0 :: t) = some s.length := by
  have hloop : strlenLoop 0 (s ++ 0 :: t) = some (BitVec.ofNat 32 s.length) := by
    rw [strlenLoop_terminated h, if_pos (by simpa using hlen)]
    exact congrArg some (BitVec.zero_add _)
  rw [strlen, hloop, Option.map_some, BitVec.toNat_ofNat, Nat.mod_eq_of_lt hlen]

/-- Of a string of `2 ^ 32` bytes or more `strlen` does not return. -/
theorem strlen_overlong {s : List Byte} (h : 0 ∉ s) (hlen : 2 ^ 32 ≤ s.length) (t : List Byte) :
    strlen (s ++ 0 :: t) = none := by
  rw [strlen, strlenLoop_terminated h, if_neg (by simpa using hlen), Option.map_none]

theorem stringEnd_visible {s : List Byte} (h : 0 ∈ s) : stringEnd s = some (visible s).length := by
  induction s with
  | nil => cases h
  | cons b s ih =>
    rw [stringEnd, visible]
    by_cases hb : b = 0
    · rw [if_pos hb, if_pos hb]
      rfl
    · rw [if_neg hb, if_neg hb, ih ((List.mem_cons.mp h).resolve_left (Ne.symm hb))]
      rfl

theorem take_visible (s : List Byte) : s.take (visible s).length = visible s := by
  induction s with
  | nil => rfl
  | cons b s ih =>
    rw [visible]
    split
    · rfl
    · rw [List.length_cons, List.take_succ_cons, ih]

theorem zero_notMem_visible (s : List Byte) : 0 ∉ visible s := by
  induction s with
  | nil => exact List.not_mem_nil
  | cons b s ih =>
    rw [visible]
    by_cases hb : b = 0
    · rw [if_pos hb]
      exact List.not_mem_nil
    · rw [if_neg hb]
      intro h
      rcases List.mem_cons.mp h with h | h
      · exact hb h.symm
      · exact ih h

/-- A terminated string is what is in front of its terminator, and the rest. -/
theorem visible_split {s : List Byte} (h : 0 ∈ s) : ∃ t, visible s ++ 0 :: t = s := by
  obtain ⟨u, t, rfl, hu⟩ := List.eq_append_cons_of_mem h
  exact ⟨t, by rw [visible_terminated, visible_eq_self hu]⟩

/-- `strlen` of a terminated string. -/
theorem strlen_visible {s : List Byte} (h : 0 ∈ s) :
    strlen s = if (visible s).length < 2 ^ 32 then some (visible s).length else none := by
  obtain ⟨t, ht⟩ := visible_split h
  have h0 := zero_notMem_visible s
  split
  next hlen =>
    have hrun := strlen_terminated h0 hlen t
    rwa [ht] at hrun
  next hlen =>
    have hrun := strlen_overlong h0 (Nat.le_of_not_lt hlen) t
    rwa [ht] at hrun

/-- A buffer that holds a string, its terminator, and anything behind it. -/
def Holds {n : Nat} (buf : Vector Byte n) (s : List Byte) : Prop :=
  0 ∉ s ∧ ∃ rest, buf.toList = s ++ 0 :: rest

theorem Holds.visible {n : Nat} {buf : Vector Byte n} {s : List Byte} (h : Holds buf s) :
    Libc.visible buf.toList = s := by
  obtain ⟨h0, rest, hlist⟩ := h
  rw [hlist, visible_terminated, visible_eq_self h0]

/-- A string with its terminator stored to the front of a buffer. -/
theorem storeBytes_holds {n : Nat} (buf : Vector Byte n) {s : List Byte} (h0 : 0 ∉ s)
    (hfit : s.length < n) : ∃ buf', storeBytes buf 0 (s ++ [0]) = some buf' ∧ Holds buf' s := by
  obtain ⟨buf', hrun, hlist⟩ := storeBytes_fits buf (s ++ [0]) (k := 0) (by simp; omega)
  refine ⟨buf', hrun, h0, buf.toList.drop (0 + (s ++ [0]).length), ?_⟩
  rw [hlist, List.take_zero, List.nil_append, List.append_assoc, List.singleton_append]

theorem strcpy_holds {n : Nat} (destination : Vector Byte n) {s : List Byte} (h0 : 0 ∈ s)
    (hfit : (visible s).length < n) :
    ∃ buf', strcpy destination s = some buf' ∧ Holds buf' (visible s) := by
  obtain ⟨buf', hrun, hholds⟩ := storeBytes_holds destination (zero_notMem_visible s) hfit
  refine ⟨buf', ?_, hholds⟩
  rw [strcpy, stringEnd_visible h0]
  show storeBytes destination 0 (s.take (visible s).length ++ [0]) = _
  rw [take_visible, hrun]

/-- A string that does not fit with its terminator. -/
theorem strcpy_overflow {n : Nat} (destination : Vector Byte n) {s : List Byte} (h0 : 0 ∈ s)
    (hlong : n ≤ (visible s).length) : strcpy destination s = none := by
  rw [strcpy, stringEnd_visible h0]
  show storeBytes destination 0 (s.take (visible s).length ++ [0]) = none
  rw [take_visible]
  exact storeBytes_overflow _ (by simp) (by simp; omega)

theorem strcat_holds {n : Nat} {destination : Vector Byte n} {s t : List Byte}
    (h : Holds destination s) (h0 : 0 ∉ t) (hfit : s.length + t.length < n)
    (hlen : s.length < 2 ^ 32) :
    ∃ buf', strcat destination (t ++ [0]) = some buf' ∧ Holds buf' (s ++ t) := by
  obtain ⟨hs, rest, hlist⟩ := h
  obtain ⟨buf', hrun, hlist'⟩ := storeBytes_fits destination (t ++ [0]) (k := s.length)
    (by simp; omega)
  refine ⟨buf', ?_, fun hz => (List.mem_append.mp hz).elim hs h0,
    destination.toList.drop (s.length + (t ++ [0]).length), ?_⟩
  · rw [strcat, hlist, strlen_terminated hs hlen, stringEnd_terminated h0]
    show storeBytes destination s.length ((t ++ [0]).take t.length ++ [0]) = _
    rw [List.take_left, hrun]
  · rw [hlist', hlist, List.take_left, List.append_assoc, List.append_assoc,
      List.singleton_append]

/-! ## The value of a decimal text -/

/-- The number `atoi` makes of characters without a terminator among them. -/
def decimal (s : List Byte) : BitVec 32 :=
  s.foldl (fun res b => res * 10 + b.signExtend 32 - (chr '0').signExtend 32) 0

theorem atoi_terminated {s : List Byte} (h : 0 ∉ s) : atoi (s ++ [0]) = some (decimal s) := by
  unfold atoi decimal
  generalize (0 : BitVec 32) = res
  induction s generalizing res with
  | nil => exact if_pos rfl
  | cons b s ih =>
    have hb : b ≠ 0 := (List.ne_of_not_mem_cons h).symm
    rw [List.cons_append, atoiLoop, if_neg hb, ih (List.not_mem_of_not_mem_cons h)]
    rfl

end SeshOS.Libc
