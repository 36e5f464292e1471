/-
  `strcmp` (kernel/string.c) orders strings as lists of unsigned bytes.

  The loop tests the first string for its end and the two characters for a difference, as signed
  `char`, which differ exactly when the bytes do. The terminator of the second string differs from
  every byte in front of the first one's, so the loop stops there at the latest, and nothing behind
  either terminator is read.
-/
import SeshOS.Libc.Strings

namespace SeshOS.Libc

open Base

/-! ## One round -/

theorem strcmp_same {a : Byte} (ha : a ≠ 0) (s t : List Byte) :
    strcmp (a :: s) (a :: t) = strcmp s t := by
  rw [strcmp, if_pos ⟨ha, rfl⟩]

theorem strcmp_differ {a b : Byte} (h : a ≠ b) (s t : List Byte) :
    strcmp (a :: s) (b :: t) = some ((a.toNat : Int) - b.toNat) := by
  rw [strcmp, if_neg fun hab => h hab.2]

theorem strcmp_end (s t : List Byte) : strcmp (0 :: s) (0 :: t) = some 0 := by
  rw [strcmp, if_neg fun h => h.1 rfl, sub_self]

theorem difference_zero_iff (a b : Byte) : (a.toNat : Int) - b.toNat = 0 ↔ a = b := by
  rw [← BitVec.toNat_inj]
  omega

theorem difference_neg_iff (a b : Byte) : (a.toNat : Int) - b.toNat < 0 ↔ a < b := by
  rw [BitVec.lt_def]
  omega

/-- With the strings exchanged the loop stops at the same place. -/
theorem strcmp_swap (s t : List Byte) : strcmp t s = (strcmp s t).map fun d => -d := by
  induction s generalizing t with
  | nil => cases t <;> rfl
  | cons a s ih =>
    cases t with
    | nil => rfl
    | cons b t =>
      rw [strcmp, strcmp]
      by_cases h : a ≠ 0 ∧ a = b
      · have hswap : b ≠ 0 ∧ b = a := ⟨h.2 ▸ h.1, h.2.symm⟩
        rw [if_pos h, if_pos hswap, ih]
      · have hswap : ¬(b ≠ 0 ∧ b = a) := fun h' => h ⟨h'.2 ▸ h'.1, h'.2.symm⟩
        rw [if_neg h, if_neg hswap, Option.map_some, Int.neg_sub]

/-! ## Whole strings -/

/-- `strcmp` is zero exactly on equal strings, the second one seen up to the length of the
    first. -/
theorem strcmp_zero_iff {s t : List Byte} (hs : 0 ∉ s) (ht : t.length = s.length + 1) :
    strcmp (s ++ [0]) t = some 0 ↔ t = s ++ [0] := by
  induction s generalizing t with
  | nil =>
    obtain ⟨b, rfl⟩ := List.length_eq_one_iff.mp ht
    by_cases hb : 0 = b
    · subst hb
      exact iff_of_true (strcmp_end [] []) rfl
    · rw [List.nil_append, strcmp_differ hb, Option.some.injEq, difference_zero_iff,
        List.cons.injEq, and_iff_left rfl]
      exact eq_comm
  | cons a s ih =>
    obtain ⟨b, t, rfl⟩ := List.exists_cons_of_length_eq_add_one ht
    have ha : a ≠ 0 := (List.ne_of_not_mem_cons hs).symm
    rw [List.cons_append, List.cons.injEq]
    by_cases hab : a = b
    · subst hab
      rw [strcmp_same ha, ih (List.not_mem_of_not_mem_cons hs) (by simpa using ht),
        and_iff_right rfl]
    · rw [strcmp_differ hab, Option.some.injEq, difference_zero_iff]
      exact iff_of_false hab fun h => hab h.1.symm

/-- The result, whatever is behind the terminators. -/
theorem strcmp_order {s t : List Byte} (hs : 0 ∉ s) (ht : 0 ∉ t) :
    ∃ d, (∀ u v, strcmp (s ++ 0 :: u) (t ++ 0 :: v) = some d) ∧ (d = 0 ↔ s = t) ∧
      (d < 0 ↔ s < t) := by
  induction s generalizing t with
  | nil =>
    cases t with
    | nil =>
      exact ⟨0, fun u v => strcmp_end u v, iff_of_true rfl rfl,
        iff_of_false (Int.lt_irrefl 0) (List.not_lt_nil [])⟩
    | cons b t =>
      have hb : 0 ≠ b := List.ne_of_not_mem_cons ht
      have hpos : 0 < b := by bv_omega
      refine ⟨_, fun u v => strcmp_differ hb u (t ++ 0 :: v), ?_, ?_⟩
      · rw [difference_zero_iff]
        exact iff_of_false hb (List.cons_ne_nil b t).symm
      · rw [difference_neg_iff]
        exact iff_of_true hpos (List.nil_lt_cons b t)
  | cons a s ih =>
    have ha : a ≠ 0 := (List.ne_of_not_mem_cons hs).symm
    cases t with
    | nil =>
      refine ⟨_, fun u v => strcmp_differ ha (s ++ 0 :: u) v, ?_, ?_⟩
      · rw [difference_zero_iff]
        exact iff_of_false ha (List.cons_ne_nil a s)
      · rw [difference_neg_iff]
        exact iff_of_false BitVec.not_lt_zero (List.not_lt_nil (a :: s))
    | cons b t =>
      by_cases hab : a = b
      · subst hab
        obtain ⟨d, hrun, hzero, hneg⟩ := ih (List.not_mem_of_not_mem_cons hs)
          (List.not_mem_of_not_mem_cons ht)
        refine ⟨d, fun u v => ?_, ?_, ?_⟩
        · rw [List.cons_append, List.cons_append, strcmp_same ha, hrun]
        · rw [hzero, List.cons.injEq, and_iff_right rfl]
        · rw [hneg, List.cons_lt_cons_iff, and_iff_right rfl, or_iff_right (BitVec.lt_irrefl a)]
      · refine ⟨_, fun u v => strcmp_differ hab (s ++ 0 :: u) (t ++ 0 :: v), ?_, ?_⟩
        · rw [difference_zero_iff, List.cons.injEq, and_iff_left_of_imp fun h => absurd h hab]
        · rw [difference_neg_iff, List.cons_lt_cons_iff, or_iff_left fun h => hab h.1]

/-- `strcmp` is zero exactly on equal strings. -/
theorem strcmp_terminated {s t : List Byte} (hs : 0 ∉ s) (ht : 0 ∉ t) (u v : List Byte) :
    ∃ d, strcmp (s ++ 0 :: u) (t ++ 0 :: v) = some d ∧ (d = 0 ↔ s = t) := by
  obtain ⟨d, hrun, hzero, -⟩ := strcmp_order hs ht
  exact ⟨d, hrun u v, hzero⟩

/-- For all strings, whatever is behind their terminators (nothing at all, where a read behind
    them would give `none`): the sign of the result is their lexicographic order, byte by byte and
    unsigned. -/
theorem strcmp_lexicographic {s t : List Byte} (hs : 0 ∉ s) (ht : 0 ∉ t) :
    ∃ d, (∀ u v, strcmp (s ++ 0 :: u) (t ++ 0 :: v) = some d) ∧
      (d < 0 ↔ s < t) ∧ (d = 0 ↔ s = t) ∧ (0 < d ↔ t < s) := by
  obtain ⟨d, hrun, hzero, hneg⟩ := strcmp_order hs ht
  obtain ⟨d', hrun', -, hneg'⟩ := strcmp_order ht hs
  have hswap : d' = -d := by
    have hmap := strcmp_swap (s ++ 0 :: []) (t ++ 0 :: [])
    rw [hrun, hrun', Option.map_some, Option.some.injEq] at hmap
    exact hmap
  rw [hswap, Int.neg_neg_iff_pos] at hneg'
  exact ⟨d, hrun, hneg, hzero, hneg'⟩

/-- A string in front of a longer one that goes on with a byte above 127. -/
theorem strcmp_lexicographic_prefix : ∃ d, strcmp [0x61, 0] [0x61, 0xE4, 0] = some d ∧ d < 0 := by
  obtain ⟨d, hrun, hneg, -⟩ := strcmp_lexicographic (s := [0x61]) (t := [0x61, 0xE4]) (by decide)
    (by decide)
  exact ⟨d, hrun [] [], hneg.mpr (by decide)⟩

end SeshOS.Libc
