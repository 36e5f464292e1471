/-
  `strstr` (kernel/string.c) is a search for the first occurrence.

  `memcmp` is asked for the whole length of the needle also where less of the haystack is left.
  The needle has no terminator in it, so the comparison ends at the terminator of the haystack at
  the latest (`memcmp_prefix`), and nothing behind it is read.

  The length of the needle comes from `strlen`, which returns a `size_t` but counts in an
  `unsigned int`. For a needle of `2 ^ 32` bytes it never returns (`strlen_eq_some_iff`,
  `strlen_overlong`), and the search does not begin.
-/
import SeshOS.Base.Loop
import SeshOS.Libc.Strings

namespace SeshOS.Libc

open Base

/-- The needle occurs in the haystack at offset `k`. -/
def OccursAt (haystack needle : List Byte) (k : Nat) : Prop := needle <+: haystack.drop k

/-- The offset of the first occurrence, or `none` when there is no occurrence at all. -/
def FirstOccurrence (haystack needle : List Byte) : Option Nat → Prop
  | some k => OccursAt haystack needle k ∧ ∀ j < k, ¬OccursAt haystack needle j
  | none => ∀ k, ¬OccursAt haystack needle k

/-- The comparison with the whole needle ends at a difference, the terminator of the haystack at
    the latest. -/
theorem memcmp_prefix {needle : List Byte} (h0 : 0 ∉ needle) (haystack behind behind' : List Byte) :
    ∃ d, memcmp (haystack ++ 0 :: behind) (needle ++ 0 :: behind') needle.length = some d ∧
      (d = 0 ↔ needle <+: haystack) := by
  induction needle generalizing haystack with
  | nil => exact ⟨0, by rw [List.length_nil, memcmp], by simp⟩
  | cons q needle ih =>
    have hq : q ≠ 0 := (List.ne_of_not_mem_cons h0).symm
    have hsign : ∀ p : Byte, (if q < p then 1 else -1 : Int) ≠ 0 := by
      intro p
      split <;> decide
    cases haystack with
    | nil =>
      refine ⟨if q < 0 then 1 else -1, ?_, ?_⟩
      · rw [List.nil_append, List.cons_append, List.length_cons, memcmp, if_pos hq.symm]
      · exact iff_of_false (hsign 0) fun h => by cases List.prefix_nil.mp h
    | cons p haystack =>
      by_cases hp : p = q
      · obtain ⟨d, hcmp, hd⟩ := ih (List.not_mem_of_not_mem_cons h0) haystack
        refine ⟨d, ?_, ?_⟩
        · rw [List.cons_append, List.cons_append, List.length_cons, memcmp,
            if_neg (not_not.mpr hp), hcmp]
        · rw [hd, List.cons_prefix_cons, hp, and_iff_right rfl]
      · refine ⟨if q < p then 1 else -1, ?_, ?_⟩
        · rw [List.cons_append, List.cons_append, List.length_cons, memcmp, if_pos hp]
        · exact iff_of_false (hsign p) fun h => hp (List.cons_prefix_cons.mp h).1.symm

theorem FirstOccurrence.here {haystack needle : List Byte} (h : needle <+: haystack) :
    FirstOccurrence haystack needle (some 0) :=
  ⟨h, fun j hj => absurd hj (Nat.not_lt_zero j)⟩

theorem FirstOccurrence.behind {p : Byte} {haystack needle : List Byte}
    (h : ¬needle <+: p :: haystack) {r : Option Nat} (hr : FirstOccurrence haystack needle r) :
    FirstOccurrence (p :: haystack) needle (r.map (· + 1)) := by
  cases r with
  | none =>
    intro k
    cases k with
    | zero => exact h
    | succ k => exact hr k
  | some k =>
    refine ⟨hr.1, fun j hj => ?_⟩
    cases j with
    | zero => exact h
    | succ j => exact hr.2 j (Nat.lt_of_succ_lt_succ hj)

/-- The search, with the length of the needle known. -/
theorem strstrLoop_first {haystack needle : List Byte} (hhaystack : 0 ∉ haystack)
    (hneedle : 0 ∉ needle) (hne : needle ≠ []) :
    ∃ r, FirstOccurrence haystack needle r ∧ ∀ behind behind',
      strstrLoop (needle ++ 0 :: behind') needle.length (haystack ++ 0 :: behind) = some r := by
  induction haystack with
  | nil =>
    refine ⟨none, fun k h => hne ?_, fun behind behind' => ?_⟩
    · rw [OccursAt, List.drop_nil] at h
      exact List.prefix_nil.mp h
    · rw [List.nil_append, strstrLoop, if_pos rfl]
  | cons p haystack ih =>
    have hp : p ≠ 0 := (List.ne_of_not_mem_cons hhaystack).symm
    by_cases hprefix : needle <+: p :: haystack
    · refine ⟨some 0, .here hprefix, fun behind behind' => ?_⟩
      obtain ⟨d, hcmp, hd⟩ := memcmp_prefix hneedle (p :: haystack) behind behind'
      rw [List.cons_append] at hcmp ⊢
      rw [strstrLoop, if_neg hp, hcmp, Option.bind_some, if_pos (hd.mpr hprefix)]
    · obtain ⟨r, hr, hrest⟩ := ih (List.not_mem_of_not_mem_cons hhaystack)
      refine ⟨r.map (· + 1), hr.behind hprefix, fun behind behind' => ?_⟩
      obtain ⟨d, hcmp, hd⟩ := memcmp_prefix hneedle (p :: haystack) behind behind'
      rw [List.cons_append] at hcmp ⊢
      rw [strstrLoop, if_neg hp, hcmp, Option.bind_some,
        if_neg fun h => hprefix (hd.mp h), hrest behind behind', Option.map_some]

/-! ## The counter of `strlen` -/

/-- One round of `strlen`, with the counter as it is; `none` is a read behind the object. -/
def strlenBody (str : List Byte) (i : BitVec 32) : Iter (BitVec 32) (Option Nat) :=
  match str[i.toNat]? with
  | none => .done none
  | some b => if b = 0 then .done (some i.toNat) else .next (i + 1)

theorem strlenBody_read {str : List Byte} {i : BitVec 32} {b : Byte} (h : str[i.toNat]? = some b) :
    strlenBody str i = if b = 0 then .done (some i.toNat) else .next (i + 1) := by
  rw [strlenBody, h]

theorem strlenLoop_runs {str rest : List Byte} {i r : BitVec 32} (hrest : str.drop i.toNat = rest)
    (hr : strlenLoop i rest = some r) :
    ∃ fuel, loop (strlenBody str) fuel i = .done (some r.toNat) := by
  induction rest generalizing i with
  | nil => cases hr
  | cons b rest ih =>
    have hread : str[i.toNat]? = some b := by
      rw [← Nat.add_zero i.toNat, ← List.getElem?_drop, hrest]
      rfl
    rw [strlenLoop] at hr
    split_ifs at hr with hb hwrap
    · obtain rfl := Option.some.inj hr
      exact ⟨1, loop_done (by rw [strlenBody_read hread, if_pos hb])⟩
    · have hsucc : (i + 1).toNat = i.toNat + 1 := by bv_omega
      obtain ⟨fuel, hrun⟩ := ih (i := i + 1) (by rw [hsucc, ← List.drop_drop, hrest]; rfl) hr
      exact ⟨fuel + 1, by rw [loop_next (by rw [strlenBody_read hread, if_neg hb]), hrun]⟩

/-- What the rounds come to, if they come to an end: a terminator the counter can reach. -/
theorem strlenBody_result {str : List Byte} {fuel n : Nat}
    (hrun : loop (strlenBody str) fuel 0 = .done (some n)) : str[n]? = some 0 ∧ n < 2 ^ 32 := by
  refine loop_result (fun _ => True) (fun r => ∀ n, r = some n → str[n]? = some 0 ∧ n < 2 ^ 32)
    (fun _ _ _ _ => trivial) ?_ trivial hrun n rfl
  rintro i r - hdone n rfl
  cases hread : str[i.toNat]? with
  | none =>
    rw [strlenBody, hread] at hdone
    cases hdone
  | some b =>
    rw [strlenBody_read hread] at hdone
    split_ifs at hdone with hb
    cases hdone
    rw [hread, hb]
    exact ⟨rfl, i.isLt⟩

/-- No terminator is in front of the first. -/
theorem visible_length_le {s : List Byte} {n : Nat} (h : s[n]? = some 0) :
    (visible s).length ≤ n := by
  by_contra hlt
  rw [Nat.not_le] at hlt
  rw [← take_visible s, List.length_take] at hlt
  have hmem : 0 ∈ s.take (visible s).length :=
    List.mem_of_getElem? (i := n) (by rw [List.getElem?_take_of_lt (by omega), h])
  rw [take_visible] at hmem
  exact zero_notMem_visible s hmem

/-- `strlen` is what its rounds come to. It is `none` when they read behind the object or never
    end. -/
theorem strlen_eq_some_iff (str : List Byte) (n : Nat) :
    strlen str = some n ↔ ∃ fuel, loop (strlenBody str) fuel 0 = .done (some n) := by
  have hruns : ∀ {n}, strlen str = some n →
      ∃ fuel, loop (strlenBody str) fuel 0 = .done (some n) := by
    intro n h
    obtain ⟨r, hr, rfl⟩ := Option.map_eq_some_iff.mp h
    exact strlenLoop_runs rfl hr
  refine ⟨hruns, ?_⟩
  rintro ⟨fuel, hrun⟩
  obtain ⟨hzero, hlt⟩ := strlenBody_result hrun
  have hlen := strlen_visible (List.mem_of_getElem? hzero)
  rw [if_pos (by have := visible_length_le hzero; omega)] at hlen
  obtain ⟨fuel', hrun'⟩ := hruns hlen
  rw [hlen, Option.some.inj (loop_done_unique hrun' hrun)]

/-! ## The search -/

/-- The search returns the first occurrence, and NULL when there is none, whatever is behind the
    terminators (nothing at all, where a read behind them would give `none`). -/
def FindsFirst (haystack needle : List Byte) : Prop :=
  ∃ r, FirstOccurrence haystack needle r ∧ ∀ behind behind',
    strstr (haystack ++ 0 :: behind) (needle ++ 0 :: behind') = some r

/-- For every haystack and every non-empty needle, exactly when `strlen` can count the needle. -/
theorem strstr_first_iff {haystack needle : List Byte} (hhaystack : 0 ∉ haystack)
    (hneedle : 0 ∉ needle) (hne : needle ≠ []) :
    FindsFirst haystack needle ↔ needle.length < 2 ^ 32 := by
  constructor
  · rintro ⟨r, -, hrun⟩
    by_contra hlong
    have hstrlen := strlen_overlong hneedle (Nat.le_of_not_lt hlong) []
    have hnone := hrun [] []
    rw [strstr, hstrlen, Option.bind_none] at hnone
    cases hnone
  · intro hlen
    obtain ⟨r, hr, hrun⟩ := strstrLoop_first hhaystack hneedle hne
    refine ⟨r, hr, fun behind behind' => ?_⟩
    rw [strstr, strlen_terminated hneedle hlen, Option.bind_some, hrun behind behind']

/-- A partial match in front of the first occurrence. -/
theorem strstr_first_overlap : FindsFirst (ascii "aab") (ascii "ab") :=
  (strstr_first_iff (show 0 ∉ ascii "aab" by decide) (show 0 ∉ ascii "ab" by decide)
    (by decide)).mpr (by decide)

/-- A needle of `2 ^ 32` letters is not found in itself. -/
theorem overlong_needle_lost :
    ¬∀ haystack needle : List Byte, 0 ∉ haystack → 0 ∉ needle → needle ≠ [] →
      FindsFirst haystack needle := by
  intro h
  have hnul : 0 ∉ List.replicate (2 ^ 32) (chr 'a') := fun hmem =>
    absurd (List.eq_of_mem_replicate hmem) (by decide)
  have hlen : (List.replicate (2 ^ 32) (chr 'a')).length = 2 ^ 32 := List.length_replicate
  obtain ⟨r, -, hrun⟩ := h _ _ hnul hnul (List.ne_nil_of_length_pos (by rw [hlen]; decide))
  have hnone := hrun [] []
  rw [strstr, strlen_overlong hnul (Nat.le_of_eq hlen.symm), Option.bind_none] at hnone
  cases hnone

end SeshOS.Libc
