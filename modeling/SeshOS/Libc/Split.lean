/-
  `strsplit` (string.c), index by index.

  The two loops share `i`, which is stepped once more between them, and both terminators are
  stored one behind an index that has been stepped already. `strsplitSteps` has the loops as
  they are; `strsplitSteps_eq` says that `strsplit` is what they compute, and
  `split_undone_by_join` that joining the two strings at the character gives the string back.
-/
import SeshOS.Libc.Strings

namespace SeshOS.Libc

open Base

/-! ## The two loops -/

/-- The first loop at index `i`, with `str` the characters from there to the terminator: it
    copies to `p1` up to the first `split`. -/
def splitFirst (split : Byte) (p1 : Vector Byte 128) (i : Nat) :
    List Byte → Option (Vector Byte 128 × Nat)
  | [] => some (p1, i)
  | b :: str =>
    if b ≠ split then
      if h : i < 128 then splitFirst split (p1.set i b) (i + 1) str else none
    else some (p1, i)

/-- The second loop at index `j` of `p2`, with `str` the characters from `i` on. -/
def splitSecond (p2 : Vector Byte 128) (j : Nat) : List Byte → Option (Vector Byte 128 × Nat)
  | [] => some (p2, j)
  | b :: str => if h : j < 128 then splitSecond (p2.set j b) (j + 1) str else none

/-- `strsplit`, with the stores in the order of the source. -/
def strsplitSteps (stack : TwoStrings) (str : List Byte) (split : Byte) : Option TwoStrings := do
  let n ← strlen str
  let (p1, i) ← splitFirst split stack.a 0 (str.take n)
  let i := i + 1
  let p1 ← storeBytes p1 (i - 1) [0]
  let (p2, j) ← splitSecond stack.b 0 ((str.take n).drop i)
  let j := j + 1
  let p2 ← storeBytes p2 (j - 1) [0]
  some ⟨p1, p2⟩

theorem storeBytes_append {n : Nat} (buf : Vector Byte n) (k : Nat) (bs cs : List Byte) :
    storeBytes buf k (bs ++ cs) =
      (storeBytes buf k bs).bind fun buf => storeBytes buf (k + bs.length) cs := by
  induction bs generalizing buf k with
  | nil => rfl
  | cons b bs ih =>
    rw [List.cons_append, storeBytes, storeBytes]
    by_cases hk : k < n
    · rw [dif_pos hk, dif_pos hk, ih, List.length_cons, Nat.add_assoc, Nat.add_comm 1]
    · rw [dif_neg hk, dif_neg hk]
      rfl

/-- What the first loop stores, and the index it stops at. -/
theorem splitFirst_eq (split : Byte) (p1 : Vector Byte 128) (i : Nat) (str : List Byte) :
    splitFirst split p1 i str = (storeBytes p1 i (str.takeWhile (· ≠ split))).map
      (·, i + (str.takeWhile (· ≠ split)).length) := by
  induction str generalizing p1 i with
  | nil => rfl
  | cons b str ih =>
    rw [splitFirst]
    by_cases hb : b ≠ split
    · rw [if_pos hb, List.takeWhile_cons_of_pos (by simpa using hb), storeBytes]
      by_cases hi : i < 128
      · rw [dif_pos hi, dif_pos hi, ih, List.length_cons, Nat.add_assoc, Nat.add_comm 1]
      · rw [dif_neg hi, dif_neg hi]
        rfl
    · rw [if_neg hb, List.takeWhile_cons_of_neg (by simpa using hb)]
      rfl

theorem splitSecond_eq (p2 : Vector Byte 128) (j : Nat) (str : List Byte) :
    splitSecond p2 j str = (storeBytes p2 j str).map (·, j + str.length) := by
  induction str generalizing p2 j with
  | nil => rfl
  | cons b str ih =>
    rw [splitSecond, storeBytes]
    by_cases hj : j < 128
    · rw [dif_pos hj, dif_pos hj, ih, List.length_cons, Nat.add_assoc, Nat.add_comm 1]
    · rw [dif_neg hj, dif_neg hj]
      rfl

/-- `strsplit` is what the loops compute, for every string and both buffers as they were. -/
theorem strsplitSteps_eq (stack : TwoStrings) (str : List Byte) (split : Byte) :
    strsplitSteps stack str split = strsplit stack str split := by
  unfold strsplitSteps strsplit
  refine Option.bind_congr fun n _ => ?_
  dsimp only [Option.bind_eq_bind]
  generalize hfirst : (str.take n).takeWhile (· ≠ split) = first
  rw [splitFirst_eq, hfirst, Nat.zero_add, storeBytes_append, Nat.zero_add]
  cases storeBytes stack.a 0 first with
  | none => rfl
  | some p1 =>
    rw [Option.map_some, Option.bind_some, Option.bind_some]
    refine Option.bind_congr fun p1' _ => ?_
    rw [splitSecond_eq, storeBytes_append, Nat.zero_add]
    cases storeBytes stack.b 0 ((str.take n).drop (first.length + 1)) with
    | none => rfl
    | some p2 => rfl

/-! ## What is split -/

/-- The part in front of the first `c`. -/
def before (c : Byte) (s : List Byte) : List Byte := s.takeWhile (· ≠ c)

/-- The part behind it; nothing when there is none. -/
def behind (c : Byte) (s : List Byte) : List Byte := s.drop ((before c s).length + 1)

theorem notMem_before (c : Byte) (s : List Byte) : c ∉ before c s := by
  intro h
  have hne := List.mem_takeWhile_imp h
  simp at hne

theorem before_of_notMem {c : Byte} {s : List Byte} (h : c ∉ s) : before c s = s :=
  List.takeWhile_eq_self_iff.mpr fun b hb => by
    have hbc : b ≠ c := fun hbc => h (hbc ▸ hb)
    simpa using hbc

theorem behind_of_notMem {c : Byte} {s : List Byte} (h : c ∉ s) : behind c s = [] := by
  rw [behind, before_of_notMem h]
  exact List.drop_eq_nil_of_le (Nat.le_succ _)

/-- The first `c` splits the string. -/
theorem before_split (c : Byte) {s : List Byte} (h : c ∉ s) (t : List Byte) :
    before c (s ++ c :: t) = s ∧ behind c (s ++ c :: t) = t := by
  have hbefore : before c (s ++ c :: t) = s := by
    rw [before, List.takeWhile_append_of_pos fun b hb => by
      have hbc : b ≠ c := fun hbc => h (hbc ▸ hb)
      simpa using hbc]
    rw [List.takeWhile_cons_of_neg (by simp), List.append_nil]
  refine ⟨hbefore, ?_⟩
  rw [behind, hbefore]
  simp

theorem before_append_behind {c : Byte} {s : List Byte} (h : c ∈ s) :
    before c s ++ c :: behind c s = s := by
  obtain ⟨u, t, rfl, hu⟩ := List.eq_append_cons_of_mem h
  obtain ⟨hbefore, hbehind⟩ := before_split c hu t
  rw [hbefore, hbehind]

theorem before_length_le (c : Byte) (s : List Byte) : (before c s).length ≤ s.length :=
  (List.takeWhile_sublist _).length_le

/-- `strsplit` of a string that leaves room for the terminator. -/
theorem strsplit_holds (stack : TwoStrings) {s : List Byte} (h0 : 0 ∉ s) (hlen : s.length ≤ 127)
    (rest : List Byte) (c : Byte) :
    ∃ t, strsplit stack (s ++ 0 :: rest) c = some t ∧ Holds t.a (before c s) ∧
      Holds t.b (behind c s) := by
  have hbefore : 0 ∉ before c s := fun h => h0 ((List.takeWhile_sublist _).subset h)
  have hbehind : 0 ∉ behind c s := fun h => h0 (List.mem_of_mem_drop h)
  have hlen' := before_length_le c s
  obtain ⟨p1, hp1, hholds1⟩ := storeBytes_holds stack.a hbefore (by omega)
  obtain ⟨p2, hp2, hholds2⟩ := storeBytes_holds stack.b hbehind (by
    rw [behind, List.length_drop]
    omega)
  refine ⟨⟨p1, p2⟩, ?_, hholds1, hholds2⟩
  unfold strsplit
  rw [strlen_terminated h0 (by omega)]
  dsimp only [Option.bind_eq_bind, Option.bind_some]
  rw [List.take_left]
  show (storeBytes stack.a 0 (before c s ++ [0])).bind (fun p1 =>
    (storeBytes stack.b 0 (behind c s ++ [0])).bind fun p2 => some (⟨p1, p2⟩ : TwoStrings)) = _
  rw [hp1, Option.bind_some, hp2, Option.bind_some]

/-- `strsplit` undone. For every string of at most 127 characters and every character, whatever
    the buffers held before: every store is inside of its buffer, and both buffers hold
    a string afterwards. With `c` in the string, the first has no `c`, and the two with a `c`
    between them are the string; without, the first is the string and the second is empty. -/
theorem split_undone_by_join (stack : TwoStrings) {s : List Byte} (h0 : 0 ∉ s)
    (hlen : s.length ≤ 127) (rest : List Byte) (c : Byte) :
    ∃ t a b, strsplitSteps stack (s ++ 0 :: rest) c = some t ∧ Holds t.a a ∧ Holds t.b b ∧
      (c ∈ s → c ∉ a ∧ a ++ c :: b = s) ∧ (c ∉ s → a = s ∧ b = []) := by
  obtain ⟨t, hrun, ha, hb⟩ := strsplit_holds stack h0 hlen rest c
  refine ⟨t, before c s, behind c s, (strsplitSteps_eq _ _ _).trans hrun, ha, hb, ?_, ?_⟩
  · intro hmem
    exact ⟨notMem_before c s, before_append_behind hmem⟩
  · intro hnot
    exact ⟨before_of_notMem hnot, behind_of_notMem hnot⟩

/-- A separator in the last place. -/
theorem split_undone_by_join_last :
    ∃ t a b, strsplitSteps ⟨Vector.replicate 128 1, Vector.replicate 128 1⟩
      (ascii "ab/" ++ [0]) (chr '/') = some t ∧ Holds t.a a ∧ Holds t.b b ∧
      a ++ chr '/' :: b = ascii "ab/" := by
  obtain ⟨t, a, b, hrun, ha, hb, hsplit, -⟩ := split_undone_by_join
    ⟨Vector.replicate 128 1, Vector.replicate 128 1⟩ (s := ascii "ab/") (by decide) (by decide) []
    (chr '/')
  exact ⟨t, a, b, hrun, ha, hb, (hsplit (by decide)).2⟩

end SeshOS.Libc
