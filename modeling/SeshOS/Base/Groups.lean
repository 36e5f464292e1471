/-
  Lists whose equal elements stand together.

  `Contiguous l` says that nothing else stands between two equal elements of `l`. `repeats t l`
  keeps the elements that equal the one in front of them, `t` standing in front of the first. In
  a contiguous list that is each element as often as it occurs, less one (`repeats_count`).
  `OnceEach` is a listing without repetition, in the order of the list.
-/
import Mathlib

namespace Base

variable {α : Type*}

/-- Between two equal elements there are only elements equal to them. -/
def Contiguous (l : List α) : Prop :=
  ∀ xs ys zs x, l = xs ++ x :: (ys ++ x :: zs) → ∀ y ∈ ys, y = x

theorem Contiguous.tail {t : α} {l : List α} (h : Contiguous (t :: l)) : Contiguous l := by
  intro xs ys zs x hl
  exact h (t :: xs) ys zs x (by rw [hl, List.cons_append])

/-- An element that differs from its successor does not come again. -/
theorem Contiguous.notMem {t u : α} {l : List α} (h : Contiguous (t :: u :: l)) (hut : u ≠ t) :
    t ∉ l := by
  intro ht
  obtain ⟨ys, zs, rfl⟩ := List.append_of_mem ht
  exact hut (h [] (u :: ys) zs t rfl u List.mem_cons_self)

variable [DecidableEq α]

/-- The elements of `l` that equal the one in front of them, `t` for the first. -/
def repeats (t : α) : List α → List α
  | [] => []
  | u :: l => if u = t then u :: repeats u l else repeats u l

theorem repeats_sublist (t : α) (l : List α) : (repeats t l).Sublist l := by
  induction l generalizing t with
  | nil => exact List.Sublist.refl []
  | cons u l ih =>
    rw [repeats]
    split
    · exact (ih u).cons_cons u
    · exact (ih u).cons u

variable [BEq α] [LawfulBEq α]

/-- Each element is repeated as often as it occurs, less one. -/
theorem repeats_count {t : α} {l : List α} (h : Contiguous (t :: l)) (x : α) :
    (repeats t l).count x = (t :: l).count x - 1 := by
  induction l generalizing t with
  | nil =>
    rw [repeats, List.count_nil, List.count_cons, List.count_nil]
    split <;> rfl
  | cons u l ih =>
    have hrest := ih h.tail
    rw [repeats, List.count_cons (a := x) (b := t)]
    by_cases hut : u = t
    · rw [if_pos hut, List.count_cons, hrest, hut]
      by_cases htx : t = x
      · have hpos : 1 ≤ (t :: l).count x := List.one_le_count_iff.mpr (htx ▸ List.mem_cons_self)
        rw [if_pos (by simpa using htx)]
        omega
      · rw [if_neg (by simpa using htx)]
        omega
    · rw [if_neg hut, hrest]
      by_cases htx : t = x
      · have hzero : (u :: l).count x = 0 := by
          subst htx
          exact List.count_eq_zero_of_not_mem fun hmem =>
            (List.mem_cons.mp hmem).elim (fun htu => hut htu.symm) (h.notMem hut)
        rw [if_pos (by simpa using htx), hzero]
      · rw [if_neg (by simpa using htx), Nat.add_zero]

/-- `lines` has each element of `l` once, in the order of `l`, and nothing else. -/
structure OnceEach (lines l : List α) : Prop where
  nodup : lines.Nodup
  sublist : lines.Sublist l
  all : ∀ x ∈ l, x ∈ lines

/-- The first element and the repeats list each element once exactly when the first occurs once
    and every other twice. -/
theorem onceEach_repeats_iff {t : α} {l : List α} (h : Contiguous (t :: l)) :
    OnceEach (t :: repeats t l) (t :: l) ↔
      ∀ x ∈ t :: l, (t :: l).count x = if x = t then 1 else 2 := by
  have hcount : ∀ x ∈ t :: l,
      (t :: repeats t l).count x + 1 = (t :: l).count x + if x = t then 1 else 0 := by
    intro x hx
    have hpos : 1 ≤ (t :: l).count x := List.one_le_count_iff.mpr hx
    have hrepeats := repeats_count h x
    rw [List.count_cons (a := x) (b := t) (l := repeats t l), hrepeats]
    by_cases hxt : x = t
    · rw [if_pos hxt, if_pos (by simpa using hxt.symm)]
      omega
    · rw [if_neg hxt, if_neg (by simpa using fun htx : t = x => hxt htx.symm)]
      omega
  constructor
  · intro honce x hx
    have hx' := hcount x hx
    rw [List.count_eq_one_of_mem honce.nodup (honce.all x hx)] at hx'
    by_cases hxt : x = t
    · rw [if_pos hxt] at hx' ⊢
      omega
    · rw [if_neg hxt] at hx' ⊢
      omega
  · intro hall
    have hone : ∀ x ∈ t :: l, (t :: repeats t l).count x = 1 := by
      intro x hx
      have hx' := hcount x hx
      rw [hall x hx] at hx'
      split at hx' <;> omega
    have hsub : (t :: repeats t l).Sublist (t :: l) := (repeats_sublist t l).cons_cons t
    refine ⟨List.nodup_iff_count_le_one.mpr fun x => ?_, hsub, fun x hx => ?_⟩
    · by_cases hx : x ∈ t :: repeats t l
      · exact Nat.le_of_eq (hone x (hsub.subset hx))
      · rw [List.count_eq_zero_of_not_mem hx]
        exact Nat.zero_le 1
    · exact List.one_le_count_iff.mp (Nat.le_of_eq (hone x hx).symm)

end Base
