/-
  Items laid out one behind the other.

  `Consecutive start len a xs`: the first item of `xs` starts at `a`, and every item starts
  where the one before it ends. `extent len xs` is the room they take together. Items laid
  out this way lie between `a` and `a + extent len xs` (`consecutive_bounds`) and follow each
  other without overlap (`consecutive_pairwise`).
-/
import Mathlib

namespace Base

variable {α : Type*} (start len : α → Nat)

/-- Each item starts where the previous one ends, the first one at `a`. -/
def Consecutive : Nat → List α → Prop
  | _, [] => True
  | a, x :: xs => start x = a ∧ Consecutive (a + len x) xs

/-- The room the items take together. -/
def extent (xs : List α) : Nat := (xs.map len).sum

@[simp] theorem extent_nil : extent len [] = 0 := rfl

@[simp] theorem extent_cons (x : α) (xs : List α) :
    extent len (x :: xs) = len x + extent len xs := by
  simp [extent]

@[simp] theorem extent_append (xs ys : List α) :
    extent len (xs ++ ys) = extent len xs + extent len ys := by
  simp [extent]

variable {start len}

theorem consecutive_append {a : Nat} {xs ys : List α} :
    Consecutive start len a (xs ++ ys) ↔
      Consecutive start len a xs ∧ Consecutive start len (a + extent len xs) ys := by
  induction xs generalizing a with
  | nil => simp [Consecutive]
  | cons x xs ih =>
    simp only [List.cons_append, Consecutive, ih, extent_cons, Nat.add_assoc, and_assoc]

/-- Every item lies inside the room taken. -/
theorem consecutive_bounds {a : Nat} {xs : List α} (h : Consecutive start len a xs) {x : α}
    (hx : x ∈ xs) : a ≤ start x ∧ start x + len x ≤ a + extent len xs := by
  induction xs generalizing a with
  | nil => cases hx
  | cons y ys ih =>
    obtain ⟨hy, hys⟩ := h
    rw [extent_cons]
    rcases List.mem_cons.mp hx with rfl | hx
    · omega
    · have := ih hys hx
      omega

/-- Earlier items end before later ones start. -/
theorem consecutive_pairwise {a : Nat} {xs : List α} (h : Consecutive start len a xs) :
    xs.Pairwise fun x y => start x + len x ≤ start y := by
  induction xs generalizing a with
  | nil => exact List.Pairwise.nil
  | cons x xs ih =>
    obtain ⟨hx, hxs⟩ := h
    refine List.pairwise_cons.mpr ⟨fun y hy => ?_, ih hxs⟩
    have := (consecutive_bounds hxs hy).1
    omega

/-- Two items of one layout are the same item or do not overlap. -/
theorem consecutive_separate {a : Nat} {xs : List α} (h : Consecutive start len a xs) {x y : α}
    (hx : x ∈ xs) (hy : y ∈ xs) :
    x = y ∨ start x + len x ≤ start y ∨ start y + len y ≤ start x := by
  have hp := consecutive_pairwise h
  have key : ∀ ⦃u⦄, u ∈ xs → ∀ ⦃v⦄, v ∈ xs →
      u = v ∨ start u + len u ≤ start v ∨ start v + len v ≤ start u := by
    apply List.Pairwise.forall_of_forall_of_flip
    · exact fun u _ => Or.inl rfl
    · exact hp.imp fun huv => Or.inr (Or.inl huv)
    · exact hp.imp fun huv => Or.inr (Or.inr huv)
  exact key hx hy

theorem extent_map {β : Type*} (f : α → β) {len' : β → Nat} (hl : ∀ x, len' (f x) = len x)
    (xs : List α) : extent len' (xs.map f) = extent len xs := by
  simp [extent, Function.comp_def, hl]

/-- A map that moves nothing keeps the layout. -/
theorem consecutive_map {β : Type*} (f : α → β) {start' len' : β → Nat}
    (hs : ∀ x, start' (f x) = start x) (hl : ∀ x, len' (f x) = len x) {a : Nat} {xs : List α}
    (h : Consecutive start len a xs) : Consecutive start' len' a (xs.map f) := by
  induction xs generalizing a with
  | nil => trivial
  | cons x xs ih =>
    obtain ⟨hx, hxs⟩ := h
    refine ⟨(hs x).trans hx, ?_⟩
    rw [hl]
    exact ih hxs

end Base
