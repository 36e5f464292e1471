/-
  Stores to a function, one after the other.

  What is at a key afterwards is the value of the last store to it, or what was there before
  (`storeAll_cases`). Stores to other keys leave it alone, so that lists of stores without a
  common key can change places.
-/
import Mathlib.Data.List.Induction

namespace Base

variable {κ α : Type*} [DecidableEq κ]

/-- The stores of a list, in order. -/
def storeAll (f : κ → α) (stores : List (κ × α)) : κ → α :=
  stores.foldl (fun f s x => if x = s.1 then s.2 else f x) f

theorem storeAll_append (f : κ → α) (a b : List (κ × α)) :
    storeAll f (a ++ b) = storeAll (storeAll f a) b := List.foldl_append

theorem storeAll_snoc (f : κ → α) (stores : List (κ × α)) (s : κ × α) (x : κ) :
    storeAll f (stores ++ [s]) x = if x = s.1 then s.2 else storeAll f stores x := by
  rw [storeAll_append]
  rfl

/-- The last store to a key, or none at all. -/
theorem storeAll_cases (f : κ → α) (stores : List (κ × α)) (x : κ) :
    (x ∉ stores.map Prod.fst ∧ storeAll f stores x = f x) ∨
      ∃ before v behind, stores = before ++ (x, v) :: behind ∧ x ∉ behind.map Prod.fst ∧
        storeAll f stores x = v := by
  induction stores using List.reverseRecOn with
  | nil => exact .inl ⟨List.not_mem_nil, rfl⟩
  | append_singleton stores s ih =>
    rw [storeAll_snoc]
    by_cases hx : x = s.1
    · right
      refine ⟨stores, s.2, [], by rw [hx], List.not_mem_nil, if_pos hx⟩
    · rw [if_neg hx]
      rcases ih with ⟨hmem, hval⟩ | ⟨before, v, behind, rfl, hmem, hval⟩
      · left
        refine ⟨?_, hval⟩
        rw [List.map_append, List.mem_append, List.map_singleton, List.mem_singleton, not_or]
        exact ⟨hmem, hx⟩
      · right
        refine ⟨before, v, behind ++ [s], by simp, ?_, hval⟩
        rw [List.map_append, List.mem_append, List.map_singleton, List.mem_singleton, not_or]
        exact ⟨hmem, hx⟩

theorem storeAll_of_notMem (f : κ → α) {stores : List (κ × α)} {x : κ}
    (h : x ∉ stores.map Prod.fst) : storeAll f stores x = f x := by
  rcases storeAll_cases f stores x with ⟨-, hval⟩ | ⟨before, v, behind, rfl, -⟩
  · exact hval
  · exact absurd (List.mem_map_of_mem (List.mem_append_right _ List.mem_cons_self)) h

/-- What was there before does not matter where there is a store. -/
theorem storeAll_of_mem (f g : κ → α) {stores : List (κ × α)} {x : κ}
    (h : x ∈ stores.map Prod.fst) : storeAll f stores x = storeAll g stores x := by
  induction stores using List.reverseRecOn with
  | nil => cases h
  | append_singleton stores s ih =>
    rw [storeAll_snoc, storeAll_snoc]
    by_cases hx : x = s.1
    · rw [if_pos hx, if_pos hx]
    · rw [if_neg hx, if_neg hx]
      refine ih ?_
      rw [List.map_append, List.mem_append, List.map_singleton, List.mem_singleton] at h
      exact h.resolve_right hx

/-- Stores of one value. -/
theorem storeAll_const (f : κ → α) {stores : List (κ × α)} {v : α} (hv : ∀ s ∈ stores, s.2 = v)
    {x : κ} (h : x ∈ stores.map Prod.fst) : storeAll f stores x = v := by
  rcases storeAll_cases f stores x with ⟨hmem, -⟩ | ⟨before, w, behind, rfl, -, hval⟩
  · exact absurd h hmem
  · rw [hval]
    exact hv (x, w) (List.mem_append_right _ List.mem_cons_self)

/-- Lists without a common key can change places. -/
theorem storeAll_comm (f : κ → α) {a b : List (κ × α)}
    (h : (a.map Prod.fst).Disjoint (b.map Prod.fst)) :
    storeAll (storeAll f a) b = storeAll (storeAll f b) a := by
  funext x
  by_cases ha : x ∈ a.map Prod.fst
  · rw [storeAll_of_notMem _ (h ha)]
    exact storeAll_of_mem f (storeAll f b) ha
  · rw [storeAll_of_notMem (storeAll f b) ha]
    by_cases hb : x ∈ b.map Prod.fst
    · exact storeAll_of_mem (storeAll f a) f hb
    · rw [storeAll_of_notMem _ hb, storeAll_of_notMem _ hb, storeAll_of_notMem _ ha]

end Base
