/-
  A walk along a chain, up to a marked end.

  `walkBody next last` goes from each place to the next one until it stands at `last`, and keeps
  the places it came by. `Chain next last a xs` says of a list that it is those places, without
  the loop; `walk_iff` connects the two. Over items that lie one behind the other the walk keeps
  to the items as long as its step is an item's length (`chain_iff_steps`).
-/
import SeshOS.Base.Layout
import SeshOS.Base.Loop

namespace Base

section Walk

variable {σ : Type*} [DecidableEq σ] (next : σ → σ) (last : σ)

/-- One round: the state is the place, and the places visited so far. -/
def walkBody (s : σ × List σ) : Iter (σ × List σ) (List σ) :=
  if s.1 = last then .done s.2 else .next (next s.1, s.2 ++ [s.1])

/-- From `a` on, the places up to `last` are `xs`. -/
def Chain : σ → List σ → Prop
  | a, [] => a = last
  | a, x :: xs => a ≠ last ∧ a = x ∧ Chain (next a) xs

variable {next last}

theorem walkBody_end {a : σ} {visited : List σ} (ha : a = last) :
    walkBody next last (a, visited) = .done visited := if_pos ha

theorem walkBody_next {a : σ} {visited : List σ} (ha : a ≠ last) :
    walkBody next last (a, visited) = .next (next a, visited ++ [a]) := if_neg ha

/-- A walk does not forget what it has visited. -/
theorem walk_visited {n : Nat} {a : σ} {visited result : List σ}
    (h : loop (walkBody next last) n (a, visited) = .done result) : visited <+: result := by
  refine loop_result (fun s => visited <+: s.2) (fun r => visited <+: r) ?_ ?_
    (List.prefix_refl visited) h
  · intro s s' hs hbody
    unfold walkBody at hbody
    split at hbody
    · cases hbody
    · cases hbody
      exact hs.trans (List.prefix_append _ _)
  · intro s b hs hbody
    unfold walkBody at hbody
    split at hbody
    · cases hbody
      exact hs
    · cases hbody

/-- The walk ends having visited `xs` exactly when they are the chain. -/
theorem walk_iff {a : σ} (visited : List σ) {xs : List σ} :
    (∃ n, loop (walkBody next last) n (a, visited) = .done (visited ++ xs)) ↔
      Chain next last a xs := by
  induction xs generalizing a visited with
  | nil =>
    rw [List.append_nil]
    constructor
    · rintro ⟨n, hn⟩
      by_contra ha
      cases n with
      | zero => cases hn
      | succ n =>
        -- a further place would have been visited
        rw [loop_next (walkBody_next ha)] at hn
        have hlen := (walk_visited hn).length_le
        rw [List.length_append, List.length_singleton] at hlen
        omega
    · intro ha
      exact ⟨1, loop_done (walkBody_end ha)⟩
  | cons x xs ih =>
    constructor
    · rintro ⟨n, hn⟩
      cases n with
      | zero => cases hn
      | succ n =>
        by_cases ha : a = last
        · rw [loop_done (walkBody_end ha)] at hn
          have hlen := congrArg List.length (Iter.done.inj hn)
          rw [List.length_append, List.length_cons] at hlen
          omega
        · rw [loop_next (walkBody_next ha)] at hn
          obtain ⟨rest, hrest⟩ := walk_visited hn
          rw [List.append_assoc, List.singleton_append] at hrest
          obtain ⟨rfl, rfl⟩ := List.cons.inj (List.append_cancel_left hrest)
          refine ⟨ha, rfl, (ih (visited ++ [a])).mp ⟨n, ?_⟩⟩
          rw [List.append_assoc]
          exact hn
    · rintro ⟨ha, rfl, hxs⟩
      obtain ⟨n, hn⟩ := (ih (visited ++ [a])).mpr hxs
      refine ⟨n + 1, ?_⟩
      rw [loop_next (walkBody_next ha), hn, List.append_assoc]
      rfl

end Walk

/-- Over items that are not empty and lie one behind the other, the chain to their end is the
    items exactly when every step is the item's length. -/
theorem chain_iff_steps {α : Type*} {start len : α → Nat} {next : Nat → Nat} {a : Nat}
    {xs : List α} (h : Consecutive start len a xs) (hpos : ∀ x ∈ xs, 0 < len x) :
    Chain next (a + extent len xs) a (xs.map start) ↔
      ∀ x ∈ xs, next (start x) = start x + len x := by
  induction xs generalizing a with
  | nil => simp [Chain]
  | cons x xs ih =>
    obtain ⟨rfl, hxs⟩ := h
    rw [List.forall_mem_cons] at hpos
    rw [List.forall_mem_cons, List.map_cons, extent_cons, ← Nat.add_assoc]
    have hne : start x ≠ start x + len x + extent len xs := by
      have := hpos.1
      omega
    simp only [Chain, ne_eq, hne, not_false_eq_true, true_and]
    by_cases hstep : next (start x) = start x + len x
    · rw [hstep, ih hxs hpos.2]
      exact (and_iff_right rfl).symm
    · refine iff_of_false (fun hchain => hstep ?_) fun hall => hstep hall.1
      cases xs with
      | nil => exact hchain
      | cons y ys => exact hchain.2.1.trans hxs.1

end Base
