/-
  What `malloc` does with freed blocks: nothing.

  The search for a free block runs only when `have_allocated` is set, and no run sets it
  (`Dormant`). So a request is always served from the end of the heap and moves
  `last_valid_address`, also when a freed block is large enough.
-/
import SeshOS.Base.Run
import SeshOS.Memory.Ledger

namespace SeshOS.Memory

open Base

/-- A block of the books that was freed and whose control block records room for `n`. -/
def FreedRoom (t : Session) (n : Nat) (b : Block) : Prop :=
  b ∈ t.ledger ∧ b.live = false ∧ n + mcbBytes ≤ mcbSize t.heap.mem b.header

/-- A request of `n` bytes is served from a freed block if there is one with room. -/
def Reuses (t : Session) (n : Nat) : Prop :=
  (∃ b, FreedRoom t n b) →
    ∃ fuel h q, malloc fuel t.heap n = some (h, q) ∧
      (∃ b, FreedRoom t n b ∧ b.payload = q) ∧
      h.lastValidAddress = t.heap.lastValidAddress

/-- The scan has never been switched on, and the end of the heap is known once a block has
    been handed out. -/
structure Dormant (t : Session) : Prop where
  off : t.heap.haveAllocated = false
  setUp : t.ledger ≠ [] → t.heap.kernieHeapIsSetUp = true
  addr : t.heap.kernieHeapIsSetUp = true → t.heap.lastValidAddress < 2 ^ 64

theorem dormant_start (mem : Mem) (base : Nat) : Dormant (Session.start mem base) :=
  ⟨rfl, fun h => absurd rfl h, fun h => by cases h⟩

theorem dormant_append {h : Heap} (n : Nat) (m : Mem) (l : Ledger)
    (hoff : h.haveAllocated = false) : Dormant ⟨{ h.append n with mem := m }, l⟩ := by
  refine ⟨hoff, fun _ => rfl, fun _ => ?_⟩
  show (h.top + (n + mcbBytes) % 2 ^ 64) % 2 ^ 64 < 2 ^ 64
  omega

theorem Dormant.free {t : Session} (hD : Dormant t) (p : Nat) :
    Dormant ⟨Memory.free t.heap p, t.ledger.retire p⟩ := by
  refine ⟨(free_haveAllocated _ p).trans hD.off, fun h => ?_, fun h => ?_⟩
  · refine (free_kernieHeapIsSetUp _ p).trans (hD.setUp ?_)
    simpa [Ledger.retire] using h
  · rw [free_lastValidAddress]
    exact hD.addr ((free_kernieHeapIsSetUp _ p).symm.trans h)

/-- Every call, permitted or not, leaves the scan off. -/
theorem dormant_step {fuel : Nat} {t t' : Session} {c : Call} (hD : Dormant t)
    (hs : t.step fuel c = some t') : Dormant t' := by
  cases c with
  | malloc n =>
    simp only [Session.step, malloc_append fuel t.heap n hD.off, Option.some.injEq] at hs
    rw [← hs]
    exact dormant_append n _ _ hD.off
  | free p =>
    simp only [Session.step, Option.some.injEq] at hs
    rw [← hs]
    exact hD.free p
  | realloc p n =>
    by_cases hp : p = 0
    · simp only [Session.step, realloc, if_pos hp, malloc_append fuel t.heap n hD.off,
        Option.some.injEq] at hs
      rw [← hs]
      exact dormant_append n _ _ hD.off
    · by_cases hn : n = 0
      · simp only [Session.step, realloc, if_neg hp, if_pos hn, Option.some.injEq] at hs
        rw [← hs]
        exact hD.free p
      · obtain ⟨m, hm⟩ := realloc_globals fuel t.heap hD.off hp hn
        simp only [Session.step, hm, if_neg hp, if_neg hn, Option.some.injEq] at hs
        rw [← hs]
        exact dormant_append n m _ hD.off
  | write p off v =>
    simp only [Session.step, Option.some.injEq] at hs
    rw [← hs]
    refine ⟨hD.off, fun h => hD.setUp ?_, hD.addr⟩
    simpa [Ledger.put] using h

/-- A block appended for a request below `2 ^ 64 - 16` moves the end of the heap. -/
theorem Dormant.append_moves {t : Session} (hD : Dormant t) (hne : t.ledger ≠ []) {n : Nat}
    (hn : n + mcbBytes < 2 ^ 64) :
    (t.heap.append n).lastValidAddress ≠ t.heap.lastValidAddress := by
  have hset := hD.setUp hne
  have hlt := hD.addr hset
  show (t.heap.top + _) % 2 ^ 64 ≠ _
  rw [Heap.top, if_pos hset]
  unfold mcbBytes at *
  omega

/-- With a freed block that has room, `malloc` does not reuse: the end of the heap moves. -/
theorem Dormant.not_reuses {t : Session} (hD : Dormant t) {n : Nat} {b : Block}
    (hb : FreedRoom t n b) : ¬ Reuses t n := by
  intro hR
  obtain ⟨fuel, h, q, hm, -, hsame⟩ := hR ⟨b, hb⟩
  rw [malloc_append fuel t.heap n hD.off] at hm
  cases hm
  have hlt : mcbSize t.heap.mem b.header < 256 ^ 8 := Mem.loadLE_lt _ _ _
  have hroom := hb.2.2
  exact hD.append_moves (List.ne_nil_of_mem hb.1) (by omega) hsame

/-- **Freed memory is never reused.** In every state a run of calls leads to, a request is
    served as `Reuses` asks exactly when no freed block has room for it. -/
theorem reuses_iff_no_freed_room (fuel : Nat) (mem : Mem) (base : Nat) (calls : List Call)
    (t : Session)
    (hrun : calls.foldlM (Session.step fuel) (Session.start mem base) = some t) (n : Nat) :
    Reuses t n ↔ ¬ ∃ b, FreedRoom t n b := by
  have hD : Dormant t :=
    foldlM_keeps Dormant (fun _ _ _ hD hs => dormant_step hD hs) calls
      (dormant_start mem base) hrun
  constructor
  · rintro hR ⟨b, hb⟩
    exact hD.not_reuses hb hR
  · intro hno hfit
    exact absurd hfit hno

/-- The law at a heap with one freed block, for a request larger than that block. -/
theorem reuses_iff_after_free :
    ∃ t, [Call.malloc 8, .free 4112].foldlM (Session.step 0) (Session.start (fun _ => 0) 4096) =
        some t ∧ (Reuses t 9 ↔ ¬ ∃ b, FreedRoom t 9 b) :=
  ⟨_, rfl, reuses_iff_no_freed_room 0 (fun _ => 0) 4096 [Call.malloc 8, .free 4112] _ rfl 9⟩

/-- Eight bytes, freed, and eight bytes asked for again: the heap grows. -/
theorem freed_block_not_reused :
    ∃ t, [Call.malloc 8, .free 4112].foldlM (Session.step 0) (Session.start (fun _ => 0) 4096) =
        some t ∧ (∃ b, FreedRoom t 8 b) ∧ ¬ Reuses t 8 := by
  have hD : ∀ t, [Call.malloc 8, .free 4112].foldlM (Session.step 0)
      (Session.start (fun _ => 0) 4096) = some t → Dormant t := fun t ht =>
    foldlM_keeps Dormant (fun _ _ _ hD hs => dormant_step hD hs) _ (dormant_start _ _) ht
  have hfit : ∃ t, [Call.malloc 8, .free 4112].foldlM (Session.step 0)
      (Session.start (fun _ => 0) 4096) = some t ∧ ∃ b, FreedRoom t 8 b := by
    refine ⟨_, rfl, _, List.mem_singleton.mpr rfl, rfl, ?_⟩
    decide
  obtain ⟨t, ht, b, hb⟩ := hfit
  exact ⟨t, ht, ⟨b, hb⟩, (hD t ht).not_reuses hb⟩

end SeshOS.Memory
