/-
  Where the heap lies: the memory map loop of `init` (kernel/init.c) and the blocks that
  `malloc` hands out after it.

  `init` calls `MEM_Init` with the base of every usable entry, so the last one stays. Only the
  base is passed on: nothing in the allocator knows where the entry ends. `mallocs_blocks`
  gives the blocks of a run of `malloc` calls, back to back from the base, as long as they fit
  below `2 ^ 64`; `malloc_inside_iff` compares them with the entry.
-/
import SeshOS.Memory.Malloc

namespace SeshOS.Memory

open Base

/-- `LIMINE_MEMMAP_USABLE`. -/
def limineMemmapUsable : Nat := 0

/-- `struct limine_memmap_entry`: a range of the 64-bit address space. -/
structure MemmapEntry where
  base : Nat
  length : Nat
  type : Nat
  base_lt : base < 2 ^ 64
  length_lt : length < 2 ^ 64
  end_le : base + length ≤ 2 ^ 64

/-- The memory map loop of `init`. -/
def initHeap (h : Heap) (entries : List MemmapEntry) : Heap :=
  entries.foldl (fun h e => if e.type = limineMemmapUsable then memInit h e.base else h) h

/-- The entry whose base the heap ends up with: the last usable one. -/
def heapEntry (entries : List MemmapEntry) : Option MemmapEntry :=
  (entries.filter fun e => e.type = limineMemmapUsable).getLast?

/-- `malloc` called for each size in turn: the pointers returned. -/
def mallocs (fuel : Nat) : Heap → List Nat → Option (List Nat)
  | _, [] => some []
  | h, n :: ns =>
    match malloc fuel h n with
    | none => none
    | some (h, p) => (mallocs fuel h ns).map (p :: ·)

/-- A block at `p` of `n` payload bytes lies in the entry, control block included. -/
def MemmapEntry.Holds (e : MemmapEntry) (p n : Nat) : Prop :=
  e.base + mcbBytes ≤ p ∧ p + n ≤ e.base + e.length

instance (e : MemmapEntry) (p n : Nat) : Decidable (e.Holds p n) :=
  inferInstanceAs (Decidable (_ ∧ _))

/-- The requests with their control blocks. -/
def withHeaders (sizes : List Nat) : Nat := (sizes.map (· + mcbBytes)).sum

theorem withHeaders_take_succ {sizes : List Nat} {k : Nat} (hk : k < sizes.length) :
    withHeaders (sizes.take (k + 1)) = withHeaders (sizes.take k) + (sizes[k] + mcbBytes) := by
  rw [withHeaders, List.take_succ_eq_append_getElem hk, List.map_append, List.sum_append]
  simp [withHeaders]

/-! ## The entry the heap gets -/

theorem initHeap_append (h : Heap) (xs : List MemmapEntry) (e : MemmapEntry) :
    initHeap h (xs ++ [e]) =
      if e.type = limineMemmapUsable then memInit (initHeap h xs) e.base else initHeap h xs := by
  simp [initHeap, List.foldl_append]

/-- `init` sets the heap base to the last usable entry's and touches nothing else. -/
theorem initHeap_eq (h : Heap) (entries : List MemmapEntry) :
    initHeap h entries =
      match heapEntry entries with
      | some e => memInit h e.base
      | none => h := by
  induction entries using List.reverseRecOn with
  | nil => rfl
  | append_singleton xs e ih =>
    rw [initHeap_append, ih]
    by_cases he : e.type = limineMemmapUsable
    · have hlast : heapEntry (xs ++ [e]) = some e := by
        simp [heapEntry, List.filter_append, he]
      rw [if_pos he, hlast]
      cases heapEntry xs <;> rfl
    · have hlast : heapEntry (xs ++ [e]) = heapEntry xs := by
        simp [heapEntry, List.filter_append, he]
      rw [if_neg he, hlast]

/-- A map with a usable entry gives the heap one. -/
theorem heapEntry_isSome {entries : List MemmapEntry}
    (h : ∃ e ∈ entries, e.type = limineMemmapUsable) : ∃ e, heapEntry entries = some e := by
  obtain ⟨e, he, ht⟩ := h
  have hne : entries.filter (fun e => e.type = limineMemmapUsable) ≠ [] :=
    List.ne_nil_of_mem (List.mem_filter.mpr ⟨he, by simpa using ht⟩)
  exact ⟨_, List.getLast?_eq_getLast_of_ne_nil hne⟩

/-! ## The blocks of a run -/

/-- A run of `malloc` calls returns one pointer for each call, and as long as the earlier
    requests fit below `2 ^ 64` the pointer is just behind them. -/
theorem mallocs_blocks (fuel : Nat) (sizes : List Nat) {h : Heap}
    (hoff : h.haveAllocated = false) (htop : h.top < 2 ^ 64) :
    ∃ ptrs, mallocs fuel h sizes = some ptrs ∧ ptrs.length = sizes.length ∧
      ∀ k, (hk : k < ptrs.length) → h.top + withHeaders (sizes.take k) ≤ 2 ^ 64 →
        ptrs[k] = (h.top + withHeaders (sizes.take k) + mcbBytes) % 2 ^ 64 := by
  induction sizes generalizing h with
  | nil => exact ⟨[], rfl, rfl, fun k hk => by cases hk⟩
  | cons n ns ih =>
    have hm := malloc_append fuel h n hoff
    obtain ⟨ptrs, hrun, hlen, hptr⟩ := ih (h := h.append n) hoff
      (by rw [append_top]; exact Nat.mod_lt _ (Nat.two_pow_pos 64))
    refine ⟨(h.top + mcbBytes) % 2 ^ 64 :: ptrs, ?_, by simp [hlen], ?_⟩
    · rw [mallocs, hm]
      dsimp only
      rw [hrun]
      rfl
    · intro k hk hfit
      cases k with
      | zero => simp [withHeaders]
      | succ k =>
        have hsum : withHeaders ((n :: ns).take (k + 1)) =
            n + mcbBytes + withHeaders (ns.take k) := by simp [withHeaders]
        rw [hsum] at hfit ⊢
        rw [List.getElem_cons_succ, hptr k (by simpa using hk)]
        · rw [append_top]
          unfold mcbBytes at *
          omega
        · rw [append_top]
          unfold mcbBytes at *
          omega

/-- The heap of `init`, before the first `malloc`. -/
theorem initHeap_boot (mem : Mem) {entries : List MemmapEntry} {e : MemmapEntry}
    (he : heapEntry entries = some e) :
    (initHeap (bootHeap mem) entries).haveAllocated = false ∧
      (initHeap (bootHeap mem) entries).top = e.base := by
  rw [initHeap_eq, he]
  exact ⟨rfl, rfl⟩

/-- **Nothing bounds the heap but the requests themselves.** For every memory map with a usable
    entry, `init` gives the heap the last one, and every run of `malloc` calls after it returns.
    While the earlier requests fit into that entry, a call returns NULL or a block, and the
    block lies in the entry exactly when its own request fits as well. -/
theorem malloc_inside_iff (fuel : Nat) (mem : Mem) (entries : List MemmapEntry)
    (sizes : List Nat) (husable : ∃ e ∈ entries, e.type = limineMemmapUsable) :
    ∃ e ptrs, heapEntry entries = some e ∧
      mallocs fuel (initHeap (bootHeap mem) entries) sizes = some ptrs ∧
      ptrs.length = sizes.length ∧
      ∀ k p n, ptrs[k]? = some p → sizes[k]? = some n →
        withHeaders (sizes.take k) ≤ e.length →
        p = 0 ∨ (e.Holds p n ↔ withHeaders (sizes.take (k + 1)) ≤ e.length) := by
  obtain ⟨e, he⟩ := heapEntry_isSome husable
  obtain ⟨hoff, htop⟩ := initHeap_boot mem he
  have hbase := e.base_lt
  have hlength := e.length_lt
  have hend := e.end_le
  obtain ⟨ptrs, hrun, hlen, hptr⟩ := mallocs_blocks fuel sizes hoff (by omega)
  refine ⟨e, ptrs, he, hrun, hlen, fun k p n hp hn hfit => ?_⟩
  obtain ⟨hk, rfl⟩ := List.getElem?_eq_some_iff.mp hp
  obtain ⟨hk', rfl⟩ := List.getElem?_eq_some_iff.mp hn
  rw [hptr k hk (by omega), htop, withHeaders_take_succ hk']
  unfold MemmapEntry.Holds mcbBytes
  omega

/-- One usable page. -/
def onePage : MemmapEntry := ⟨4096, 4096, limineMemmapUsable, by decide, by decide, by decide⟩

/-- A map with one usable page, and two requests that fill it. -/
theorem malloc_inside_one_page :
    ∃ e ptrs, heapEntry [onePage] = some e ∧
      mallocs 0 (initHeap (bootHeap fun _ => 0) [onePage]) [4000, 64] = some ptrs ∧
      ptrs.length = [4000, 64].length ∧
      ∀ k p n, ptrs[k]? = some p → [4000, 64][k]? = some n →
        withHeaders ([4000, 64].take k) ≤ e.length →
        p = 0 ∨ (e.Holds p n ↔ withHeaders ([4000, 64].take (k + 1)) ≤ e.length) :=
  malloc_inside_iff 0 (fun _ => 0) [onePage] [4000, 64] ⟨_, List.mem_singleton.mpr rfl, rfl⟩

/-- A page asked for with one usable page: the block is handed out and ends 16 bytes behind
    the entry. -/
theorem malloc_past_the_entry :
    ∃ e p, heapEntry [onePage] = some e ∧
      mallocs 0 (initHeap (bootHeap fun _ => 0) [onePage]) [4096] = some [p] ∧
      p ≠ 0 ∧ ¬ e.Holds p 4096 :=
  ⟨onePage, 4112, rfl, rfl, by decide, by decide⟩

end SeshOS.Memory
