/-
  The kernel heap: `malloc`, `realloc`, `free` and `MEM_Init` (kernel/memory/malloc.c), with the
  globals of kernel/memory/mem.c.

  A heap block is a 16-byte `mem_control_blk` (`bool free` at offset 0, `size_t size` at
  offset 8) followed by its payload; `size` counts the header too. Pointers and `size_t` are
  numbers below `2 ^ 64` and every pointer sum is reduced modulo `2 ^ 64`.

  `have_allocated` starts false and nothing in the repository assigns it, so the scan of
  `malloc` is dead in every run from boot; it is modelled all the same. The scan hands each
  candidate pointer to `comout`, which reads from there to the next NUL and sends the bytes to
  the debug port. The model records the pointers in `debug` and leaves the bytes out. A scan
  that hands over a pointer outside the heap, from `kernieHeap_space` to `last_valid_address`,
  does not return: nothing says what is mapped there. From a pointer inside it `comout` is taken
  to find a NUL.
-/
import SeshOS.Base.Bytes
import SeshOS.Base.Loop

namespace SeshOS.Memory

open Base

/-- Memory and the globals the allocator uses. -/
structure Heap where
  mem : Mem
  kernieHeapIsSetUp : Bool
  haveAllocated : Bool
  lastValidAddress : Nat
  kernieHeapSpace : Nat
  debug : List Nat

/-- The globals as the kernel image starts with them. -/
def bootHeap (mem : Mem) : Heap where
  mem := mem
  kernieHeapIsSetUp := false
  haveAllocated := false
  lastValidAddress := 0
  kernieHeapSpace := 0
  debug := []

/-- `MEM_Init`. -/
def memInit (h : Heap) (addr : Nat) : Heap := { h with kernieHeapSpace := addr }

/-! ## The control block -/

/-- `sizeof(mem_control_blk)`. -/
def mcbBytes : Nat := 16

/-- `mcb->free`. -/
def mcbFree (m : Mem) (mcb : Nat) : Bool := m (mcb % 2 ^ 64) != 0

/-- `mcb->size`. -/
def mcbSize (m : Mem) (mcb : Nat) : Nat := m.loadLE (mcb + 8) 8

/-- `mcb->free = b`. -/
def setMcbFree (m : Mem) (mcb : Nat) (b : Bool) : Mem := m.set mcb (if b then 1 else 0)

/-- `mcb->size = size`. -/
def setMcbSize (m : Mem) (mcb size : Nat) : Mem := m.storeLE (mcb + 8) size 8

/-! ## malloc -/

/-- One round of `aligned_ptr`. -/
def alignedPtrBody (ptr : Nat) : Iter Nat Nat :=
  if ptr % 4 ≠ 0 then .next ((ptr + 1) % 2 ^ 64) else .done ptr

/-- `aligned_ptr`; four rounds always leave its loop (`alignedPtr_returns`). -/
def alignedPtr (ptr : Nat) : Nat := (loop alignedPtrBody 4 ptr).val

theorem alignedPtr_returns (ptr : Nat) :
    loop alignedPtrBody 4 ptr = .done (alignedPtr ptr) ∧ alignedPtr ptr % 4 = 0 := by
  have h : ∃ q, loop alignedPtrBody 4 ptr = .done q ∧ q % 4 = 0 := by
    refine loop_variant (fun _ => True) (fun q => q % 4 = 0) (fun p => (4 - p % 4) % 4)
      (fun p _ => ?_) trivial (by omega)
    by_cases hp : p % 4 = 0
    · exact Or.inl ⟨p, by simp [alignedPtrBody, hp], hp⟩
    · refine Or.inr ⟨(p + 1) % 2 ^ 64, by simp [alignedPtrBody, hp], trivial, ?_⟩
      omega
  obtain ⟨q, hq, h4⟩ := h
  have e : alignedPtr ptr = q := by rw [alignedPtr, hq, Iter.val_done]
  rw [e]
  exact ⟨hq, h4⟩

/-- What the scan changes: `current_ptr`, memory, and the debug output. -/
structure Scan where
  current : Nat
  mem : Mem
  debug : List Nat

/-- One round of the scan. `mcb` is the header at the start of the heap: the loop moves
    `current_ptr` but never `mcb`. The result is `allocated_location`, 0 for none; it is `none`
    when `comout` is handed a pointer outside the heap. -/
def scanBody (mcb size lastValid : Nat) (s : Scan) : Iter Scan (Option (Scan × Nat)) :=
  if s.current = lastValid then .done (some (s, 0))
  else if mcbFree s.mem mcb ∧ mcbSize s.mem mcb ≥ size then
    .done (some ({ s with mem := setMcbFree s.mem mcb false }, s.current))
  else
    let moved := s.current + mcbSize s.mem mcb
    let current := alignedPtr (moved % 2 ^ 64)
    -- a pointer that wraps has left the heap, wherever it comes out
    if moved ≤ current ∧ mcb ≤ current ∧ current ≤ lastValid then
      .next { s with current := current, debug := s.debug ++ [current] }
    else .done none

/-- The `if (have_allocated)` block. `none`: the scan has not returned within `fuel` rounds, or
    has left the heap. -/
def scan (fuel : Nat) (h : Heap) (size : Nat) : Option (Scan × Nat) :=
  let s : Scan := ⟨h.kernieHeapSpace, h.mem, h.debug⟩
  if h.haveAllocated then
    match loop (scanBody h.kernieHeapSpace size h.lastValidAddress) fuel s with
    | .done r => r
    | .next _ => none
  else some (s, 0)

/-- `malloc`: the new heap and the pointer returned. -/
def malloc (fuel : Nat) (h : Heap) (size : Nat) : Option (Heap × Nat) :=
  let h := if h.kernieHeapIsSetUp then h
    else { h with lastValidAddress := h.kernieHeapSpace, kernieHeapIsSetUp := true }
  let size := (size + mcbBytes) % 2 ^ 64
  match scan fuel h size with
  | none => none
  | some (s, allocated) =>
    let h := { h with mem := s.mem, debug := s.debug }
    if allocated = 0 then
      let mcb := h.lastValidAddress
      let mem := setMcbSize (setMcbFree h.mem mcb false) mcb size
      some ({ h with mem := mem, lastValidAddress := (mcb + size) % 2 ^ 64 },
        (mcb + mcbBytes) % 2 ^ 64)
    else some (h, (allocated + mcbBytes) % 2 ^ 64)

/-! ## free and realloc -/

/-- The header of the block whose payload is at `ptr`. -/
def headerOf (ptr : Nat) : Nat := (ptr + 2 ^ 64 - mcbBytes) % 2 ^ 64

/-- `free`. -/
def free (h : Heap) (ptr : Nat) : Heap :=
  if ptr = 0 then h
  else
    let mcb := headerOf ptr
    if mcbSize h.mem mcb = 0 then h
    else { h with mem := setMcbFree h.mem mcb true }

/-- `realloc`. The copy takes `mcb->size` bytes: the old payload and 16 bytes more. -/
def realloc (fuel : Nat) (h : Heap) (ptr size : Nat) : Option (Heap × Nat) :=
  if ptr = 0 then malloc fuel h size
  else if size = 0 then some (free h ptr, 0)
  else
    match malloc fuel h size with
    | none => none
    | some (h, newPtr) =>
      let mcb := headerOf ptr
      let h := { h with mem := h.mem.copy newPtr ptr (mcbSize h.mem mcb) }
      some (free h ptr, newPtr)

/-! ## malloc without the scan

  With `have_allocated` false every call appends at the end of the heap. -/

/-- Where the next block goes: `last_valid_address`, once `malloc` has set it. -/
def Heap.top (h : Heap) : Nat :=
  if h.kernieHeapIsSetUp then h.lastValidAddress else h.kernieHeapSpace

/-- The heap after a block for a request of `n` bytes has been appended. -/
def Heap.append (h : Heap) (n : Nat) : Heap :=
  { h with
    mem := setMcbSize (setMcbFree h.mem h.top false) h.top ((n + mcbBytes) % 2 ^ 64)
    kernieHeapIsSetUp := true
    lastValidAddress := (h.top + (n + mcbBytes) % 2 ^ 64) % 2 ^ 64 }

@[simp] theorem append_top (h : Heap) (n : Nat) :
    (h.append n).top = (h.top + (n + mcbBytes) % 2 ^ 64) % 2 ^ 64 := rfl

theorem malloc_append (fuel : Nat) (h : Heap) (n : Nat) (hoff : h.haveAllocated = false) :
    malloc fuel h n = some (h.append n, (h.top + mcbBytes) % 2 ^ 64) := by
  cases hs : h.kernieHeapIsSetUp <;>
    simp [malloc, scan, hoff, hs, Heap.append, Heap.top]

theorem append_mem (h : Heap) (n : Nat) :
    (h.append n).mem =
      setMcbSize (setMcbFree h.mem h.top false) h.top ((n + mcbBytes) % 2 ^ 64) := rfl

/-- Appending a block writes the flag and the size of its control block. -/
theorem append_other {h : Heap} {x : Nat} (n : Nat) (hflag : x ≠ h.top % 2 ^ 64)
    (hsize : ∀ i < 8, x ≠ (h.top + 8 + i) % 2 ^ 64) : (h.append n).mem x = h.mem x := by
  rw [append_mem, setMcbSize, Mem.storeLE_other _ hsize, setMcbFree, Mem.set_other _ hflag]

/-- Appending a block writes its control block only. -/
theorem append_loadLE (h : Heap) (n : Nat) {a l : Nat} (hd : Mem.Apart h.top mcbBytes a l) :
    (h.append n).mem.loadLE a l = h.mem.loadLE a l := by
  unfold mcbBytes at hd
  rw [append_mem, setMcbSize, Mem.loadLE_storeLE_apart _ (hd.part (by omega)), setMcbFree, Mem.set_eq_storeLE,
    Mem.loadLE_storeLE_apart _ (hd.head (by omega))]

theorem headerOf_lt (p : Nat) : headerOf p < 2 ^ 64 := by
  unfold headerOf
  omega

theorem free_unsized {h : Heap} {p : Nat} (hp : p ≠ 0) (hsize : mcbSize h.mem (headerOf p) = 0) :
    free h p = h := by
  unfold free
  dsimp only
  rw [if_neg hp, if_pos hsize]

/-- `free` changes memory only. -/
theorem free_globals (h : Heap) (p : Nat) : ∃ m, free h p = { h with mem := m } := by
  unfold free
  dsimp only
  split
  · exact ⟨h.mem, rfl⟩
  · split
    · exact ⟨h.mem, rfl⟩
    · exact ⟨_, rfl⟩

@[simp] theorem free_haveAllocated (h : Heap) (p : Nat) :
    (free h p).haveAllocated = h.haveAllocated := by
  obtain ⟨m, hm⟩ := free_globals h p
  rw [hm]

@[simp] theorem free_kernieHeapIsSetUp (h : Heap) (p : Nat) :
    (free h p).kernieHeapIsSetUp = h.kernieHeapIsSetUp := by
  obtain ⟨m, hm⟩ := free_globals h p
  rw [hm]

@[simp] theorem free_lastValidAddress (h : Heap) (p : Nat) :
    (free h p).lastValidAddress = h.lastValidAddress := by
  obtain ⟨m, hm⟩ := free_globals h p
  rw [hm]

@[simp] theorem free_top (h : Heap) (p : Nat) : (free h p).top = h.top := by
  obtain ⟨m, hm⟩ := free_globals h p
  rw [hm]
  rfl

/-- The memory of `realloc` between its copy and its `free`. -/
abbrev reallocCopied (h : Heap) (p n : Nat) : Mem :=
  (h.append n).mem.copy ((h.top + mcbBytes) % 2 ^ 64) p (mcbSize (h.append n).mem (headerOf p))

/-- `realloc` of a pointer to a size other than 0. -/
theorem realloc_block (fuel : Nat) {h : Heap} {p n : Nat} (hoff : h.haveAllocated = false)
    (hp : p ≠ 0) (hn : n ≠ 0) :
    realloc fuel h p n =
      some (free { h.append n with mem := reallocCopied h p n } p,
        (h.top + mcbBytes) % 2 ^ 64) := by
  unfold realloc
  rw [if_neg hp, if_neg hn, malloc_append fuel h n hoff]

/-- Its globals are those of an append. -/
theorem realloc_globals (fuel : Nat) (h : Heap) {p n : Nat} (hoff : h.haveAllocated = false)
    (hp : p ≠ 0) (hn : n ≠ 0) :
    ∃ m, realloc fuel h p n =
      some ({ h.append n with mem := m }, (h.top + mcbBytes) % 2 ^ 64) := by
  obtain ⟨m, hm⟩ := free_globals { h.append n with mem := reallocCopied h p n } p
  exact ⟨m, by rw [realloc_block fuel hoff hp hn, hm]⟩

end SeshOS.Memory
