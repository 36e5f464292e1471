/-
  The search of `malloc` for a free block, with `have_allocated` set.

  The heap is a chain of blocks. The search moves `current_ptr` and never `mcb`: it tests the
  first block in every round, and its step is the size of the first block. So it finds the first
  block or none (`scan_first`, `scan_end`), and it returns only if its steps meet the end of the
  heap: past it `comout` reads outside the heap (`scan_leaves`). `first_fit_iff` says for which
  chains this is first fit.
-/
import SeshOS.Base.Layout
import SeshOS.Memory.Malloc

namespace SeshOS.Memory

open Base

/-- A heap with the search on that is a chain of blocks, from `kernieHeap_space` (which is not
    NULL) to `last_valid_address`. `blocks` are the addresses of their control blocks. -/
structure ChainedHeap where
  heap : Heap
  blocks : List Nat
  setUp : heap.kernieHeapIsSetUp = true
  searched : heap.haveAllocated = true
  laid : Consecutive id (mcbSize heap.mem) heap.kernieHeapSpace blocks
  last : heap.lastValidAddress = heap.kernieHeapSpace + extent (mcbSize heap.mem) blocks
  room : heap.lastValidAddress < 2 ^ 64
  sized : ∀ b ∈ blocks, 0 < mcbSize heap.mem b ∧ mcbSize heap.mem b % 4 = 0
  aligned : heap.kernieHeapSpace % 4 = 0
  based : heap.kernieHeapSpace ≠ 0

/-- A free block with room for a request of `n` bytes. -/
def Suits (m : Mem) (n b : Nat) : Prop := mcbFree m b = true ∧ n + mcbBytes ≤ mcbSize m b

instance (m : Mem) (n b : Nat) : Decidable (Suits m n b) :=
  inferInstanceAs (Decidable (_ ∧ _))

/-- What first fit leaves and hands out: the lowest block that suits, with its flag cleared, or
    a new block at the end. -/
def served (c : ChainedHeap) (n : Nat) (debug : List Nat) : Heap × Nat :=
  match c.blocks.find? fun b => Suits c.heap.mem n b with
  | some b => ({ c.heap with mem := setMcbFree c.heap.mem b false, debug := debug }, b + mcbBytes)
  | none => ({ c.heap.append n with debug := debug },
      (c.heap.lastValidAddress + mcbBytes) % 2 ^ 64)

/-- `malloc` returns, and is first fit. -/
def FirstFit (c : ChainedHeap) (n : Nat) : Prop :=
  ∃ fuel debug, malloc fuel c.heap n = some (served c n debug)

/-! ## malloc around the search -/

section Search

variable {h : Heap} {n fuel : Nat}

/-- The search, from its first round. -/
abbrev search (h : Heap) (n fuel : Nat) : Iter Scan (Option (Scan × Nat)) :=
  loop (scanBody h.kernieHeapSpace ((n + mcbBytes) % 2 ^ 64) h.lastValidAddress) fuel
    ⟨h.kernieHeapSpace, h.mem, h.debug⟩

theorem malloc_found (hset : h.kernieHeapIsSetUp = true) (hon : h.haveAllocated = true) {s : Scan}
    {a : Nat} (hs : search h n fuel = .done (some (s, a))) (ha : a ≠ 0) :
    malloc fuel h n = some ({ h with mem := s.mem, debug := s.debug }, (a + mcbBytes) % 2 ^ 64) := by
  simp only [malloc, hset, if_true, scan, hon]
  rw [show loop _ _ _ = _ from hs]
  dsimp only
  rw [if_neg ha]

theorem malloc_not_found (hset : h.kernieHeapIsSetUp = true) (hon : h.haveAllocated = true)
    {s : Scan} (hs : search h n fuel = .done (some (s, 0))) (hm : s.mem = h.mem) :
    malloc fuel h n = some ({ h.append n with debug := s.debug },
      (h.lastValidAddress + mcbBytes) % 2 ^ 64) := by
  simp only [malloc, hset, if_true, scan, hon]
  rw [show loop _ _ _ = _ from hs]
  simp [hm, Heap.append, Heap.top, hset, hon]

/-- A search that comes to no result leaves `malloc` without one. -/
theorem malloc_lost (hset : h.kernieHeapIsSetUp = true) (hon : h.haveAllocated = true)
    (hs : ∀ r, search h n fuel = .done r → r = none) : malloc fuel h n = none := by
  simp only [malloc, hset, if_true, scan, hon]
  cases hl : search h n fuel with
  | next s => rw [show loop _ _ _ = _ from hl]
  | done r =>
    obtain rfl := hs r hl
    rw [show loop _ _ _ = _ from hl]

end Search

/-! ## The search -/

section Rounds

variable {m : Mem} {base size last : Nat}

theorem alignedPtr_aligned {p : Nat} (hp : p % 4 = 0) : alignedPtr p = p := by
  have hbody : alignedPtrBody p = .done p := if_neg (not_not.mpr hp)
  rw [alignedPtr, loop_done hbody, Iter.val_done]

/-- The first block passes the test of the code. -/
abbrev TestPassed (m : Mem) (base size : Nat) : Prop :=
  mcbFree m base = true ∧ size ≤ mcbSize m base

theorem scanBody_eq (m : Mem) (base size last current : Nat) (d : List Nat) :
    scanBody base size last ⟨current, m, d⟩ =
      if current = last then .done (some (⟨current, m, d⟩, 0))
      else if TestPassed m base size then
        .done (some (⟨current, setMcbFree m base false, d⟩, current))
      else if current + mcbSize m base ≤ alignedPtr ((current + mcbSize m base) % 2 ^ 64) ∧
          base ≤ alignedPtr ((current + mcbSize m base) % 2 ^ 64) ∧
          alignedPtr ((current + mcbSize m base) % 2 ^ 64) ≤ last then
        .next ⟨alignedPtr ((current + mcbSize m base) % 2 ^ 64), m,
          d ++ [alignedPtr ((current + mcbSize m base) % 2 ^ 64)]⟩
      else .done none := rfl

theorem scan_first {d : List Nat} (hne : base ≠ last) (htest : TestPassed m base size)
    (fuel : Nat) :
    loop (scanBody base size last) (fuel + 1) ⟨base, m, d⟩ =
      .done (some (⟨base, setMcbFree m base false, d⟩, base)) := by
  refine loop_done ?_
  rw [scanBody_eq, if_neg hne, if_pos htest]

/-- Where the search stands after `k` rounds. -/
def stand (m : Mem) (base k : Nat) : Nat := base + k * mcbSize m base

@[simp] theorem stand_zero (m : Mem) (base : Nat) : stand m base 0 = base := by
  rw [stand, Nat.zero_mul, Nat.add_zero]

theorem stand_succ (m : Mem) (base k : Nat) :
    stand m base (k + 1) = stand m base k + mcbSize m base := by
  rw [stand, stand, Nat.succ_mul, Nat.add_assoc]

theorem base_le_stand (m : Mem) (base k : Nat) : base ≤ stand m base k := Nat.le_add_right _ _

theorem stand_mono (m : Mem) (base : Nat) {k l : Nat} (h : k ≤ l) :
    stand m base k ≤ stand m base l :=
  Nat.add_le_add_left (Nat.mul_le_mul_right _ h) _

theorem stand_aligned (hbase : base % 4 = 0) (hsize : mcbSize m base % 4 = 0) (k : Nat) :
    stand m base k % 4 = 0 := by
  have hk : k * mcbSize m base % 4 = 0 := by rw [Nat.mul_mod, hsize, Nat.mul_zero, Nat.zero_mod]
  unfold stand
  omega

/-- A round that does not end the search goes on by one step, as long as that is in the heap. -/
theorem scan_round (hbase : base % 4 = 0) (hsize : mcbSize m base % 4 = 0) (hlast : last < 2 ^ 64)
    (htest : ¬ TestPassed m base size) {k : Nat} (hk : stand m base k ≠ last) (d : List Nat) :
    scanBody base size last ⟨stand m base k, m, d⟩ =
      if stand m base (k + 1) ≤ last then
        .next ⟨stand m base (k + 1), m, d ++ [stand m base (k + 1)]⟩
      else .done none := by
  rw [scanBody_eq, if_neg hk, if_neg htest, ← stand_succ]
  have haligned := stand_aligned hbase hsize (k + 1)
  have hpointer : alignedPtr (stand m base (k + 1) % 2 ^ 64) = stand m base (k + 1) % 2 ^ 64 :=
    alignedPtr_aligned (by omega)
  rw [hpointer]
  by_cases hin : stand m base (k + 1) ≤ last
  · rw [Nat.mod_eq_of_lt (by omega), if_pos ⟨Nat.le_refl _, base_le_stand _ _ _, hin⟩, if_pos hin]
  · rw [if_neg hin, if_neg]
    -- reduced it is either the pointer itself or smaller
    rintro ⟨hmoved, -, hend⟩
    omega

/-- The search ends where its steps meet the end of the heap. -/
theorem scan_end (hbase : base % 4 = 0) (hsize : mcbSize m base % 4 = 0) (hlast : last < 2 ^ 64)
    (htest : ¬ TestPassed m base size) (j : Nat) {k : Nat} (hj : stand m base (k + j) = last)
    (d : List Nat) : ∃ d', loop (scanBody base size last) (j + 1) ⟨stand m base k, m, d⟩ =
      .done (some (⟨last, m, d'⟩, 0)) := by
  induction j generalizing k d with
  | zero =>
    obtain rfl : stand m base k = last := hj
    exact ⟨d, loop_done (if_pos rfl)⟩
  | succ j ih =>
    by_cases hk : stand m base k = last
    · obtain rfl := hk
      exact ⟨d, loop_done (if_pos rfl)⟩
    · have hin : stand m base (k + 1) ≤ last := by
        rw [← hj]
        exact stand_mono m base (by omega)
      have hnext := scan_round hbase hsize hlast htest hk d
      rw [if_pos hin] at hnext
      rw [loop_next hnext]
      exact ih (by rw [← hj]; congr 1; omega) _

/-- A search whose steps miss the end of the heap comes to no result: it goes on, or leaves the
    heap. -/
theorem scan_leaves (hbase : base % 4 = 0) (hsize : mcbSize m base % 4 = 0) (hlast : last < 2 ^ 64)
    (htest : ¬ TestPassed m base size) (hnever : ∀ k, stand m base k ≠ last) (d : List Nat)
    {fuel : Nat} {r : Option (Scan × Nat)}
    (hr : loop (scanBody base size last) fuel ⟨base, m, d⟩ = .done r) : r = none := by
  refine loop_result (fun s => ∃ k d, s = ⟨stand m base k, m, d⟩) (fun r => r = none) ?_ ?_
    ⟨0, d, by rw [stand_zero]⟩ hr
  · rintro _ s' ⟨k, d, rfl⟩ hnext
    rw [scan_round hbase hsize hlast htest (hnever k)] at hnext
    split_ifs at hnext with hin
    exact ⟨k + 1, _, (Iter.next.inj hnext).symm⟩
  · rintro _ r ⟨k, d, rfl⟩ hdone
    rw [scan_round hbase hsize hlast htest (hnever k)] at hdone
    split_ifs at hdone with hin
    exact (Iter.done.inj hdone).symm

end Rounds

/-! ## First fit -/

section Outcomes

variable {c : ChainedHeap} {n : Nat}

/-- A chain that is not empty begins at its first block. -/
theorem ChainedHeap.begins {b : Nat} {bs : List Nat} (hb : c.blocks = b :: bs) :
    b = c.heap.kernieHeapSpace := by
  have hlaid := c.laid
  rw [hb] at hlaid
  exact hlaid.1

theorem ChainedHeap.block_end {b : Nat} (hb : b ∈ c.blocks) :
    b + mcbSize c.heap.mem b ≤ c.heap.lastValidAddress := by
  rw [c.last]
  exact (consecutive_bounds c.laid hb).2

theorem ChainedHeap.block_lt {b : Nat} (hb : b ∈ c.blocks) : b < c.heap.lastValidAddress := by
  have hend := c.block_end hb
  have hpos := (c.sized b hb).1
  omega

/-- Only a request that fits 64 bits with its control block has a block that suits. -/
theorem Suits.lt {m : Mem} {b : Nat} (h : Suits m n b) : n + mcbBytes < 2 ^ 64 := by
  have hlt : mcbSize m b < 256 ^ 8 := Mem.loadLE_lt _ _ _
  have hle := h.2
  omega

/-- The pointer to a new block at the end is the pointer to no block of the chain. -/
theorem ChainedHeap.end_ne {b : Nat} (hb : b ∈ c.blocks) :
    (b + mcbBytes) % 2 ^ 64 ≠ (c.heap.lastValidAddress + mcbBytes) % 2 ^ 64 := by
  have hlt := c.block_lt hb
  have hroom := c.room
  unfold mcbBytes
  omega

theorem served_some {b : Nat} {debug : List Nat}
    (hf : (c.blocks.find? fun b => Suits c.heap.mem n b) = some b) :
    served c n debug =
      ({ c.heap with mem := setMcbFree c.heap.mem b false, debug := debug }, b + mcbBytes) := by
  rw [served, hf]

theorem served_none {debug : List Nat} (hf : ∀ b ∈ c.blocks, ¬ Suits c.heap.mem n b) :
    served c n debug = ({ c.heap.append n with debug := debug },
      (c.heap.lastValidAddress + mcbBytes) % 2 ^ 64) := by
  have hnone : (c.blocks.find? fun b => Suits c.heap.mem n b) = none := by
    rw [List.find?_eq_none]
    exact fun b hb hs => hf b hb (of_decide_eq_true hs)
  rw [served, hnone]

/-- More rounds for the search change no result. -/
theorem scan_more {h : Heap} {size fuel more : Nat} {r : Scan × Nat}
    (hr : scan fuel h size = some r) (hm : fuel ≤ more) : scan more h size = some r := by
  unfold scan at hr ⊢
  dsimp only at hr ⊢
  split_ifs at hr ⊢
  · cases hl : loop (scanBody h.kernieHeapSpace size h.lastValidAddress) fuel
        ⟨h.kernieHeapSpace, h.mem, h.debug⟩ with
    | next s =>
      rw [hl] at hr
      cases hr
    | done s =>
      rw [hl] at hr
      rw [loop_done_mono hl hm]
      exact hr
  · exact hr

theorem malloc_more {h : Heap} {fuel more : Nat} {x : Heap × Nat}
    (hx : malloc fuel h n = some x) (hm : fuel ≤ more) : malloc more h n = some x := by
  unfold malloc at hx ⊢
  dsimp only at hx ⊢
  split at hx
  · cases hx
  · next s a hs =>
    rw [scan_more hs hm]
    exact hx

/-- Two results of one request agree. -/
theorem malloc_unique {h : Heap} {fuel fuel' : Nat} {x y : Heap × Nat}
    (hx : malloc fuel h n = some x) (hy : malloc fuel' h n = some y) : x = y := by
  have hx' := malloc_more hx (Nat.le_max_left fuel fuel')
  rw [malloc_more hy (Nat.le_max_right fuel fuel')] at hx'
  exact (Option.some.inj hx').symm

/-! ### The three outcomes -/

theorem malloc_empty (hb : c.blocks = []) : ∃ d, malloc 1 c.heap n =
    some ({ c.heap.append n with debug := d }, (c.heap.lastValidAddress + mcbBytes) % 2 ^ 64) := by
  have hlast := c.last
  rw [hb, extent_nil, Nat.add_zero] at hlast
  exact ⟨c.heap.debug, malloc_not_found c.setUp c.searched (s := ⟨_, _, c.heap.debug⟩)
    (loop_done (if_pos hlast.symm)) rfl⟩

theorem malloc_first (hb : c.heap.kernieHeapSpace ∈ c.blocks)
    (htest : TestPassed c.heap.mem c.heap.kernieHeapSpace ((n + mcbBytes) % 2 ^ 64)) :
    ∃ d, malloc 1 c.heap n =
      some ({ c.heap with mem := setMcbFree c.heap.mem c.heap.kernieHeapSpace false, debug := d },
        (c.heap.kernieHeapSpace + mcbBytes) % 2 ^ 64) :=
  ⟨c.heap.debug, malloc_found c.setUp c.searched
    (scan_first (Nat.ne_of_lt (c.block_lt hb)) htest 0) c.based⟩

theorem malloc_end (hb : c.heap.kernieHeapSpace ∈ c.blocks)
    (htest : ¬ TestPassed c.heap.mem c.heap.kernieHeapSpace ((n + mcbBytes) % 2 ^ 64)) {k : Nat}
    (hk : stand c.heap.mem c.heap.kernieHeapSpace k = c.heap.lastValidAddress) :
    ∃ d, malloc (k + 1) c.heap n = some ({ c.heap.append n with debug := d },
      (c.heap.lastValidAddress + mcbBytes) % 2 ^ 64) := by
  obtain ⟨d, hend⟩ := scan_end (k := 0) c.aligned (c.sized _ hb).2 c.room htest k
    (by rw [Nat.zero_add, hk]) c.heap.debug
  rw [stand_zero] at hend
  have hsearch : search c.heap n (k + 1) =
      .done (some (⟨c.heap.lastValidAddress, c.heap.mem, d⟩, 0)) := hend
  exact ⟨d, malloc_not_found c.setUp c.searched hsearch rfl⟩

/-- When the first block passes the test it is handed out. -/
theorem first_fit_test (hfirst : c.heap.kernieHeapSpace ∈ c.blocks)
    (hfind : Suits c.heap.mem n c.heap.kernieHeapSpace →
      (c.blocks.find? fun b => Suits c.heap.mem n b) = some c.heap.kernieHeapSpace)
    (htest : TestPassed c.heap.mem c.heap.kernieHeapSpace ((n + mcbBytes) % 2 ^ 64)) :
    FirstFit c n ↔ Suits c.heap.mem n c.heap.kernieHeapSpace := by
  obtain ⟨d, hmalloc⟩ := malloc_first hfirst htest
  constructor
  · rintro ⟨fuel, debug, hserved⟩
    by_contra hsuits
    -- the sum with the control block has wrapped, so no block suits
    have hbig : 2 ^ 64 ≤ n + mcbBytes := by
      by_contra hsmall
      rw [Nat.mod_eq_of_lt (by omega)] at htest
      exact hsuits htest
    rw [served_none fun b _ hs => absurd hs.lt (by omega)] at hserved
    exact c.end_ne hfirst (congrArg Prod.snd (malloc_unique hmalloc hserved))
  · intro hsuits
    have hend := c.block_end hfirst
    have hroom := c.room
    have hbytes := hsuits.2
    refine ⟨1, d, ?_⟩
    rw [hmalloc, served_some (hfind hsuits), Nat.mod_eq_of_lt (by omega)]

/-- When it fails the test nothing is handed out, and the search may leave the heap. -/
theorem first_fit_search (hfirst : c.heap.kernieHeapSpace ∈ c.blocks)
    (htest : ¬ TestPassed c.heap.mem c.heap.kernieHeapSpace ((n + mcbBytes) % 2 ^ 64)) :
    FirstFit c n ↔ (∀ b ∈ c.blocks, ¬ Suits c.heap.mem n b) ∧
      ∃ k, stand c.heap.mem c.heap.kernieHeapSpace k = c.heap.lastValidAddress := by
  have hroom := c.room
  constructor
  · rintro ⟨fuel, debug, hserved⟩
    by_cases hmeets : ∃ k, stand c.heap.mem c.heap.kernieHeapSpace k = c.heap.lastValidAddress
    · refine ⟨fun b hb hs => ?_, hmeets⟩
      obtain ⟨k, hk⟩ := hmeets
      obtain ⟨d, hmalloc⟩ := malloc_end hfirst htest hk
      obtain ⟨b', hfind⟩ : ∃ b', (c.blocks.find? fun b => Suits c.heap.mem n b) = some b' := by
        rw [← Option.isSome_iff_exists, List.find?_isSome]
        exact ⟨b, hb, decide_eq_true hs⟩
      have hb' := List.mem_of_find?_eq_some hfind
      have hend := c.block_end hb'
      have hs' := List.find?_some hfind
      rw [decide_eq_true_eq] at hs'
      have hbytes := hs'.2
      rw [served_some hfind] at hserved
      have hpointer := congrArg Prod.snd (malloc_unique hserved hmalloc)
      rw [← Nat.mod_eq_of_lt (by omega : b' + mcbBytes < 2 ^ 64)] at hpointer
      exact c.end_ne hb' hpointer
    · push Not at hmeets
      rw [malloc_lost c.setUp c.searched fun r hr => scan_leaves c.aligned (c.sized _ hfirst).2
        c.room htest hmeets c.heap.debug hr] at hserved
      cases hserved
  · rintro ⟨hnone, k, hk⟩
    obtain ⟨d, hmalloc⟩ := malloc_end hfirst htest hk
    exact ⟨k + 1, d, by rw [hmalloc, served_none hnone]⟩

end Outcomes

/-- With the search on `malloc` is first fit exactly when the chain is empty, or its first block
    suits, or no block does, the first fails the test of the code too, and a multiple of its size
    leads to the end of the heap. -/
theorem first_fit_iff (c : ChainedHeap) (n : Nat) :
    FirstFit c n ↔ c.blocks = [] ∨ Suits c.heap.mem n c.heap.kernieHeapSpace ∨
      ¬ TestPassed c.heap.mem c.heap.kernieHeapSpace ((n + mcbBytes) % 2 ^ 64) ∧
        (∀ b ∈ c.blocks, ¬ Suits c.heap.mem n b) ∧
        ∃ k, c.heap.kernieHeapSpace + k * mcbSize c.heap.mem c.heap.kernieHeapSpace =
          c.heap.lastValidAddress := by
  by_cases hempty : c.blocks = []
  · refine iff_of_true ?_ (Or.inl hempty)
    obtain ⟨d, hmalloc⟩ := malloc_empty (n := n) hempty
    refine ⟨1, d, ?_⟩
    rw [hmalloc, served_none (by rw [hempty]; exact fun b hb => by cases hb)]
  obtain ⟨b, bs, hbs⟩ := List.exists_cons_of_ne_nil hempty
  have hfirst : c.heap.kernieHeapSpace ∈ c.blocks := by
    rw [hbs, c.begins hbs]
    exact List.mem_cons_self
  rw [or_iff_right hempty]
  by_cases htest : TestPassed c.heap.mem c.heap.kernieHeapSpace ((n + mcbBytes) % 2 ^ 64)
  · rw [first_fit_test hfirst (fun hs => ?_) htest]
    · exact ⟨Or.inl, fun h => h.resolve_right fun h' => h'.1 htest⟩
    · rw [hbs, c.begins hbs]
      exact List.find?_cons_of_pos (decide_eq_true hs)
  · rw [first_fit_search hfirst htest]
    refine ⟨fun h => Or.inr ⟨htest, h⟩, fun h => (h.resolve_left fun hs => htest ?_).2⟩
    rw [Nat.mod_eq_of_lt hs.lt]
    exact hs

/-- Two blocks of 32 bytes from 4096 on; the second is free. -/
def secondFree : ChainedHeap where
  heap :=
    { mem := setMcbFree (setMcbSize (setMcbSize (fun _ => 0) 4096 32) 4128 32) 4128 true
      kernieHeapIsSetUp := true
      haveAllocated := true
      lastValidAddress := 4160
      kernieHeapSpace := 4096
      debug := [] }
  blocks := [4096, 4128]
  setUp := rfl
  searched := rfl
  laid := ⟨rfl, by decide, trivial⟩
  last := by decide
  room := by decide
  sized := by decide
  aligned := by decide
  based := by decide

/-- It is not handed out for 8 bytes: `malloc` appends a block. -/
theorem second_block_skipped : ¬ FirstFit secondFree 8 := by
  rintro ⟨fuel, debug, hserved⟩
  have hmalloc : ∃ h, malloc 3 secondFree.heap 8 = some (h, 4176) := ⟨_, rfl⟩
  obtain ⟨h, hmalloc⟩ := hmalloc
  have hfind : (secondFree.blocks.find? fun b => Suits secondFree.heap.mem 8 b) = some 4128 := by
    decide
  rw [served_some hfind] at hserved
  have hpointer : 4176 = 4128 + mcbBytes := congrArg Prod.snd (malloc_unique hmalloc hserved)
  exact absurd hpointer (by decide)

end SeshOS.Memory
