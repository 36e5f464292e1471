/-
  The heap as a chain: from `kernieHeap_space` by the sizes in the headers to
  `last_valid_address`.

  `malloc` writes a header where the last block ended, wherever that is; the scan rounds up with
  `aligned_ptr` before it looks for one. So the two agree on a block exactly when its size is a
  multiple of 4 (`nextHeader_eq_iff`), and the walk meets the headers that `malloc` has written
  exactly when every request was (`heap_chain_iff`).
-/
import SeshOS.Base.Walk
import SeshOS.Memory.FirstFit
import SeshOS.Memory.Integrity
import SeshOS.Memory.Region

namespace SeshOS.Memory

open Base

/-- The step of the scan at a header: its recorded size, then `aligned_ptr`. -/
def nextHeader (m : Mem) (current : Nat) : Nat :=
  alignedPtr ((current + mcbSize m current) % 2 ^ 64)

/-- It is the step of a scan whose `mcb` is the header it stands at, up to
    `last_valid_address`. -/
theorem scanBody_step {size last : Nat} {s : Scan} (hlast : s.current ≠ last)
    (htest : ¬ TestPassed s.mem s.current size)
    (hmoved : s.current + mcbSize s.mem s.current ≤ nextHeader s.mem s.current)
    (hend : nextHeader s.mem s.current ≤ last) :
    ∃ d, scanBody s.current size last s = .next ⟨nextHeader s.mem s.current, s.mem, d⟩ := by
  refine ⟨s.debug ++ [nextHeader s.mem s.current], ?_⟩
  have hbase : s.current ≤ nextHeader s.mem s.current := (Nat.le_add_right _ _).trans hmoved
  rw [scanBody_eq, if_neg hlast, if_neg htest, if_pos ⟨hmoved, hbase, hend⟩]
  rfl

/-- The walk from `kernieHeap_space` visits exactly `headers`, in this order, and ends at
    `last_valid_address` (`top`: before its first block `malloc` sets it to the base). -/
def ChainWalked (h : Heap) (headers : List Nat) : Prop :=
  ∃ fuel, loop (walkBody (nextHeader h.mem) h.top) fuel (h.kernieHeapSpace, []) = .done headers

/-- From an aligned header the step leads to the end of the block exactly when its size is a
    multiple of 4. -/
theorem nextHeader_eq_iff {m : Mem} {a : Nat} (ha : a % 4 = 0)
    (hend : a + mcbSize m a < 2 ^ 64) :
    nextHeader m a = a + mcbSize m a ↔ mcbSize m a % 4 = 0 := by
  rw [nextHeader, Nat.mod_eq_of_lt hend]
  constructor
  · intro h
    have haligned := (alignedPtr_returns (a + mcbSize m a)).2
    omega
  · intro h
    exact alignedPtr_aligned (by omega)

/-- Along blocks that lie one behind the other from an aligned address, every step leads to the
    next header exactly when all sizes are multiples of 4. -/
theorem steps_iff {m : Mem} {a : Nat} {l : Ledger}
    (hlaid : Consecutive Block.header Block.size a l) (ha : a % 4 = 0)
    (hsize : ∀ b ∈ l, mcbSize m b.header = b.size) (hend : a + extent Block.size l < 2 ^ 64) :
    (∀ b ∈ l, nextHeader m b.header = b.header + b.size) ↔ ∀ b ∈ l, b.size % 4 = 0 := by
  induction l generalizing a with
  | nil => simp
  | cons b l ih =>
    obtain ⟨rfl, hrest⟩ := hlaid
    rw [List.forall_mem_cons] at hsize
    rw [extent_cons] at hend
    have hstep := nextHeader_eq_iff (m := m) ha (by rw [hsize.1]; omega)
    rw [hsize.1] at hstep
    rw [List.forall_mem_cons, List.forall_mem_cons, hstep]
    -- the next block is aligned only if this one's size is a multiple of 4
    exact and_congr_right fun hb => ih hrest (by omega) hsize.2 (by omega)

/-- A session that is intact, and began at `base`. -/
theorem Intact.chainWalked_iff {base : Nat} {t : Session} (hI : Intact base t)
    (hbase : base % 4 = 0) (hspace : t.heap.kernieHeapSpace = base) :
    ChainWalked t.heap (t.ledger.map Block.header) ↔ ∀ b ∈ t.ledger, b.n % 4 = 0 := by
  have hwalk : (∃ fuel, loop (walkBody (nextHeader t.heap.mem) t.heap.top) fuel (base, []) =
      .done (t.ledger.map Block.header)) ↔
      Chain (nextHeader t.heap.mem) t.heap.top base (t.ledger.map Block.header) := walk_iff []
  have hpos : ∀ b ∈ t.ledger, 0 < b.size := fun b _ => Nat.add_pos_right b.n (by decide)
  have hmod : ∀ b : Block, b.size % 4 = 0 ↔ b.n % 4 = 0 := by
    intro b
    unfold Block.size mcbBytes
    omega
  rw [ChainWalked, hspace, hwalk, hI.top, chain_iff_steps hI.laid hpos,
    steps_iff hI.laid hbase hI.recorded hI.room]
  simp only [hmod]

/-! ## A run of `malloc` -/

/-- `malloc` called for each size in turn, and the books. -/
def mallocSession (fuel : Nat) (mem : Mem) (base : Nat) (sizes : List Nat) : Option Session :=
  (sizes.map Call.malloc).foldlM (Session.step fuel) (Session.start mem base)

/-- As long as the blocks do not wrap the run returns, and the books hold the requests. -/
theorem mallocSession_intact (fuel : Nat) (mem : Mem) {base : Nat} {sizes : List Nat}
    (hroom : base + withHeaders sizes < 2 ^ 64) :
    ∃ t, mallocSession fuel mem base sizes = some t ∧ Intact base t ∧
      t.heap.kernieHeapSpace = base ∧ t.ledger.map Block.n = sizes := by
  induction sizes using List.reverseRecOn with
  | nil => exact ⟨_, rfl, intact_start mem (by simpa [withHeaders] using hroom), rfl, rfl⟩
  | append_singleton sizes n ih =>
    have hwith : withHeaders (sizes ++ [n]) = withHeaders sizes + (n + mcbBytes) := by
      simp [withHeaders]
    rw [hwith] at hroom
    obtain ⟨⟨h, l⟩, hrun, hI, hspace, hsizes⟩ := ih (by omega)
    have hextent : extent Block.size l = withHeaders sizes := by
      rw [← hsizes, withHeaders, List.map_map]
      rfl
    have htop : h.top = base + extent Block.size l := hI.top
    have hn : h.top + (n + mcbBytes) < 2 ^ 64 := by omega
    refine ⟨_, ?_, intact_malloc hI hn, hspace, ?_⟩
    · rw [mallocSession, List.map_append]
      refine foldlM_concat_of hrun ?_
      simp only [Session.step, malloc_returns fuel hI hn]
    · rw [Ledger.issue, List.map_append, hsizes]
      rfl

/-- From an aligned heap base, for every run of `malloc` calls that does not wrap: the walk
    visits exactly the headers written, in their order, and ends at `last_valid_address`, exactly
    when every size asked for is a multiple of 4. -/
theorem heap_chain_iff (fuel : Nat) (mem : Mem) {base : Nat} {sizes : List Nat}
    (hbase : base % 4 = 0) (hroom : base + withHeaders sizes < 2 ^ 64) :
    ∃ t, mallocSession fuel mem base sizes = some t ∧
      (ChainWalked t.heap (t.ledger.map Block.header) ↔ ∀ n ∈ sizes, n % 4 = 0) := by
  obtain ⟨t, hrun, hI, hspace, hsizes⟩ := mallocSession_intact fuel mem hroom
  refine ⟨t, hrun, ?_⟩
  rw [hI.chainWalked_iff hbase hspace, ← hsizes, List.forall_mem_map]

/-- Two blocks of whole words. -/
theorem heap_chain_words :
    ∃ t, mallocSession 0 (fun _ => 0) 4096 [8, 12] = some t ∧
      ChainWalked t.heap (t.ledger.map Block.header) := by
  obtain ⟨t, hrun, hiff⟩ :=
    heap_chain_iff 0 (fun _ => 0) (show 4096 % 4 = 0 by decide)
      (show 4096 + withHeaders [8, 12] < 2 ^ 64 by decide)
  exact ⟨t, hrun, hiff.mpr (by decide)⟩

/-- One byte: the step from its header leads past `last_valid_address`. -/
theorem one_byte_passed :
    ¬∀ (fuel : Nat) (mem : Mem) (base : Nat) (sizes : List Nat), base % 4 = 0 →
      base + withHeaders sizes < 2 ^ 64 → ∃ t, mallocSession fuel mem base sizes = some t ∧
        ChainWalked t.heap (t.ledger.map Block.header) := by
  intro h
  obtain ⟨t, hrun, hwalked⟩ := h 0 (fun _ => 0) 4096 [1] (by decide) (by decide)
  obtain ⟨t', hrun', hI, hspace, hsizes⟩ :=
    mallocSession_intact 0 (fun _ => 0) (show 4096 + withHeaders [1] < 2 ^ 64 by decide)
  obtain rfl := Option.some.inj (hrun.symm.trans hrun')
  have hwords := (hI.chainWalked_iff (by decide) hspace).mp hwalked
  rw [← List.forall_mem_map (P := fun n => n % 4 = 0), hsizes] at hwords
  exact absurd (hwords 1 List.mem_cons_self) (by decide)

end SeshOS.Memory
