/-
  Heap integrity over whole runs.

  `Intact base t`: the blocks in the books lie one behind the other from `base` to the end of
  the heap, each control block records its size, and each live block holds the bytes in the
  books. One lemma per change of the heap: a block appended (`intact_grow`), a free flag set
  (`intact_free`), a client's byte written (`intact_write`). `realloc` copies 16 bytes more
  than the old payload; the new block is the last one, so what the copy writes past its end
  lies above every block (`copied_below`). The run theorem is `heap_integrity`.
-/
import SeshOS.Base.Run
import SeshOS.Memory.Ledger

namespace SeshOS.Memory

open Base

/-! ## Byte frames of the allocator's writes -/

theorem headerOf_add (a : Nat) (h : a + mcbBytes < 2 ^ 64) : headerOf (a + mcbBytes) = a := by
  unfold headerOf mcbBytes at *
  omega

theorem mcbSize_congr {m m' : Mem} {mcb : Nat} (h : mcb + mcbBytes ≤ 2 ^ 64)
    (hb : ∀ x, mcb + 8 ≤ x → x < mcb + mcbBytes → m x = m' x) :
    mcbSize m mcb = mcbSize m' mcb := by
  unfold mcbBytes at *
  exact Mem.loadLE_congr (by omega) fun i hi => hb _ (by omega) (by omega)

theorem append_mem_frame (h : Heap) (n : Nat) {x : Nat} (ht : h.top + mcbBytes ≤ 2 ^ 64)
    (hx : x < h.top ∨ h.top + mcbBytes ≤ x) : (h.append n).mem x = h.mem x := by
  unfold mcbBytes at *
  show setMcbSize (setMcbFree h.mem h.top false) h.top _ x = h.mem x
  rw [setMcbSize, Mem.storeLE_frame _ _ (by omega) (by omega), setMcbFree,
    Mem.set_apply _ (by omega), if_neg (by omega)]

theorem append_mcbSize (h : Heap) {n : Nat} (ht : h.top + mcbBytes ≤ 2 ^ 64)
    (hn : n + mcbBytes < 2 ^ 64) : mcbSize (h.append n).mem h.top = n + mcbBytes := by
  show (Mem.storeLE _ _ _ 8).loadLE _ 8 = _
  rw [Mem.loadLE_storeLE_self _ (by decide)]
  omega

/-- `free` writes at most the free flag. -/
theorem free_mem_frame (h : Heap) (p : Nat) {x : Nat} (hx : x ≠ headerOf p) :
    (free h p).mem x = h.mem x := by
  unfold free
  dsimp only
  split
  · rfl
  · split
    · rfl
    · show setMcbFree h.mem (headerOf p) true x = h.mem x
      rw [setMcbFree, Mem.set_apply _ (by unfold headerOf; omega), if_neg hx]

/-! ## The invariant -/

/-- The books and the heap agree. -/
structure Intact (base : Nat) (t : Session) : Prop where
  /-- The scan is off. -/
  off : t.heap.haveAllocated = false
  /-- The blocks lie one behind the other, from `base` to the end of the heap. -/
  laid : Consecutive Block.header Block.size base t.ledger
  top : t.heap.top = base + extent Block.size t.ledger
  payload : ∀ b ∈ t.ledger, b.payload = b.header + mcbBytes
  recorded : ∀ b ∈ t.ledger, mcbSize t.heap.mem b.header = b.size
  bytes : ∀ b ∈ t.ledger, b.live = true → ∀ i, i < b.n → t.heap.mem (b.payload + i) = b.content i
  room : base + extent Block.size t.ledger < 2 ^ 64

namespace Intact

variable {base : Nat} {t : Session}

/-- A block lies below the end of the heap. -/
theorem below (hI : Intact base t) {b : Block} (hb : b ∈ t.ledger) :
    base ≤ b.header ∧ b.header + b.size ≤ t.heap.top := by
  rw [hI.top]
  exact consecutive_bounds hI.laid hb

/-- Two blocks of the books are the same block or apart. -/
theorem apart (hI : Intact base t) {b c : Block} (hb : b ∈ t.ledger) (hc : c ∈ t.ledger) :
    b = c ∨ b.Apart c :=
  consecutive_separate hI.laid hb hc

/-- What the books say about the blocks depends on memory below the end of the heap only. -/
theorem blocks_congr (hI : Intact base t) {m : Mem}
    (hm : ∀ x, x < t.heap.top → m x = t.heap.mem x) {b : Block} (hb : b ∈ t.ledger) :
    mcbSize m b.header = b.size ∧
      (b.live = true → ∀ i, i < b.n → m (b.payload + i) = b.content i) := by
  have hlow := (hI.below hb).2
  have hroom := hI.room
  have htop := hI.top
  have hp := hI.payload b hb
  unfold Block.size mcbBytes at hlow
  unfold mcbBytes at hp
  refine ⟨?_, fun hl i hi => ?_⟩
  · rw [← hI.recorded b hb]
    refine mcbSize_congr (by unfold mcbBytes; omega) fun x _ hx => hm x ?_
    unfold mcbBytes at hx
    omega
  · rw [← hI.bytes b hb hl i hi]
    exact hm _ (by omega)

end Intact

theorem intact_start (mem : Mem) {base : Nat} (h : base < 2 ^ 64) :
    Intact base (Session.start mem base) where
  off := rfl
  laid := trivial
  top := by simp [Session.start, memInit, bootHeap, Heap.top]
  payload := by intro b hb; cases hb
  recorded := by intro b hb; cases hb
  bytes := by intro b hb; cases hb
  room := by simpa [Session.start] using h

/-! ## One lemma per change of the heap -/

section

variable {base : Nat} {h h' : Heap} {l : Ledger}

/-- A block appended at the end of the heap: memory below the old end is as it was, the new
    control block records its size, and the books take its bytes from memory. -/
theorem intact_grow {n : Nat} {bytes : Nat → Byte} (hI : Intact base ⟨h, l⟩)
    (hroom : h.top + (n + mcbBytes) < 2 ^ 64) (hoff : h'.haveAllocated = false)
    (htop : h'.top = h.top + (n + mcbBytes))
    (hlow : ∀ x, x < h.top → h'.mem x = h.mem x)
    (hsize : mcbSize h'.mem h.top = n + mcbBytes)
    (hbytes : ∀ i, i < n → h'.mem (h.top + mcbBytes + i) = bytes i) :
    Intact base ⟨h', l.issue (h.top + mcbBytes) n bytes⟩ := by
  have hhead : headerOf (h.top + mcbBytes) = h.top := headerOf_add _ (by omega)
  have htop0 : h.top = base + extent Block.size l := hI.top
  have hext := l.extent_issue (h.top + mcbBytes) n bytes
  have hmem : ∀ b, b ∈ l.issue (h.top + mcbBytes) n bytes →
      b ∈ l ∨ b = ⟨h.top + mcbBytes, n, true, bytes⟩ := by
    intro b hb
    simpa [Ledger.issue] using hb
  refine ⟨hoff, ?_, ?_, ?_, ?_, ?_, ?_⟩
  · refine consecutive_append.mpr ⟨hI.laid, ?_, trivial⟩
    rw [← htop0]
    exact hhead
  · show h'.top = _
    rw [htop, hext, htop0]
    omega
  · intro b hb
    rcases hmem b hb with hb | rfl
    · exact hI.payload b hb
    · simp only [Block.header, hhead]
  · intro b hb
    rcases hmem b hb with hb | rfl
    · exact (hI.blocks_congr hlow hb).1
    · show mcbSize h'.mem (headerOf (h.top + mcbBytes)) = n + mcbBytes
      rw [hhead]
      exact hsize
  · intro b hb hl
    rcases hmem b hb with hb | rfl
    · exact (hI.blocks_congr hlow hb).2 hl
    · exact hbytes
  · show base + extent Block.size _ < _
    rw [hext]
    omega

/-- A change that moves no block: `f` is what it does to the books. -/
theorem intact_map (f : Block → Block) (hpay : ∀ b, (f b).payload = b.payload)
    (hn : ∀ b, (f b).n = b.n) (hI : Intact base ⟨h, l⟩) (hoff : h'.haveAllocated = false)
    (htop : h'.top = h.top) (hrec : ∀ b ∈ l, mcbSize h'.mem b.header = b.size)
    (hbytes : ∀ b ∈ l, (f b).live = true → ∀ i, i < b.n →
      h'.mem (b.payload + i) = (f b).content i) :
    Intact base ⟨h', l.map f⟩ := by
  have hhead : ∀ b, (f b).header = b.header := fun b => by rw [Block.header, hpay, Block.header]
  have hsize : ∀ b, (f b).size = b.size := fun b => by rw [Block.size, hn, Block.size]
  have hext : extent Block.size (l.map f) = extent Block.size l := extent_map f hsize l
  refine ⟨hoff, consecutive_map f hhead hsize hI.laid, ?_, ?_, ?_, ?_, ?_⟩
  · show h'.top = _
    rw [htop, hext]
    exact hI.top
  · intro b hb
    obtain ⟨c, hc, rfl⟩ := List.mem_map.mp hb
    rw [hpay, hhead]
    exact hI.payload c hc
  · intro b hb
    obtain ⟨c, hc, rfl⟩ := List.mem_map.mp hb
    rw [hhead, hsize]
    exact hrec c hc
  · intro b hb hl i hi
    obtain ⟨c, hc, rfl⟩ := List.mem_map.mp hb
    rw [hpay]
    exact hbytes c hc hl i (by rwa [hn] at hi)
  · show base + extent Block.size _ < _
    rw [hext]
    exact hI.room

/-- A pointer the client may pass back: NULL, or a live block of the books. -/
def Held (l : Ledger) (p : Nat) : Prop := p = 0 ∨ ∃ b ∈ l, b.live = true ∧ b.payload = p

/-- `free` on NULL or on a live block: the free flag of its control block is the only byte
    that changes, and it lies in no recorded size and no payload. -/
theorem intact_free {p : Nat} (hI : Intact base ⟨h, l⟩) (hp : Held l p) :
    Intact base ⟨free h p, l.retire p⟩ := by
  have hkeep : ∀ c ∈ l, ∀ x, c.header + 8 ≤ x → x < c.header + c.size →
      (free h p).mem x = h.mem x := by
    intro c hc x h1 h2
    rcases hp with rfl | ⟨b, hb, -, rfl⟩
    · rfl
    · refine free_mem_frame h _ ?_
      have hap := hI.apart hb hc
      show x ≠ b.header
      rcases hap with rfl | hap
      · omega
      · unfold Block.Apart Block.size mcbBytes at *
        omega
  refine intact_map _ ?_ ?_ hI ((free_haveAllocated h p).trans hI.off) (free_top h p) ?_ ?_
  · intro b; split <;> rfl
  · intro b; split <;> rfl
  · intro b hb
    have hlow := (hI.below hb).2
    have hroom := hI.room
    have htop := hI.top
    dsimp only at hlow hroom htop
    rw [← hI.recorded b hb]
    unfold Block.size mcbBytes at hlow
    refine mcbSize_congr (by unfold mcbBytes; omega) fun x h1 h2 => hkeep b hb x h1 ?_
    unfold Block.size
    omega
  · intro b hb hl i hi
    have hpay := hI.payload b hb
    by_cases hbp : b.payload = p
    · rw [if_pos hbp] at hl
      cases hl
    · rw [if_neg hbp] at hl ⊢
      rw [← hI.bytes b hb hl i hi]
      unfold mcbBytes at hpay
      exact hkeep b hb _ (by omega) (by unfold Block.size mcbBytes; omega)

/-- A byte the client writes inside a live block. -/
theorem intact_write {p off : Nat} (v : Byte) (hI : Intact base ⟨h, l⟩)
    (hp : ∃ b ∈ l, b.live = true ∧ b.payload = p ∧ off < b.n) :
    Intact base ⟨{ h with mem := h.mem.set (p + off) v }, l.put p off v⟩ := by
  obtain ⟨b, hb, -, rfl, hoff⟩ := hp
  have hlow := (hI.below hb).2
  have hroom := hI.room
  have htop := hI.top
  have hpay := hI.payload b hb
  dsimp only at hlow hroom htop
  unfold Block.size at hlow
  have hset : ∀ x, h.mem.set (b.payload + off) v x = if x = b.payload + off then v else h.mem x :=
    Mem.set_apply _ (by omega) v
  -- the byte lies in no control block and in no other payload
  have hother : ∀ c ∈ l, ∀ x, c.header ≤ x → x < c.header + c.size →
      x ≠ b.payload + off ∨ c = b ∧ x = c.payload + off := by
    intro c hc x h1 h2
    rcases hI.apart hb hc with rfl | hap
    · by_cases hx : x = b.payload + off
      · exact Or.inr ⟨rfl, hx⟩
      · exact Or.inl hx
    · left
      unfold Block.Apart Block.size at hap
      unfold Block.size at h2
      omega
  refine intact_map _ ?_ ?_ hI hI.off rfl ?_ ?_
  · intro c; split <;> rfl
  · intro c; split <;> rfl
  · intro c hc
    have hclow := (hI.below hc).2
    have hcpay := hI.payload c hc
    dsimp only at hclow
    rw [← hI.recorded c hc]
    unfold Block.size at hclow
    refine mcbSize_congr (by omega) fun x h1 h2 => ?_
    show h.mem.set _ v x = _
    rw [hset, if_neg]
    rcases hother c hc x (by omega) (by unfold Block.size; omega) with hne | ⟨-, hx⟩
    · exact hne
    · omega
  · intro c hc hl i hi
    have hcpay := hI.payload c hc
    show h.mem.set _ v (c.payload + i) = _
    rw [hset]
    by_cases hcb : c.live = true ∧ c.payload = b.payload
    · rw [if_pos hcb]
      dsimp only
      by_cases hi' : i = off
      · rw [hi', hcb.2, if_pos rfl, Function.update_self]
      · rw [if_neg (by omega), Function.update_of_ne hi']
        exact hI.bytes c hc hcb.1 i hi
    · rw [if_neg hcb] at hl ⊢
      rw [if_neg]
      · exact hI.bytes c hc hl i hi
      · have hend : c.payload + i < c.header + c.size := by
          unfold Block.size
          omega
        rcases hother c hc (c.payload + i) (by omega) hend with hne | ⟨rfl, -⟩
        · exact hne
        · exact absurd ⟨hl, rfl⟩ hcb

/-- The block `malloc` appends. -/
theorem intact_malloc {n : Nat} (hI : Intact base ⟨h, l⟩)
    (hroom : h.top + (n + mcbBytes) < 2 ^ 64) :
    Intact base ⟨h.append n, l.issue (h.top + mcbBytes) n fun i =>
      (h.append n).mem (h.top + mcbBytes + i)⟩ := by
  refine intact_grow hI hroom hI.off ?_ ?_ ?_ ?_
  · rw [append_top, Nat.mod_eq_of_lt (by omega : n + mcbBytes < 2 ^ 64), Nat.mod_eq_of_lt hroom]
  · intro x hx
    exact append_mem_frame h n (by omega) (Or.inl hx)
  · exact append_mcbSize h (by omega) (by omega)
  · intro i _
    rfl

/-! ## realloc -/

/-- The heap of `realloc` after its copy and before its `free`. -/
def copied (h : Heap) (p n k : Nat) : Heap :=
  { h.append n with mem := (h.append n).mem.copy (h.top + mcbBytes) p k }

/-- The copy of `k` bytes leaves everything below the new payload alone: what it writes past
    the new block's end is above every block. -/
theorem copied_below {p n k x : Nat} (hk : h.top + mcbBytes + k ≤ 2 ^ 64)
    (hp : p + k ≤ h.top + mcbBytes) (hx : x < h.top + mcbBytes) :
    (copied h p n k).mem x = (h.append n).mem x := by
  show (h.append n).mem.copy _ p k x = _
  rw [Mem.copy_apply _ hk (by omega) (Or.inl hp), if_neg (by omega)]

theorem copied_payload {p n k i : Nat} (hk : h.top + mcbBytes + k ≤ 2 ^ 64)
    (hp : p + k ≤ h.top + mcbBytes) (hi : i < k) :
    (copied h p n k).mem (h.top + mcbBytes + i) = (h.append n).mem (p + i) := by
  show (h.append n).mem.copy _ p k _ = _
  rw [Mem.copy_apply _ hk (by omega) (Or.inl hp), if_pos (by omega), Nat.add_sub_cancel_left]

/-- `realloc` of a live block to a size other than 0: the new block is entered with the first
    `min` of the two sizes of the old bytes, and the old block is crossed off. -/
theorem intact_realloc (fuel : Nat) {p n : Nat} (hI : Intact base ⟨h, l⟩)
    (hroom : base + 2 * (extent Block.size l + (n + mcbBytes)) < 2 ^ 64)
    (hp : ∃ b ∈ l, b.live = true ∧ b.payload = p) (hn : n ≠ 0) :
    ∃ h', realloc fuel h p n = some (h', h.top + mcbBytes) ∧
      Intact base ⟨h', (l.retire p).issue (h.top + mcbBytes) n
        (l.carried p n fun i => h'.mem (h.top + mcbBytes + i))⟩ := by
  obtain ⟨b, hat⟩ : ∃ b, l.at? p = some b := by
    obtain ⟨b, hb, hlive, rfl⟩ := hp
    exact Ledger.at?_of_mem hb hlive
  obtain ⟨hb, hlive, rfl⟩ := Ledger.at?_some hat
  have htop := hI.top
  obtain ⟨hbase, hlow⟩ := hI.below hb
  have hpay := hI.payload b hb
  have hsz : b.size = b.n + mcbBytes := rfl
  dsimp only at htop hlow
  have hmcb : mcbBytes = 16 := rfl
  -- `malloc` appends, and the old control block still records its size
  have hnew : Intact base ⟨h.append n, l.issue (h.top + mcbBytes) n fun i =>
      (h.append n).mem (h.top + mcbBytes + i)⟩ := intact_malloc hI (by omega)
  have hrec : mcbSize (h.append n).mem b.header = b.size :=
    hnew.recorded b (by simp [Ledger.issue, hb])
  have hcopy : h.top + mcbBytes + b.size ≤ 2 ^ 64 := by omega
  have hsrc : b.payload + b.size ≤ h.top + mcbBytes := by omega
  let h2 := copied h b.payload n b.size
  refine ⟨free h2 b.payload, ?_, ?_⟩
  · unfold realloc
    rw [malloc_append fuel h n hI.off, if_neg (by omega), if_neg hn,
      Nat.mod_eq_of_lt (by omega : h.top + mcbBytes < 2 ^ 64)]
    dsimp only
    rw [show headerOf b.payload = b.header from rfl, hrec]
    rfl
  · have hne : h.top + mcbBytes ≠ b.payload := by omega
    rw [← Ledger.retire_issue hne]
    refine intact_free ?_ (Or.inr ⟨b, by simp [Ledger.issue, hb], hlive, rfl⟩)
    refine intact_grow hI (by omega) hI.off ?_ ?_ ?_ ?_
    · show (h.append n).top = _
      rw [append_top, Nat.mod_eq_of_lt (by omega : n + mcbBytes < 2 ^ 64),
        Nat.mod_eq_of_lt (by omega)]
    · intro x hx
      rw [copied_below hcopy hsrc (by omega)]
      exact append_mem_frame h n (by omega) (Or.inl hx)
    · rw [← append_mcbSize h (n := n) (by omega) (by omega)]
      exact mcbSize_congr (by omega) fun x _ hx => copied_below hcopy hsrc hx
    · intro i _
      have hfree : (free h2 b.payload).mem (h.top + mcbBytes + i) =
          h2.mem (h.top + mcbBytes + i) := by
        refine free_mem_frame _ _ ?_
        show _ ≠ b.header
        omega
      unfold Ledger.carried
      rw [hat]
      dsimp only
      split
      · -- the bytes carried over: the copy covers them, the append left them alone
        rename_i hi
        rw [copied_payload hcopy hsrc (by omega), append_mem_frame h n (by omega) (by omega)]
        exact hI.bytes b hb hlive i (by omega)
      · exact hfree.symm

end

/-! ## Runs -/

/-- A call that appends a block, by `malloc` or by `realloc` of NULL. -/
theorem malloc_returns (fuel : Nat) {base : Nat} {h : Heap} {l : Ledger} {n : Nat}
    (hI : Intact base ⟨h, l⟩) (hroom : h.top + (n + mcbBytes) < 2 ^ 64) :
    malloc fuel h n = some (h.append n, h.top + mcbBytes) := by
  rw [malloc_append fuel h n hI.off, Nat.mod_eq_of_lt (by omega : h.top + mcbBytes < 2 ^ 64)]

/-- One permitted call keeps the invariant, as long as the requests still to come fit. -/
theorem intact_step (fuel : Nat) {base : Nat} {t : Session} {c : Call} {rest : List Call}
    (hI : Intact base t)
    (hroom : base + 2 * (extent Block.size t.ledger + requested (c :: rest)) < 2 ^ 64)
    (hok : t.Permits c) :
    ∃ t', t.step fuel c = some t' ∧ Intact base t' ∧
      base + 2 * (extent Block.size t'.ledger + requested rest) < 2 ^ 64 := by
  obtain ⟨h, l⟩ := t
  have htop : h.top = base + extent Block.size l := hI.top
  have hreq : requested (c :: rest) = c.bytes + requested rest := by simp [requested]
  dsimp only at hroom
  rw [hreq] at hroom
  cases c with
  | malloc n =>
    simp only [Call.bytes] at hroom
    have hn : h.top + (n + mcbBytes) < 2 ^ 64 := by omega
    refine ⟨_, ?_, intact_malloc hI hn, ?_⟩
    · simp only [Session.step, malloc_returns fuel hI hn]
    · rw [Ledger.extent_issue]
      omega
  | free p =>
    refine ⟨_, rfl, intact_free hI hok, ?_⟩
    rw [Ledger.extent_retire]
    simpa [Call.bytes] using hroom
  | realloc p n =>
    simp only [Call.bytes] at hroom
    by_cases hp : p = 0
    · rw [if_neg (by simp [hp])] at hroom
      have hn : h.top + (n + mcbBytes) < 2 ^ 64 := by omega
      refine ⟨_, ?_, intact_malloc hI hn, ?_⟩
      · simp only [Session.step, realloc, if_pos hp, malloc_returns fuel hI hn]
      · rw [Ledger.extent_issue]
        omega
    · by_cases hn : n = 0
      · rw [if_pos ⟨hp, hn⟩] at hroom
        refine ⟨_, ?_, intact_free hI hok, ?_⟩
        · simp only [Session.step, realloc, if_neg hp, if_pos hn]
        · rw [Ledger.extent_retire]
          omega
      · rw [if_neg (by simp [hn])] at hroom
        have hlive : ∃ b ∈ l, b.live = true ∧ b.payload = p := hok.resolve_left hp
        obtain ⟨h', hr, hI'⟩ := intact_realloc fuel hI (by omega) hlive hn
        refine ⟨_, ?_, hI', ?_⟩
        · simp only [Session.step, hr, if_neg hp, if_neg hn]
        · rw [Ledger.extent_issue, Ledger.extent_retire]
          omega
  | write p off v =>
    refine ⟨_, rfl, intact_write v hI hok, ?_⟩
    rw [Ledger.extent_put]
    simpa [Call.bytes] using hroom

/-- A permitted run within the budget ends with the heap intact and room to spare. -/
theorem intact_run (fuel : Nat) (mem : Mem) (base : Nat) (calls : List Call)
    (hroom : base + 2 * requested calls < 2 ^ 64)
    (hok : Allowed (Session.step fuel) Session.Permits (Session.start mem base) calls) :
    ∃ t, calls.foldlM (Session.step fuel) (Session.start mem base) = some t ∧ Intact base t ∧
      base + 2 * extent Block.size t.ledger < 2 ^ 64 := by
  obtain ⟨t, ht, hI, hfits⟩ := foldlM_inv
    (fun t rest => Intact base t ∧
      base + 2 * (extent Block.size t.ledger + requested rest) < 2 ^ 64)
    (fun t c rest hI hc => intact_step fuel hI.1 hI.2 hc) calls
    ⟨intact_start mem (by omega), by simpa [Session.start] using hroom⟩ hok
  exact ⟨t, ht, hI, hfits⟩

/-- **Heap integrity.** From any memory and any heap base, every run of permitted calls whose
    requests fit twice below `2 ^ 64` returns; its blocks, live or not, occupy disjoint ranges,
    each control block records its size, and each live block holds the bytes in the books. -/
theorem heap_integrity (fuel : Nat) (mem : Mem) (base : Nat) (calls : List Call)
    (hroom : base + 2 * requested calls < 2 ^ 64)
    (hok : Allowed (Session.step fuel) Session.Permits (Session.start mem base) calls) :
    ∃ t, calls.foldlM (Session.step fuel) (Session.start mem base) = some t ∧
      t.ledger.Pairwise Block.Apart ∧
      (∀ b ∈ t.ledger, mcbSize t.heap.mem b.header = b.n + 16) ∧
      ∀ b ∈ t.ledger, b.live = true →
        ∀ i, i < b.n → t.heap.mem (b.payload + i) = b.content i := by
  obtain ⟨t, ht, hI, -⟩ := intact_run fuel mem base calls hroom hok
  refine ⟨t, ht, ?_, hI.recorded, hI.bytes⟩
  exact (consecutive_pairwise hI.laid).imp Or.inl

/-- Three bytes asked for, one written, and the block shrunk to one byte. -/
theorem heap_integrity_shrink :
    ∃ t, [Call.malloc 3, .write 4112 0 7, .realloc 4112 1].foldlM (Session.step 0)
        (Session.start (fun _ => 0) 4096) = some t ∧
      t.ledger.Pairwise Block.Apart ∧
      (∀ b ∈ t.ledger, mcbSize t.heap.mem b.header = b.n + 16) ∧
      ∀ b ∈ t.ledger, b.live = true →
        ∀ i, i < b.n → t.heap.mem (b.payload + i) = b.content i := by
  refine heap_integrity 0 _ 4096 _ (by decide) ⟨trivial, fun s1 h1 => ?_⟩
  cases h1
  refine ⟨⟨_, List.mem_singleton.mpr rfl, rfl, rfl, by decide⟩, fun s2 h2 => ?_⟩
  cases h2
  exact ⟨Or.inr ⟨_, List.mem_singleton.mpr rfl, rfl, rfl⟩, fun _ _ => trivial⟩

end SeshOS.Memory
