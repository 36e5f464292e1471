/-
  The bytes that `realloc` touches.

  `reallocTouched` lists the reads and writes of `realloc`, byte by byte and in order, each by
  its offset from the control block of one of the two blocks involved; outside of the writes on
  the list `realloc` leaves memory alone (`realloc_frame`). The copy goes by the size in the old
  control block, which counts the control block too: `realloc` keeps inside the two blocks only
  if that size is at most both sizes (`confined_iff`), and in a heap that is intact it is not.
-/
import SeshOS.Memory.Integrity
import SeshOS.Memory.Reuse

namespace SeshOS.Memory

open Base

/-- The block at `ptr`, and the block `realloc` returns. -/
inductive Role where
  | old
  | new
deriving DecidableEq

/-- One byte read or written, by its offset from the control block. -/
structure Touch where
  write : Bool
  role : Role
  offset : Nat
deriving DecidableEq

/-! ## The accesses, as the code makes them -/

def readSize (r : Role) : List Touch := (List.range 8).map fun i => ⟨false, r, 8 + i⟩
def writeSize (r : Role) : List Touch := (List.range 8).map fun i => ⟨true, r, 8 + i⟩
def writeFree (r : Role) : List Touch := [⟨true, r, 0⟩]

/-- `malloc` without the search. -/
def mallocTouched : List Touch := writeFree .new ++ writeSize .new

/-- `memcpy(new_ptr, ptr, num)` -/
def memcpyTouched (num : Nat) : List Touch :=
  (List.range num).flatMap fun i => [⟨false, .old, mcbBytes + i⟩, ⟨true, .new, mcbBytes + i⟩]

def freeTouched (h : Heap) (ptr : Nat) : List Touch :=
  if ptr = 0 then []
  else readSize .old ++ if mcbSize h.mem (headerOf ptr) = 0 then [] else writeFree .old

/-- `realloc`, with the search of `malloc` off. -/
def reallocTouched (h : Heap) (ptr size : Nat) : List Touch :=
  if ptr = 0 then mallocTouched
  else if size = 0 then freeTouched h ptr
  else
    let newPtr := (h.top + mcbBytes) % 2 ^ 64
    let h := h.append size
    let num := mcbSize h.mem (headerOf ptr)
    mallocTouched ++ readSize .old ++ memcpyTouched num ++
      freeTouched { h with mem := h.mem.copy newPtr ptr num } ptr

/-- Where a byte is. -/
def Touch.address (h : Heap) (ptr : Nat) (t : Touch) : Nat :=
  ((match t.role with | .old => headerOf ptr | .new => h.top) + t.offset) % 2 ^ 64

theorem address_old (h : Heap) (ptr offset : Nat) (w : Bool) :
    Touch.address h ptr ⟨w, .old, offset⟩ = (headerOf ptr + offset) % 2 ^ 64 := rfl

theorem address_new (h : Heap) (ptr offset : Nat) (w : Bool) :
    Touch.address h ptr ⟨w, .new, offset⟩ = (h.top + offset) % 2 ^ 64 := rfl

/-- For a block of `m` bytes and a new size `n`: nothing is written outside the new block but
    the free flag of the old one, and nothing is read beyond the `m` bytes. -/
def Touch.Inside (m n : Nat) (t : Touch) : Prop :=
  match t.write, t.role with
  | true, .new => t.offset < mcbBytes + n
  | true, .old => t.offset = 0
  | false, .new => t.offset < mcbBytes + n
  | false, .old => t.offset < mcbBytes + m

/-- The writes (`w`) or the reads of a list. -/
def Confined (w : Bool) (touched : List Touch) (m n : Nat) : Prop :=
  ∀ t ∈ touched, t.write = w → t.Inside m n

/-! ## The list is complete -/

section Frame

variable {h : Heap} {p n x : Nat}

/-- `x` is written by nothing on the list. -/
def Unwritten (h : Heap) (p : Nat) (touched : List Touch) (x : Nat) : Prop :=
  ∀ t ∈ touched, t.write = true → x ≠ t.address h p

theorem Unwritten.append {ts us : List Touch} (hx : Unwritten h p (ts ++ us) x) :
    Unwritten h p ts x ∧ Unwritten h p us x :=
  ⟨fun t ht => hx t (List.mem_append_left us ht), fun t ht => hx t (List.mem_append_right ts ht)⟩

theorem flag_unwritten (hx : Unwritten h p mallocTouched x) : x ≠ h.top % 2 ^ 64 := by
  have hne := hx _ (List.mem_append_left _ (List.mem_singleton.mpr rfl)) rfl
  rwa [address_new, Nat.add_zero] at hne

theorem size_unwritten (hx : Unwritten h p mallocTouched x) :
    ∀ i < 8, x ≠ (h.top + 8 + i) % 2 ^ 64 := by
  intro i hi
  have hmem : (⟨true, .new, 8 + i⟩ : Touch) ∈ writeSize .new :=
    List.mem_map_of_mem (List.mem_range.mpr hi)
  have hne := hx _ (List.mem_append_right _ hmem) rfl
  rwa [address_new, ← Nat.add_assoc] at hne

theorem append_unwritten (n : Nat) (hx : Unwritten h p mallocTouched x) :
    (h.append n).mem x = h.mem x :=
  append_other n (flag_unwritten hx) (size_unwritten hx)

theorem free_unwritten {h' : Heap} (hx : Unwritten h p (freeTouched h' p) x) :
    (free h' p).mem x = h'.mem x := by
  by_cases hp : p = 0
  · rw [hp]
    rfl
  by_cases hsize : mcbSize h'.mem (headerOf p) = 0
  · rw [free_unsized hp hsize]
  · rw [freeTouched, if_neg hp, if_neg hsize] at hx
    have hne := hx.append.2 ⟨true, .old, 0⟩ (List.mem_singleton.mpr rfl) rfl
    rw [address_old, Nat.add_zero, Nat.mod_eq_of_lt (headerOf_lt p)] at hne
    exact free_mem_frame h' p hne

theorem memcpy_unwritten {m : Mem} {num : Nat} (hx : Unwritten h p (memcpyTouched num) x) :
    m.copy ((h.top + mcbBytes) % 2 ^ 64) p num x = m x := by
  refine Mem.copy_other fun i hi => ?_
  have hmem : (⟨true, .new, mcbBytes + i⟩ : Touch) ∈ memcpyTouched num := by
    refine List.mem_flatMap.mpr ⟨i, List.mem_range.mpr hi, ?_⟩
    simp
  have hne := hx _ hmem rfl
  rwa [address_new, ← Nat.add_assoc, ← Nat.mod_add_mod] at hne

/-- `realloc` of a block to a size other than 0. -/
theorem reallocTouched_block (hp : p ≠ 0) (hn : n ≠ 0) :
    reallocTouched h p n =
      mallocTouched ++ readSize .old ++
        memcpyTouched (mcbSize (h.append n).mem (headerOf p)) ++
          freeTouched { h.append n with mem := reallocCopied h p n } p := by
  rw [reallocTouched, if_neg hp, if_neg hn]

/-- `realloc` leaves every byte alone that the list does not write. -/
theorem realloc_frame {fuel : Nat} {r : Heap × Nat} (hoff : h.haveAllocated = false)
    (hr : realloc fuel h p n = some r) (hx : Unwritten h p (reallocTouched h p n) x) :
    r.1.mem x = h.mem x := by
  by_cases hp : p = 0
  · rw [reallocTouched, if_pos hp] at hx
    rw [realloc, if_pos hp, malloc_append fuel h n hoff] at hr
    obtain rfl := Option.some.inj hr
    exact append_unwritten n hx
  by_cases hn : n = 0
  · rw [reallocTouched, if_neg hp, if_pos hn] at hx
    rw [realloc, if_neg hp, if_pos hn] at hr
    obtain rfl := Option.some.inj hr
    exact free_unwritten hx
  rw [realloc_block fuel hoff hp hn] at hr
  rw [reallocTouched_block hp hn] at hx
  obtain rfl := Option.some.inj hr
  obtain ⟨hx, hfree⟩ := hx.append
  obtain ⟨hx, hcopy⟩ := hx.append
  have hfree := free_unwritten hfree
  have hcopy : reallocCopied h p n x = (h.append n).mem x := memcpy_unwritten hcopy
  rw [hfree]
  dsimp only
  rw [hcopy, append_unwritten n hx.append.1]

/-- Every byte that the copy reads is in the new block afterwards. -/
theorem realloc_carries {fuel i : Nat} {r : Heap × Nat} (hoff : h.haveAllocated = false)
    (hp : mcbBytes ≤ p) (hn : n ≠ 0) (hr : realloc fuel h p n = some r)
    (hnew : h.top + mcbBytes + mcbSize (h.append n).mem (headerOf p) ≤ 2 ^ 64)
    (hold : p + mcbSize (h.append n).mem (headerOf p) ≤ h.top + mcbBytes)
    (hi : i < mcbSize (h.append n).mem (headerOf p)) :
    r.1.mem (r.2 + i) = (h.append n).mem (p + i) := by
  have hmcb : mcbBytes = 16 := rfl
  have hhead : headerOf p < h.top + mcbBytes := by
    unfold headerOf
    omega
  rw [realloc_block fuel hoff (by omega) hn] at hr
  obtain rfl := Option.some.inj hr
  have hptr : (h.top + mcbBytes) % 2 ^ 64 = h.top + mcbBytes := Nat.mod_eq_of_lt (by omega)
  dsimp only
  rw [hptr, free_mem_frame _ _ (by omega)]
  dsimp only
  rw [reallocCopied, hptr, Mem.copy_apply _ hnew (by omega) (Or.inl hold), if_pos (by omega),
    Nat.add_sub_cancel_left]

end Frame

/-! ## What stays inside -/

section Confined

variable {w : Bool} {m n : Nat}

theorem Confined.append {ts us : List Touch} (ht : Confined w ts m n) (hu : Confined w us m n) :
    Confined w (ts ++ us) m n := by
  intro t hmem
  rcases List.mem_append.mp hmem with hmem | hmem
  · exact ht t hmem
  · exact hu t hmem

theorem confined_size (w' : Bool) (r : Role) (hw : w' = false ∨ r = .new) :
    Confined w ((List.range 8).map fun i => ⟨w', r, 8 + i⟩) m n := by
  intro t ht _
  obtain ⟨i, hi, rfl⟩ := List.mem_map.mp ht
  have hlt := List.mem_range.mp hi
  have hmcb : mcbBytes = 16 := rfl
  rcases w' with _ | _ <;> rcases r with _ | _
  · show 8 + i < mcbBytes + m
    omega
  · show 8 + i < mcbBytes + n
    omega
  · rcases hw with hw | hw <;> cases hw
  · show 8 + i < mcbBytes + n
    omega

theorem confined_flag (r : Role) : Confined w (writeFree r) m n := by
  intro t ht _
  obtain rfl := List.mem_singleton.mp ht
  cases r with
  | old => rfl
  | new => exact Nat.lt_of_lt_of_le (by decide : 0 < mcbBytes) (Nat.le_add_right _ _)

theorem confined_malloc : Confined w mallocTouched m n :=
  (confined_flag .new).append (confined_size true .new (Or.inr rfl))

theorem confined_free (h : Heap) (p : Nat) : Confined w (freeTouched h p) m n := by
  have hnil : Confined w [] m n := fun t ht => by cases ht
  unfold freeTouched
  split_ifs
  · exact hnil
  · exact (confined_size false .old (Or.inl rfl)).append hnil
  · exact (confined_size false .old (Or.inl rfl)).append (confined_flag .old)

/-- The copy writes inside when it is not longer than the new block, and reads inside when it is
    not longer than the old one. -/
theorem confined_memcpy (num : Nat) :
    Confined w (memcpyTouched num) m n ↔ num ≤ if w then n else m := by
  constructor
  · intro hc
    rcases Nat.eq_zero_or_pos num with rfl | hpos
    · exact Nat.zero_le _
    -- the last byte decides
    have hmem : ∀ t, t ∈ [(⟨false, .old, mcbBytes + (num - 1)⟩ : Touch),
        ⟨true, .new, mcbBytes + (num - 1)⟩] → t ∈ memcpyTouched num :=
      fun t ht => List.mem_flatMap.mpr ⟨num - 1, List.mem_range.mpr (by omega), ht⟩
    cases w with
    | false =>
      have hread : mcbBytes + (num - 1) < mcbBytes + m := hc _ (hmem _ List.mem_cons_self) rfl
      show num ≤ m
      omega
    | true =>
      have hwrite : mcbBytes + (num - 1) < mcbBytes + n :=
        hc _ (hmem _ (List.mem_cons_of_mem _ List.mem_cons_self)) rfl
      show num ≤ n
      omega
  · intro hle t ht hw
    obtain ⟨i, hi, hmem⟩ := List.mem_flatMap.mp ht
    have hlt := List.mem_range.mp hi
    rcases List.mem_cons.mp hmem with rfl | hmem
    · obtain rfl : false = w := hw
      have hle : num ≤ m := hle
      show mcbBytes + i < mcbBytes + m
      omega
    · obtain rfl := List.mem_singleton.mp hmem
      obtain rfl : true = w := hw
      have hle : num ≤ n := hle
      show mcbBytes + i < mcbBytes + n
      omega

/-- The copy goes by the size that the old control block records. -/
theorem confined_iff (h : Heap) {p : Nat} (hp : p ≠ 0) (hn : n ≠ 0) :
    Confined w (reallocTouched h p n) m n ↔
      mcbSize (h.append n).mem (headerOf p) ≤ if w then n else m := by
  rw [reallocTouched_block hp hn, ← confined_memcpy]
  constructor
  · exact fun hc t ht => hc t (List.mem_append_left _ (List.mem_append_right _ ht))
  · intro hc
    have hread : Confined w (readSize .old) m n := confined_size false .old (Or.inl rfl)
    exact ((confined_malloc.append hread).append hc).append (confined_free _ p)

end Confined

/-! ## Runs -/

/-- In an intact heap the old control block records 16 bytes more than were asked for. -/
theorem Intact.recorded_append {base : Nat} {t : Session} (hI : Intact base t) {b : Block}
    (hb : b ∈ t.ledger) (n : Nat) (hroom : base + 2 * extent Block.size t.ledger < 2 ^ 64) :
    mcbSize (t.heap.append n).mem b.header = b.n + mcbBytes := by
  obtain ⟨hbase, hlow⟩ := hI.below hb
  have htop := hI.top
  have hsize : b.size = b.n + mcbBytes := rfl
  rw [← hsize, ← hI.recorded b hb]
  refine mcbSize_congr (by omega) fun x _ hx => ?_
  exact append_mem_frame t.heap n (by omega) (Or.inl (by omega))

/-- What `realloc` of a live block writes and reads is inside exactly when the size recorded in
    the old control block is at most the new size, or the old one. Where no size has wrapped
    around it is 16 bytes more than the old one. -/
theorem realloc_confined_iff (fuel : Nat) (mem : Mem) (base : Nat) (calls : List Call)
    (t : Session)
    (hrun : calls.foldlM (Session.step fuel) (Session.start mem base) = some t) {b : Block}
    (hb : b ∈ t.ledger) (hp : b.payload ≠ 0) {n : Nat} (hn : 0 < n) :
    (∀ w, Confined w (reallocTouched t.heap b.payload n) b.n n ↔
      mcbSize (t.heap.append n).mem b.header ≤ if w then n else b.n) ∧
    (base + 2 * requested calls < 2 ^ 64 →
      Allowed (Session.step fuel) Session.Permits (Session.start mem base) calls →
      (Confined true (reallocTouched t.heap b.payload n) b.n n ↔ b.n + 16 ≤ n) ∧
        ¬ Confined false (reallocTouched t.heap b.payload n) b.n n) := by
  have hiff : ∀ w, Confined w (reallocTouched t.heap b.payload n) b.n n ↔
      mcbSize (t.heap.append n).mem b.header ≤ if w then n else b.n :=
    fun w => confined_iff t.heap hp (by omega)
  refine ⟨hiff, fun hroom hok => ?_⟩
  obtain ⟨t', ht', hI, hfits⟩ := intact_run fuel mem base calls hroom hok
  obtain rfl : t' = t := Option.some.inj (ht'.symm.trans hrun)
  rw [hiff true, hiff false, hI.recorded_append hb n hfits]
  refine ⟨Iff.rfl, ?_⟩
  show ¬ b.n + mcbBytes ≤ b.n
  unfold mcbBytes
  omega

/-- Three bytes shrunk to one. -/
theorem realloc_confined_iff_shrink :
    ∃ t, [Call.malloc 3].foldlM (Session.step 0) (Session.start (fun _ => 0) 4096) = some t ∧
      ∃ b ∈ t.ledger, b.payload = 4112 ∧
        (∀ w, Confined w (reallocTouched t.heap b.payload 1) b.n 1 ↔
          mcbSize (t.heap.append 1).mem b.header ≤ if w then 1 else b.n) ∧
        (Confined true (reallocTouched t.heap b.payload 1) b.n 1 ↔ b.n + 16 ≤ 1) ∧
          ¬ Confined false (reallocTouched t.heap b.payload 1) b.n 1 := by
  obtain ⟨hiff, hrun⟩ := realloc_confined_iff 0 (fun _ => 0) 4096 [Call.malloc 3] _ rfl
    (List.mem_singleton.mpr rfl) (by decide) (n := 1) (by decide)
  exact ⟨_, rfl, _, List.mem_singleton.mpr rfl, rfl, hiff,
    hrun (by decide) ⟨trivial, fun _ _ => trivial⟩⟩

/-- There the copy takes 19 bytes: it reads past the three and writes past the one. -/
theorem shrink_overruns :
    ∃ t, [Call.malloc 3].foldlM (Session.step 0) (Session.start (fun _ => 0) 4096) = some t ∧
      (∃ b ∈ t.ledger, b.live = true ∧ b.payload = 4112 ∧ b.n = 3) ∧
      ∀ w, ¬ Confined w (reallocTouched t.heap 4112 1) 3 1 := by
  refine ⟨_, rfl, ⟨_, List.mem_singleton.mpr rfl, rfl, rfl, rfl⟩, fun w => ?_⟩
  rw [confined_iff _ (by decide) (by decide)]
  cases w <;> decide

end SeshOS.Memory
