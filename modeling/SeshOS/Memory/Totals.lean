/-
  The two totals of the memory map: `getMemSize` and `numPages` (kernel/memory/mem.c).

  `numPages` counts an entry of up to one page as one page, also an empty one, and of a longer
  entry one page for every 1024. So it misses what `uncounted` adds up, and counts one page too
  many for every empty entry (`numPages_balance`).
-/
import SeshOS.Memory.Region

namespace SeshOS.Memory

/-! ## mem.c -/

def getMemSize (entries : List MemmapEntry) : Nat :=
  entries.foldl (fun memSize e => (memSize + e.length) % 2 ^ 64) 0

/-- One round of the loop of `numPages`; `pageCount` is an `int`, the quotient a `uint64_t`. -/
def numPagesRound (pageCount : BitVec 32) (e : MemmapEntry) : BitVec 32 :=
  if e.length > 4096 then
    (pageCount.signExtend 64 + BitVec.ofNat 64 (e.length / 4194304)).setWidth 32
  else pageCount + 1

def numPages (entries : List MemmapEntry) : BitVec 32 := entries.foldl numPagesRound 0

/-! ## What is counted -/

/-- The pages of all entries. -/
def totalPages (entries : List MemmapEntry) : Nat := (entries.map fun e => e.length / 4096).sum

/-- The pages that `numPages` counts for an entry. -/
def countedPages (e : MemmapEntry) : Nat := if e.length > 4096 then e.length / 4194304 else 1

def emptyEntries (entries : List MemmapEntry) : Nat := entries.countP fun e => e.length = 0

/-- The pages of the entries longer than one page, less one for every 1024 of an entry. -/
def uncounted (entries : List MemmapEntry) : Nat :=
  ((entries.filter fun e => e.length > 4096).map fun e =>
    e.length / 4096 - e.length / 4194304).sum

theorem numPagesRound_eq (pageCount : BitVec 32) (e : MemmapEntry) :
    numPagesRound pageCount e = pageCount + BitVec.ofNat 32 (countedPages e) := by
  unfold numPagesRound countedPages
  split
  · rw [BitVec.setWidth_add _ _ (by decide), BitVec.setWidth_ofNat_of_le (by decide)]
    congr 1
    ext i hi
    rw [BitVec.getElem_setWidth, BitVec.getLsbD_signExtend]
    simp [hi, show i < 64 by omega]
  · rfl

theorem numPages_eq (entries : List MemmapEntry) :
    numPages entries = BitVec.ofNat 32 (entries.map countedPages).sum := by
  induction entries using List.reverseRecOn with
  | nil => rfl
  | append_singleton entries e ih =>
    rw [numPages, List.foldl_append, ← numPages, ih, List.foldl_cons, List.foldl_nil,
      numPagesRound_eq, List.map_append, List.sum_append, BitVec.ofNat_add, List.map_singleton,
      List.sum_singleton]

theorem getMemSize_eq {entries : List MemmapEntry} (h : (entries.map (·.length)).sum < 2 ^ 64) :
    getMemSize entries = (entries.map (·.length)).sum := by
  induction entries using List.reverseRecOn with
  | nil => rfl
  | append_singleton entries e ih =>
    rw [List.map_append, List.sum_append, List.map_singleton, List.sum_singleton] at h ⊢
    rw [getMemSize, List.foldl_append, ← getMemSize, ih (by omega), List.foldl_cons,
      List.foldl_nil, Nat.mod_eq_of_lt h]

theorem uncounted_cons (e : MemmapEntry) (entries : List MemmapEntry) :
    uncounted (e :: entries) =
      (if e.length > 4096 then e.length / 4096 - e.length / 4194304 else 0) +
        uncounted entries := by
  unfold uncounted
  simp only [List.filter_cons, decide_eq_true_eq]
  split
  · rw [List.map_cons, List.sum_cons]
  · rw [Nat.zero_add]

/-- What is counted and what is missed are the pages, and one more for every empty entry. -/
theorem numPages_balance {entries : List MemmapEntry}
    (hpages : ∀ e ∈ entries, e.length % 4096 = 0) :
    (entries.map countedPages).sum + uncounted entries =
      totalPages entries + emptyEntries entries := by
  induction entries with
  | nil => rfl
  | cons e entries ih =>
    rw [List.forall_mem_cons] at hpages
    have hrest := ih hpages.2
    have hpage := hpages.1
    have hempty : emptyEntries (e :: entries) =
        (if e.length = 0 then 1 else 0) + emptyEntries entries := by
      simp only [emptyEntries, List.countP_cons, decide_eq_true_eq]
      omega
    have htotal : totalPages (e :: entries) = e.length / 4096 + totalPages entries := by
      rw [totalPages, List.map_cons, List.sum_cons, ← totalPages]
    rw [uncounted_cons, hempty, htotal, List.map_cons, List.sum_cons, countedPages]
    by_cases he : e.length > 4096
    · rw [if_pos he, if_pos he, if_neg (by omega)]
      omega
    · rw [if_neg he, if_neg he]
      split <;> omega

theorem length_eq_totalPages {entries : List MemmapEntry}
    (hpages : ∀ e ∈ entries, e.length % 4096 = 0) :
    (entries.map (·.length)).sum = 4096 * totalPages entries := by
  induction entries with
  | nil => rfl
  | cons e entries ih =>
    rw [List.forall_mem_cons] at hpages
    have hpage := hpages.1
    have hrest := ih hpages.2
    rw [totalPages, List.map_cons, List.map_cons, List.sum_cons, List.sum_cons, ← totalPages, hrest]
    omega

theorem uncounted_le (entries : List MemmapEntry) : uncounted entries ≤ totalPages entries := by
  induction entries with
  | nil => exact Nat.le_refl 0
  | cons e entries ih =>
    rw [uncounted_cons, totalPages, List.map_cons, List.sum_cons, ← totalPages]
    split <;> omega

/-- The two totals agree. -/
def TotalsAgree (entries : List MemmapEntry) : Prop :=
  (numPages entries).toInt * 4096 = getMemSize entries

instance (entries : List MemmapEntry) : Decidable (TotalsAgree entries) :=
  inferInstanceAs (Decidable (_ = _))

/-- For every memory map of whole pages, of less than `2 ^ 43` bytes in all: the totals agree
    exactly when the empty entries, counted in 32 bits, make up for the pages that are missed. -/
theorem totals_agree_iff {entries : List MemmapEntry}
    (hpages : ∀ e ∈ entries, e.length % 4096 = 0)
    (htotal : (entries.map (·.length)).sum < 2 ^ 43) :
    TotalsAgree entries ↔ emptyEntries entries % 2 ^ 32 = uncounted entries := by
  have hsize := length_eq_totalPages hpages
  have hbalance := numPages_balance hpages
  have hmissed := uncounted_le entries
  rw [TotalsAgree, getMemSize_eq (by omega), hsize, numPages_eq, BitVec.toInt_eq_toNat_cond,
    BitVec.toNat_ofNat]
  split <;> omega

/-- An entry of two pages, none of which is counted. -/
def twoPages : MemmapEntry := ⟨8192, 8192, limineMemmapUsable, by decide, by decide, by decide⟩

/-- An entry without a page, which is counted as one. -/
def noPages : MemmapEntry := ⟨16384, 0, limineMemmapUsable, by decide, by decide, by decide⟩

/-- Two empty entries make up for the entry of two pages. -/
theorem totals_agree_balanced : TotalsAgree [onePage, noPages, twoPages, noPages] :=
  (totals_agree_iff
    (show ∀ e ∈ [onePage, noPages, twoPages, noPages], e.length % 4096 = 0 by decide)
    (by decide)).mpr (by decide)

theorem two_pages_uncounted :
    ¬∀ entries : List MemmapEntry, (∀ e ∈ entries, e.length % 4096 = 0) →
      (entries.map (·.length)).sum < 2 ^ 43 → TotalsAgree entries := by
  intro h
  exact absurd (h [twoPages] (by decide) (by decide)) (by decide)

end SeshOS.Memory
