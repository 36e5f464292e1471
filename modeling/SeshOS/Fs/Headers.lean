/-
  The indices at which `parse`, `readFile` and `ls` use the array `headers`.

  `parse` stores one pointer for each entry and one more, whatever the size of the array, and
  `ls` starts at index 1. So the array is used inside of its 32 entries, and only where `parse`
  has stored, exactly for archives of 1 to 31 entries (`staysInHeaders_iff`).
-/
import SeshOS.Fs.Search

namespace SeshOS.Fs

open Base Libc

/-- `parse` ends, stores inside of `headers[32]`, and every run of `readFile` and `ls` after it,
    wherever it is stopped, has read only what `parse` stored. -/
def StaysInHeaders (image : KernelImage) (mem : Mem) (a : Nat) (headers : Nat → Nat) : Prop :=
  ∃ fuel s, parse mem a headers fuel = .done s ∧ (∀ j ∈ s.stores, j < 32) ∧
    (∀ name, 0 ∉ name → ∀ n, ∀ j ∈ (readFile image mem a s.headers name n).val.reads,
      j ∈ s.stores) ∧
    ∀ stack buffers n, ∀ j ∈ (ls mem s.headers stack buffers n).val.reads, j ∈ s.stores

/-! ## readFile -/

/-- Every run of `readFile` over a parsed archive with entries stays in the archive. -/
theorem readFile_reads {image : KernelImage} {mem : Mem} {headers : Nat → Nat}
    {entries : List Entry} (hp : Parsed mem headers entries) (hne : entries ≠ [])
    {name : List Byte} (hname : 0 ∉ name) (a n : Nat) :
    ∀ j ∈ (readFile image mem a headers name n).val.reads, j ≤ entries.length := by
  obtain ⟨last, hlast, hstop, -⟩ := exists_stop name (Or.inl hne)
  have hstep : ∀ s : SearchState, s.i ≤ last → (∀ j ∈ s.reads, j ≤ entries.length) →
      ∀ j ∈ (readFileBody image mem headers name s).val.reads, j ≤ entries.length := by
    intro s hi hreads
    have hall : ∀ j ∈ s.reads ++ [s.i], j ≤ entries.length := by
      intro j hj
      rcases List.mem_append.mp hj with hj | hj
      · exact hreads j hj
      · rw [List.mem_singleton.mp hj]
        omega
    rw [readFileBody_eq image hp hname (by omega)]
    split
    · exact hall
    · exact hall
  refine loop_invariant (readFileBody image mem headers name)
    (fun s => s.i ≤ last ∧ ∀ j ∈ s.reads, j ≤ entries.length)
    (fun s => ∀ j ∈ s.reads, j ≤ entries.length) (fun s hs => hs.2) ?_ ?_ n
    ⟨Nat.zero_le _, fun j hj => by cases hj⟩
  · rintro s s' ⟨hi, hreads⟩ hbody
    have hreads' := hstep s hi hreads
    rw [hbody] at hreads'
    refine ⟨?_, hreads'⟩
    -- a round that goes on has met the name, so it is not at the last header to be read
    have hne' : s.i ≠ last := by
      intro hlast'
      rw [readFileBody_eq image hp hname (by omega), hlast', if_neg hstop] at hbody
      cases hbody
    rw [((readFileBody_index image mem headers name s).2 s').1 hbody]
    omega
  · rintro s s' ⟨hi, hreads⟩ hbody
    have hreads' := hstep s hi hreads
    rw [hbody] at hreads'
    exact hreads'

/-! ## ls -/

theorem lsSplit_frame {mem : Mem} {headers : Nat → Nat} {stack : Fin 4 → TwoStrings}
    {s s' : LsState} (h : lsSplit mem headers stack s = some s') :
    s'.i = s.i ∧ s'.reads = s.reads := by
  simp only [lsSplit, Option.bind_eq_bind, Option.bind_eq_some_iff, Option.some.injEq] at h
  obtain ⟨_, _, _, _, rfl⟩ := h
  exact ⟨rfl, rfl⟩

theorem lsPrint_frame {mem : Mem} {headers : Nat → Nat} {stack : Fin 4 → TwoStrings}
    {s s' : LsState} (h : lsPrint mem headers stack s = some s') :
    s'.i = s.i ∧ s'.reads = s.reads := by
  unfold lsPrint at h
  dsimp only at h
  split at h
  · simp only [Option.bind_eq_bind, Option.bind_eq_some_iff, Option.some.injEq] at h
    obtain ⟨_, _, _, _, _, _, rfl⟩ := h
    split <;> exact ⟨rfl, rfl⟩
  · cases h
    exact ⟨rfl, rfl⟩

/-- What a round of `ls` may have read: what was read before it, its own index and, from index
    2 on, the one in front of it. -/
def LsReads (s : LsState) (reads : List Nat) : Prop :=
  ∀ j ∈ reads, j ∈ s.reads ∨ j = s.i ∨ (1 < s.i ∧ j = s.i - 1)

theorem lsReads_refl (s : LsState) : LsReads s s.reads := fun _ hj => Or.inl hj

theorem LsReads.concat {s : LsState} {reads : List Nat} (h : LsReads s reads) {k : Nat}
    (hk : k = s.i ∨ (1 < s.i ∧ k = s.i - 1)) : LsReads s (reads ++ [k]) := by
  intro j hj
  rcases List.mem_append.mp hj with hj | hj
  · exact h j hj
  · rw [List.mem_singleton.mp hj]
    exact Or.inr hk

/-- One round: what it reads, and that it goes on only behind a name, to the next index. -/
theorem lsBody_reads (mem : Mem) (headers : Nat → Nat) (stack : Nat → Fin 4 → TwoStrings)
    (s : LsState) :
    LsReads s (lsBody mem headers stack s).val.reads ∧
      ∀ s', lsBody mem headers stack s = .next s' → mem (headers s.i) ≠ 0 ∧ s'.i = s.i + 1 := by
  have hone : LsReads s (s.reads ++ [s.i]) := (lsReads_refl s).concat (Or.inl rfl)
  have htwo : LsReads s (s.reads ++ [s.i] ++ [s.i]) := hone.concat (Or.inl rfl)
  unfold lsBody
  dsimp only
  by_cases h0 : mem (headers s.i) = 0
  · rw [if_pos h0]
    exact ⟨hone, fun s' h => by cases h⟩
  · rw [if_neg h0]
    split
    · exact ⟨htwo, fun s' h => by cases h⟩
    · rename_i s₁ hsplit
      obtain ⟨hi₁, hreads₁⟩ := lsSplit_frame hsplit
      dsimp only at hi₁ hreads₁
      -- the state in which the name in front is split, with its read
      have hthree : ∀ s₂ : LsState,
          s₂ = (if 1 < s₁.i then { s₁ with reads := s₁.reads ++ [s₁.i - 1] } else s₁) →
            LsReads s s₂.reads ∧ s₂.i = s.i := by
        intro s₂ hs₂
        by_cases hi : 1 < s₁.i
        · rw [hs₂, if_pos hi]
          refine ⟨?_, hi₁⟩
          show LsReads s (s₁.reads ++ [s₁.i - 1])
          rw [hreads₁]
          exact htwo.concat (Or.inr ⟨by omega, by omega⟩)
        · rw [hs₂, if_neg hi, hreads₁]
          exact ⟨htwo, hi₁⟩
      obtain ⟨hreads₂, hi₂⟩ := hthree _ rfl
      split
      · exact ⟨hreads₂, fun s' h => by cases h⟩
      · rename_i s₃ hprint
        obtain ⟨hi₃, hreads₃⟩ := lsPrint_frame hprint
        refine ⟨?_, fun s' h => ?_⟩
        · show LsReads s s₃.reads
          rw [hreads₃]
          exact hreads₂
        · cases h
          refine ⟨h0, ?_⟩
          show s₃.i + 1 = s.i + 1
          rw [hi₃, hi₂]

/-- Every run of `ls` over a parsed archive with entries stays in the archive. -/
theorem ls_reads {mem : Mem} {headers : Nat → Nat} {entries : List Entry}
    (hp : Parsed mem headers entries) (hne : entries ≠ [])
    (stack : Nat → Fin 4 → TwoStrings) (buffers : LsBuffers) (n : Nat) :
    ∀ j ∈ (ls mem headers stack buffers n).val.reads, j ≤ entries.length := by
  have hlast : mem (headers entries.length) = 0 := by
    have hend := (hp.name _ (Nat.le_refl _)).2
    rw [nameAt, List.getElem?_eq_none (Nat.le_refl _)] at hend
    simpa [bytesAt] using hend
  have hstep : ∀ s : LsState, s.i ≤ entries.length → (∀ j ∈ s.reads, j ≤ entries.length) →
      ∀ j ∈ (lsBody mem headers stack s).val.reads, j ≤ entries.length := by
    intro s hi hreads j hj
    rcases (lsBody_reads mem headers stack s).1 j hj with hj | rfl | ⟨_, rfl⟩
    · exact hreads j hj
    · exact hi
    · omega
  refine loop_invariant (lsBody mem headers stack)
    (fun s => s.i ≤ entries.length ∧ ∀ j ∈ s.reads, j ≤ entries.length)
    (fun s => ∀ j ∈ s.reads, j ≤ entries.length) (fun s hs => hs.2) ?_ ?_ n
    ⟨List.length_pos_iff.mpr hne, fun j hj => by cases hj⟩
  · rintro s s' ⟨hi, hreads⟩ hbody
    obtain ⟨hname, hi'⟩ := (lsBody_reads mem headers stack s).2 s' hbody
    have hlt : s.i < entries.length := by
      refine Nat.lt_of_le_of_ne hi fun h => hname ?_
      rw [h, hlast]
    have hreads' := hstep s hi hreads
    rw [hbody] at hreads'
    exact ⟨by omega, hreads'⟩
  · rintro s s' ⟨hi, hreads⟩ hbody
    have hreads' := hstep s hi hreads
    rw [hbody] at hreads'
    exact hreads'

/-! ## The bound -/

/-- For every ustar archive below `2 ^ 32`, with any number of entries: `parse` stores inside of
    `headers[32]` only, and `readFile` and `ls` read only what it stored, exactly when the
    archive has 1 to 31 entries. -/
theorem staysInHeaders_iff (image : KernelImage) (mem : Mem) (a : Nat) (entries : List Entry)
    (headers : Nat → Nat) (h : Archive mem a entries)
    (hlt : a + extent Entry.room entries + 512 ≤ 2 ^ 32) :
    StaysInHeaders image mem a headers ↔ 1 ≤ entries.length ∧ entries.length ≤ 31 := by
  obtain ⟨s, hrun, -, hheaders, hstores⟩ := parse_archive h hlt headers
  have hp := parsed_archive h hlt hheaders
  have hmem : ∀ j, j ∈ s.stores ↔ j ≤ entries.length := by
    intro j
    rw [hstores, List.mem_range]
    omega
  constructor
  · rintro ⟨fuel, s', hrun', hinside, hread, -⟩
    obtain rfl := loop_done_unique hrun hrun'
    refine ⟨?_, ?_⟩
    · -- without entries the search for the empty name goes on to index 1
      by_contra hzero
      have hempty : entries = [] := List.length_eq_zero_iff.mp (by omega)
      subst hempty
      have htwo : readFile image mem a s.headers [] 2 =
          readFileBody image mem s.headers [] ⟨1, a % 2 ^ 32, [0]⟩ :=
        (loop_next (readFileBody_past hp _)).trans (loop_one _)
      have hpast := hread [] List.not_mem_nil 2 1 (by
        rw [htwo]
        exact (readFileBody_index image mem s.headers [] _).1)
      have := (hmem 1).mp hpast
      rw [List.length_nil] at this
      omega
    · have hlast := hinside entries.length ((hmem _).mpr (Nat.le_refl _))
      omega
  · rintro ⟨hpos, h31⟩
    have hne : entries ≠ [] := List.length_pos_iff.mp hpos
    refine ⟨_, s, hrun, fun j hj => ?_, fun name hname n j hj => ?_,
      fun stack buffers n j hj => ?_⟩
    · have := (hmem j).mp hj
      omega
    · exact (hmem j).mpr (readFile_reads hp hne hname a n j hj)
    · exact (hmem j).mpr (ls_reads hp hne stack buffers n j hj)

theorem staysInHeaders_iff_one_file :
    StaysInHeaders ⟨0xffffffff80000000, Nat.le_refl _⟩ oneFileMem 4096 fun _ => 0 :=
  (staysInHeaders_iff _ oneFileMem 4096 [oneFile] _ oneFile_archive (by decide)).mpr (by decide)

/-- An empty file `a`. -/
def emptyFile : Entry := { oneFile with content := [] }

/-- 32 empty files at `2 ^ 20`, with zeros behind them. -/
def manyFilesMem : Mem := fun x =>
  if 2 ^ 20 ≤ x ∧ x < 2 ^ 20 + 32 * 512 then
    if x % 512 = 0 then chr 'a'
    else if 124 ≤ x % 512 ∧ x % 512 < 135 then chr '0'
    else 0
  else 0

/-- A byte of the `k`-th header, at offset `o`. -/
theorem manyFilesMem_header {k o : Nat} (hk : k < 32) (ho : o < 512) :
    manyFilesMem (2 ^ 20 + k * 512 + o) =
      if o = 0 then chr 'a' else if 124 ≤ o ∧ o < 135 then chr '0' else 0 := by
  have hmod : (2 ^ 20 + k * 512 + o) % 512 = o := by omega
  rw [manyFilesMem, if_pos (by omega), hmod]

theorem manyFiles_archive {n : Nat} (hn : n ≤ 32) :
    Archive manyFilesMem (2 ^ 20 + (32 - n) * 512) (List.replicate n emptyFile) := by
  induction n with
  | zero =>
    intro o ho
    exact if_neg (by omega)
  | succ n ih =>
    have hk : 32 - (n + 1) < 32 := by omega
    refine ⟨⟨fun o ho => ?_, fun k hk' => ?_, ?_, rfl⟩, ?_⟩
    · rw [manyFilesMem_header hk (by omega)]
      cases o with
      | zero => rfl
      | succ o =>
        rw [if_neg (by omega), if_neg (by omega)]
        rfl
    · have hdigit : octalDigit emptyFile.content.length (10 - k) = chr '0' := by
        show chr '0' + BitVec.ofNat 8 (0 / 8 ^ (10 - k) % 8) = chr '0'
        rw [Nat.zero_div]
        rfl
      rw [Nat.add_assoc (_ + _), manyFilesMem_header hk (by unfold sizeOffset; omega), hdigit,
        if_neg (by unfold sizeOffset; omega), if_pos (by unfold sizeOffset; omega)]
    · rw [Nat.add_assoc (_ + _), manyFilesMem_header hk (by decide)]
      rfl
    · have hnext : 2 ^ 20 + (32 - (n + 1)) * 512 + emptyFile.room = 2 ^ 20 + (32 - n) * 512 := by
        show 2 ^ 20 + (32 - (n + 1)) * 512 + 512 = _
        omega
      rw [hnext]
      exact ih (by omega)

/-- With 32 files `parse` stores at index 32. -/
theorem manyFiles_overrun :
    Archive manyFilesMem (2 ^ 20) (List.replicate 32 emptyFile) ∧
      ¬StaysInHeaders ⟨0xffffffff80000000, Nat.le_refl _⟩ manyFilesMem (2 ^ 20) fun _ => 0 := by
  have harchive : Archive manyFilesMem (2 ^ 20) (List.replicate 32 emptyFile) :=
    manyFiles_archive (Nat.le_refl 32)
  refine ⟨harchive, ?_⟩
  rintro ⟨fuel, s, hrun, hinside, -⟩
  obtain ⟨s', hrun', -, -, hstores⟩ := parse_archive harchive (by decide) fun _ => 0
  obtain rfl := loop_done_unique hrun hrun'
  have hlast : 32 ∈ s.stores := by
    rw [hstores]
    decide
  exact absurd (hinside 32 hlast) (by decide)

end SeshOS.Fs
