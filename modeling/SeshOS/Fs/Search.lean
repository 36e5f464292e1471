/-
  The search of `readFile`.

  The loop goes on while the names are equal and stops at the first header whose name differs,
  the zero block behind the last entry included; its own test compares two addresses that are
  never equal. `readFile_stops` is that run. `readFile_finds_iff` says for which archives and
  names the result is what a search should give.
-/
import SeshOS.Fs.Ustar
import SeshOS.Libc.Order

namespace SeshOS.Fs

open Base Libc

/-- The string `s` with its terminator lies at `p`. -/
def StringAt (mem : Mem) (p : Nat) (s : List Byte) : Prop :=
  0 ∉ s ∧ bytesAt mem p (s.length + 1) = s ++ [0]

/-- The name in the `k`-th header, the zero block's being empty. -/
def nameAt (entries : List Entry) (k : Nat) : List Byte := (entries[k]?.map Entry.name).getD []

/-- The search does what it is for: it ends, looks at the headers of the archive only, returns
    the contents of the first entry with the name, and without one not those of any entry. -/
def FindsFile (image : KernelImage) (mem : Mem) (a : Nat) (headers : Nat → Nat)
    (entries : List Entry) (name : List Byte) : Prop :=
  ∃ fuel r, readFile image mem a headers name fuel = .done r ∧
    (∀ j ∈ r.reads, j ≤ entries.length) ∧
    (∀ k, k < entries.length → nameAt entries k = name → (∀ j, j < k → nameAt entries j ≠ name) →
      r.contents = headers k + 512) ∧
    ((∀ e ∈ entries, e.name ≠ name) → ∀ k, k < entries.length → r.contents ≠ headers k + 512)

/-! ## Strings in memory -/

theorem bytesAt_length (mem : Mem) (p n : Nat) : (bytesAt mem p n).length = n := by
  simp [bytesAt]

theorem bytesAt_getElem {mem : Mem} {p n o : Nat} (h : o < (bytesAt mem p n).length) :
    (bytesAt mem p n)[o] = mem (p + o) := by
  simp [bytesAt]

theorem bytesAt_add (mem : Mem) (p m n : Nat) :
    bytesAt mem p (m + n) = bytesAt mem p m ++ bytesAt mem (p + m) n := by
  simp [bytesAt, List.range_add, Nat.add_assoc, Function.comp_def]

/-- Only one string lies at an address. -/
theorem stringAt_unique {mem : Mem} {p : Nat} {s t : List Byte} (hs : StringAt mem p s)
    (ht : StringAt mem p t) : s = t := by
  have hvis : ∀ {u : List Byte}, StringAt mem p u → ∀ n,
      visible (bytesAt mem p (u.length + 1 + n)) = u := by
    intro u hu n
    rw [bytesAt_add, hu.2, List.append_assoc]
    show visible (u ++ 0 :: _) = u
    rw [visible_terminated, visible_eq_self hu.1]
  have h := hvis hs t.length
  rw [show s.length + 1 + t.length = t.length + 1 + s.length by omega, hvis ht] at h
  exact h.symm

theorem strcmp_at {mem : Mem} {p : Nat} {s name : List Byte} (hs : StringAt mem p s)
    (hname : 0 ∉ name) :
    strcmp (name ++ [0]) (bytesAt mem p (name.length + 1)) = some 0 ↔ s = name := by
  rw [strcmp_zero_iff hname (bytesAt_length _ _ _)]
  constructor
  · intro h
    exact stringAt_unique hs ⟨hname, h⟩
  · rintro rfl
    exact hs.2

theorem Entry.At.stringAt {mem : Mem} {a : Nat} {e : Entry} (h : e.At mem a) :
    StringAt mem a e.name := by
  refine ⟨e.name_nul, ?_⟩
  have hle := e.name_le
  apply List.ext_getElem
  · simp [bytesAt]
  · intro o h1 h2
    rw [bytesAt_length] at h1
    rw [bytesAt_getElem, h.name o (by omega)]
    by_cases ho : o < e.name.length
    · rw [List.getElem_append_left ho, List.getD_eq_getElem _ _ ho]
    · have hend : o = e.name.length := by omega
      subst hend
      rw [List.getElem_append_right (Nat.le_refl _), List.getD_eq_default _ _ (Nat.le_refl _)]
      simp

/-- What a parsed archive gives to the search: the header pointers, and the names there. -/
structure Parsed (mem : Mem) (headers : Nat → Nat) (entries : List Entry) : Prop where
  low : ∀ k, k ≤ entries.length → headers k < 2 ^ 32
  first : ∀ k, 0 < k → k ≤ entries.length → headers 0 < headers k
  name : ∀ k, k ≤ entries.length → StringAt mem (headers k) (nameAt entries k)

theorem extent_take_le (entries : List Entry) (k : Nat) :
    extent Entry.room (entries.take k) ≤ extent Entry.room entries := by
  have hsplit := extent_append Entry.room (entries.take k) (entries.drop k)
  rw [List.take_append_drop] at hsplit
  omega

theorem parsed_archive {mem : Mem} {a : Nat} {entries : List Entry} {headers : Nat → Nat}
    (h : Archive mem a entries) (hlt : a + extent Entry.room entries + 512 ≤ 2 ^ 32)
    (hheaders : ∀ k, k ≤ entries.length →
      headers k = a + extent Entry.room (entries.take k)) : Parsed mem headers entries where
  low k hk := by
    have := extent_take_le entries k
    rw [hheaders k hk]
    omega
  first k hpos hk := by
    have hroom := extent_room_ge (entries.take k)
    rw [List.length_take, Nat.min_eq_left hk] at hroom
    rw [hheaders k hk, hheaders 0 (Nat.zero_le _), List.take_zero, extent_nil]
    omega
  name k hk := by
    rw [hheaders k hk]
    by_cases hlast : k < entries.length
    · have hname : nameAt entries k = entries[k].name := by
        rw [nameAt, List.getElem?_eq_getElem hlast]
        rfl
      rw [hname]
      exact (archive_entry h hlast).stringAt
    · have hname : nameAt entries k = [] := by
        rw [nameAt, List.getElem?_eq_none (by omega)]
        rfl
      rw [hname, List.take_of_length_le (by omega)]
      refine ⟨List.not_mem_nil, ?_⟩
      have hzero := archive_end h (o := 0) (by decide)
      simpa [bytesAt] using hzero

/-! ## The loop -/

section

variable (image : KernelImage) {mem : Mem} {headers : Nat → Nat} {entries : List Entry}
  (hp : Parsed mem headers entries) {name : List Byte} (hname : 0 ∉ name)

include hp hname

/-- One round at a header of the archive. -/
theorem readFileBody_eq {s : SearchState} (hi : s.i ≤ entries.length) :
    readFileBody image mem headers name s =
      if nameAt entries s.i = name then .next { s with i := s.i + 1, reads := s.reads ++ [s.i] }
      else .done { s with header := headers s.i, reads := s.reads ++ [s.i] } := by
  have hliteral : headers s.i ≠ image.emptyLiteral := by
    have hlow := hp.low _ hi
    have hin := image.inKernel
    omega
  have hcmp := strcmp_at (hp.name _ hi) hname
  unfold readFileBody
  dsimp only
  rw [if_neg hliteral]
  by_cases heq : nameAt entries s.i = name
  · rw [if_pos heq, if_neg (not_not.mpr (hcmp.mpr heq))]
  · rw [if_neg heq, if_pos fun h => heq (hcmp.mp h)]

/-- The search stops at the first header whose name is not the one looked for. -/
theorem readFile_stops {j : Nat} (hj : j ≤ entries.length) (hne : nameAt entries j ≠ name)
    (heq : ∀ i, i < j → nameAt entries i = name) (a : Nat) :
    readFile image mem a headers name (j + 1) = .done ⟨j, headers j, List.range (j + 1)⟩ := by
  have hrun : ∀ i, i ≤ j → loop (readFileBody image mem headers name) i ⟨0, a % 2 ^ 32, []⟩ =
      .next ⟨i, a % 2 ^ 32, List.range i⟩ := by
    intro i hi
    induction i with
    | zero => rfl
    | succ i ih =>
      refine (loop_add i 1 _ _ (ih (by omega))).trans ?_
      have hround := readFileBody_eq image hp hname
        (s := ⟨i, a % 2 ^ 32, List.range i⟩) (by dsimp only; omega)
      rw [if_pos (heq i (by omega))] at hround
      rw [loop_next hround, loop_zero, List.range_succ]
  refine (loop_add j 1 _ _ (hrun j (Nat.le_refl j))).trans ?_
  rw [loop_done (by rw [readFileBody_eq image hp hname hj, if_neg hne]), List.range_succ]

end

/-- A round that goes on moves to the next index, one that stops stays, and both have read their
    own. -/
theorem readFileBody_index (image : KernelImage) (mem : Mem) (headers : Nat → Nat)
    (name : List Byte) (s : SearchState) :
    s.i ∈ (readFileBody image mem headers name s).val.reads ∧ ∀ s',
      (readFileBody image mem headers name s = .next s' → s'.i = s.i + 1) ∧
      (readFileBody image mem headers name s = .done s' → s'.i = s.i) := by
  have hlast : s.i ∈ s.reads ++ [s.i] := List.mem_append_right _ (List.mem_singleton_self _)
  unfold readFileBody
  dsimp only
  split
  · exact ⟨hlast, fun s' => ⟨fun h => (by cases h), fun h => (by cases h; rfl)⟩⟩
  · split
    · exact ⟨hlast, fun s' => ⟨fun h => (by cases h), fun h => (by cases h; rfl)⟩⟩
    · exact ⟨hlast, fun s' => ⟨fun h => (by cases h; rfl), fun h => (by cases h)⟩⟩

/-- In an empty archive the search for the empty name goes past the zero block. -/
theorem readFileBody_past {image : KernelImage} {mem : Mem} {headers : Nat → Nat}
    (hp : Parsed mem headers []) (a : Nat) :
    readFileBody image mem headers [] ⟨0, a, []⟩ = .next ⟨1, a, [0]⟩ := by
  rw [readFileBody_eq image hp List.not_mem_nil (Nat.le_refl 0)]
  exact if_pos rfl

/-- The first entry with a name, if some entry has it. -/
theorem exists_first {entries : List Entry} {name : List Byte}
    (h : ∃ e ∈ entries, e.name = name) :
    ∃ k, k < entries.length ∧ nameAt entries k = name ∧ ∀ j, j < k → nameAt entries j ≠ name := by
  have hex : ∃ k, k < entries.length ∧ nameAt entries k = name := by
    obtain ⟨e, he, hname⟩ := h
    obtain ⟨k, hk, rfl⟩ := List.mem_iff_getElem.mp he
    refine ⟨k, hk, ?_⟩
    rw [nameAt, List.getElem?_eq_getElem hk]
    exact hname
  classical
  obtain ⟨hlt, hname⟩ := Nat.find_spec hex
  exact ⟨Nat.find hex, hlt, hname, fun j hj hjname => Nat.find_min hex hj ⟨by omega, hjname⟩⟩

/-- There is such a header, unless the archive is empty and so is the name. -/
theorem exists_stop {entries : List Entry} (name : List Byte) (h : entries ≠ [] ∨ name ≠ []) :
    ∃ j, j ≤ entries.length ∧ nameAt entries j ≠ name ∧ ∀ i, i < j → nameAt entries i = name := by
  have hex : ∃ j, j ≤ entries.length ∧ nameAt entries j ≠ name := by
    by_cases hname : name = []
    · -- every entry has a name
      obtain ⟨e, es, rfl⟩ := List.exists_cons_of_ne_nil (h.resolve_right (not_not.mpr hname))
      exact ⟨0, Nat.zero_le _, by rw [hname]; exact e.name_ne⟩
    · refine ⟨entries.length, Nat.le_refl _, ?_⟩
      rw [nameAt, List.getElem?_eq_none (Nat.le_refl _)]
      exact fun h => hname h.symm
  classical
  obtain ⟨hle, hne⟩ := Nat.find_spec hex
  refine ⟨Nat.find hex, hle, hne, fun i hi => ?_⟩
  have hmin := Nat.find_min hex hi
  by_contra heq
  exact hmin ⟨by omega, heq⟩

/-- In an empty archive every result of the search for the empty name comes from behind the zero
    block, and has been read there. -/
theorem readFile_past {image : KernelImage} {mem : Mem} {headers : Nat → Nat}
    (hp : Parsed mem headers []) {a fuel : Nat} {r : SearchState}
    (hrun : readFile image mem a headers [] fuel = .done r) : 1 ≤ r.i ∧ r.i ∈ r.reads := by
  cases fuel with
  | zero => cases hrun
  | succ fuel =>
    have hrest := (loop_next (readFileBody_past hp _)).symm.trans hrun
    refine loop_result (fun s => 1 ≤ s.i) (fun r => 1 ≤ r.i ∧ r.i ∈ r.reads) ?_ ?_
      (Nat.le_refl 1) hrest
    · intro s s' hs hb
      have hi := ((readFileBody_index image mem headers [] s).2 s').1 hb
      omega
    · intro s s' hs hb
      obtain ⟨hmem, hindex⟩ := readFileBody_index image mem headers [] s
      rw [hb] at hmem
      rw [(hindex s').2 hb]
      exact ⟨hs, hmem⟩

/-- In an archive with entries the search returns the contents behind the first header with
    another name. -/
theorem readFile_result {image : KernelImage} {mem : Mem} {headers : Nat → Nat}
    {entries : List Entry} (hp : Parsed mem headers entries) (hne : entries ≠ [])
    {name : List Byte} (hname : 0 ∉ name) {a fuel : Nat} {r : SearchState}
    (hrun : readFile image mem a headers name fuel = .done r) :
    ∃ j, j ≤ entries.length ∧ nameAt entries j ≠ name ∧ (∀ i, i < j → nameAt entries i = name) ∧
      r.contents = headers j + 512 := by
  obtain ⟨j, hj, hstop, heq⟩ := exists_stop name (Or.inl hne)
  obtain rfl := loop_done_unique hrun (readFile_stops image hp hname hj hstop heq a)
  exact ⟨j, hj, hstop, heq, rfl⟩

/-! ## When the search finds the file -/

/-- Over a parsed archive, `readFile` does what it is for exactly when there is nothing to
    find: no entries, and a name that is not empty. -/
theorem findsFile_iff {image : KernelImage} {mem : Mem} {headers : Nat → Nat}
    {entries : List Entry} (hp : Parsed mem headers entries) {name : List Byte} (hname : 0 ∉ name)
    (a : Nat) : FindsFile image mem a headers entries name ↔ entries = [] ∧ name ≠ [] := by
  constructor
  · rintro ⟨fuel, r, hrun, hreads, hfound, hmissing⟩
    by_cases hempty : entries = []
    · refine ⟨hempty, fun hnil => ?_⟩
      -- the zero block has the empty name, and the search goes on behind it
      subst hempty hnil
      obtain ⟨hi, hread⟩ := readFile_past hp hrun
      have := hreads r.i hread
      rw [List.length_nil] at this
      omega
    · exfalso
      obtain ⟨j, hj, hne, heq, hcontents⟩ := readFile_result hp hempty hname hrun
      have hpos : 0 < entries.length := List.length_pos_iff.mpr hempty
      cases j with
      | zero =>
        -- the first entry has another name, and is returned
        by_cases hany : ∃ e ∈ entries, e.name = name
        · obtain ⟨k, hk, hkname, hkfirst⟩ := exists_first hany
          have hk512 := hfound k hk hkname hkfirst
          have hkpos : 0 < k := by
            refine Nat.pos_of_ne_zero ?_
            rintro rfl
            exact hne hkname
          have hfirst := hp.first k hkpos (Nat.le_of_lt hk)
          omega
        · exact hmissing (fun e he hname => hany ⟨e, he, hname⟩) 0 hpos hcontents
      | succ j =>
        -- the first entry has the name, and a later header is returned
        have hfirst := hp.first (j + 1) (Nat.succ_pos j) hj
        have hzero := hfound 0 hpos (heq 0 (Nat.succ_pos j)) (fun i hi => by omega)
        omega
  · rintro ⟨rfl, hne⟩
    have hstop := readFile_stops image hp hname (Nat.le_refl 0)
      (by rw [nameAt]; exact fun h => hne h.symm) (fun i hi => by omega) a
    refine ⟨1, _, hstop, fun j hj => ?_, fun k hk => ?_, fun _ k hk => ?_⟩
    · simpa using hj
    · exact absurd hk (Nat.not_lt_zero k)
    · exact absurd hk (Nat.not_lt_zero k)

/-- For every archive that `parse` has read and every name: `readFile` returns the contents of
    the first entry with that name, never an entry's contents for a name that no entry has, and
    inspects the headers of the archive only, exactly when the archive has no entries and the
    name is not empty. -/
theorem readFile_finds_iff (image : KernelImage) (mem : Mem) (a : Nat) (entries : List Entry)
    (headers : Nat → Nat) (hcount : entries.length ≤ 31) (h : Archive mem a entries)
    (hlt : a + extent Entry.room entries + 512 ≤ 2 ^ 32) (name : List Byte) (hname : 0 ∉ name) :
    ∃ fuel s, parse mem a headers fuel = .done s ∧ (∀ j ∈ s.stores, j < 32) ∧
      (FindsFile image mem a s.headers entries name ↔ entries = [] ∧ name ≠ []) := by
  obtain ⟨s, hrun, -, hheaders, hstores⟩ := parse_archive h hlt headers
  refine ⟨_, s, hrun, fun j hj => ?_, findsFile_iff (parsed_archive h hlt hheaders) hname a⟩
  rw [hstores, List.mem_range] at hj
  omega

theorem readFile_finds_iff_one_file :
    ∃ fuel s, parse oneFileMem 4096 (fun _ => 0) fuel = .done s ∧
      ¬FindsFile ⟨0xffffffff80000000, Nat.le_refl _⟩ oneFileMem 4096 s.headers [oneFile]
        [chr 'a'] := by
  obtain ⟨fuel, s, hrun, -, hiff⟩ := readFile_finds_iff ⟨0xffffffff80000000, Nat.le_refl _⟩
    oneFileMem 4096 [oneFile] (fun _ => 0) (by decide) oneFile_archive (by decide) [chr 'a']
    (by decide)
  exact ⟨fuel, s, hrun, fun h => absurd (hiff.mp h).1 (List.cons_ne_nil _ _)⟩

/-- Over the archive with the file `a`, `readFile("a")` returns what is behind the zero block. -/
theorem readFile_misses_file :
    ∃ s r, parse oneFileMem 4096 (fun _ => 0) 2 = .done s ∧
      readFile ⟨0xffffffff80000000, Nat.le_refl _⟩ oneFileMem 4096 s.headers [chr 'a'] 2 =
        .done r ∧ r.contents ≠ s.headers 0 + 512 ∧
      ¬FindsFile ⟨0xffffffff80000000, Nat.le_refl _⟩ oneFileMem 4096 s.headers [oneFile]
        [chr 'a'] := by
  refine ⟨_, _, rfl, rfl, by decide, ?_⟩
  rintro ⟨fuel, r, hrun, -, hfound, -⟩
  obtain rfl := loop_done_unique (m := 2) hrun rfl
  exact absurd (hfound 0 (by decide) rfl fun j hj => absurd hj (Nat.not_lt_zero j)) (by decide)

end SeshOS.Fs
