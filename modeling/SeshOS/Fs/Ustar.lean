/-
  The ustar encoding, and that `parse` undoes it.

  An entry takes a header block and the blocks of its contents; an archive is entries back to
  back and a zero block. `Archive mem a entries` says that memory holds one at `a`; the header
  bytes that `ramfs.c` does not look at, and the padding, are any bytes. `getsize_octal` reads
  the size field back, `nextAddress_eq` is the round-up to blocks, and `parse_run` the loop, by
  recursion on the archive.
-/
import SeshOS.Base.Layout
import SeshOS.Fs.Ramfs

namespace SeshOS.Fs

open Base Libc

/-- A file or directory: a name that fits its field with a terminator, and the contents. -/
structure Entry where
  name : List Byte
  content : List Byte
  name_ne : name ≠ []
  name_le : name.length ≤ 99
  name_nul : 0 ∉ name

/-- The header block and the blocks of the contents. -/
def Entry.room (e : Entry) : Nat := 512 + (e.content.length + 511) / 512 * 512

/-- The octal digit of `n` with weight `8 ^ k`, as a character. -/
def octalDigit (n k : Nat) : Byte := chr '0' + BitVec.ofNat 8 (n / 8 ^ k % 8)

/-- The entry is encoded at `a`: the name padded with NULs, the size as eleven octal digits and
    a NUL, the contents behind the header block. -/
structure Entry.At (mem : Mem) (a : Nat) (e : Entry) : Prop where
  name : ∀ o, o < 100 → mem (a + o) = e.name.getD o 0
  size : ∀ k, k < 11 → mem (a + sizeOffset + k) = octalDigit e.content.length (10 - k)
  sizeEnd : mem (a + sizeOffset + 11) = 0
  content : bytesAt mem (a + 512) e.content.length = e.content

/-- The entries lie back to back from `a` on, with a zero block behind the last one. -/
def Archive (mem : Mem) : Nat → List Entry → Prop
  | a, [] => ∀ o, o < 512 → mem (a + o) = 0
  | a, e :: es => e.At mem a ∧ Archive mem (a + e.room) es

/-! ## The size field -/

/-- The loop from the digit in place `j` down, with the digits behind it already added up. -/
theorem getsizeLoop_octal {mem : Mem} {p n : Nat}
    (h : ∀ k, k < 11 → mem (p + k) = octalDigit n (10 - k)) {j : Nat} (hj : j ≤ 11) :
    getsizeLoop mem p j (BitVec.ofNat 32 (n % 8 ^ (11 - j))) (BitVec.ofNat 32 (8 ^ (11 - j))) =
      BitVec.ofNat 32 (n % 8 ^ 11) := by
  induction j with
  | zero => rfl
  | succ j ih =>
    have hdigit : ∀ d : Fin 8, (chr '0' + BitVec.ofNat 8 d.val).signExtend 32 -
        (chr '0').signExtend 32 = BitVec.ofNat 32 d.val := by decide
    have hd := hdigit ⟨n / 8 ^ (10 - j) % 8, Nat.mod_lt _ (by decide)⟩
    have hplace : 11 - j = 10 - j + 1 := by omega
    have hplace' : 11 - (j + 1) = 10 - j := by omega
    have hsize : n % 8 ^ (11 - j) = n % 8 ^ (10 - j) + n / 8 ^ (10 - j) % 8 * 8 ^ (10 - j) := by
      rw [hplace, Nat.mod_pow_succ, Nat.mul_comm]
    have hcount : 8 ^ (11 - j) = 8 ^ (10 - j) * 8 := by
      rw [hplace, Nat.pow_succ]
    rw [getsizeLoop, h j (by omega), octalDigit, hd, hplace', ← ih (by omega), hsize, hcount,
      BitVec.ofNat_add, BitVec.ofNat_mul, BitVec.ofNat_mul]
    rfl

/-- Eleven octal digits give their number, modulo `2 ^ 32`. -/
theorem getsize_octal {mem : Mem} {p n : Nat}
    (h : ∀ k, k < 11 → mem (p + k) = octalDigit n (10 - k)) :
    getsize mem p = n % 8 ^ 11 % 2 ^ 32 := by
  have hloop := getsizeLoop_octal h (Nat.le_refl 11)
  have hzero : BitVec.ofNat 32 (n % 8 ^ (11 - 11)) = 0 := by simp [Nat.mod_one]
  rw [hzero] at hloop
  rw [getsize, show (1 : BitVec 32) = BitVec.ofNat 32 (8 ^ (11 - 11)) from rfl, hloop,
    BitVec.toNat_ofNat]

theorem Entry.At.getsize_eq {mem : Mem} {a : Nat} {e : Entry} (h : e.At mem a)
    (hlt : e.content.length < 2 ^ 32) : getsize mem (a + sizeOffset) = e.content.length := by
  rw [getsize_octal h.size, Nat.mod_eq_of_lt (by omega : e.content.length < 8 ^ 11),
    Nat.mod_eq_of_lt hlt]

/-- The first byte of a name is not a NUL. -/
theorem Entry.At.first_ne {mem : Mem} {a : Nat} {e : Entry} (h : e.At mem a) : mem a ≠ 0 := by
  have hfirst := h.name 0 (by decide)
  have hnul := e.name_nul
  cases hname : e.name with
  | nil => exact absurd hname e.name_ne
  | cons b bs =>
    rw [hname] at hfirst hnul
    rw [Nat.add_zero] at hfirst
    rw [hfirst]
    exact fun h0 => hnul (by rw [← h0]; exact List.mem_cons_self)

/-! ## The next header -/

/-- The two-part round-up of `parse`: a header block and whole blocks of contents. -/
theorem nextAddress_eq (a n : Nat) :
    nextAddress a n = (a + 512 + (n + 511) / 512 * 512) % 2 ^ 32 := by
  unfold nextAddress
  dsimp only
  split <;> omega

/-! ## Archives -/

theorem Entry.room_ge (e : Entry) : 512 + e.content.length ≤ e.room := by
  unfold Entry.room
  omega

theorem extent_room_ge (es : List Entry) : 512 * es.length ≤ extent Entry.room es := by
  induction es with
  | nil => exact Nat.le_refl 0
  | cons e es ih =>
    have := e.room_ge
    rw [extent_cons, List.length_cons]
    omega

/-- The entry `k` of an archive, and the block behind the last one. -/
theorem archive_entry {mem : Mem} {a : Nat} {es : List Entry} (h : Archive mem a es) {k : Nat}
    (hk : k < es.length) : es[k].At mem (a + extent Entry.room (es.take k)) := by
  induction es generalizing a k with
  | nil => cases hk
  | cons e es ih =>
    cases k with
    | zero => exact h.1
    | succ k =>
      have hrest := ih h.2 (k := k) (Nat.lt_of_succ_lt_succ hk)
      rw [List.take_succ_cons, extent_cons, ← Nat.add_assoc]
      exact hrest

theorem archive_end {mem : Mem} {a : Nat} {es : List Entry} (h : Archive mem a es) {o : Nat}
    (ho : o < 512) : mem (a + extent Entry.room es + o) = 0 := by
  induction es generalizing a with
  | nil => exact h o ho
  | cons e es ih =>
    rw [extent_cons, ← Nat.add_assoc]
    exact ih h.2

/-! ## The loop of parse -/

/-- What the rest of an archive leaves in the state. -/
structure ParsedFrom (s s' : ParseState) (es : List Entry) : Prop where
  i : s'.i = s.i + es.length
  earlier : ∀ j, j < s.i → s'.headers j = s.headers j
  headers : ∀ k, k ≤ es.length →
    s'.headers (s.i + k) = s.address + extent Entry.room (es.take k)
  stores : s'.stores = s.stores ++ List.range' s.i (es.length + 1)

/-- The round at the zero block. -/
theorem parseBody_end {mem : Mem} {s : ParseState} (h : mem s.address = 0) :
    ∃ s', parseBody mem s = .done s' ∧ ParsedFrom s s' [] := by
  refine ⟨_, if_pos h, ⟨rfl, fun j hj => ?_, fun k hk => ?_, rfl⟩⟩
  · exact Function.update_of_ne (by omega) _ _
  · obtain rfl : k = 0 := Nat.le_zero.mp hk
    exact Function.update_self _ _ _

/-- The state behind an entry. -/
def ParseState.past (s : ParseState) (e : Entry) : ParseState where
  address := s.address + e.room
  i := s.i + 1
  headers := Function.update s.headers s.i s.address
  stores := s.stores ++ [s.i]
  reads := s.reads ++ [s.address]

/-- The round at an entry. -/
theorem parseBody_entry {mem : Mem} {s : ParseState} {e : Entry} (h : e.At mem s.address)
    (hlt : s.address + e.room < 2 ^ 32) (hi : s.i + 1 < 2 ^ 32) :
    parseBody mem s = .next (s.past e) := by
  have hroom := e.room_ge
  have hnext : nextAddress s.address (getsize mem (s.address + sizeOffset)) =
      s.address + e.room := by
    rw [h.getsize_eq (by omega), nextAddress_eq, Nat.add_assoc, ← Entry.room, Nat.mod_eq_of_lt hlt]
  unfold parseBody ParseState.past
  dsimp only
  rw [if_neg h.first_ne, hnext, Nat.mod_eq_of_lt hi]

/-- One entry in front of what is parsed. -/
theorem ParsedFrom.cons {s s' : ParseState} {e : Entry} {es : List Entry}
    (h : ParsedFrom (s.past e) s' es) : ParsedFrom s s' (e :: es) := by
  have hi : (s.past e).i = s.i + 1 := rfl
  have haddress : (s.past e).address = s.address + e.room := rfl
  refine ⟨?_, fun j hj => ?_, fun k hk => ?_, ?_⟩
  · rw [h.i, hi, List.length_cons]
    omega
  · rw [h.earlier j (by omega)]
    exact Function.update_of_ne (by omega) _ _
  · cases k with
    | zero =>
      rw [h.earlier _ (by omega)]
      exact Function.update_self _ _ _
    | succ k =>
      have hk' := h.headers k (Nat.le_of_succ_le_succ hk)
      rw [hi, haddress] at hk'
      rw [List.take_succ_cons, extent_cons, show s.i + (k + 1) = s.i + 1 + k by omega, hk',
        Nat.add_assoc]
  · rw [h.stores, hi, List.length_cons, List.range'_succ]
    exact List.append_assoc _ _ _

/-- The loop over what is left of an archive. -/
theorem parse_run {mem : Mem} {es : List Entry} {s : ParseState} (h : Archive mem s.address es)
    (hlt : s.address + extent Entry.room es + 512 ≤ 2 ^ 32) (hi : s.i + es.length < 2 ^ 32) :
    ∃ s', loop (parseBody mem) (es.length + 1) s = .done s' ∧ ParsedFrom s s' es := by
  induction es generalizing s with
  | nil =>
    obtain ⟨s', hbody, hs'⟩ := parseBody_end (h 0 (by decide))
    exact ⟨s', loop_done hbody, hs'⟩
  | cons e es ih =>
    rw [extent_cons] at hlt
    rw [List.length_cons] at hi ⊢
    have hbody := parseBody_entry h.1 (by omega) (by omega)
    have hlt' : (s.past e).address + extent Entry.room es + 512 ≤ 2 ^ 32 := by
      show s.address + e.room + extent Entry.room es + 512 ≤ 2 ^ 32
      omega
    have hi' : (s.past e).i + es.length < 2 ^ 32 := by
      show s.i + 1 + es.length < 2 ^ 32
      omega
    obtain ⟨s', hrun, hs'⟩ := ih (s := s.past e) h.2 hlt' hi'
    exact ⟨s', (loop_next hbody).trans hrun, hs'.cons⟩

/-! ## parse undoes the encoding -/

/-- The run of `parse` over an archive below `2 ^ 32`, of any number of entries. -/
theorem parse_archive {mem : Mem} {a : Nat} {entries : List Entry} (h : Archive mem a entries)
    (hlt : a + extent Entry.room entries + 512 ≤ 2 ^ 32) (headers : Nat → Nat) :
    ∃ s, parse mem a headers (entries.length + 1) = .done s ∧ s.i = entries.length ∧
      (∀ k, k ≤ entries.length → s.headers k = a + extent Entry.room (entries.take k)) ∧
      s.stores = List.range (entries.length + 1) := by
  have haddress : (parseStart a headers).address = a := Nat.mod_eq_of_lt (by omega)
  have hcount := extent_room_ge entries
  have hi : (parseStart a headers).i + entries.length < 2 ^ 32 := by
    show 0 + entries.length < 2 ^ 32
    omega
  obtain ⟨s, hrun, hs⟩ := parse_run (s := parseStart a headers) (by rw [haddress]; exact h)
    (by rw [haddress]; exact hlt) hi
  refine ⟨s, hrun, hs.i.trans (Nat.zero_add _), fun k hk => ?_, ?_⟩
  · have hk' := hs.headers k hk
    rw [haddress] at hk'
    rw [← hk']
    congr 1
    exact (Nat.zero_add k).symm
  · rw [hs.stores, List.range_eq_range']
    rfl

/-- `parse` undoes the ustar encoding. Over an archive of at most 31 entries below `2 ^ 32` it
    terminates with the number of entries, stores inside of `headers` only, and sets
    `headers[k]` to the `k`-th header and `headers[count]` to the zero block; the contents of
    the `k`-th entry are the bytes that its size field counts, behind its header block. -/
theorem parse_undoes_ustar (mem : Mem) (a : Nat) (entries : List Entry) (headers : Nat → Nat)
    (hcount : entries.length ≤ 31) (h : Archive mem a entries)
    (hlt : a + extent Entry.room entries + 512 ≤ 2 ^ 32) :
    ∃ fuel s, parse mem a headers fuel = .done s ∧ s.i = entries.length ∧
      (∀ j ∈ s.stores, j < 32) ∧
      (∀ k, k ≤ entries.length → s.headers k = a + extent Entry.room (entries.take k)) ∧
      (∀ o, o < 512 → mem (s.headers entries.length + o) = 0) ∧
      ∀ k (hk : k < entries.length), entries[k].At mem (s.headers k) ∧
        bytesAt mem (s.headers k + 512) (getsize mem (s.headers k + sizeOffset)) =
          entries[k].content := by
  obtain ⟨s, hrun, hi, hheaders, hstores⟩ := parse_archive h hlt headers
  refine ⟨_, s, hrun, hi, fun j hj => ?_, hheaders, fun o ho => ?_, fun k hk => ?_⟩
  · rw [hstores, List.mem_range] at hj
    omega
  · rw [hheaders _ (Nat.le_refl _), List.take_length]
    exact archive_end h ho
  · have hat := archive_entry h hk
    rw [hheaders k (Nat.le_of_lt hk)]
    refine ⟨hat, ?_⟩
    have hroom := entries[k].room_ge
    have hinside : extent Entry.room (entries.take k) + entries[k].room ≤
        extent Entry.room entries := by
      have hsplit := extent_append Entry.room (entries.take (k + 1)) (entries.drop (k + 1))
      rw [List.take_append_drop, List.take_succ_eq_append_getElem hk, extent_append, extent_cons,
        extent_nil] at hsplit
      omega
    rw [hat.getsize_eq (by omega)]
    exact hat.content

/-- A file `a` with the contents `x`. -/
def oneFile : Entry := ⟨[chr 'a'], [chr 'x'], by decide, by decide, by decide⟩

/-- Its archive at 4096. -/
def oneFileMem : Mem := fun x =>
  if x = 4096 then chr 'a'
  else if 4220 ≤ x ∧ x < 4231 then octalDigit 1 (4230 - x)
  else if x = 4608 then chr 'x'
  else 0

theorem oneFile_archive : Archive oneFileMem 4096 [oneFile] := by
  refine ⟨⟨?_, ?_, rfl, rfl⟩, ?_⟩
  · decide +kernel
  · decide +kernel
  · intro o ho
    show oneFileMem (5120 + o) = 0
    rw [oneFileMem, if_neg (by omega), if_neg (by omega), if_neg (by omega)]

theorem parse_undoes_ustar_one_file :
    ∃ fuel s, parse oneFileMem 4096 (fun _ => 0) fuel = .done s ∧ s.i = 1 ∧
      s.headers 0 = 4096 ∧ s.headers 1 = 5120 := by
  obtain ⟨fuel, s, hrun, hi, -, hheaders, -⟩ := parse_undoes_ustar oneFileMem 4096 [oneFile]
    (fun _ => 0) (by decide) oneFile_archive (by decide)
  exact ⟨fuel, s, hrun, hi, hheaders 0 (by decide), hheaders 1 (by decide)⟩

end SeshOS.Fs
