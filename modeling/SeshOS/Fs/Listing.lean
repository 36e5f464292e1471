/-
  What `ls` prints for an archive of a directory.

  Each name is split twice, at its first `/` and what is behind at its next, which leaves the
  top-level name (`split_top`). A round prints it when it equals that of the entry in front, and
  the first round always does. So the first name is printed as often as it occurs and every other
  once less (`repeats`), and `ls` lists each name once exactly when the first has one entry and
  every other has two (`ls_lists_iff`).
-/
import SeshOS.Base.Groups
import SeshOS.Fs.Search
import SeshOS.Libc.Split

namespace SeshOS.Fs

open Base Libc

/-! ## Archives of a directory -/

/-- The name is `./top` or `./top/rest`. -/
structure Under (top name : List Byte) : Prop where
  ne : top ≠ []
  flat : chr '/' ∉ top
  form : name = ascii "./" ++ top ∨ ∃ rest, name = ascii "./" ++ (top ++ chr '/' :: rest)

/-- What `tar` makes of a directory: `./`, and behind it entries with the top-level names
    `tops`, those with equal ones together. -/
structure Directory (entries : List Entry) (tops : List (List Byte)) : Prop where
  names : ∃ names, entries.map Entry.name = ascii "./" :: names ∧ List.Forall₂ Under tops names
  contiguous : Contiguous tops
  fits : entries.length ≤ 31

/-! ## What is printed -/

/-- What each round of a run prints. -/
def lsChunks (mem : Mem) (headers : Nat → Nat) (stack : Nat → Fin 4 → TwoStrings) :
    Nat → LsState → List (List Byte)
  | 0, _ => []
  | n + 1, s =>
    match lsBody mem headers stack s with
    | .next s' => s'.printed.drop s.printed.length :: lsChunks mem headers stack n s'
    | .done s' => [s'.printed.drop s.printed.length]

/-- The same without the rounds that print nothing. -/
def lsLines (mem : Mem) (headers : Nat → Nat) (stack : Nat → Fin 4 → TwoStrings)
    (buffers : LsBuffers) (fuel : Nat) : List (List Byte) :=
  (lsChunks mem headers stack fuel ⟨1, buffers, [], [], false⟩).filter (· ≠ [])

/-- `ls` ends, inside of its buffers, and has printed each of the names once and in order, a
    line each, and nothing else. -/
def ListsOnce (mem : Mem) (headers : Nat → Nat) (stack : Nat → Fin 4 → TwoStrings)
    (buffers : LsBuffers) (tops : List (List Byte)) : Prop :=
  ∃ fuel s lines, ls mem headers stack buffers fuel = .done s ∧ s.fault = false ∧
    OnceEach lines tops ∧ lsLines mem headers stack buffers fuel = lines.map (· ++ [0x0A]) ∧
    s.printed = (lines.map (· ++ [0x0A])).flatten

section Chunks

variable {mem : Mem} {headers : Nat → Nat} {stack : Nat → Fin 4 → TwoStrings}

theorem lsPrint_printed {stack : Fin 4 → TwoStrings} {s s' : LsState}
    (h : lsPrint mem headers stack s = some s') : s.printed <+: s'.printed := by
  have hline : ∀ (s : LsState) (str : List Byte), s.printed <+: (s.printLine str).printed := by
    intro s str
    refine ⟨visible str ++ [0x0A], ?_⟩
    rw [LsState.printLine, List.append_assoc]
  unfold lsPrint at h
  dsimp only at h
  split at h
  · simp only [Option.bind_eq_bind, Option.bind_eq_some_iff, Option.some.injEq] at h
    obtain ⟨old, _, oldIn, _, d, _, rfl⟩ := h
    split
    · exact hline _ _
    · exact List.prefix_refl _
  · cases h
    exact hline _ _

theorem lsSplit_printed {stack : Fin 4 → TwoStrings} {s s' : LsState}
    (h : lsSplit mem headers stack s = some s') : s'.printed = s.printed := by
  simp only [lsSplit, Option.bind_eq_bind, Option.bind_eq_some_iff, Option.some.injEq] at h
  obtain ⟨full, _, inPath, _, rfl⟩ := h
  rfl

variable (mem headers stack) in
/-- A round only adds to what is printed. -/
theorem lsBody_printed (s : LsState) :
    ∃ out, (lsBody mem headers stack s).val.printed = s.printed ++ out := by
  have hsame : ∃ out, s.printed = s.printed ++ out := ⟨[], (List.append_nil _).symm⟩
  unfold lsBody
  dsimp only
  by_cases h0 : mem (headers s.i) = 0
  · rw [if_pos h0]
    exact hsame
  · rw [if_neg h0]
    split
    · dsimp only [Iter.val_done]
      exact hsame
    · rename_i s₁ hsplit
      have hprinted₁ := lsSplit_printed hsplit
      dsimp only at hprinted₁
      generalize hs₂ :
        (if 1 < s₁.i then { s₁ with reads := s₁.reads ++ [s₁.i - 1] } else s₁) = s₂
      have hprinted₂ : s₂.printed = s.printed := by
        rw [← hprinted₁, ← hs₂]
        split <;> rfl
      rw [← hprinted₂]
      split
      · exact ⟨[], (List.append_nil _).symm⟩
      · rename_i s₃ hprint
        obtain ⟨out, hout⟩ := lsPrint_printed hprint
        exact ⟨out, hout.symm⟩

variable (mem headers stack) in
/-- The rounds' output, one behind the other, is all that is printed. -/
theorem printed_chunks (n : Nat) (s : LsState) :
    (loop (lsBody mem headers stack) n s).val.printed =
      s.printed ++ (lsChunks mem headers stack n s).flatten := by
  induction n generalizing s with
  | zero => exact (List.append_nil _).symm
  | succ n ih =>
    obtain ⟨out, hadded⟩ := lsBody_printed mem headers stack s
    cases hbody : lsBody mem headers stack s with
    | next s' =>
      rw [hbody] at hadded
      rw [loop_next hbody, lsChunks, hbody, ih]
      dsimp only [Iter.val_next] at hadded ⊢
      rw [List.flatten_cons, hadded, List.drop_left, List.append_assoc]
    | done s' =>
      rw [hbody] at hadded
      rw [loop_done hbody, lsChunks, hbody]
      dsimp only [Iter.val_done] at hadded ⊢
      rw [List.flatten_cons, List.flatten_nil, List.append_nil, hadded, List.drop_left]

/-- So all that a run prints is in its lines. -/
theorem printed_lines {buffers : LsBuffers} {n : Nat} {r : LsState}
    (h : ls mem headers stack buffers n = .done r) :
    r.printed = (lsLines mem headers stack buffers n).flatten := by
  have hprinted := printed_chunks mem headers stack n
    ⟨1, buffers, [], [], false⟩
  rw [show loop (lsBody mem headers stack) n ⟨1, buffers, [], [], false⟩ = .done r from h,
    Iter.val_done, List.nil_append] at hprinted
  rw [hprinted, lsLines, List.flatten_filter_ne_nil]

/-- More rounds than the run has add nothing. -/
theorem lsChunks_done {n m : Nat} {s r : LsState}
    (h : loop (lsBody mem headers stack) n s = .done r) (hm : n ≤ m) :
    lsChunks mem headers stack m s = lsChunks mem headers stack n s := by
  induction n generalizing s m with
  | zero => cases h
  | succ n ih =>
    obtain ⟨k, rfl⟩ : ∃ k, m = k + 1 := ⟨m - 1, by omega⟩
    rw [lsChunks, lsChunks]
    cases hbody : lsBody mem headers stack s with
    | next s' =>
      rw [loop_next hbody] at h
      dsimp only
      rw [ih h (by omega)]
    | done s' => rfl

end Chunks

/-! ## One name -/

/-- A name below `top` lies at `p`. -/
def TopAt (mem : Mem) (p : Nat) (top : List Byte) : Prop :=
  ∃ name, StringAt mem p name ∧ name.length ≤ 99 ∧ Under top name

/-- The first `/` is that of `./`, the next ends the top-level name. -/
theorem Under.before_behind {top name : List Byte} (h : Under top name) :
    before (chr '/') (behind (chr '/') name) = top := by
  have hdot : ∀ t, behind (chr '/') (ascii "./" ++ t) = t := fun t =>
    (before_split (chr '/') (s := [chr '.']) (by decide) t).2
  rcases h.form with rfl | ⟨rest, rfl⟩
  · rw [hdot]
    exact before_of_notMem h.flat
  · rw [hdot]
    exact (before_split (chr '/') h.flat rest).1

theorem TopAt.first_ne {mem : Mem} {p : Nat} {top : List Byte} (h : TopAt mem p top) :
    mem p ≠ 0 := by
  obtain ⟨name, ⟨h0, hbytes⟩, -, hunder⟩ := h
  have hne : name ≠ [] := by
    rcases hunder.form with rfl | ⟨rest, rfl⟩ <;> exact List.cons_ne_nil _ _
  obtain ⟨b, bs, rfl⟩ := List.exists_cons_of_ne_nil hne
  have hb : mem p = b := by
    have hhead := congrArg List.head? hbytes
    simpa [bytesAt, List.range_succ_eq_map] using hhead
  rw [hb]
  exact (List.ne_of_not_mem_cons h0).symm

/-- The two splits of a name, with whatever is in their buffers. -/
theorem split_top {mem : Mem} {p : Nat} {top : List Byte} (h : TopAt mem p top)
    (stack stack' : TwoStrings) :
    ∃ full inPath, strsplitAt mem stack p (chr '/') = some full ∧
      strsplit stack' full.b.toList (chr '/') = some inPath ∧ Holds inPath.a top := by
  obtain ⟨name, ⟨h0, hbytes⟩, hlen, hunder⟩ := h
  have hsplit : bytesAt mem p 256 = name ++ 0 :: bytesAt mem (p + (name.length + 1))
      (255 - name.length) := by
    rw [show 256 = name.length + 1 + (255 - name.length) by omega, bytesAt_add, hbytes,
      List.append_assoc, List.singleton_append]
  obtain ⟨full, hfull, -, hb, rest, hrest⟩ := strsplit_holds stack h0 (by omega)
    (bytesAt mem (p + (name.length + 1)) (255 - name.length)) (chr '/')
  have hbehind : (behind (chr '/') name).length ≤ 127 := by
    rw [behind, List.length_drop]
    omega
  obtain ⟨inPath, hin, ha, -⟩ := strsplit_holds stack' hb hbehind rest (chr '/')
  refine ⟨full, inPath, ?_, ?_, ?_⟩
  · rw [strsplitAt, hsplit, hfull]
  · rw [hrest, hin]
  · rw [← hunder.before_behind]
    exact ha

/-! ## One round -/

section Round

variable {mem : Mem} {headers : Nat → Nat}

/-- `s'` is `s` with `out` printed. -/
structure Printed (s s' : LsState) (out : List Byte) : Prop where
  printed : s'.printed = s.printed ++ out
  fault : s'.fault = s.fault

theorem lsSplit_top (stack : Fin 4 → TwoStrings) {s : LsState} {top : List Byte}
    (h : TopAt mem (headers s.i) top) :
    ∃ s', lsSplit mem headers stack s = some s' ∧ s'.i = s.i ∧ Printed s s' [] ∧
      Holds s'.buffers.nameInPath.a top := by
  obtain ⟨full, inPath, hfull, hin, hholds⟩ := split_top h (stack 0) (stack 1)
  have hrun : lsSplit mem headers stack s = some
      { s with buffers := { s.buffers with fullName := full, nameInPath := inPath } } := by
    rw [lsSplit, hfull]
    dsimp only [Option.bind_eq_bind, Option.bind_some]
    rw [hin, Option.bind_some]
  exact ⟨_, hrun, rfl, ⟨(List.append_nil _).symm, rfl⟩, hholds⟩

theorem printLine_printed (s : LsState) {n : Nat} {buf : Vector Byte n} {top : List Byte}
    (h : Holds buf top) : Printed s (s.printLine buf.toList) (top ++ [0x0A]) := by
  refine ⟨?_, rfl⟩
  rw [LsState.printLine, Holds.visible h, List.append_assoc]

/-- The first round prints the name. -/
theorem lsPrint_first {stack : Fin 4 → TwoStrings} {s : LsState} {top : List Byte}
    (hi : ¬ 1 < s.i) (h : Holds s.buffers.nameInPath.a top) :
    ∃ s', lsPrint mem headers stack s = some s' ∧ s'.i = s.i ∧ Printed s s' (top ++ [0x0A]) := by
  have hrun : lsPrint mem headers stack s = some (s.printLine s.buffers.nameInPath.a.toList) := by
    rw [lsPrint, if_neg hi]
  exact ⟨_, hrun, rfl, printLine_printed s h⟩

/-- Every other prints it when the entry in front has the same. -/
theorem lsPrint_next {stack : Fin 4 → TwoStrings} {s : LsState} {old top : List Byte}
    (hi : 1 < s.i) (hold : TopAt mem (headers (s.i - 1)) old)
    (h : Holds s.buffers.nameInPath.a top) :
    ∃ s', lsPrint mem headers stack s = some s' ∧ s'.i = s.i ∧
      Printed s s' (if top = old then top ++ [0x0A] else []) := by
  obtain ⟨full, inPath, hfull, hin, hholds⟩ := split_top hold (stack 2) (stack 3)
  obtain ⟨h0, rest, hlist⟩ := h
  obtain ⟨h0', rest', hlist'⟩ := hholds
  obtain ⟨d, hcmp, hd⟩ := strcmp_terminated h0' h0 rest' rest
  rw [← hlist, ← hlist'] at hcmp
  rw [lsPrint, if_pos hi, hfull]
  dsimp only [Option.bind_eq_bind, Option.bind_some]
  rw [hin, Option.bind_some, hcmp, Option.bind_some]
  by_cases heq : top = old
  · rw [if_pos (hd.mpr heq.symm), if_pos heq]
    refine ⟨_, rfl, rfl, ?_, rfl⟩
    show s.printed ++ visible s.buffers.nameInPath.a.toList ++ [0x0A] = _
    rw [Holds.visible ⟨h0, rest, hlist⟩, List.append_assoc]
  · rw [if_neg fun h => heq (hd.mp h).symm, if_neg heq]
    exact ⟨_, rfl, rfl, (List.append_nil _).symm, rfl⟩

variable (stack : Nat → Fin 4 → TwoStrings)

/-- The round at the block behind the last entry. -/
theorem lsBody_end {s : LsState} (h : mem (headers s.i) = 0) :
    ∃ s', lsBody mem headers stack s = .done s' ∧ Printed s s' [] :=
  ⟨_, if_pos h, (List.append_nil _).symm, rfl⟩

/-- A round at an entry, over what its last part prints. -/
theorem lsBody_entry (out : List Byte) {s : LsState} {top : List Byte}
    (h : TopAt mem (headers s.i) top)
    (hprint : ∀ s₁ : LsState, s₁.i = s.i → Holds s₁.buffers.nameInPath.a top →
      ∃ s', lsPrint mem headers (stack s.i) s₁ = some s' ∧ s'.i = s₁.i ∧ Printed s₁ s' out) :
    ∃ s', lsBody mem headers stack s = .next s' ∧ s'.i = s.i + 1 ∧ Printed s s' out := by
  obtain ⟨s₁, hsplit, hi₁, hp₁, hholds⟩ := lsSplit_top (stack s.i)
    (s := { s with buffers := s.buffers.clear, reads := s.reads ++ [s.i] ++ [s.i] }) h
  unfold lsBody
  dsimp only
  rw [if_neg h.first_ne, hsplit]
  dsimp only
  generalize hs₂ : (if 1 < s₁.i then { s₁ with reads := s₁.reads ++ [s₁.i - 1] } else s₁) = s₂
  have hsame : s₂.i = s₁.i ∧ s₂.buffers = s₁.buffers ∧ s₂.printed = s₁.printed ∧
      s₂.fault = s₁.fault := by
    rw [← hs₂]
    split <;> exact ⟨rfl, rfl, rfl, rfl⟩
  obtain ⟨hi₂, hbuffers, hprinted, hfault⟩ := hsame
  have hi : s₂.i = s.i := hi₂.trans hi₁
  obtain ⟨s', hrun, hi', hp'⟩ := hprint s₂ hi (by rw [hbuffers]; exact hholds)
  rw [hi, hrun]
  refine ⟨_, rfl, ?_, ?_, ?_⟩
  · show s'.i + 1 = s.i + 1
    rw [hi', hi]
  · show s'.printed = s.printed ++ out
    rw [hp'.printed, hprinted, hp₁.printed, List.append_nil]
  · exact (hp'.fault.trans hfault).trans hp₁.fault

end Round

/-! ## The run -/

/-- The names `tops` are those of the headers from index `i` on, with the zero block behind. -/
def TopsFrom (mem : Mem) (headers : Nat → Nat) : Nat → List (List Byte) → Prop
  | i, [] => mem (headers i) = 0
  | i, top :: tops => TopAt mem (headers i) top ∧ TopsFrom mem headers (i + 1) tops

section Run

variable {mem : Mem} {headers : Nat → Nat} (stack : Nat → Fin 4 → TwoStrings)

theorem Printed.chunk {s s' : LsState} {out : List Byte} (h : Printed s s' out) :
    s'.printed.drop s.printed.length = out := by
  rw [h.printed, List.drop_left]

theorem filter_line (top : List Byte) (chunks : List (List Byte)) :
    ((top ++ [0x0A]) :: chunks).filter (· ≠ []) = (top ++ [0x0A]) :: chunks.filter (· ≠ []) :=
  List.filter_cons_of_pos (by simp)

/-- From the second entry on, behind an entry of `old`. -/
theorem ls_run {s : LsState} {old : List Byte} {tops : List (List Byte)} (hi : 1 < s.i)
    (hold : TopAt mem (headers (s.i - 1)) old) (h : TopsFrom mem headers s.i tops) :
    ∃ r, loop (lsBody mem headers stack) (tops.length + 1) s = .done r ∧ r.fault = s.fault ∧
      (lsChunks mem headers stack (tops.length + 1) s).filter (· ≠ []) =
        (repeats old tops).map (· ++ [0x0A]) := by
  induction tops generalizing s old with
  | nil =>
    obtain ⟨r, hbody, hp⟩ := lsBody_end stack h
    refine ⟨r, loop_done hbody, hp.fault, ?_⟩
    rw [lsChunks, hbody]
    dsimp only
    rw [hp.chunk]
    rfl
  | cons top tops ih =>
    obtain ⟨htop, hrest⟩ := h
    obtain ⟨s', hbody, hi', hp⟩ := lsBody_entry stack (if top = old then top ++ [0x0A] else [])
      htop fun s₁ hi₁ hholds => by
        rw [← hi₁] at hi hold
        exact lsPrint_next hi hold hholds
    rw [← hi'] at hrest
    obtain ⟨r, hrun, hfault, hchunks⟩ := ih (s := s') (by omega)
      (by rw [hi', Nat.add_sub_cancel]; exact htop) hrest
    refine ⟨r, (loop_next hbody).trans hrun, hfault.trans hp.fault, ?_⟩
    rw [lsChunks, hbody]
    dsimp only
    rw [hp.chunk, repeats]
    by_cases heq : top = old
    · rw [if_pos heq, if_pos heq, List.length_cons, filter_line, hchunks,
        List.map_cons]
    · rw [if_neg heq, if_neg heq, List.length_cons, List.filter_cons_of_neg (by simp), hchunks]

/-- The whole run: the first name is printed, and every one that repeats the name in front. -/
theorem ls_prints_repeats (buffers : LsBuffers) {top : List Byte} {tops : List (List Byte)}
    (h : TopsFrom mem headers 1 (top :: tops)) :
    ∃ r, ls mem headers stack buffers (tops.length + 2) = .done r ∧ r.fault = false ∧
      lsLines mem headers stack buffers (tops.length + 2) =
        (top :: repeats top tops).map (· ++ [0x0A]) := by
  obtain ⟨htop, hrest⟩ := h
  obtain ⟨s', hbody, hi', hp⟩ := lsBody_entry stack (top ++ [0x0A])
    (s := ⟨1, buffers, [], [], false⟩) htop fun s₁ hi₁ hholds =>
      lsPrint_first (by rw [hi₁]; exact Nat.lt_irrefl 1) hholds
  have hi : s'.i = 2 := hi'
  obtain ⟨r, hrun, hfault, hchunks⟩ := ls_run stack (s := s') (by omega)
    (by rw [hi]; exact htop) (by rw [hi]; exact hrest)
  refine ⟨r, (loop_next hbody).trans hrun, hfault.trans hp.fault, ?_⟩
  rw [lsLines, lsChunks, hbody]
  dsimp only
  rw [hp.chunk, filter_line, hchunks, List.map_cons]

end Run

/-! ## Listings -/

/-- The entries behind `./`, as a parsed archive has them. -/
theorem topsFrom_directory {mem : Mem} {a : Nat} {entries : List Entry}
    {tops : List (List Byte)} (headers : Nat → Nat) (hdir : Directory entries tops)
    (h : Archive mem a entries)
    (hheaders : ∀ k, k ≤ entries.length → headers k = a + extent Entry.room (entries.take k)) :
    TopsFrom mem headers 1 tops := by
  obtain ⟨names, hnames, hunder⟩ := hdir.names
  -- over the names from entry `i` on
  have hfrom : ∀ i, i ≤ entries.length → ∀ tops,
      List.Forall₂ Under tops ((entries.drop i).map Entry.name) → TopsFrom mem headers i tops := by
    intro i hi tops hunder
    induction tops generalizing i with
    | nil =>
      have hnil := List.forall₂_nil_left_iff.mp hunder
      have hend : i = entries.length := by
        have hdrop := List.drop_eq_nil_iff.mp (List.map_eq_nil_iff.mp hnil)
        omega
      rw [TopsFrom, hend, hheaders _ (Nat.le_refl _), List.take_length]
      exact archive_end h (o := 0) (by decide)
    | cons top tops ih =>
      obtain ⟨name, rest, htop, hrest, hlist⟩ := List.forall₂_cons_left_iff.mp hunder
      have hlt : i < entries.length := by
        by_contra hge
        rw [List.drop_eq_nil_of_le (by omega)] at hlist
        cases hlist
      rw [List.drop_eq_getElem_cons hlt, List.map_cons, List.cons.injEq] at hlist
      obtain ⟨hname, hrest'⟩ := hlist
      refine ⟨⟨entries[i].name, ?_, entries[i].name_le, ?_⟩, ?_⟩
      · rw [hheaders i hi]
        exact (archive_entry h hlt).stringAt
      · rw [hname]
        exact htop
      · refine ih (i + 1) hlt ?_
        rw [hrest']
        exact hrest
  have hone : 1 ≤ entries.length := by
    have hlen := congrArg List.length hnames
    rw [List.length_map, List.length_cons] at hlen
    omega
  refine hfrom 1 hone tops ?_
  rw [List.map_drop, hnames]
  exact hunder

/-- The run of `ls` decides what it lists. -/
theorem listsOnce_iff_of_run {mem : Mem} {headers : Nat → Nat} {stack : Nat → Fin 4 → TwoStrings}
    {buffers : LsBuffers} {tops : List (List Byte)} (lines : List (List Byte)) {n : Nat}
    {r : LsState}
    (hrun : ls mem headers stack buffers n = .done r) (hfault : r.fault = false)
    (hlines : lsLines mem headers stack buffers n = lines.map (· ++ [0x0A])) :
    ListsOnce mem headers stack buffers tops ↔ OnceEach lines tops := by
  constructor
  · rintro ⟨m, r', lines', hrun', -, honce, hlines', -⟩
    have hsame : lsLines mem headers stack buffers m = lsLines mem headers stack buffers n := by
      unfold lsLines
      rw [← lsChunks_done hrun (Nat.le_max_left n m), ← lsChunks_done hrun' (Nat.le_max_right n m)]
    rw [hlines', hlines] at hsame
    have hinj : Function.Injective fun top : List Byte => top ++ [0x0A] :=
      fun s t h => List.append_cancel_right h
    rw [← List.map_injective_iff.mpr hinj hsame]
    exact honce
  · intro honce
    exact ⟨n, r, lines, hrun, hfault, honce, hlines, hlines ▸ printed_lines hrun⟩

/-- For every archive of a directory with at most 31 entries, with the header pointers that
    `parse` leaves and whatever the buffers hold: `ls` prints each top-level name exactly once,
    in the order of the archive, and nothing else, exactly when the first of the names has one
    entry and each of the others has two. -/
theorem ls_lists_iff (mem : Mem) (a : Nat) (entries : List Entry) (tops : List (List Byte))
    (headers : Nat → Nat) (stack : Nat → Fin 4 → TwoStrings) (buffers : LsBuffers)
    (hdir : Directory entries tops) (h : Archive mem a entries)
    (hheaders : ∀ k, k ≤ entries.length → headers k = a + extent Entry.room (entries.take k)) :
    ListsOnce mem headers stack buffers tops ↔
      ∀ top ∈ tops, tops.count top = if tops.head? = some top then 1 else 2 := by
  have htops := topsFrom_directory headers hdir h hheaders
  cases tops with
  | nil =>
    obtain ⟨r, hbody, hp⟩ := lsBody_end stack (s := ⟨1, buffers, [], [], false⟩) htops
    have hlines : lsLines mem headers stack buffers 1 = [] := by
      rw [lsLines, lsChunks, hbody]
      dsimp only
      rw [hp.chunk]
      rfl
    rw [listsOnce_iff_of_run [] (loop_done hbody) hp.fault hlines]
    exact iff_of_true ⟨List.nodup_nil, List.Sublist.refl [], List.forall_mem_nil _⟩
      (List.forall_mem_nil _)
  | cons top tops =>
    obtain ⟨r, hrun, hfault, hlines⟩ := ls_prints_repeats stack buffers htops
    rw [listsOnce_iff_of_run _ hrun hfault hlines, onceEach_repeats_iff hdir.contiguous]
    refine forall₂_congr fun x _ => ?_
    have hhead : (top :: tops).head? = some x ↔ x = top := by
      rw [List.head?_cons, Option.some.injEq, eq_comm]
    by_cases hx : x = top
    · rw [if_pos hx, if_pos (hhead.mpr hx)]
    · rw [if_neg hx, if_neg fun h => hx (hhead.mp h)]

/-- An archive of `./` and the empty files `./a`, `./b`, … up to `n` of them, at 4096. -/
def filesMem (n : Nat) : Mem := fun x =>
  let k := (x - 4096) / 512
  let o := (x - 4096) % 512
  if x < 4096 ∨ n < k then 0
  else if o = 0 then chr '.'
  else if o = 1 then chr '/'
  else if o = 2 ∧ 0 < k then chr 'a' + BitVec.ofNat 8 (k - 1)
  else if sizeOffset ≤ o ∧ o < sizeOffset + 11 then chr '0'
  else 0

def rootEntry : Entry := ⟨ascii "./", [], by decide, by decide, by decide⟩
def fileA : Entry := ⟨ascii "./a", [], by decide, by decide, by decide⟩
def fileB : Entry := ⟨ascii "./b", [], by decide, by decide, by decide⟩

theorem filesMem_at {n k : Nat} (e : Entry) (hk : k ≤ n) (hcontent : e.content = [])
    (hname : ∀ o < 100, filesMem n (4096 + 512 * k + o) = e.name.getD o 0) :
    e.At (filesMem n) (4096 + 512 * k) := by
  have hbyte : ∀ o < 512, (4096 + 512 * k + o - 4096) / 512 = k ∧
      (4096 + 512 * k + o - 4096) % 512 = o := fun o ho => by omega
  refine ⟨hname, fun j hj => ?_, ?_, ?_⟩
  · obtain ⟨hdiv, hmod⟩ := hbyte (sizeOffset + j) (by unfold sizeOffset; omega)
    rw [Nat.add_assoc (_ + _), filesMem, hdiv, hmod, hcontent]
    unfold sizeOffset
    rw [if_neg (by omega), if_neg (by omega), if_neg (by omega), if_neg (by omega),
      if_pos (by omega), octalDigit, List.length_nil, Nat.zero_div]
    rfl
  · obtain ⟨hdiv, hmod⟩ := hbyte (sizeOffset + 11) (by decide)
    rw [Nat.add_assoc (_ + _), filesMem, hdiv, hmod]
    unfold sizeOffset
    rw [if_neg (by omega), if_neg (by omega), if_neg (by omega), if_neg (by omega),
      if_neg (by omega)]
  · rw [hcontent]
    rfl

theorem filesMem_end (n o : Nat) (ho : o < 512) : filesMem n (4096 + 512 * (n + 1) + o) = 0 :=
  if_pos (Or.inr (by omega))

theorem filesMem_one : Archive (filesMem 1) 4096 [rootEntry, fileA] := by
  refine ⟨filesMem_at (k := 0) rootEntry (by decide) rfl (by decide +kernel),
    filesMem_at (k := 1) fileA (by decide) rfl (by decide +kernel), filesMem_end 1⟩

theorem filesMem_two : Archive (filesMem 2) 4096 [rootEntry, fileA, fileB] := by
  refine ⟨filesMem_at (k := 0) rootEntry (by decide) rfl (by decide +kernel),
    filesMem_at (k := 1) fileA (by decide) rfl (by decide +kernel),
    filesMem_at (k := 2) fileB (by decide) rfl (by decide +kernel), filesMem_end 2⟩

theorem directory_one : Directory [rootEntry, fileA] [ascii "a"] where
  names := ⟨[ascii "./a"], rfl,
    .cons ⟨by decide, by decide, .inl rfl⟩ .nil⟩
  contiguous := fun xs ys zs x h => by
    have hlen := congrArg List.length h
    simp at hlen
    omega
  fits := by decide

theorem directory_two : Directory [rootEntry, fileA, fileB] [ascii "a", ascii "b"] where
  names := ⟨[ascii "./a", ascii "./b"], rfl,
    .cons ⟨by decide, by decide, .inl rfl⟩ (.cons ⟨by decide, by decide, .inl rfl⟩ .nil)⟩
  contiguous := fun xs ys zs x h y hy => by
    have hlen := congrArg List.length h
    have := List.length_pos_of_mem hy
    simp at hlen
    omega
  fits := by decide

/-- The header pointers of `filesMem`. -/
def filesHeaders (k : Nat) : Nat := 4096 + 512 * k

/-- Buffers that hold empty strings. -/
def noStrings : TwoStrings := ⟨Vector.replicate 128 0, Vector.replicate 128 0⟩
def noNames : LsBuffers := ⟨noStrings, noStrings, noStrings, noStrings⟩

/-- One file is listed. -/
theorem ls_lists_iff_one_file :
    ListsOnce (filesMem 1) filesHeaders (fun _ _ => noStrings) noNames [ascii "a"] :=
  (ls_lists_iff (filesMem 1) 4096 [rootEntry, fileA] [ascii "a"] filesHeaders _ _ directory_one
    filesMem_one (by decide)).mpr (by decide)

/-- Of two files the second is not. -/
theorem second_name_not_listed :
    ¬ ∀ (mem : Mem) (a : Nat) (entries : List Entry) (tops : List (List Byte))
      (headers : Nat → Nat) (stack : Nat → Fin 4 → TwoStrings) (buffers : LsBuffers),
      Directory entries tops → Archive mem a entries →
      (∀ k, k ≤ entries.length → headers k = a + extent Entry.room (entries.take k)) →
      ListsOnce mem headers stack buffers tops := by
  intro hall
  have hlists := hall (filesMem 2) 4096 [rootEntry, fileA, fileB] [ascii "a", ascii "b"]
    filesHeaders (fun _ _ => noStrings) noNames directory_two filesMem_two (by decide)
  have htops := topsFrom_directory filesHeaders directory_two filesMem_two (by decide)
  obtain ⟨r, hrun, hfault, hlines⟩ := ls_prints_repeats (fun _ _ => noStrings) noNames htops
  have honce := (listsOnce_iff_of_run _ hrun hfault hlines).mp hlists
  have hb : ascii "b" ∈ ascii "a" :: repeats (ascii "a") [ascii "b"] :=
    honce.all (ascii "b") (by decide)
  exact absurd hb (by decide)

end SeshOS.Fs
