/-
  `parse` over a module of any bytes.

  Nothing in `ramfs.c` knows the size of the module or looks at a header before using it: the
  loop follows the size fields, modulo `2 ^ 32`, until it meets an empty name. So it stays
  inside of the module and ends exactly when the headers the size fields lead through do
  (`parse_inside_iff`).

  The stores behind `headers[31]`, of which there is one for every further header, are taken to hit
  nothing that is modelled.
-/
import SeshOS.Fs.Ustar

namespace SeshOS.Fs

open Base Libc

/-- Where the size field of the header at `a` puts the next header. -/
def headerAfter (mem : Mem) (a : Nat) : Nat :=
  (a + 512 + (getsize mem (a + sizeOffset) + 511) / 512 * 512) % 2 ^ 32

/-- A header at `a` lies inside of the module's bytes `[lo, lo + len)`. -/
def InModule (lo len a : Nat) : Prop := lo ≤ a ∧ a + tarHeaderBytes ≤ lo + len

instance (lo len a : Nat) : Decidable (InModule lo len a) :=
  inferInstanceAs (Decidable (_ ∧ _))

/-- From `lo` on the size fields lead through headers inside of the module, all with a name, to
    one without. -/
def EndsInside (mem : Mem) (lo len : Nat) : Prop :=
  ∃ n, (∀ k, k ≤ n → InModule lo len ((headerAfter mem)^[k] lo)) ∧
    (∀ k, k < n → mem ((headerAfter mem)^[k] lo) ≠ 0) ∧ mem ((headerAfter mem)^[n] lo) = 0

/-- A round at a header with a name. -/
theorem parseBody_named (mem : Mem) {s : ParseState} (h : mem s.address ≠ 0) :
    ∃ s', parseBody mem s = .next s' ∧ s'.address = headerAfter mem s.address ∧
      s'.reads = s.reads ++ [s.address] := by
  refine ⟨_, if_neg h, ?_, rfl⟩
  exact nextAddress_eq _ _

/-- The first rounds, as long as the headers have names. -/
theorem parse_rounds {mem : Mem} {lo : Nat} (hlo : lo < 2 ^ 32) (headers : Nat → Nat) {n : Nat}
    (h : ∀ k, k < n → mem ((headerAfter mem)^[k] lo) ≠ 0) :
    ∃ s, parse mem lo headers n = .next s ∧ s.address = (headerAfter mem)^[n] lo ∧
      s.reads = (List.range n).map fun k => (headerAfter mem)^[k] lo := by
  induction n with
  | zero => exact ⟨parseStart lo headers, rfl, Nat.mod_eq_of_lt hlo, rfl⟩
  | succ n ih =>
    obtain ⟨s, hrun, haddress, hreads⟩ := ih fun k hk => h k (Nat.lt_succ_of_lt hk)
    have hname : mem s.address ≠ 0 := by
      rw [haddress]
      exact h n (Nat.lt_succ_self n)
    obtain ⟨s', hbody, haddress', hreads'⟩ := parseBody_named mem hname
    refine ⟨s', (loop_add n 1 _ _ hrun).trans (loop_next hbody), ?_, ?_⟩
    · rw [haddress', haddress, Function.iterate_succ_apply']
    · rw [hreads', hreads, haddress, List.range_succ, List.map_append]
      rfl

/-- The whole run, when the header behind `n` others has no name. -/
theorem parse_ends {mem : Mem} {lo : Nat} (hlo : lo < 2 ^ 32) (headers : Nat → Nat) {n : Nat}
    (h : ∀ k, k < n → mem ((headerAfter mem)^[k] lo) ≠ 0)
    (hend : mem ((headerAfter mem)^[n] lo) = 0) :
    ∃ s, parse mem lo headers (n + 1) = .done s ∧
      s.reads = (List.range (n + 1)).map fun k => (headerAfter mem)^[k] lo := by
  obtain ⟨s, hrun, haddress, hreads⟩ := parse_rounds hlo headers h
  rw [← haddress] at hend
  refine ⟨_, (loop_add n 1 _ _ hrun).trans (loop_done (if_pos hend)), ?_⟩
  show s.reads ++ [s.address] = _
  rw [hreads, haddress, List.range_succ, List.map_append]
  rfl

/-- For every content of a module below `2 ^ 32`: `parse` terminates with every header it reads
    inside of the module exactly when the size fields lead through headers inside of the module
    to one without a name. -/
theorem parse_inside_iff (mem : Mem) (lo len : Nat) (headers : Nat → Nat) (hlo : lo < 2 ^ 32) :
    (∃ fuel s, parse mem lo headers fuel = .done s ∧ ∀ a ∈ s.reads, InModule lo len a) ↔
      EndsInside mem lo len := by
  constructor
  · rintro ⟨fuel, s, hrun, hinside⟩
    have hex : ∃ n, mem ((headerAfter mem)^[n] lo) = 0 := by
      by_contra hnone
      rw [not_exists] at hnone
      obtain ⟨s', hrun', -⟩ := parse_rounds (n := fuel) hlo headers fun k _ => hnone k
      rw [hrun] at hrun'
      cases hrun'
    classical
    obtain ⟨s', hrun', hreads⟩ := parse_ends hlo headers (fun k hk => Nat.find_min hex hk)
      (Nat.find_spec hex)
    obtain rfl := loop_done_unique hrun hrun'
    refine ⟨Nat.find hex, fun k hk => ?_, fun k hk => Nat.find_min hex hk, Nat.find_spec hex⟩
    refine hinside _ ?_
    rw [hreads]
    exact List.mem_map.mpr ⟨k, List.mem_range.mpr (Nat.lt_succ_of_le hk), rfl⟩
  · rintro ⟨n, hinside, hnames, hend⟩
    obtain ⟨s, hrun, hreads⟩ := parse_ends hlo headers hnames hend
    refine ⟨n + 1, s, hrun, fun a ha => ?_⟩
    rw [hreads] at ha
    obtain ⟨k, hk, rfl⟩ := List.mem_map.mp ha
    exact hinside k (Nat.le_of_lt_succ (List.mem_range.mp hk))

theorem parse_inside_iff_one_file :
    ∃ fuel s, parse oneFileMem 4096 (fun _ => 0) fuel = .done s ∧
      ∀ a ∈ s.reads, InModule 4096 1536 a :=
  (parse_inside_iff oneFileMem 4096 1536 (fun _ => 0) (by decide)).mpr
    ⟨1, by decide +kernel, by decide +kernel, by decide +kernel⟩

/-- A header block at 4096 whose size field counts `2 ^ 32 - 512` bytes: the next header is the
    same one. -/
def stuckMem : Mem := fun x =>
  if x = 4096 then chr 'a'
  else if 4220 ≤ x ∧ x < 4231 then octalDigit (2 ^ 32 - 512) (4230 - x)
  else 0

/-- Over this module of 512 bytes `parse` does not terminate. -/
theorem parse_stuck :
    ¬∃ fuel s, parse stuckMem 4096 (fun _ => 0) fuel = .done s ∧
      ∀ a ∈ s.reads, InModule 4096 512 a := by
  rintro ⟨fuel, s, hrun, -⟩
  refine loop_diverges (parseBody stuckMem) (fun s => s.address = 4096) ?_
    (s := parseStart 4096 fun _ => 0) rfl fuel s hrun
  intro s hs
  have hsame : headerAfter stuckMem 4096 = 4096 := by decide +kernel
  obtain ⟨s', hbody, haddress, -⟩ := parseBody_named stuckMem (s := s) (by rw [hs]; decide)
  exact ⟨s', hbody, by rw [haddress, hs, hsame]⟩

end SeshOS.Fs
