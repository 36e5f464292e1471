/-
  The strings that the printf family reads.

  `%s` measures its string with `strnlen_s`, and then copies characters until the terminator or
  the precision. Both look at one byte more than they count. So a string without a terminator has
  to be longer than the precision, and at the precision 0, at which nothing is copied, the whole
  string is measured (`precise_string_reads`).
-/
import SeshOS.Printf.Meaning

namespace SeshOS.Printf

open Base Libc

/-! ## What is read -/

/-- The bytes in front of a terminator are read, or `n` bytes and the one behind them. -/
def ReadsTo (s : List Byte) (n : Nat) : Prop := 0 ∈ s.take n ∨ n < s.length

instance (s : List Byte) (n : Nat) : Decidable (ReadsTo s n) := inferInstanceAs (Decidable (_ ∨ _))

theorem not_readsTo_nil (n : Nat) : ¬ReadsTo [] n := by
  rintro (h | h)
  · rw [List.take_nil] at h
    cases h
  · cases h

theorem readsTo_cons {b : Byte} (hb : b ≠ 0) (s : List Byte) (n : Nat) :
    ReadsTo (b :: s) (n + 1) ↔ ReadsTo s n := by
  unfold ReadsTo
  rw [List.take_succ_cons, List.mem_cons, List.length_cons, Nat.succ_lt_succ_iff]
  constructor
  · rintro ((h | h) | h)
    · exact absurd h.symm hb
    · exact Or.inl h
    · exact Or.inr h
  · rintro (h | h)
    · exact Or.inl (Or.inr h)
    · exact Or.inr h

theorem readsTo_zero_cons (s : List Byte) (n : Nat) : ReadsTo (0 :: s) n := by
  cases n with
  | zero => exact Or.inr (Nat.succ_pos _)
  | succ n => exact Or.inl List.mem_cons_self

theorem readsTo_cons_zero (b : Byte) (s : List Byte) : ReadsTo (b :: s) 0 := Or.inr (Nat.succ_pos _)

theorem readsTo_of_mem {s : List Byte} (h : 0 ∈ s) (n : Nat) : ReadsTo s n := by
  by_cases hn : n < s.length
  · exact Or.inr hn
  · left
    rwa [List.take_of_length_le (by omega)]

theorem ReadsTo.of_le {s : List Byte} {m n : Nat} (h : ReadsTo s n) (hmn : m ≤ n) : ReadsTo s m := by
  rcases h with h | h
  · exact readsTo_of_mem (List.mem_of_mem_take h) m
  · exact Or.inr (by omega)

theorem strnlenS_reads (s : List Byte) (strsz : Nat) :
    strnlenS s strsz = if ReadsTo s strsz then some (min (visible s).length strsz) else none := by
  induction s generalizing strsz with
  | nil =>
    rw [if_neg (not_readsTo_nil strsz)]
    rfl
  | cons b s ih =>
    unfold strnlenS
    rw [visible]
    by_cases hb : b = 0
    · rw [if_pos hb, if_pos hb, if_pos (hb ▸ readsTo_zero_cons s strsz)]
      exact congrArg some (Nat.zero_min strsz).symm
    · rw [if_neg hb, if_neg hb]
      cases strsz with
      | zero =>
        rw [if_pos (readsTo_cons_zero b s)]
        rfl
      | succ strsz =>
        dsimp only
        rw [ih, List.length_cons, Nat.succ_min_succ]
        by_cases hreads : ReadsTo s strsz
        · rw [if_pos hreads, if_pos ((readsTo_cons hb s strsz).mpr hreads)]
          rfl
        · rw [if_neg hreads, if_neg fun h => hreads ((readsTo_cons hb s strsz).mp h)]
          rfl

/-- What is copied with a precision. -/
theorem stringChars_reads (precision : PrintfSize) (s : List Byte) :
    stringChars true precision s =
      if ReadsTo s precision.toNat then some ((visible s).take precision.toNat) else none := by
  induction s generalizing precision with
  | nil =>
    rw [if_neg (not_readsTo_nil _)]
    rfl
  | cons b s ih =>
    rw [stringChars, visible]
    by_cases hb : b = 0
    · rw [if_neg fun h => h.1 hb, if_pos hb, if_pos (hb ▸ readsTo_zero_cons s _), List.take_nil]
    · by_cases hprecision : precision = 0
      · subst hprecision
        have hzero : (0 : PrintfSize).toNat = 0 := rfl
        rw [if_neg fun h => absurd rfl (h.2.resolve_left (by decide)), hzero,
          if_pos (readsTo_cons_zero b s)]
        rfl
      · have hsucc : precision.toNat = (precision - 1).toNat + 1 := by
          have hpos : precision.toNat ≠ 0 := fun h => hprecision (BitVec.eq_of_toNat_eq h)
          have hbound := precision.isLt
          rw [BitVec.toNat_sub]
          have hone : (1 : PrintfSize).toNat = 1 := rfl
          omega
        rw [if_pos ⟨hb, Or.inr hprecision⟩, if_neg hb, ih, hsucc, List.take_succ_cons]
        by_cases hreads : ReadsTo s (precision - 1).toNat
        · rw [if_pos hreads, if_pos ((readsTo_cons hb s _).mpr hreads)]
          rfl
        · rw [if_neg hreads, if_neg fun h => hreads ((readsTo_cons hb s _).mp h)]
          rfl

/-! ## Without a precision -/

theorem stringChars_eq (precision : PrintfSize) (s : List Byte) :
    stringChars false precision s = (stringEnd s).map fun k => s.take k := by
  induction s generalizing precision with
  | nil => rfl
  | cons b s ih =>
    rw [stringChars, stringEnd]
    by_cases hb : b = 0
    · rw [if_neg fun h => h.1 hb, if_pos hb]
      rfl
    · rw [if_pos ⟨hb, Or.inl rfl⟩, if_neg hb, ih, Option.map_map, Option.map_map]
      rfl

theorem mem_of_stringEnd {s : List Byte} {k : Nat} (h : stringEnd s = some k) : 0 ∈ s := by
  induction s generalizing k with
  | nil => cases h
  | cons b s ih =>
    by_cases hb : b = 0
    · rw [hb]
      exact List.mem_cons_self
    · rw [stringEnd, if_neg hb] at h
      obtain ⟨j, hj, -⟩ := Option.map_eq_some_iff.mp h
      exact List.mem_cons_of_mem b (ih hj)

/-- `%s` without a precision: the string up to its terminator, in a field. -/
theorem stringText_eq {a : BitVec 64} (ha : a ≠ 0) (s : List Byte) {width : PrintfSize} {flags : Flags}
    (hwidth : width.toNat ≤ maxPossibleBufferSize.toNat) (hprecision : flags.precision = false) :
    stringText (a, s) 0 width flags =
      (stringEnd s).map fun k => padded flags.left width.toNat k (s.take k) := by
  have hint : maxPossibleBufferSize.toNat = 2 ^ 31 - 1 := by decide
  rw [stringText, if_neg ha, hprecision, stringChars_eq]
  unfold stringLength
  rw [hprecision]
  cases hlen : stringEnd s with
  | none => cases strnlenS s (if (0 : PrintfSize) ≠ 0 then 0 else maxPossibleBufferSize).toNat <;> rfl
  | some k =>
    have hcount : (BitVec.ofNat 32 (min k maxPossibleBufferSize.toNat)).toNat = min k (2 ^ 31 - 1) := by
      rw [BitVec.toNat_ofNat, hint]
      omega
    have hspaces : width.toNat - min k (2 ^ 31 - 1) = width.toNat - k := by omega
    have hmem := mem_of_stringEnd hlen
    have hvisible := stringEnd_visible hmem
    rw [hlen, Option.some_inj] at hvisible
    rw [strnlenS_reads, if_pos (readsTo_of_mem hmem _), ← hvisible]
    show some (padded flags.left width.toNat
      (BitVec.ofNat 32 (min k maxPossibleBufferSize.toNat)).toNat (s.take k)) = _
    rw [hcount, padded, hspaces]
    rfl

/-- A field without a width. -/
theorem padded_none (left : Bool) (k : Nat) (s : List Byte) : padded left 0 k s = s := by
  unfold padded
  rw [Nat.zero_sub]
  cases left with
  | true => exact List.append_nil s
  | false => rfl

/-! ## With a precision -/

/-- How far a string is measured. -/
def measured (precision : PrintfSize) : Nat :=
  if precision = 0 then maxPossibleBufferSize.toNat else precision.toNat

theorem stringText_precise {a : BitVec 64} (ha : a ≠ 0) (s : List Byte) (precision width : PrintfSize)
    {flags : Flags} (hprecision : flags.precision = true) :
    stringText (a, s) precision width flags =
      if ReadsTo s (measured precision) then
        some (padded flags.left width.toNat ((visible s).take precision.toNat).length
          ((visible s).take precision.toNat))
      else none := by
  have hint : maxPossibleBufferSize.toNat = 2 ^ 31 - 1 := by decide
  have hbound := precision.isLt
  have hbits : (if precision ≠ 0 then precision else maxPossibleBufferSize).toNat =
      measured precision := by
    unfold measured
    by_cases hzero : precision = 0
    · rw [if_neg (not_not.mpr hzero), if_pos hzero]
    · rw [if_pos hzero, if_neg hzero]
  have hle : precision.toNat ≤ measured precision := by
    unfold measured
    by_cases hzero : precision = 0
    · rw [hzero]
      exact Nat.zero_le _
    · rw [if_neg hzero]
  rw [stringText, if_neg ha, hprecision, stringChars_reads]
  unfold stringLength
  rw [strnlenS_reads, hbits, hprecision]
  by_cases hreads : ReadsTo s (measured precision)
  · -- the smaller of the length and the precision
    have hcount : (if BitVec.ofNat 32 (min (visible s).length (measured precision)) < precision
        then BitVec.ofNat 32 (min (visible s).length (measured precision)) else precision).toNat =
          ((visible s).take precision.toNat).length := by
      have hmeasured : measured precision < 2 ^ 32 := by
        unfold measured
        split <;> omega
      have hsmall : (BitVec.ofNat 32 (min (visible s).length (measured precision))).toNat =
          min (visible s).length (measured precision) := by
        rw [BitVec.toNat_ofNat]
        omega
      rw [List.length_take]
      by_cases hlt : BitVec.ofNat 32 (min (visible s).length (measured precision)) < precision
      · rw [if_pos hlt, hsmall]
        rw [BitVec.lt_def, hsmall] at hlt
        omega
      · rw [if_neg hlt]
        rw [BitVec.lt_def, hsmall] at hlt
        omega
    rw [if_pos hreads, if_pos hreads, if_pos (hreads.of_le hle)]
    exact congrArg (fun k => some (padded flags.left width.toNat k _)) hcount
  · rw [if_neg hreads, if_neg hreads]
    rfl

/-- A string directive with a precision, for any flags, width and string. -/
theorem precise_string_reads {d : Directive} (hspecifier : d.specifier = chr 's')
    (hd : d.precision.isSome) {args args' rest : List Arg} {width precision : PrintfSize}
    {flags flags' : Flags} (hwidth : readWidth d.width d.flags args = some ((width, flags), args'))
    {a : BitVec 64} (ha : a ≠ 0) {s : List Byte}
    (hprecision : readPrecision d.precision flags args' =
      some ((precision, flags'), .ptr a s :: rest)) :
    directiveEvents d args =
      if ReadsTo s (measured precision) then
        some (chars (padded flags.left width.toNat ((visible s).take precision.toNat).length
          ((visible s).take precision.toNat)), rest)
      else none := by
  have hs : specifierOf (chr 's') = .string := by decide
  obtain ⟨field, hfield⟩ := Option.isSome_iff_exists.mp hd
  have hflags : flags' = { flags with precision := true } := by
    rw [hfield] at hprecision
    unfold readPrecision readField at hprecision
    cases field with
    | absent => cases hprecision; rfl
    | number value => cases hprecision; rfl
    | star =>
      obtain ⟨⟨value, args''⟩, -, heq⟩ := Option.map_eq_some_iff.mp hprecision
      cases heq
      rfl
  have hset : (d.length.set flags').precision = true ∧ (d.length.set flags').left = flags.left := by
    rw [hflags]
    cases d.length <;> exact ⟨rfl, rfl⟩
  rw [directiveEvents, hwidth, Option.bind_some]
  dsimp only
  rw [hprecision, Option.bind_some]
  dsimp only
  rw [hspecifier, specifierEvents, hs]
  dsimp only
  rw [vaPtr, Option.bind_some]
  dsimp only
  rw [stringText_precise ha s precision width hset.1, hset.2]
  by_cases hreads : ReadsTo s (measured precision)
  · rw [if_pos hreads, if_pos hreads, Option.map_some]
  · rw [if_neg hreads, if_neg hreads, Option.map_none]

/-- Three characters without a terminator are not enough for `%.3s`. -/
theorem precise_string_reads_unterminated :
    directiveEvents ⟨{}, .absent, some (.number 3), .none, chr 's'⟩ [.ptr 0x1000 (ascii "abc")] =
      if ReadsTo (ascii "abc") (measured 3) then
        some (chars (padded false (0 : PrintfSize).toNat
          ((visible (ascii "abc")).take (3 : PrintfSize).toNat).length
          ((visible (ascii "abc")).take (3 : PrintfSize).toNat)), [])
      else none :=
  @precise_string_reads ⟨{}, .absent, some (.number 3), .none, chr 's'⟩ rfl rfl
    [.ptr 0x1000 (ascii "abc")] _ [] 0 3 {} { precision := true } rfl 0x1000 (by decide) (ascii "abc")
    rfl

end SeshOS.Printf
