/-
  Formats that are read behind their terminator.

  `ADVANCE_IN_FORMAT_STRING` looks for the terminator, but the loops over the flags and over the
  digits of a field go past their last character without it. A format that ends there has its
  terminator taken for a specifier, and the loop goes on behind it. `Place` says where in a
  format a character stands, one character after the other, and a format is read behind its
  terminator exactly when it ends at one of the three places where the check is missing
  (`terminated_format_iff`).
-/
import SeshOS.Printf.Spelling
import SeshOS.Printf.Stream

namespace SeshOS.Printf

open Base Libc

/-! ## Places -/

/-- The part of a format that has been read last. -/
inductive Place where
  | text
  | percent
  | flags
  | width
  | star
  | point
  | precision
  | pointStar
  | l
  | h
  | length
deriving DecidableEq, Repr

namespace Place

/-- The place of a character where a length may come. -/
def ofLength (b : Byte) : Place :=
  if b = chr 'l' then .l else if b = chr 'h' then .h
  else if b = chr 't' ∨ b = chr 'j' ∨ b = chr 'z' then .length else .text

def ofPrecision (b : Byte) : Place := if b = chr '.' then .point else ofLength b

/-- The place of a character where digits may go on. -/
def ofDigit (digits : Place) (behind : Byte → Place) (b : Byte) : Place :=
  if isdigit b.toInt then digits else behind b

/-- The place of a character where a field may come. -/
def ofField (digits asterisk : Place) (behind : Byte → Place) (b : Byte) : Place :=
  ofDigit digits (fun b => if b = chr '*' then asterisk else behind b) b

def ofFlags (b : Byte) : Place :=
  if flagChars.contains b then .flags else ofField .width .star ofPrecision b

/-- The place of the next character. -/
def next : Place → Byte → Place
  | .text, b => if b = chr '%' then .percent else .text
  | .percent, b => ofFlags b
  | .flags, b => ofFlags b
  | .width, b => ofDigit .width ofPrecision b
  | .star, b => ofPrecision b
  | .point, b => ofField .precision .pointStar ofLength b
  | .precision, b => ofDigit .precision ofLength b
  | .pointStar, b => ofLength b
  | .l, b => if b = chr 'l' then .length else .text
  | .h, b => if b = chr 'h' then .length else .text
  | .length, _ => .text

/-- The terminator is not looked for. -/
def Open (p : Place) : Prop := p = .flags ∨ p = .width ∨ p = .precision

instance (p : Place) : Decidable p.Open := inferInstanceAs (Decidable (_ ∨ _))

/-- The place at the end of a text that goes on at `p`. -/
def final (p : Place) (t : List Byte) : Place := t.foldl next p

end Place

/-! ## Reading up to the terminator -/

/-- What is left of a terminated format whose last place is `last`: it goes on at `place`, or the
    terminator is next and has not been looked for. -/
def Rest (place : Byte → Place) (last : Place) (s : List Byte) : Prop :=
  (s = [0] ∧ last.Open) ∨ ∃ b t, s = b :: (t ++ [0]) ∧ b ≠ 0 ∧ 0 ∉ t ∧ (place b).final t = last

/-- What is left behind a specifier: nothing when it was the terminator. -/
def Left (last : Place) (s : List Byte) : Prop :=
  (s = [] ∧ last.Open) ∨ ∃ t, s = t ++ [0] ∧ 0 ∉ t ∧ Place.text.final t = last

/-- A part of a directive that leaves `left`, or is cut off at a terminator that is looked for. -/
def Reads {α : Type} (left : List Byte → Prop) (last : Place) : Except Ending (α × List Byte) → Prop
  | .ok (_, s) => left s
  | .error (.cut _) => ¬last.Open
  | .error .overrun => False

section Parts

variable {last : Place} {s : List Byte}

theorem Reads.bind {α β : Type} {left left' : List Byte → Prop} {r : Except Ending (α × List Byte)}
    {f : α × List Byte → Except Ending (β × List Byte)} (hr : Reads left last r)
    (hf : ∀ a s, left s → Reads left' last (f (a, s))) : Reads left' last (r.bind f) := by
  cases r with
  | ok read => exact hf read.1 read.2 hr
  | error e =>
    cases e with
    | cut stars => exact hr
    | overrun => exact hr.elim

/-- Behind a character at an open place nothing is looked for. -/
theorem rest_open {p : Place} (hp : p.Open) {t : List Byte} (hnul : 0 ∉ t) (hlast : p.final t = last) :
    Rest p.next last (t ++ [0]) := by
  cases t with
  | nil => exact Or.inl ⟨rfl, hlast ▸ hp⟩
  | cons b t =>
    exact Or.inr ⟨b, t, rfl, (List.ne_of_not_mem_cons hnul).symm, List.not_mem_of_not_mem_cons hnul, hlast⟩

/-- Where the terminator is looked for, a directive is cut off there. -/
theorem next_reads {p : Place} (hp : ¬p.Open) (stars : Nat) (c : Byte) {t : List Byte} (hnul : 0 ∉ t)
    (hlast : p.final t = last) :
    (next stars (c :: (t ++ [0])) = .error (.cut stars) ∧ ¬last.Open) ∨
      (next stars (c :: (t ++ [0])) = .ok (t ++ [0]) ∧ Rest p.next last (t ++ [0])) := by
  cases t with
  | nil =>
    have hcut : next stars [c, 0] = .error (.cut stars) := rfl
    exact Or.inl ⟨hcut, hlast ▸ hp⟩
  | cons b t =>
    have hb : b ≠ 0 := (List.ne_of_not_mem_cons hnul).symm
    exact Or.inr ⟨next_cons c hb _,
      Or.inr ⟨b, t, rfl, hb, List.not_mem_of_not_mem_cons hnul, hlast⟩⟩

/-! ### Flags and fields -/

theorem parseFlags_reads (flags : Flags) (h : Rest Place.ofFlags last s) :
    ∃ flags' s', parseFlags flags s = some (flags', s') ∧
      Rest (Place.ofField .width .star Place.ofPrecision) last s' := by
  induction s generalizing flags with
  | nil => rcases h with ⟨h, -⟩ | ⟨b, t, h, -⟩ <;> cases h
  | cons b s ih =>
    rw [parseFlags_cons]
    rcases h with ⟨heq, hopen⟩ | ⟨c, t, heq, hc, hnul, hlast⟩
    · cases heq
      exact ⟨flags, [0], rfl, Or.inl ⟨rfl, hopen⟩⟩
    · cases heq
      unfold Place.ofFlags at hlast
      split at hlast
      · next hflag =>
        rw [if_pos (List.contains_iff_mem.mp hflag)]
        exact ih _ (rest_open (Or.inl rfl) hnul hlast)
      · next hflag =>
        rw [if_neg (mt List.contains_iff_mem.mpr hflag)]
        exact ⟨flags, _, rfl, Or.inr ⟨b, t, rfl, hc, hnul, hlast⟩⟩

theorem atou_reads {digits : Place} {behind : Byte → Place} (hopen : digits.Open)
    (hnext : digits.next = Place.ofDigit digits behind) (i : PrintfSize)
    (h : Rest (Place.ofDigit digits behind) last s) :
    ∃ value s', atou i s = some (value, s') ∧ Rest behind last s' := by
  induction s generalizing i with
  | nil => rcases h with ⟨h, -⟩ | ⟨b, t, h, -⟩ <;> cases h
  | cons b s ih =>
    rw [atou]
    rcases h with ⟨heq, hend⟩ | ⟨c, t, heq, hc, hnul, hlast⟩
    · cases heq
      exact ⟨i, [0], rfl, Or.inl ⟨rfl, hend⟩⟩
    · cases heq
      unfold Place.ofDigit at hlast
      split at hlast
      · next hdigit =>
        rw [if_pos hdigit]
        exact ih _ (hnext ▸ rest_open hopen hnul hlast)
      · next hdigit =>
        rw [if_neg hdigit]
        exact ⟨i, _, rfl, Or.inr ⟨b, t, rfl, hc, hnul, hlast⟩⟩

theorem parseField_reads (stars : Nat) {digits asterisk : Place} {behind : Byte → Place}
    (hopen : digits.Open) (hnext : digits.next = Place.ofDigit digits behind) (hstar : ¬asterisk.Open)
    (hstarNext : asterisk.next = behind) (h : Rest (Place.ofField digits asterisk behind) last s) :
    Reads (Rest behind last) last (parseField stars s) := by
  rcases h with ⟨rfl, hend⟩ | ⟨b, t, rfl, hb, hnul, hlast⟩
  · exact Or.inl ⟨rfl, hend⟩
  unfold Place.ofField Place.ofDigit at hlast
  rw [parseField]
  split at hlast
  · next hdigit =>
    have hdigits : Rest (Place.ofDigit digits behind) last (b :: (t ++ [0])) :=
      Or.inr ⟨b, t, rfl, hb, hnul, by rw [Place.ofDigit, if_pos hdigit]; exact hlast⟩
    obtain ⟨value, s', hread, hrest⟩ := atou_reads hopen hnext 0 hdigits
    rw [if_pos hdigit, hread]
    exact hrest
  · next hdigit =>
    rw [if_neg hdigit]
    dsimp only at hlast
    split at hlast
    · next hasterisk =>
      rw [if_pos hasterisk]
      rcases next_reads hstar (stars + 1) b hnul hlast with ⟨hcut, hnot⟩ | ⟨hok, hrest⟩
      · rw [hcut]
        exact hnot
      · rw [hok]
        exact hstarNext ▸ hrest
    · next hasterisk =>
      rw [if_neg hasterisk]
      exact Or.inr ⟨b, t, rfl, hb, hnul, hlast⟩

theorem parsePrecision_reads (stars : Nat) (h : Rest Place.ofPrecision last s) :
    Reads (Rest Place.ofLength last) last (parsePrecision stars s) := by
  rcases h with ⟨rfl, hend⟩ | ⟨b, t, rfl, hb, hnul, hlast⟩
  · exact Or.inl ⟨rfl, hend⟩
  unfold Place.ofPrecision at hlast
  rw [parsePrecision]
  split at hlast
  · next hpoint =>
    rw [if_pos hpoint]
    rcases next_reads (by decide) stars b hnul hlast with ⟨hcut, hnot⟩ | ⟨hok, hrest⟩
    · rw [hcut]
      exact hnot
    · rw [hok]
      have hfield := parseField_reads stars (Or.inr (Or.inr rfl)) rfl (by decide) rfl hrest
      exact hfield.bind fun field s hs => hs
  · next hpoint =>
    rw [if_neg hpoint]
    exact Or.inr ⟨b, t, rfl, hb, hnul, hlast⟩

/-! ### Directives -/

/-- The second letter of a length. -/
theorem doubled_reads (stars : Nat) {p : Place} {c : Byte} {one two : Length} (hp : ¬p.Open)
    (hnext : p.next = fun b => if b = c then .length else .text) (hc : c ≠ 0) (b : Byte) {t : List Byte}
    (hnul : 0 ∉ t) (hlast : p.final t = last) :
    Reads (Rest (fun _ => .text) last) last ((next stars (b :: (t ++ [0]))).bind fun format =>
      if format.head? = some c then (next stars format).bind fun format => .ok (two, format)
      else .ok (one, format)) := by
  rcases next_reads hp stars b hnul hlast with ⟨hcut, hnot⟩ | ⟨hok, hrest⟩
  · rw [hcut]
    exact hnot
  rw [hok]
  rw [hnext] at hrest
  show Reads _ _ (if (t ++ [0]).head? = some c then _ else _)
  rcases hrest with ⟨heq, hend⟩ | ⟨d, u, heq, hd, hnul, hlast⟩
  · have hnone : ([0] : List Byte).head? ≠ some c := fun h => hc (Option.some_inj.mp h).symm
    rw [heq, if_neg hnone]
    exact Or.inl ⟨rfl, hend⟩
  · have hhead : (d :: (u ++ [0])).head? = some c ↔ d = c := Option.some_inj
    rw [heq]
    dsimp only at hlast
    split at hlast
    · next hsecond =>
      rw [if_pos (hhead.mpr hsecond)]
      rcases next_reads (by decide) stars d hnul hlast with ⟨hcut, hnot⟩ | ⟨hok, hrest⟩
      · rw [hcut]
        exact hnot
      · rw [hok]
        exact hrest
    · next hsecond =>
      rw [if_neg fun h => hsecond (hhead.mp h)]
      exact Or.inr ⟨d, u, rfl, hd, hnul, hlast⟩

theorem parseLength_reads (stars : Nat) (h : Rest Place.ofLength last s) :
    Reads (Rest (fun _ => .text) last) last (parseLength stars s) := by
  rcases h with ⟨rfl, hend⟩ | ⟨b, t, rfl, hb, hnul, hlast⟩
  · exact Or.inl ⟨rfl, hend⟩
  unfold Place.ofLength at hlast
  rw [parseLength]
  split at hlast
  · next hl =>
    rw [if_pos hl]
    exact doubled_reads stars (by decide) rfl (by decide) b hnul hlast
  · next hl =>
    rw [if_neg hl]
    split at hlast
    · next hh =>
      rw [if_pos hh]
      exact doubled_reads stars (by decide) rfl (by decide) b hnul hlast
    · next hh =>
      rw [if_neg hh]
      split at hlast
      · next hz =>
        rw [if_pos hz]
        rcases next_reads (by decide) stars b hnul hlast with ⟨hcut, hnot⟩ | ⟨hok, hrest⟩
        · rw [hcut]
          exact hnot
        · rw [hok]
          exact hrest
      · next hz =>
        rw [if_neg hz]
        exact Or.inr ⟨b, t, rfl, hb, hnul, hlast⟩

theorem parseSpecifier_reads (stars : Nat) (h : Rest Place.ofLength last s) :
    Reads (Left last) last (parseSpecifier stars s) := by
  refine (parseLength_reads stars h).bind fun length s hs => ?_
  rcases hs with ⟨rfl, hend⟩ | ⟨b, t, rfl, hb, hnul, hlast⟩
  · exact Or.inl ⟨rfl, hend⟩
  · exact Or.inr ⟨t, rfl, hnul, hlast⟩

theorem parseDirective_reads {t : List Byte} (hnul : 0 ∉ t) (hlast : Place.percent.final t = last) :
    Reads (Left last) last (parseDirective (chr '%' :: (t ++ [0]))) := by
  rw [parseDirective]
  rcases next_reads (by decide) 0 (chr '%') hnul hlast with ⟨hcut, hnot⟩ | ⟨hok, hrest⟩
  · rw [hcut]
    exact hnot
  · obtain ⟨flags, s, hread, hs⟩ := parseFlags_reads {} hrest
    rw [hok]
    show Reads _ _ ((orOverrun (parseFlags {} (t ++ [0]))).bind _)
    rw [hread]
    refine (parseField_reads 0 (Or.inr (Or.inl rfl)) rfl (by decide) rfl hs).bind fun width s hs => ?_
    refine (parsePrecision_reads width.stars hs).bind fun precision s hs => ?_
    exact (parseSpecifier_reads _ hs).bind fun tail s hs => hs

end Parts

/-! ## Formats -/

/-- A terminated format is parsed unless it ends at an open place. -/
theorem parse_terminated {t : List Byte} (hnul : 0 ∉ t) {fuel : Nat} (hfuel : t.length < fuel) :
    parse fuel (t ++ [0]) = none ↔ (Place.text.final t).Open := by
  induction fuel generalizing t with
  | zero => exact absurd hfuel (Nat.not_lt_zero _)
  | succ fuel ih =>
    cases t with
    | nil => exact iff_of_false (by rw [parse]; exact Option.some_ne_none _) (by decide)
    | cons b t =>
      have hb : b ≠ 0 := (List.ne_of_not_mem_cons hnul).symm
      have hnul' : 0 ∉ t := List.not_mem_of_not_mem_cons hnul
      have hhead : ((b :: t) ++ [0]).head? ≠ some 0 := fun h => hb (Option.some_inj.mp h)
      have hlt : t.length < fuel := Nat.lt_of_succ_lt_succ hfuel
      rw [parse, if_neg hhead, List.cons_append, parsePiece]
      by_cases hpercent : b = chr '%'
      · subst hpercent
        have hreads := parseDirective_reads hnul' rfl
        have hlast : Place.text.final (chr '%' :: t) = Place.percent.final t := rfl
        rw [if_neg fun h => h rfl, hlast]
        cases hread : parseDirective (chr '%' :: (t ++ [0])) with
        | error e =>
          rw [hread] at hreads
          cases e with
          | cut stars => exact iff_of_false (Option.some_ne_none _) hreads
          | overrun => exact hreads.elim
        | ok read =>
          obtain ⟨d, s⟩ := read
          rw [hread] at hreads
          show Option.map _ (parse fuel s) = none ↔ _
          rw [Option.map_eq_none_iff]
          rcases hreads with ⟨rfl, hopen⟩ | ⟨u, rfl, hu, hlast⟩
          · -- the terminator was the specifier, and nothing is behind it
            refine iff_of_true ?_ hopen
            cases fuel with
            | zero => rfl
            | succ fuel => rfl
          · have hshort := parseDirective_length hread
            simp only [List.length_cons, List.length_append, List.length_nil] at hshort
            rw [ih hu (by omega), hlast]
      · have hlast : Place.text.final (b :: t) = Place.text.final t :=
          congrArg (fun p => Place.final p t) (if_neg hpercent)
        rw [if_pos hpercent, hlast]
        show Option.map _ (parse fuel (t ++ [0])) = none ↔ _
        rw [Option.map_eq_none_iff]
        exact ih hnul' hlt

/-! ### Arguments for every format -/

theorem readField_supplied {α : Type} (number star : BitVec 32 → α) (field : Field) :
    ∃ args a, ∀ more, readField number star field (args ++ more) = some (a, more) := by
  cases field with
  | absent => exact ⟨[], number 0, fun more => rfl⟩
  | number value => exact ⟨[], number value, fun more => rfl⟩
  | star => exact ⟨[.int 0], star 0, fun more => rfl⟩

theorem readPrecision_supplied (precision : Option Field) (flags : Flags) :
    ∃ args a, ∀ more, readPrecision precision flags (args ++ more) = some (a, more) := by
  cases precision with
  | none => exact ⟨[], (0, flags), fun more => rfl⟩
  | some field =>
    exact readField_supplied (fun value => (value, { flags with precision := true }))
      (fun value => (starPrecision value, { flags with precision := true })) field

/-- A zero of the right size will do. -/
theorem integerArg_supplied (flags : Flags) :
    ∃ args a, ∀ more, integerArg flags (args ++ more) = some (a, more) := by
  unfold integerArg
  cases hlong : flags.longLong || flags.long with
  | true =>
    refine ⟨[.long 0], (0, false), fun more => ?_⟩
    cases flags.signed <;> rfl
  | false =>
    refine ⟨[.int 0], (0, false), fun more => ?_⟩
    cases flags.signed <;> cases flags.char <;> cases flags.short <;> rfl

theorem specifier_supplied (specifier : Byte) (flags : Flags) (width precision : PrintfSize) :
    ∃ args events, ∀ more,
      specifierEvents specifier flags width precision (args ++ more) = some (events, more) := by
  unfold specifierEvents
  cases specifierOf specifier with
  | integer signed base uppercase =>
    obtain ⟨args, value, harg⟩ := integerArg_supplied (integerFlags flags signed base uppercase)
    refine ⟨args, chars (integerText value.1 value.2 base precision width
      (integerFlags flags signed base uppercase)), fun more => ?_⟩
    dsimp only
    rw [harg]
    rfl
  | char => exact ⟨[.int 0], _, fun more => rfl⟩
  | string => exact ⟨[.ptr 0 []], _, fun more => rfl⟩
  | pointer => exact ⟨[.ptr 0 []], _, fun more => rfl⟩
  | percent => exact ⟨[], _, fun more => rfl⟩
  | writeBack => exact ⟨[.ptr 0 []], _, fun more => rfl⟩
  | other => exact ⟨[], _, fun more => rfl⟩

/-- Every directive can be given arguments. -/
theorem directive_supplied (d : Directive) : ∃ args events, ∀ more,
    directiveEvents d (args ++ more) = some (events, more) := by
  obtain ⟨args₀, ⟨width, flags⟩, hwidth⟩ :=
    readField_supplied (fun width => (width, d.flags)) (starWidth d.flags) d.width
  obtain ⟨args₁, ⟨precision, flags'⟩, hprecision⟩ := readPrecision_supplied d.precision flags
  obtain ⟨args₂, events, hspecifier⟩ :=
    specifier_supplied d.specifier (d.length.set flags') width precision
  refine ⟨args₀ ++ (args₁ ++ args₂), events, fun more => ?_⟩
  rw [directiveEvents, readWidth, List.append_assoc, List.append_assoc, hwidth, Option.bind_some]
  dsimp only
  rw [hprecision, Option.bind_some]
  exact hspecifier more

theorem pieces_supplied (pieces : List Piece) : ∃ args events, ∀ more,
    render pieces (args ++ more) = some (events, more) := by
  induction pieces with
  | nil => exact ⟨[], [], fun more => rfl⟩
  | cons piece pieces ih =>
    obtain ⟨args, events, hrest⟩ := ih
    have hpiece : ∃ args events, ∀ more, pieceEvents piece (args ++ more) = some (events, more) := by
      cases piece with
      | literal b => exact ⟨[], [.char b], fun more => rfl⟩
      | directive d => exact directive_supplied d
    obtain ⟨args₀, events₀, hfirst⟩ := hpiece
    refine ⟨args₀ ++ args, events₀ ++ events, fun more => ?_⟩
    rw [render, List.append_assoc, hfirst]
    show Option.map _ (render pieces (args ++ more)) = _
    rw [hrest]
    rfl

theorem stars_supplied (stars : Nat) (args : List Arg) :
    readStars stars (List.replicate stars (.int 0) ++ args) = some args := by
  induction stars with
  | zero => rfl
  | succ stars ih => exact ih

/-- A terminated format can be printed with some arguments, without a read behind the terminator,
    exactly when it ends neither in the flags nor in the digits of a directive. -/
theorem terminated_format_iff {t : List Byte} (hnul : 0 ∉ t) :
    (∃ args, (vsnprintf (none : Option (Vector Byte 0)) 0 (t ++ [0]) args).isSome) ↔
      ¬(Place.text.final t).Open := by
  have hparse : parse ((t ++ [0]).length + 1) (t ++ [0]) = none ↔ (Place.text.final t).Open :=
    parse_terminated hnul (by rw [List.length_append, List.length_singleton]; omega)
  constructor
  · rintro ⟨args, hsome⟩ hopen
    have hnone : meaning (t ++ [0]) args = none := by
      rw [meaning, hparse.mpr hopen]
      rfl
    rw [vsnprintf, vsnprintfImpl_none _ hnone] at hsome
    cases hsome
  · intro hclosed
    obtain ⟨⟨pieces, stars⟩, hpieces⟩ := Option.ne_none_iff_exists'.mp (mt hparse.mp hclosed)
    obtain ⟨args, events, hrender⟩ := pieces_supplied pieces
    have hmeaning : meaning (t ++ [0]) (args ++ (List.replicate stars (.int 0) ++ [])) =
        some events := by
      rw [meaning, hpieces, Option.bind_some]
      dsimp only
      rw [hrender, Option.bind_some]
      dsimp only
      rw [stars_supplied]
      rfl
    exact ⟨_, by rw [vsnprintf_null hmeaning]; rfl⟩

theorem terminated_format_iff_flag : (0 : Byte) ∉ ascii "100%-" ∧
    ((∃ args, (vsnprintf (none : Option (Vector Byte 0)) 0 (ascii "100%-" ++ [0]) args).isSome) ↔
      ¬(Place.text.final (ascii "100%-")).Open) :=
  ⟨by decide, terminated_format_iff (by decide)⟩

end SeshOS.Printf
