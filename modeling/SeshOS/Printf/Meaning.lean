/-
  `formatStringLoop` does what its format means (`formatStringLoop_eq`): it plays the events that
  the pieces of the format make of the arguments, on whatever gadget it is given.

  The loop reads arguments in the middle of a directive, and the abstract level behind it. So each
  part of the loop is related to its reading of the format (`parseField`, `parsePrecision`,
  `parseLength`) and of the arguments (`readWidth`, `readPrecision`) by an equation of its own; a
  directive that the terminator ends is the case in which the arguments matter
  (`Ending.stop`).
-/
import SeshOS.Printf.Directive

namespace SeshOS.Printf

open Base Libc

variable {σ : Type} {n : Nat}

/-! ## Arguments of stars -/

theorem readStars_add (j k : Nat) (args : List Arg) :
    readStars (j + k) args = (readStars j args).bind (readStars k) := by
  induction j generalizing args with
  | zero =>
    rw [Nat.zero_add]
    rfl
  | succ j ih =>
    rw [Nat.succ_add, readStars, readStars]
    cases vaInt args with
    | none => rfl
    | some a => exact ih a.2

theorem readStars_none {j k : Nat} {args : List Arg} (h : readStars j args = none) (hjk : j ≤ k) :
    readStars k args = none := by
  obtain ⟨i, rfl⟩ := Nat.exists_eq_add_of_le hjk
  rw [readStars_add, h]
  rfl

theorem readField_stars {α : Type} (number star : BitVec 32 → α) (field : Field)
    (args : List Arg) :
    (readField number star field args).map (·.2) = readStars field.stars args := by
  cases field with
  | absent => rfl
  | number value => rfl
  | star =>
    show ((vaInt args).map _).map _ = (vaInt args).bind _
    cases vaInt args <;> rfl

theorem readPrecision_stars (precision : Option Field) (flags : Flags) (args : List Arg) :
    (readPrecision precision flags args).map (·.2) = readStars (precisionStars precision) args := by
  cases precision with
  | none => rfl
  | some field =>
    unfold readPrecision
    exact readField_stars _ _ field args

/-! ## The parts of a directive -/

/-- How the loop stops where there is no directive, with the arguments it has. -/
def Ending.stop (args : List Arg) : Ending → Stop
  | .overrun => .fault
  | .cut stars => if (readStars stars args).isSome then .returned else .fault

/-- What a part of the loop gives for a part of a directive. -/
def meant {α β : Type} (args : List Arg) (parsed : Except Ending α) (read : α → Option β) :
    Parse β :=
  match parsed with
  | .error ending => .error (ending.stop args)
  | .ok a => need (read a)

theorem next_cut {stars k : Nat} {format : List Byte} (h : next stars format = .error (.cut k)) :
    k = stars := by
  unfold next at h
  split at h
  · cases h
  · split at h
    · cases h
      rfl
    · cases h

theorem advance_eq {args : List Arg} {stars : Nat} (h : (readStars stars args).isSome)
    (format : List Byte) : advance format = meant args (next stars format) some := by
  unfold advance next
  cases format.tail with
  | nil => rfl
  | cons b format =>
    dsimp only
    split
    · show _ = Except.error (Ending.stop args (.cut stars))
      rw [Ending.stop, if_pos h]
    · rfl

/-- Where an argument is missing the loop does not get to the end of the directive. -/
theorem meant_fault {α β : Type} {args : List Arg} {parsed : Except Ending α} {read : α → Option β}
    (hcut : ∀ stars, parsed = .error (.cut stars) → readStars stars args = none)
    (hread : ∀ a, parsed = .ok a → read a = none) : meant args parsed read = .error .fault := by
  match parsed with
  | .error .overrun => rfl
  | .error (.cut stars) =>
    show Except.error (Ending.stop args (.cut stars)) = _
    rw [Ending.stop, hcut stars rfl]
    rfl
  | .ok a =>
    show need (read a) = _
    rw [hread a rfl]
    rfl

theorem parseField_cut {stars k : Nat} {format : List Byte}
    (h : parseField stars format = .error (.cut k)) : k = stars + 1 := by
  unfold parseField at h
  split at h
  · cases h
  · next b rest =>
    split at h
    · cases hnum : atou 0 (b :: rest) with
      | none => rw [hnum] at h; cases h
      | some r => rw [hnum] at h; cases h
    · split at h
      · cases hnext : next (stars + 1) (b :: rest) with
        | error e =>
          rw [hnext] at h
          cases h
          exact next_cut hnext
        | ok _ => rw [hnext] at h; cases h
      · cases h

theorem evaluateField_eq {α : Type} (number star : BitVec 32 → α) (format : List Byte)
    {args₀ args : List Arg} {stars : Nat} (h : readStars stars args₀ = some args) :
    evaluateField number star format args =
      meant args₀ (parseField stars format) fun (field, format) =>
        (readField number star field args).map fun (a, args) => (a, format, args) := by
  have hstar : readStars (stars + 1) args₀ = (vaInt args).map (·.2) := by
    rw [readStars_add, h, Option.bind_some, readStars]
    cases vaInt args <;> rfl
  unfold evaluateField parseField
  cases format with
  | nil => rfl
  | cons b format =>
    dsimp only
    split
    · cases atou 0 (b :: format) <;> rfl
    · split
      · cases hargs : vaInt args with
        | none =>
          rw [hargs] at hstar
          refine (meant_fault ?_ ?_).symm
          · intro k hk
            cases hnext : next (stars + 1) (b :: format) with
            | ok _ => rw [hnext] at hk; cases hk
            | error e =>
              rw [hnext] at hk
              cases hk
              rw [next_cut hnext, hstar]
              rfl
          · rintro ⟨field, rest⟩ hok
            cases hnext : next (stars + 1) (b :: format) with
            | error e => rw [hnext] at hok; cases hok
            | ok _ =>
              rw [hnext] at hok
              cases hok
              show Option.map _ ((vaInt args).map _) = none
              rw [hargs]
              rfl
        | some a =>
          rw [hargs] at hstar
          show (advance (b :: format)).bind _ = _
          rw [advance_eq (by rw [hstar]; rfl : (readStars (stars + 1) args₀).isSome)]
          cases next (stars + 1) (b :: format) with
          | error e => rfl
          | ok rest =>
            show _ = need (Option.map _ ((vaInt args).map _))
            rw [hargs]
            rfl
      · rfl

theorem evaluatePrecision_eq (flags : Flags) (format : List Byte) {args₀ args : List Arg}
    {stars : Nat} (h : readStars stars args₀ = some args) :
    evaluatePrecision flags format args =
      meant args₀ (parsePrecision stars format) fun (precision, format) =>
        (readPrecision precision flags args).map fun (a, args) => (a, format, args) := by
  unfold evaluatePrecision parsePrecision
  cases format with
  | nil => rfl
  | cons b format =>
    dsimp only
    split
    · show (advance (b :: format)).bind _ = _
      rw [advance_eq (by rw [h]; rfl : (readStars stars args₀).isSome)]
      cases next stars (b :: format) with
      | error e => rfl
      | ok rest =>
        simp only [meant, need, Except.bind, evaluateField_eq _ _ rest h]
        show _ = meant args₀ ((parseField stars rest).bind _) _
        cases parseField stars rest with
        | error e => rfl
        | ok r => rfl
    · rfl

/-- A length of one or two letters `b`. -/
theorem doubled_eq {args : List Arg} {stars : Nat} (h : (readStars stars args).isSome) (b : Byte)
    (format : List Byte) (flags : Flags) {one two : Flags} {single double : Length}
    (hone : single.set flags = one) (htwo : double.set flags = two) :
    ((advance format).bind fun format =>
      if format.head? = some b then
        (advance format).bind fun format => (.ok (two, format) : Parse (Flags × List Byte))
      else .ok (one, format)) =
    meant args
      ((next stars format).bind fun format =>
        if format.head? = some b then
          (next stars format).bind fun format => (.ok (double, format) : Except Ending _)
        else .ok (single, format))
      fun (length, format) => some (length.set flags, format) := by
  simp only [advance_eq h]
  cases next stars format with
  | error e => rfl
  | ok rest =>
    simp only [meant, need, Except.bind]
    by_cases hb : rest.head? = some b
    · rw [if_pos hb, if_pos hb]
      cases next stars rest with
      | error e => rfl
      | ok rest => exact congrArg (fun flags => Except.ok (flags, rest)) htwo.symm
    · rw [if_neg hb, if_neg hb]
      exact congrArg (fun flags => Except.ok (flags, rest)) hone.symm

theorem evaluateLength_eq (flags : Flags) (format : List Byte) {args : List Arg} {stars : Nat}
    (h : (readStars stars args).isSome) :
    evaluateLength flags format =
      meant args (parseLength stars format) fun (length, format) =>
        some (length.set flags, format) := by
  unfold evaluateLength parseLength
  cases format with
  | nil => rfl
  | cons b format =>
    dsimp only
    split
    · exact doubled_eq h (chr 'l') _ flags rfl rfl
    · split
      · exact doubled_eq h (chr 'h') _ flags rfl rfl
      · split
        · show (advance (b :: format)).bind _ = _
          rw [advance_eq h]
          cases next stars (b :: format) <;> rfl
        · rfl

/-! ## Specifiers -/

theorem evaluateSpecifier_eq (output : OutputGadget σ n) (specifier : Byte) (flags : Flags)
    (width precision : PrintfSize) (args : List Arg) :
    evaluateSpecifier output specifier flags width precision args =
      (specifierEvents specifier flags width precision args).bind fun (events, args) =>
        (play (output, []) events).map fun st => (st.1, args, st.2) := by
  unfold evaluateSpecifier specifierEvents
  cases specifierOf specifier with
  | integer signed base uppercase =>
    dsimp only
    cases integerArg (integerFlags flags signed base uppercase) args with
    | none => rfl
    | some r =>
      simp only [Option.bind_some, Option.map_some, play_chars, printInt_eq, Option.map_map]
      rfl
  | char =>
    dsimp only
    cases vaInt args with
    | none => rfl
    | some r =>
      simp only [Option.bind_some, Option.map_some, play_chars, printChar_eq, Option.map_map]
      rfl
  | string =>
    dsimp only
    cases vaPtr args with
    | none => rfl
    | some r =>
      simp only [Option.bind_some, printString_eq]
      cases stringText r.1 precision width flags with
      | none => rfl
      | some s =>
        simp only [Option.bind_some, Option.map_some, play_chars, Option.map_map]
        rfl
  | pointer =>
    dsimp only
    cases vaPtr args with
    | none => rfl
    | some r =>
      simp only [Option.bind_some, Option.map_some, play_chars, printInt_eq, Option.map_map]
      rfl
  | percent =>
    simp only [Option.bind_some, play_chars, OutputGadget.emit_singleton, Option.map_map]
    rfl
  | writeBack =>
    dsimp only
    cases vaPtr args <;> rfl
  | other =>
    simp only [Option.bind_some, play_chars, OutputGadget.emit_singleton, Option.map_map]
    rfl

/-! ## The loop -/

theorem parsePrecision_cut {stars k : Nat} {format : List Byte}
    (h : parsePrecision stars format = .error (.cut k)) : stars ≤ k := by
  unfold parsePrecision at h
  split at h
  · cases h
  · next b rest =>
    split at h
    · cases hnext : next stars (b :: rest) with
      | error e =>
        rw [hnext] at h
        cases h
        exact (next_cut hnext).ge
      | ok rest' =>
        rw [hnext] at h
        cases hfield : parseField stars rest' with
        | error e =>
          have h' : (parseField stars rest').bind _ = .error (.cut k) := h
          rw [hfield] at h'
          cases h'
          rw [parseField_cut hfield]
          exact Nat.le_succ stars
        | ok r =>
          have h' : (parseField stars rest').bind _ = .error (.cut k) := h
          rw [hfield] at h'
          cases h'
    · cases h

theorem doubled_cut {α : Type} {stars k : Nat} {b : Byte} {format : List Byte} {one two : α}
    (h : ((next stars format).bind fun format =>
        if format.head? = some b then
          (next stars format).bind fun format => (.ok (two, format) : Except Ending _)
        else .ok (one, format)) = .error (.cut k)) : k = stars := by
  cases hnext : next stars format with
  | error e =>
    rw [hnext] at h
    cases h
    exact next_cut hnext
  | ok rest =>
    rw [hnext] at h
    simp only [Except.bind] at h
    split at h
    · cases hsecond : next stars rest with
      | error e =>
        rw [hsecond] at h
        cases h
        exact next_cut hsecond
      | ok _ => rw [hsecond] at h; cases h
    · cases h

theorem parseLength_cut {stars k : Nat} {format : List Byte}
    (h : parseLength stars format = .error (.cut k)) : k = stars := by
  unfold parseLength at h
  split at h
  · cases h
  · next b rest =>
    split at h
    · exact doubled_cut h
    · split at h
      · exact doubled_cut h
      · split at h
        · cases hnext : next stars (b :: rest) with
          | error e =>
            rw [hnext] at h
            cases h
            exact next_cut hnext
          | ok _ => rw [hnext] at h; cases h
        · cases h

theorem parseSpecifier_cut {stars k : Nat} {format : List Byte}
    (h : parseSpecifier stars format = .error (.cut k)) : k = stars := by
  have h' : (parseLength stars format).bind _ = .error (.cut k) := h
  cases hlength : parseLength stars format with
  | error e =>
    rw [hlength] at h'
    cases h'
    exact parseLength_cut hlength
  | ok r =>
    rw [hlength] at h'
    obtain ⟨length, rest⟩ := r
    cases rest with
    | nil => cases h'
    | cons b rest => cases h'

/-- Behind the precision. -/
theorem formatTail_eq (output : OutputGadget σ n) (stored : List WriteBack) (flags : Flags)
    (width precision : PrintfSize) (format : List Byte) (args : List Arg) {args₀ : List Arg}
    {stars : Nat} (h : (readStars stars args₀).isSome) :
    (do
      let (flags, format) ← evaluateLength flags format
      match format with
      | [] => .error .fault
      | b :: format =>
        let (output, args, written) ← need (evaluateSpecifier output b flags width precision args)
        .ok (⟨output, format, args, stored ++ written⟩ : LoopState σ n)) =
    meant args₀ (parseSpecifier stars format) fun ((length, b), format) =>
      (specifierEvents b (length.set flags) width precision args).bind fun (events, args) =>
        (play (output, stored) events).map fun after => ⟨after.1, format, args, after.2⟩ := by
  rw [evaluateLength_eq flags format h]
  show _ = meant args₀ ((parseLength stars format).bind _) _
  cases parseLength stars format with
  | error e => rfl
  | ok r =>
    obtain ⟨length, format⟩ := r
    cases format with
    | nil => rfl
    | cons b format =>
      show (need (evaluateSpecifier output b (length.set flags) width precision args)).bind _ =
        need (Option.bind _ _)
      rw [evaluateSpecifier_eq]
      cases specifierEvents b (length.set flags) width precision args with
      | none => rfl
      | some r =>
        simp only [Option.bind_some]
        rw [play_stored output stored]
        cases play (output, []) r.1 <;> rfl

/-- The parts of a directive behind its width. -/
theorem formatMiddle_eq (output : OutputGadget σ n) (stored : List WriteBack) (flags : Flags)
    (width : PrintfSize) (format : List Byte) {args args₀ : List Arg} {stars : Nat}
    (h : readStars stars args₀ = some args) :
    (do
      let ((precision, flags), format, args) ← evaluatePrecision flags format args
      let (flags, format) ← evaluateLength flags format
      match format with
      | [] => .error .fault
      | b :: format =>
        let (output, args, written) ← need (evaluateSpecifier output b flags width precision args)
        .ok (⟨output, format, args, stored ++ written⟩ : LoopState σ n)) =
    meant args₀
      (do
        let (precision, format) ← parsePrecision stars format
        let (tail, format) ← parseSpecifier (stars + precisionStars precision) format
        .ok ((precision, tail), format))
      fun ((precision, (length, b)), format) =>
        (readPrecision precision flags args).bind fun ((precision, flags), args) =>
          (specifierEvents b (length.set flags) width precision args).bind fun (events, args) =>
            (play (output, stored) events).map fun after => ⟨after.1, format, args, after.2⟩ := by
  rw [evaluatePrecision_eq flags format h]
  show _ = meant args₀ ((parsePrecision stars format).bind _) _
  cases parsePrecision stars format with
  | error e => rfl
  | ok r =>
    obtain ⟨field, rest⟩ := r
    have hstars : readStars (stars + precisionStars field) args₀ =
        (readPrecision field flags args).map (·.2) := by
      rw [readStars_add, h, readPrecision_stars]
      rfl
    show (need ((readPrecision field flags args).map _)).bind _ =
      meant args₀ ((parseSpecifier (stars + precisionStars field) rest).bind _) _
    cases hread : readPrecision field flags args with
    | none =>
      rw [hread] at hstars
      refine (meant_fault ?_ ?_).symm
      · intro k hk
        cases htail : parseSpecifier (stars + precisionStars field) rest with
        | error e =>
          rw [htail] at hk
          cases hk
          rw [parseSpecifier_cut htail]
          exact hstars
        | ok r => rw [htail] at hk; cases hk
      · intro a ha
        cases htail : parseSpecifier (stars + precisionStars field) rest with
        | error e => rw [htail] at ha; cases ha
        | ok r =>
          rw [htail] at ha
          cases ha
          show (readPrecision field flags args).bind _ = none
          rw [hread]
          rfl
    | some r =>
      obtain ⟨⟨precision, flags'⟩, args'⟩ := r
      rw [hread] at hstars
      have htail := formatTail_eq output stored flags' width precision rest args'
        (by rw [hstars]; rfl : (readStars (stars + precisionStars field) args₀).isSome)
      refine htail.trans ?_
      cases parseSpecifier (stars + precisionStars field) rest with
      | error e => rfl
      | ok r =>
        simp only [meant, Except.bind, hread, Option.bind_some]

theorem middle_cut {α : Type} {stars k : Nat} {format : List Byte}
    {f : Option Field → Length × Byte → α}
    (h : (parsePrecision stars format).bind (fun (precision, format) =>
        (parseSpecifier (stars + precisionStars precision) format).bind fun (tail, format) =>
          (.ok (f precision tail, format) : Except Ending _)) = .error (.cut k)) : stars ≤ k := by
  cases hprec : parsePrecision stars format with
  | error e =>
    rw [hprec] at h
    cases h
    exact parsePrecision_cut hprec
  | ok r =>
    rw [hprec] at h
    simp only [Except.bind] at h
    cases htail : parseSpecifier (stars + precisionStars r.1) r.2 with
    | error e =>
      rw [htail] at h
      cases h
      rw [parseSpecifier_cut htail]
      exact Nat.le_add_right _ _
    | ok _ => rw [htail] at h; cases h

theorem middle_ok {α : Type} {stars : Nat} {format rest : List Byte} {a : α}
    {f : Option Field → Length × Byte → α}
    (h : (parsePrecision stars format).bind (fun (precision, format) =>
        (parseSpecifier (stars + precisionStars precision) format).bind fun (tail, format) =>
          (.ok (f precision tail, format) : Except Ending _)) = .ok (a, rest)) :
    ∃ precision tail, a = f precision tail := by
  cases hprec : parsePrecision stars format with
  | error e => rw [hprec] at h; cases h
  | ok r =>
    rw [hprec] at h
    simp only [Except.bind] at h
    cases htail : parseSpecifier (stars + precisionStars r.1) r.2 with
    | error e => rw [htail] at h; cases h
    | ok t =>
      rw [htail] at h
      cases h
      exact ⟨_, _, rfl⟩

/-- The parts of a directive behind its flags. -/
theorem formatFields_eq (output : OutputGadget σ n) (stored : List WriteBack) (flags : Flags)
    (format : List Byte) (args : List Arg) :
    (do
      let ((width, flags), format, args) ← evaluateWidth flags format args
      let ((precision, flags), format, args) ← evaluatePrecision flags format args
      let (flags, format) ← evaluateLength flags format
      match format with
      | [] => .error .fault
      | b :: format =>
        let (output, args, written) ← need (evaluateSpecifier output b flags width precision args)
        .ok (⟨output, format, args, stored ++ written⟩ : LoopState σ n)) =
    meant args
      (do
        let (width, format) ← parseField 0 format
        let (precision, format) ← parsePrecision width.stars format
        let ((length, specifier), format) ←
          parseSpecifier (width.stars + precisionStars precision) format
        .ok ((⟨flags, width, precision, length, specifier⟩ : Directive), format))
      fun (d, format) =>
        (directiveEvents d args).bind fun (events, args) =>
          (play (output, stored) events).map fun after => ⟨after.1, format, args, after.2⟩ := by
  rw [evaluateWidth, evaluateField_eq _ _ format (rfl : readStars 0 args = some args)]
  show _ = meant args ((parseField 0 format).bind _) _
  cases parseField 0 format with
  | error e => rfl
  | ok r =>
    obtain ⟨field, rest⟩ := r
    have hstars := readField_stars (fun width => (width, flags)) (starWidth flags) field args
    show (need ((readWidth field flags args).map _)).bind _ =
      meant args ((parsePrecision field.stars rest).bind _) _
    cases hread : readWidth field flags args with
    | none =>
      rw [readWidth] at hread
      rw [hread] at hstars
      refine (meant_fault ?_ ?_).symm
      · intro k hk
        exact readStars_none hstars.symm
          (middle_cut (f := fun precision tail => (⟨flags, field, precision, tail.1, tail.2⟩ : Directive)) hk)
      · rintro ⟨d, rest'⟩ ha
        obtain ⟨precision, tail, rfl⟩ :=
          middle_ok (f := fun precision tail => (⟨flags, field, precision, tail.1, tail.2⟩ : Directive)) ha
        show (Option.bind (Option.bind (readWidth field flags args) _) _) = none
        rw [readWidth, hread]
        rfl
    | some r =>
      obtain ⟨⟨width, flags'⟩, args'⟩ := r
      have hread' := hread
      rw [readWidth] at hread'
      rw [hread'] at hstars
      refine (formatMiddle_eq output stored flags' width rest hstars.symm).trans ?_
      show meant args ((parsePrecision field.stars rest).bind _) _ = _
      cases parsePrecision field.stars rest with
      | error e => rfl
      | ok r =>
        obtain ⟨precision, rest'⟩ := r
        show meant args ((parseSpecifier (field.stars + precisionStars precision) rest').bind _) _ =
          meant args ((parseSpecifier (field.stars + precisionStars precision) rest').bind _) _
        cases parseSpecifier (field.stars + precisionStars precision) rest' with
        | error e => rfl
        | ok r =>
          show need _ = need ((directiveEvents _ args).bind _)
          rw [directiveEvents, hread]
          simp only [Option.bind_some, Option.bind_assoc]

theorem formatDirective_eq (st : LoopState σ n) :
    formatDirective st = meant st.args (parseDirective st.format) fun (d, format) =>
      (directiveEvents d st.args).bind fun (events, args) =>
        (play (st.output, st.writeBacks) events).map fun after =>
          ⟨after.1, format, args, after.2⟩ := by
  unfold formatDirective parseDirective
  rw [advance_eq (rfl : (readStars 0 st.args).isSome)]
  cases next 0 st.format with
  | error e => rfl
  | ok format =>
    cases hflags : parseFlags {} format with
    | none =>
      simp only [meant, need, bind, Except.bind, hflags, orOverrun]
      rfl
    | some r =>
      have hfields := formatFields_eq st.output st.writeBacks r.1 r.2 st.args
      simp only [meant, need, bind, Except.bind, hflags, orOverrun] at hfields ⊢
      exact hfields

/-! ## The loop -/

/-- Taking apart two readings in a row. -/
theorem bind_ok {α β : Type} {parsed : Except Ending α} {f : α → Except Ending β} {b : β}
    (h : parsed.bind f = .ok b) : ∃ a, parsed = .ok a ∧ f a = .ok b := by
  cases parsed with
  | error e => cases h
  | ok a => exact ⟨a, rfl, h⟩

theorem next_length {stars : Nat} {format rest : List Byte} (h : next stars format = .ok rest) :
    rest.length < format.length := by
  cases format with
  | nil => cases h
  | cons b format =>
    cases format with
    | nil => cases h
    | cons b' format =>
      unfold next at h
      dsimp only [List.tail_cons] at h
      split at h
      · cases h
      · cases h
        exact Nat.lt_succ_self _

theorem parseFlags_length {flags : Flags} {format : List Byte} {r : Flags × List Byte}
    (h : parseFlags flags format = some r) : r.2.length ≤ format.length := by
  induction format generalizing flags with
  | nil => cases h
  | cons b format ih =>
    rw [parseFlags] at h
    rw [List.length_cons]
    split at h
    · exact (ih h).trans (Nat.le_succ _)
    · split at h
      · exact (ih h).trans (Nat.le_succ _)
      · split at h
        · exact (ih h).trans (Nat.le_succ _)
        · split at h
          · exact (ih h).trans (Nat.le_succ _)
          · split at h
            · exact (ih h).trans (Nat.le_succ _)
            · cases h
              exact Nat.le_refl _

theorem atou_length {i : PrintfSize} {str : List Byte} {r : PrintfSize × List Byte}
    (h : atou i str = some r) : r.2.length ≤ str.length := by
  induction str generalizing i with
  | nil => cases h
  | cons b str ih =>
    rw [atou] at h
    split at h
    · exact (ih h).trans (Nat.le_succ _)
    · cases h
      exact Nat.le_refl _

theorem parseField_length {stars : Nat} {format : List Byte} {r : Field × List Byte}
    (h : parseField stars format = .ok r) : r.2.length ≤ format.length := by
  unfold parseField at h
  split at h
  · cases h
  · next b rest =>
    split at h
    · cases hnum : atou 0 (b :: rest) with
      | none => rw [hnum] at h; cases h
      | some r' =>
        rw [hnum] at h
        cases h
        exact atou_length hnum
    · split at h
      · cases hnext : next (stars + 1) (b :: rest) with
        | error e => rw [hnext] at h; cases h
        | ok r' =>
          rw [hnext] at h
          cases h
          exact (next_length hnext).le
      · cases h
        exact Nat.le_refl _

theorem parsePrecision_length {stars : Nat} {format : List Byte} {r : Option Field × List Byte}
    (h : parsePrecision stars format = .ok r) : r.2.length ≤ format.length := by
  unfold parsePrecision at h
  split at h
  · cases h
  · split at h
    · obtain ⟨rest, hnext, h⟩ := bind_ok h
      obtain ⟨r', hfield, h⟩ := bind_ok h
      cases h
      exact (parseField_length hfield).trans (next_length hnext).le
    · cases h
      exact Nat.le_refl _

theorem doubled_length {stars : Nat} {b : Byte} {format : List Byte} {one two : Length}
    {r : Length × List Byte}
    (h : ((next stars format).bind fun format =>
        if format.head? = some b then
          (next stars format).bind fun format => (.ok (two, format) : Except Ending _)
        else .ok (one, format)) = .ok r) : r.2.length ≤ format.length := by
  obtain ⟨rest, hnext, h⟩ := bind_ok h
  split at h
  · obtain ⟨rest', hnext', h⟩ := bind_ok h
    cases h
    exact (next_length hnext').le.trans (next_length hnext).le
  · cases h
    exact (next_length hnext).le

theorem parseLength_length {stars : Nat} {format : List Byte} {r : Length × List Byte}
    (h : parseLength stars format = .ok r) : r.2.length ≤ format.length := by
  unfold parseLength at h
  split at h
  · cases h
  · split at h
    · exact doubled_length h
    · split at h
      · exact doubled_length h
      · split at h
        · obtain ⟨rest, hnext, h⟩ := bind_ok h
          cases h
          exact (next_length hnext).le
        · cases h
          exact Nat.le_refl _

/-- A directive takes at least two characters of the format. -/
theorem parseDirective_length {format : List Byte} {r : Directive × List Byte}
    (h : parseDirective format = .ok r) : r.2.length < format.length := by
  obtain ⟨f₁, hnext, h⟩ := bind_ok h
  obtain ⟨⟨flags, f₂⟩, hflags, h⟩ := bind_ok h
  obtain ⟨⟨width, f₃⟩, hwidth, h⟩ := bind_ok h
  obtain ⟨⟨precision, f₄⟩, hprecision, h⟩ := bind_ok h
  obtain ⟨⟨tail, f₅⟩, htail, h⟩ := bind_ok h
  cases h
  obtain ⟨⟨length, f₆⟩, hlength, htail⟩ := bind_ok htail
  have hflags' : parseFlags {} f₁ = some (flags, f₂) := by
    cases hp : parseFlags {} f₁ with
    | none => rw [hp] at hflags; cases hflags
    | some r => rw [hp] at hflags; cases hflags; rfl
  have h₁ := next_length hnext
  have h₂ := parseFlags_length hflags'
  have h₃ := parseField_length hwidth
  have h₄ := parsePrecision_length hprecision
  have h₅ := parseLength_length hlength
  cases f₆ with
  | nil => cases htail
  | cons b rest =>
    cases htail
    dsimp only at h₂ h₃ h₄ h₅ ⊢
    rw [List.length_cons] at h₅
    omega

theorem parsePiece_length {format : List Byte} {r : Piece × List Byte}
    (h : parsePiece format = .ok r) : r.2.length < format.length := by
  unfold parsePiece at h
  split at h
  · cases h
  · next b rest =>
    split at h
    · cases h
      exact Nat.lt_succ_self _
    · cases hd : parseDirective (b :: rest) with
      | error e => rw [hd] at h; cases h
      | ok d =>
        rw [hd] at h
        cases h
        exact parseDirective_length hd

/-- One round: a piece is read and its events are played. -/
theorem formatRound_eq (st : LoopState σ n) (h : st.format.head? ≠ some 0) :
    formatRound st =
      match meant st.args (parsePiece st.format) (fun (piece, format) =>
        (pieceEvents piece st.args).bind fun (events, args) =>
          (play (st.output, st.writeBacks) events).map fun after =>
            (⟨after.1, format, args, after.2⟩ : LoopState σ n)) with
      | .ok st => .next st
      | .error .returned => .done (some st)
      | .error .fault => .done none := by
  obtain ⟨output, format, args, stored⟩ := st
  cases format with
  | nil => rfl
  | cons b format =>
    have h0 : ¬b = 0 := fun hb => h (congrArg some hb)
    unfold formatRound parsePiece
    dsimp only
    rw [if_neg h0]
    by_cases hpercent : b ≠ chr '%'
    · rw [if_pos hpercent, if_pos hpercent]
      simp only [meant, pieceEvents, Option.bind_some, play_cons, playEvent]
      cases putcharViaGadget output b <;> rfl
    · rw [if_neg hpercent, if_neg hpercent, formatDirective_eq]
      dsimp only
      cases parseDirective (b :: format) with
      | error e => cases he : e.stop args <;> simp only [meant, Except.map, he]
      | ok r => rfl

/-- The pieces of a format and the stars behind them, played on a gadget. -/
def playPieces (st : OutputGadget σ n × List WriteBack) (parsed : List Piece × Nat)
    (args : List Arg) : Option (OutputGadget σ n × List WriteBack) :=
  (render parsed.1 args).bind fun (events, args) =>
    (readStars parsed.2 args).bind fun _ => play st events

theorem playPieces_cons (st : OutputGadget σ n × List WriteBack) (piece : Piece)
    (pieces : List Piece) (stars : Nat) (args : List Arg) :
    playPieces st (piece :: pieces, stars) args =
      (pieceEvents piece args).bind fun (events, args) =>
        (play st events).bind fun st => playPieces st (pieces, stars) args := by
  unfold playPieces
  rw [render]
  cases pieceEvents piece args with
  | none => rfl
  | some r =>
    simp only [Option.bind_some]
    cases render pieces r.2 with
    | none => cases play st r.1 <;> rfl
    | some r' =>
      simp only [Option.map_some, Option.bind_some, play_append]
      cases readStars stars r'.2 with
      | none => cases play st r.1 <;> rfl
      | some _ => rfl

theorem playPieces_bind (st : OutputGadget σ n × List WriteBack) (piece : Piece)
    (parsed : Option (List Piece × Nat)) (args : List Arg) :
    (parsed.map fun (pieces, stars) => (piece :: pieces, stars)).bind
        (fun parsed => playPieces st parsed args) =
      parsed.bind fun parsed =>
        (pieceEvents piece args).bind fun (events, args) =>
          (play st events).bind fun st => playPieces st parsed args := by
  rw [Option.bind_map]
  exact congrArg _ (funext fun parsed => playPieces_cons _ _ _ _ _)

theorem formatRounds_eq (rounds : Nat) (st : LoopState σ n) (h : st.format.length < rounds) :
    ∃ result, loop formatRound rounds st = .done result ∧
      result.map (fun st => (st.output, st.writeBacks)) =
        (parse rounds st.format).bind fun parsed =>
          playPieces (st.output, st.writeBacks) parsed st.args := by
  induction rounds generalizing st with
  | zero => omega
  | succ rounds ih =>
    rw [parse]
    by_cases h0 : st.format.head? = some 0
    · have hround : formatRound st = .done (some st) := by
        obtain ⟨output, format, args, stored⟩ := st
        obtain ⟨rest, rfl⟩ := List.head?_eq_some_iff.mp h0
        rfl
      refine ⟨some st, loop_done hround, ?_⟩
      rw [if_pos h0]
      rfl
    · rw [if_neg h0]
      have hround := formatRound_eq st h0
      cases hparse : parsePiece st.format with
      | error e =>
        rw [hparse] at hround
        cases e with
        | overrun => exact ⟨none, loop_done hround, rfl⟩
        | cut stars =>
          simp only [meant, Ending.stop] at hround
          simp only [Option.bind_some, playPieces, render]
          cases hstars : readStars stars st.args with
          | none =>
            rw [hstars] at hround
            exact ⟨none, loop_done hround, rfl⟩
          | some args =>
            rw [hstars] at hround
            exact ⟨some st, loop_done hround, rfl⟩
      | ok r =>
        obtain ⟨piece, rest⟩ := r
        rw [hparse] at hround
        have hlength := parsePiece_length hparse
        have hcons := playPieces_bind (st.output, st.writeBacks) piece (parse rounds rest) st.args
        dsimp only at hround hcons ⊢
        rw [hcons]
        simp only [meant, need] at hround
        cases hevents : pieceEvents piece st.args with
        | none =>
          rw [hevents] at hround
          exact ⟨none, loop_done hround, by cases parse rounds rest <;> rfl⟩
        | some r =>
          obtain ⟨events, args⟩ := r
          rw [hevents] at hround
          simp only [Option.bind_some] at hround ⊢
          cases hplay : play (st.output, st.writeBacks) events with
          | none =>
            rw [hplay] at hround
            exact ⟨none, loop_done hround, by cases parse rounds rest <;> rfl⟩
          | some after =>
            rw [hplay] at hround
            obtain ⟨result, hrun, hresult⟩ := ih ⟨after.1, rest, args, after.2⟩ (by
              show rest.length < rounds
              dsimp only at hlength
              omega)
            exact ⟨result, (loop_next hround).trans hrun, hresult⟩

/-- The loop plays what its format means, on every gadget. -/
theorem formatStringLoop_eq (output : OutputGadget σ n) (format : List Byte) (args : List Arg) :
    formatStringLoop output format args = (meaning format args).bind (play (output, [])) := by
  obtain ⟨result, hrun, hresult⟩ :=
    formatRounds_eq (format.length + 1) ⟨output, format, args, []⟩ (Nat.lt_succ_self _)
  rw [formatStringLoop, hrun, meaning]
  refine hresult.trans ?_
  cases parse (format.length + 1) format with
  | none => rfl
  | some p =>
    simp only [Option.bind_some, playPieces]
    cases render p.1 args with
    | none => rfl
    | some r =>
      simp only [Option.bind_some]
      cases readStars p.2 r.2 <;> rfl

end SeshOS.Printf
