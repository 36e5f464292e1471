/-
  Formats written from pieces, and read back.

  `formatText` writes pieces down, and `parse` reads the same pieces from that text, whatever the
  values of the fields (`parse_formatText`). So a format can ask for every directive there is,
  and `written_format_rendered` says that the printf family then does what the pieces say.

  The flags of a directive that is read are among the five that can be written, which gives what
  `IntegerCall` asks of a call of `printInt` (`directive_integerCall`).
-/
import SeshOS.Printf.Meaning
import SeshOS.Printf.Numerals

namespace SeshOS.Printf

open Base Libc

/-! ## Writing pieces -/

/-- The flags that a format can set. -/
structure FormatFlags (flags : Flags) : Prop where
  uppercase : flags.uppercase = false
  char : flags.char = false
  short : flags.short = false
  long : flags.long = false
  longLong : flags.longLong = false
  precision : flags.precision = false
  pointer : flags.pointer = false
  signed : flags.signed = false

def flagChars : List Byte := ascii "0-+ #"

def Flags.text (flags : Flags) : List Byte :=
  (if flags.zeropad then [chr '0'] else []) ++ ((if flags.left then [chr '-'] else []) ++
    ((if flags.plus then [chr '+'] else []) ++ ((if flags.space then [chr ' '] else []) ++
      if flags.hash then [chr '#'] else [])))

def Field.text : Field → List Byte
  | .absent => []
  | .number value => numeral 10 1 value.toNat
  | .star => [chr '*']

def precisionText : Option Field → List Byte
  | none => []
  | some field => chr '.' :: field.text

def Length.text : Length → List Byte
  | .none => []
  | .h => ascii "h"
  | .hh => ascii "hh"
  | .l => ascii "l"
  | .ll => ascii "ll"

def Directive.text (d : Directive) : List Byte :=
  chr '%' :: (d.flags.text ++ (d.width.text ++ (precisionText d.precision ++
    (d.length.text ++ [d.specifier]))))

def Piece.text : Piece → List Byte
  | .literal b => [b]
  | .directive d => d.text

def formatText (pieces : List Piece) : List Byte := pieces.flatMap Piece.text

/-- A specifier that is read as none of the parts in front of it. -/
def PlainSpecifier (b : Byte) : Prop :=
  b ≠ 0 ∧ b ∉ ascii "0123456789-+ #*.lhtjz"

instance (b : Byte) : Decidable (PlainSpecifier b) := inferInstanceAs (Decidable (_ ∧ _))

/-- A width of 0 would be read as the flag, and a literal is not the start of a directive. -/
def Piece.Plain : Piece → Prop
  | .literal b => b ≠ 0 ∧ b ≠ chr '%'
  | .directive d => FormatFlags d.flags ∧ d.width ≠ .number 0 ∧ PlainSpecifier d.specifier

/-! ## Reading them back -/

/-! ### Flags -/

/-- What a flag character sets. -/
def setFlag (flags : Flags) (b : Byte) : Flags :=
  if b = chr '0' then { flags with zeropad := true }
  else if b = chr '-' then { flags with left := true }
  else if b = chr '+' then { flags with plus := true }
  else if b = chr ' ' then { flags with space := true }
  else { flags with hash := true }

theorem mem_flagChars (b : Byte) : b ∈ flagChars ↔
    b = chr '0' ∨ b = chr '-' ∨ b = chr '+' ∨ b = chr ' ' ∨ b = chr '#' := by
  have hchars : flagChars = [chr '0', chr '-', chr '+', chr ' ', chr '#'] := rfl
  rw [hchars]
  simp

theorem parseFlags_cons (flags : Flags) (b : Byte) (s : List Byte) :
    parseFlags flags (b :: s) =
      if b ∈ flagChars then parseFlags (setFlag flags b) s else some (flags, b :: s) := by
  rw [parseFlags]
  unfold setFlag
  by_cases h0 : b = chr '0'
  · rw [if_pos h0, if_pos h0, if_pos ((mem_flagChars b).mpr (Or.inl h0))]
  by_cases h1 : b = chr '-'
  · rw [if_neg h0, if_pos h1, if_neg h0, if_pos h1,
      if_pos ((mem_flagChars b).mpr (Or.inr (Or.inl h1)))]
  by_cases h2 : b = chr '+'
  · rw [if_neg h0, if_neg h1, if_pos h2, if_neg h0, if_neg h1, if_pos h2,
      if_pos ((mem_flagChars b).mpr (Or.inr (Or.inr (Or.inl h2))))]
  by_cases h3 : b = chr ' '
  · rw [if_neg h0, if_neg h1, if_neg h2, if_pos h3, if_neg h0, if_neg h1, if_neg h2, if_pos h3,
      if_pos ((mem_flagChars b).mpr (Or.inr (Or.inr (Or.inr (Or.inl h3)))))]
  rw [if_neg h0, if_neg h1, if_neg h2, if_neg h3, if_neg h0, if_neg h1, if_neg h2, if_neg h3]
  by_cases h4 : b = chr '#'
  · rw [if_pos h4, if_pos ((mem_flagChars b).mpr (Or.inr (Or.inr (Or.inr (Or.inr h4)))))]
  · have hnone : b ∉ flagChars := by
      rw [mem_flagChars]
      tauto
    rw [if_neg h4, if_neg hnone]

/-- All flag characters in front are read. -/
theorem parseFlags_append (flags : Flags) {fs : List Byte} (hfs : ∀ f ∈ fs, f ∈ flagChars) {b : Byte}
    (hb : b ∉ flagChars) (s : List Byte) :
    parseFlags flags (fs ++ b :: s) = some (fs.foldl setFlag flags, b :: s) := by
  induction fs generalizing flags with
  | nil => rw [List.nil_append, parseFlags_cons, if_neg hb, List.foldl_nil]
  | cons f fs ih =>
    rw [List.cons_append, parseFlags_cons, if_pos (hfs f List.mem_cons_self),
      ih _ fun g hg => hfs g (List.mem_cons_of_mem _ hg), List.foldl_cons]

theorem text_flagChars (flags : Flags) : ∀ f ∈ flags.text, f ∈ flagChars := by
  intro f hf
  simp only [Flags.text, List.mem_append] at hf
  rcases hf with hf | hf | hf | hf | hf
  all_goals
    split at hf
    · rw [List.mem_singleton.mp hf]
      decide
    · cases hf

theorem parseFlags_text {flags : Flags} (h : FormatFlags flags) {b : Byte} (hb : b ∉ flagChars)
    (s : List Byte) : parseFlags {} (flags.text ++ b :: s) = some (flags, b :: s) := by
  obtain ⟨zeropad, left, plus, space, hash, uppercase, char, short, long, longLong, precision, pointer,
    signed⟩ := flags
  obtain ⟨huppercase, hchar, hshort, hlong, hlongLong, hprecision, hpointer, hsigned⟩ := h
  dsimp only at huppercase hchar hshort hlong hlongLong hprecision hpointer hsigned
  subst huppercase hchar hshort hlong hlongLong hprecision hpointer hsigned
  rw [parseFlags_append {} (text_flagChars _) hb]
  cases zeropad <;> cases left <;> cases plus <;> cases space <;> cases hash <;> rfl

/-! ### Fields -/

theorem isdigit_digitChar : ∀ d < 10, isdigit (digitChar d).toInt = true := by decide

theorem digitChar_of_isdigit {b : Byte} (h : isdigit b.toInt = true) : ∃ d < 10, b = digitChar d := by
  have hbound := b.isLt
  rw [isdigit, Bool.and_eq_true, decide_eq_true_eq, decide_eq_true_eq,
    BitVec.toInt_eq_toNat_cond] at h
  obtain ⟨hlower, hupper⟩ := h
  have hnat : 48 ≤ b.toNat ∧ b.toNat ≤ 57 := by
    split at hlower <;> split at hupper <;> omega
  have hsub : b.toNat - 48 < 10 := by omega
  refine ⟨b.toNat - 48, hsub, BitVec.eq_of_toNat_eq ?_⟩
  rw [digitChar, if_pos hsub, BitVec.toNat_ofNat]
  omega

/-- A numeral is read up to the first character that is not a digit. -/
theorem atou_digits (i : PrintfSize) {ds : List Nat} (h : ∀ d ∈ ds, d < 10) {b : Byte}
    (hb : isdigit b.toInt = false) (s : List Byte) :
    atou i (ds.map digitChar ++ b :: s) =
      some (ds.foldl (fun i d => i * 10 + BitVec.ofNat 32 d) i, b :: s) := by
  have hdigit : ∀ d < 10, (digitChar d).signExtend 32 - (chr '0').signExtend 32 =
      BitVec.ofNat 32 d := by decide
  induction ds generalizing i with
  | nil => rw [List.map_nil, List.nil_append, atou, hb, if_neg Bool.false_ne_true, List.foldl_nil]
  | cons d ds ih =>
    have hd := h d List.mem_cons_self
    rw [List.map_cons, List.cons_append, atou, if_pos (isdigit_digitChar d hd), hdigit d hd,
      ih _ fun e he => h e (List.mem_cons_of_mem _ he), List.foldl_cons]

/-- The number that `atou_` makes of digits. -/
theorem foldl_digits_value (ds : List Nat) :
    ds.foldl (fun i d => i * 10 + BitVec.ofNat 32 d) (0 : PrintfSize) =
      BitVec.ofNat 32 (Nat.ofDigits 10 ds.reverse) := by
  have hhorner := foldr_digits 10 (0 : PrintfSize) ds.reverse
  rw [zero_mul, zero_add] at hhorner
  rw [← List.reverse_reverse ds, List.foldl_reverse, List.reverse_reverse]
  exact hhorner

/-- The digits of a field. -/
theorem numeral_digits (value : Nat) :
    ∃ ds : List Nat, (∀ d ∈ ds, d < 10) ∧ numeral 10 1 value = ds.map digitChar ∧
      Nat.ofDigits 10 ds.reverse = value ∧ ∃ d es, ds = d :: es ∧ (value ≠ 0 → d ≠ 0) := by
  by_cases hvalue : value = 0
  · subst hvalue
    exact ⟨[0], by decide, rfl, rfl, 0, [], rfl, fun h => absurd rfl h⟩
  · have hne : Nat.digits 10 value ≠ [] := Nat.digits_ne_nil_iff_ne_zero.mpr hvalue
    have hnone : 1 - (Nat.digits 10 value).length = 0 := by
      have := List.length_pos_iff.mpr hne
      omega
    refine ⟨(Nat.digits 10 value).reverse, fun d hd => ?_, ?_, ?_, ?_⟩
    · exact Nat.digits_lt_base (by decide) (List.mem_reverse.mp hd)
    · rw [numeral, hnone]
      rfl
    · rw [List.reverse_reverse, Nat.ofDigits_digits]
    · obtain ⟨d, es, hcons⟩ := List.exists_cons_of_ne_nil (List.reverse_ne_nil_iff.mpr hne)
      refine ⟨d, es, hcons, fun _ => ?_⟩
      have hlast := Nat.getLast_digit_ne_zero 10 hvalue
      rw [List.getLast_eq_head_reverse] at hlast
      simp only [hcons, List.head_cons] at hlast
      exact hlast

/-- The text starts with a character of the kind `P`. -/
def Starts (P : Byte → Prop) (s : List Byte) : Prop := ∃ b t, s = b :: t ∧ P b

/-- What ends a field. -/
def EndsField (b : Byte) : Prop := isdigit b.toInt = false ∧ b ≠ chr '*' ∧ b ≠ 0

theorem next_cons {stars : Nat} (c : Byte) {b : Byte} (hb : b ≠ 0) (s : List Byte) :
    next stars (c :: b :: s) = .ok (b :: s) := if_neg hb

theorem parseField_text (stars : Nat) (field : Field) {s : List Byte} (hs : Starts EndsField s) :
    parseField stars (field.text ++ s) = .ok (field, s) := by
  obtain ⟨b, t, rfl, hdigit, hstar, hnul⟩ := hs
  cases field with
  | absent =>
    show parseField stars (b :: t) = _
    rw [parseField, if_neg (by rw [hdigit]; exact Bool.false_ne_true), if_neg hstar]
  | star =>
    show parseField stars (chr '*' :: b :: t) = _
    rw [parseField, if_neg (by decide), if_pos rfl, next_cons _ hnul]
    rfl
  | number value =>
    obtain ⟨ds, hds, hnumeral, hvalue, d, es, rfl, -⟩ := numeral_digits value.toNat
    have hfold := foldl_digits_value (d :: es)
    have hread := atou_digits 0 hds hdigit t
    rw [hfold, hvalue, BitVec.ofNat_toNat, BitVec.setWidth_eq] at hread
    show parseField stars (numeral 10 1 value.toNat ++ b :: t) = _
    rw [hnumeral]
    rw [List.map_cons, List.cons_append] at hread ⊢
    rw [parseField, if_pos (isdigit_digitChar d (hds d List.mem_cons_self)), hread]
    rfl

theorem starts_field {P : Byte → Prop} {field : Field} {s : List Byte}
    (hdigit : ∀ d < 10, (field ≠ .number 0 → d ≠ 0) → P (digitChar d)) (hstar : P (chr '*'))
    (hs : Starts P s) : Starts P (field.text ++ s) := by
  cases field with
  | absent => exact hs
  | star => exact ⟨chr '*', s, rfl, hstar⟩
  | number value =>
    obtain ⟨ds, hds, hnumeral, -, d, es, rfl, hlead⟩ := numeral_digits value.toNat
    refine ⟨digitChar d, es.map digitChar ++ s, ?_, hdigit d (hds d List.mem_cons_self) fun h =>
      hlead fun hzero => h (congrArg Field.number (BitVec.eq_of_toNat_eq hzero))⟩
    show numeral 10 1 value.toNat ++ s = _
    rw [hnumeral]
    rfl

theorem parsePrecision_text (stars : Nat) (precision : Option Field) {s : List Byte}
    (hs : Starts (fun b => EndsField b ∧ b ≠ chr '.') s) :
    parsePrecision stars (precisionText precision ++ s) = .ok (precision, s) := by
  obtain ⟨b, t, rfl, hends, hpoint⟩ := hs
  cases precision with
  | none =>
    show parsePrecision stars (b :: t) = _
    rw [parsePrecision, if_neg hpoint]
  | some field =>
    have hfield := parseField_text stars field ⟨b, t, rfl, hends⟩
    have hnul : ∀ d < 10, digitChar d ≠ 0 := by decide
    obtain ⟨c, u, hc, hnul⟩ : Starts (· ≠ 0) (field.text ++ b :: t) :=
      starts_field (fun d hd _ => hnul d hd) (by decide) ⟨b, t, rfl, hends.2.2⟩
    show parsePrecision stars (chr '.' :: (field.text ++ b :: t)) = _
    rw [parsePrecision, if_pos rfl]
    rw [hc] at hfield ⊢
    rw [next_cons _ hnul]
    show (parseField stars (c :: u)).bind _ = _
    rw [hfield]
    rfl

/-! ### Directives -/

theorem PlainSpecifier.ne {specifier : Byte} (h : PlainSpecifier specifier) {b : Byte}
    (hb : b ∈ ascii "0123456789-+ #*.lhtjz") : specifier ≠ b :=
  fun heq => h.2 (heq ▸ hb)

theorem parseLength_text (stars : Nat) (length : Length) {specifier : Byte}
    (h : PlainSpecifier specifier) (s : List Byte) :
    parseLength stars (length.text ++ specifier :: s) = .ok (length, specifier :: s) := by
  have hl := h.ne (b := chr 'l') (by decide)
  have hh := h.ne (b := chr 'h') (by decide)
  have hothers : ¬(specifier = chr 't' ∨ specifier = chr 'j' ∨ specifier = chr 'z') := by
    rintro (heq | heq | heq)
    · exact h.ne (by decide) heq
    · exact h.ne (by decide) heq
    · exact h.ne (by decide) heq
  have hhead : ∀ b : Byte, specifier ≠ b → (specifier :: s).head? ≠ some b :=
    fun b hb heq => hb (Option.some_inj.mp heq)
  cases length with
  | none =>
    show parseLength stars (specifier :: s) = _
    rw [parseLength, if_neg hl, if_neg hh, if_neg hothers]
  | h =>
    show parseLength stars (chr 'h' :: specifier :: s) = _
    rw [parseLength, if_neg (by decide), if_pos rfl, next_cons _ h.1]
    exact if_neg (hhead _ hh)
  | hh =>
    show parseLength stars (chr 'h' :: chr 'h' :: specifier :: s) = _
    rw [parseLength, if_neg (by decide), if_pos rfl, next_cons _ (by decide)]
    have hsecond : next stars (chr 'h' :: specifier :: s) = .ok (specifier :: s) :=
      next_cons _ h.1 _
    simp only [bind, Except.bind, List.head?_cons, if_true, hsecond]
  | l =>
    show parseLength stars (chr 'l' :: specifier :: s) = _
    rw [parseLength, if_pos rfl, next_cons _ h.1]
    exact if_neg (hhead _ hl)
  | ll =>
    show parseLength stars (chr 'l' :: chr 'l' :: specifier :: s) = _
    rw [parseLength, if_pos rfl, next_cons _ (by decide)]
    have hsecond : next stars (chr 'l' :: specifier :: s) = .ok (specifier :: s) :=
      next_cons _ h.1 _
    simp only [bind, Except.bind, List.head?_cons, if_true, hsecond]

theorem parseSpecifier_text (stars : Nat) (length : Length) {specifier : Byte}
    (h : PlainSpecifier specifier) (s : List Byte) :
    parseSpecifier stars (length.text ++ specifier :: s) = .ok ((length, specifier), s) := by
  show (parseLength stars (length.text ++ specifier :: s)).bind _ = _
  rw [parseLength_text stars length h]
  rfl

/-- What the length and the specifier start with ends the fields in front of it. -/
theorem starts_length (length : Length) {specifier : Byte} (h : PlainSpecifier specifier)
    (s : List Byte) :
    Starts (fun b => (EndsField b ∧ b ≠ chr '.') ∧ b ∉ flagChars) (length.text ++ specifier :: s) := by
  have hletter : ∀ b : Byte, b = chr 'h' ∨ b = chr 'l' →
      (EndsField b ∧ b ≠ chr '.') ∧ b ∉ flagChars := by
    rintro b (rfl | rfl)
    · exact ⟨⟨⟨by decide, by decide, by decide⟩, by decide⟩, by decide⟩
    · exact ⟨⟨⟨by decide, by decide, by decide⟩, by decide⟩, by decide⟩
  cases length with
  | none =>
    refine ⟨specifier, s, rfl, ⟨⟨?_, h.ne (by decide), h.1⟩, h.ne (by decide)⟩, ?_⟩
    · have hdigits : ∀ d < 10, digitChar d ∈ ascii "0123456789-+ #*.lhtjz" := by decide
      rw [← Bool.not_eq_true]
      intro hdigit
      obtain ⟨d, hd, heq⟩ := digitChar_of_isdigit hdigit
      exact h.ne (hdigits d hd) heq
    · have hflags : ∀ b ∈ flagChars, b ∈ ascii "0123456789-+ #*.lhtjz" := by decide
      exact fun hflag => h.ne (hflags _ hflag) rfl
  | h => exact ⟨chr 'h', _, rfl, hletter _ (Or.inl rfl)⟩
  | hh => exact ⟨chr 'h', _, rfl, hletter _ (Or.inl rfl)⟩
  | l => exact ⟨chr 'l', _, rfl, hletter _ (Or.inr rfl)⟩
  | ll => exact ⟨chr 'l', _, rfl, hletter _ (Or.inr rfl)⟩

theorem Starts.mono {P Q : Byte → Prop} {s : List Byte} (h : Starts P s) (hPQ : ∀ b, P b → Q b) :
    Starts Q s := by
  obtain ⟨b, t, hs, hb⟩ := h
  exact ⟨b, t, hs, hPQ b hb⟩

theorem starts_precision (precision : Option Field) {s : List Byte}
    (hs : Starts (fun b => EndsField b ∧ b ∉ flagChars) s) :
    Starts (fun b => EndsField b ∧ b ∉ flagChars) (precisionText precision ++ s) := by
  cases precision with
  | none => exact hs
  | some field =>
    exact ⟨chr '.', field.text ++ s, rfl, ⟨by decide, by decide, by decide⟩, by decide⟩

theorem starts_width {width : Field} (h : width ≠ .number 0) {s : List Byte}
    (hs : Starts (fun b => b ≠ 0 ∧ b ∉ flagChars) s) :
    Starts (fun b => b ≠ 0 ∧ b ∉ flagChars) (width.text ++ s) := by
  have hdigit : ∀ d < 10, d ≠ 0 → digitChar d ≠ 0 ∧ digitChar d ∉ flagChars := by decide
  exact starts_field (fun d hd hlead => hdigit d hd (hlead h)) (by decide) hs

theorem starts_flags (flags : Flags) {s : List Byte} (hs : Starts (· ≠ 0) s) :
    Starts (· ≠ 0) (flags.text ++ s) := by
  have hnul : ∀ f ∈ flagChars, f ≠ 0 := by decide
  cases htext : flags.text with
  | nil => exact hs
  | cons f fs =>
    have hf := text_flagChars flags f (by rw [htext]; exact List.mem_cons_self)
    exact ⟨f, fs ++ s, rfl, hnul f hf⟩

theorem parseDirective_text {d : Directive} (h : (Piece.directive d).Plain) (s : List Byte) :
    parseDirective (d.text ++ s) = .ok (d, s) := by
  obtain ⟨hflags, hwidth, hspecifier⟩ := h
  have hlength := starts_length d.length hspecifier s
  have hprecision := starts_precision d.precision (hlength.mono fun b hb => ⟨hb.1.1, hb.2⟩)
  have hfield := starts_width hwidth (hprecision.mono fun b hb => ⟨hb.1.2.2, hb.2⟩)
  have hnul := starts_flags d.flags (hfield.mono fun b hb => hb.1)
  have htext : d.text ++ s = chr '%' :: (d.flags.text ++ (d.width.text ++
      (precisionText d.precision ++ (d.length.text ++ d.specifier :: s)))) := by
    simp only [Directive.text, List.cons_append, List.append_assoc, List.nil_append]
  have hnext : next 0 (d.text ++ s) = .ok (d.flags.text ++ (d.width.text ++
      (precisionText d.precision ++ (d.length.text ++ d.specifier :: s)))) := by
    obtain ⟨b, t, hb, hne⟩ := hnul
    rw [htext, hb, next_cons _ hne]
  have hread : parseFlags {} (d.flags.text ++ (d.width.text ++
      (precisionText d.precision ++ (d.length.text ++ d.specifier :: s)))) =
      some (d.flags, d.width.text ++
        (precisionText d.precision ++ (d.length.text ++ d.specifier :: s))) := by
    obtain ⟨b, t, hb, -, hne⟩ := hfield
    rw [hb, parseFlags_text hflags hne]
  unfold parseDirective
  simp only [hnext, hread, orOverrun, bind, Except.bind,
    parseField_text 0 d.width (hprecision.mono fun b hb => hb.1),
    parsePrecision_text d.width.stars d.precision (hlength.mono fun b hb => hb.1),
    parseSpecifier_text _ d.length hspecifier]

/-! ### Formats -/

theorem parsePiece_text {piece : Piece} (h : piece.Plain) (s : List Byte) :
    parsePiece (piece.text ++ s) = .ok (piece, s) ∧ (piece.text ++ s).head? ≠ some 0 := by
  cases piece with
  | literal b =>
    obtain ⟨hnul, hpercent⟩ := h
    refine ⟨?_, fun hc => hnul (Option.some_inj.mp hc)⟩
    show parsePiece (b :: s) = _
    rw [parsePiece, if_pos hpercent]
  | directive d =>
    have hread := parseDirective_text h s
    refine ⟨?_, fun hc => absurd (Option.some_inj.mp hc) (by decide)⟩
    show parsePiece (chr '%' :: _) = _
    rw [parsePiece, if_neg fun hc => hc rfl]
    show (parseDirective (d.text ++ s)).map _ = _
    rw [hread]
    rfl

/-- What is written is read, and nothing behind the terminator. -/
theorem parse_formatText {pieces : List Piece} (h : ∀ piece ∈ pieces, piece.Plain) (rest : List Byte)
    {fuel : Nat} (hfuel : pieces.length < fuel) :
    parse fuel (formatText pieces ++ 0 :: rest) = some (pieces, 0) := by
  induction pieces generalizing fuel with
  | nil =>
    obtain ⟨fuel, rfl⟩ := Nat.exists_eq_succ_of_ne_zero (Nat.pos_iff_ne_zero.mp hfuel)
    exact if_pos rfl
  | cons piece pieces ih =>
    obtain ⟨fuel, rfl⟩ := Nat.exists_eq_succ_of_ne_zero (Nat.ne_zero_of_lt hfuel)
    obtain ⟨hread, hhead⟩ :=
      parsePiece_text (h piece List.mem_cons_self) (formatText pieces ++ 0 :: rest)
    have hrest := ih (fun p hp => h p (List.mem_cons_of_mem _ hp)) (Nat.lt_of_succ_lt_succ hfuel)
    have hcons : formatText (piece :: pieces) ++ 0 :: rest =
        piece.text ++ (formatText pieces ++ 0 :: rest) := by
      rw [formatText, List.flatMap_cons, List.append_assoc]
      rfl
    rw [hcons, parse, if_neg hhead, hread]
    dsimp only
    rw [hrest]
    rfl

theorem length_formatText (pieces : List Piece) : pieces.length ≤ (formatText pieces).length := by
  induction pieces with
  | nil => exact Nat.le_refl 0
  | cons piece pieces ih =>
    have hpos : 0 < piece.text.length := by
      cases piece with
      | literal b => exact Nat.one_pos
      | directive d => exact Nat.succ_pos _
    rw [formatText, List.flatMap_cons, List.length_append, List.length_cons]
    rw [formatText] at ih
    omega

/-- Every list of pieces can be asked for: written as a format, with a terminator behind it, it
    makes the loop do what the pieces say to the gadget, whatever is behind the terminator. -/
theorem written_format_rendered {σ : Type} {n : Nat} {pieces : List Piece}
    (h : ∀ piece ∈ pieces, piece.Plain) (rest : List Byte) (output : OutputGadget σ n)
    (args : List Arg) :
    formatStringLoop output (formatText pieces ++ 0 :: rest) args =
      (render pieces args).bind fun (events, _) => play (output, []) events := by
  have hlength := length_formatText pieces
  rw [formatStringLoop_eq, meaning, parse_formatText h rest
    (by rw [List.length_append, List.length_cons]; omega)]
  dsimp only [Option.bind_some]
  cases render pieces args with
  | none => rfl
  | some result => rfl

/-- `x%5d`, with another string behind the terminator. -/
theorem written_format_rendered_width :
    formatStringLoop (bufferGadget (some (Vector.replicate 8 (0xff : Byte))) 8)
        (formatText [.literal (chr 'x'), .directive ⟨{}, .number 5, none, .none, chr 'd'⟩] ++
          0 :: ascii "%s") [.int 42] =
      (render [.literal (chr 'x'), .directive ⟨{}, .number 5, none, .none, chr 'd'⟩] [.int 42]).bind
        fun (events, _) =>
          play (bufferGadget (some (Vector.replicate 8 (0xff : Byte))) 8, []) events := by
  refine written_format_rendered (fun piece hpiece => ?_) (ascii "%s") _ [.int 42]
  rcases List.mem_cons.mp hpiece with rfl | hpiece
  · exact ⟨by decide, by decide⟩
  · rw [List.mem_singleton.mp hpiece]
    exact ⟨⟨rfl, rfl, rfl, rfl, rfl, rfl, rfl, rfl⟩, fun h => absurd h (by decide), by decide⟩

/-! ## The calls of `printInt` -/

theorem FormatFlags.setFlag {flags : Flags} (h : FormatFlags flags) (b : Byte) :
    FormatFlags (setFlag flags b) := by
  obtain ⟨huppercase, hchar, hshort, hlong, hlongLong, hprecision, hpointer, hsigned⟩ := h
  unfold Printf.setFlag
  split
  · exact ⟨huppercase, hchar, hshort, hlong, hlongLong, hprecision, hpointer, hsigned⟩
  · split
    · exact ⟨huppercase, hchar, hshort, hlong, hlongLong, hprecision, hpointer, hsigned⟩
    · split
      · exact ⟨huppercase, hchar, hshort, hlong, hlongLong, hprecision, hpointer, hsigned⟩
      · split
        · exact ⟨huppercase, hchar, hshort, hlong, hlongLong, hprecision, hpointer, hsigned⟩
        · exact ⟨huppercase, hchar, hshort, hlong, hlongLong, hprecision, hpointer, hsigned⟩

theorem FormatFlags.parseFlags {flags flags' : Flags} {s s' : List Byte} (h : FormatFlags flags)
    (hread : parseFlags flags s = some (flags', s')) : FormatFlags flags' := by
  induction s generalizing flags with
  | nil => cases hread
  | cons b s ih =>
    rw [parseFlags_cons] at hread
    split at hread
    · exact ih (h.setFlag b) hread
    · cases hread
      exact h

theorem parseDirective_flags {format rest : List Byte} {d : Directive}
    (h : parseDirective format = .ok (d, rest)) : FormatFlags d.flags := by
  have hstart : FormatFlags {} := ⟨rfl, rfl, rfl, rfl, rfl, rfl, rfl, rfl⟩
  unfold parseDirective at h
  simp only [bind, Except.bind] at h
  cases hnext : next 0 format with
  | error e => rw [hnext] at h; cases h
  | ok format₁ =>
    rw [hnext] at h
    dsimp only at h
    cases hflags : parseFlags {} format₁ with
    | none => rw [hflags] at h; cases h
    | some read =>
      obtain ⟨flags, format₂⟩ := read
      rw [hflags] at h
      dsimp only [orOverrun] at h
      have hformat := hstart.parseFlags hflags
      split at h
      · cases h
      · split at h
        · cases h
        · split at h
          · cases h
          · cases h
            exact hformat

/-- Only the decimal specifiers `d` and `i` are signed. -/
theorem specifierOf_signed {b : Byte} {signed uppercase : Bool} {base : NumericBase}
    (h : specifierOf b = .integer signed base uppercase) (hbase : base ≠ .decimal) :
    signed = false := by
  have hbranch : ∀ (p : Prop) [Decidable p] (x y z : Specifier), (if p then x else y) = z →
      x = z ∨ y = z := by
    intro p _ x y z hxyz
    split at hxyz
    · exact Or.inl hxyz
    · exact Or.inr hxyz
  rcases hbranch _ _ _ _ h with h | h
  · cases h
    exact absurd rfl hbase
  -- all the others print an unsigned number or none
  iterate 5
    rcases hbranch _ _ _ _ h with h | h
    · cases h
      rfl
  iterate 5
    rcases hbranch _ _ _ _ h with h | h
    · cases h
  cases h

theorem readWidth_flags {field : Field} {flags flags' : Flags} {width : PrintfSize}
    {args args' : List Arg} (h : readWidth field flags args = some ((width, flags'), args')) :
    flags' = { flags with left := flags'.left } := by
  cases field with
  | absent => cases h; rfl
  | number w => cases h; rfl
  | star =>
    obtain ⟨⟨w, more⟩, -, heq⟩ := Option.map_eq_some_iff.mp h
    have hflags : (starWidth flags w).2 = flags' := congrArg (fun read => read.1.2) heq
    rw [← hflags, starWidth]
    split
    · rfl
    · rfl

theorem readPrecision_flags {precision : Option Field} {flags flags' : Flags} {value : PrintfSize}
    {args args' : List Arg} (h : readPrecision precision flags args = some ((value, flags'), args')) :
    flags' = { flags with precision := flags.precision || precision.isSome } ∧
      (precision = none → value = 0) := by
  cases precision with
  | none =>
    cases h
    exact ⟨by cases flags; simp, fun _ => rfl⟩
  | some field =>
    have hset : flags' = { flags with precision := true } := by
      cases field with
      | absent => cases h; rfl
      | number p => cases h; rfl
      | star =>
        obtain ⟨⟨p, more⟩, -, heq⟩ := Option.map_eq_some_iff.mp h
        cases heq
        rfl
    refine ⟨?_, fun h => by cases h⟩
    rw [hset, Option.isSome_some, Bool.or_true]

/-- A length sets nothing but its own flags. -/
theorem Length.set_frame (length : Length) (flags : Flags) :
    ∃ char short long longLong : Bool, length.set flags =
      { flags with char := char, short := short, long := long, longLong := longLong } := by
  cases length <;> exact ⟨_, _, _, _, rfl⟩

/-- An unsigned number is not negative. -/
theorem integerArg_unsigned {flags : Flags} (hsigned : flags.signed = false) {args args' : List Arg}
    {value : BitVec 64} {negative : Bool}
    (h : integerArg flags args = some ((value, negative), args')) : negative = false := by
  rw [integerArg, hsigned, if_neg Bool.false_ne_true] at h
  split at h
  · obtain ⟨read, -, heq⟩ := Option.map_eq_some_iff.mp h
    cases heq
    rfl
  · obtain ⟨read, -, heq⟩ := Option.map_eq_some_iff.mp h
    cases heq
    rfl

/-- An integer specifier of a format calls `printInt` as `IntegerCall` says, whatever its
    arguments are. -/
theorem directive_integerCall {format rest : List Byte} {d : Directive}
    (hread : parseDirective format = .ok (d, rest)) {signed uppercase : Bool} {base : NumericBase}
    (hspecifier : specifierOf d.specifier = .integer signed base uppercase)
    {args args₁ args₂ args₃ : List Arg} {width precision : PrintfSize} {flags flags' : Flags}
    (hwidth : readWidth d.width d.flags args = some ((width, flags), args₁))
    (hprecision : readPrecision d.precision flags args₁ = some ((precision, flags'), args₂))
    {value : BitVec 64} {negative : Bool}
    (harg : integerArg (integerFlags (d.length.set flags') signed base uppercase) args₂ =
      some ((value, negative), args₃)) :
    IntegerCall negative base precision (integerFlags (d.length.set flags') signed base uppercase) := by
  have hformat := parseDirective_flags hread
  have hkept := readWidth_flags hwidth
  obtain ⟨hset, hnone⟩ := readPrecision_flags hprecision
  have hlength : (d.length.set flags').pointer = flags'.pointer ∧
      (d.length.set flags').precision = flags'.precision := by
    obtain ⟨char, short, long, longLong, hframe⟩ := d.length.set_frame flags'
    rw [hframe]
    exact ⟨rfl, rfl⟩
  refine ⟨?_, fun h => ?_, fun h => ?_, fun h => ?_, fun h => ?_⟩
  · show (d.length.set flags').pointer = false
    rw [hlength.1, hset, hkept]
    exact hformat.pointer
  · have hp : (d.length.set flags').precision = true := h
    show ((d.length.set flags').zeropad && !(d.length.set flags').precision) = false
    rw [hp, Bool.not_true, Bool.and_false]
  · show ((d.length.set flags').hash && !decide (base = .decimal)) = false
    rw [decide_eq_true h, Bool.not_true, Bool.and_false]
  · have hsigned := specifierOf_signed hspecifier h
    subst hsigned
    exact ⟨integerArg_unsigned rfl harg, Bool.and_false _, Bool.and_false _⟩
  · have hp : (d.length.set flags').precision = false := h
    rw [hlength.2, hset] at hp
    obtain ⟨-, hsome⟩ := Bool.or_eq_false_iff.mp hp
    exact hnone (Option.isSome_eq_false_iff.mp hsome |> Option.isNone_iff_eq_none.mp)

end SeshOS.Printf
