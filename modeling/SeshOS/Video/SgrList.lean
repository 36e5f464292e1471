/-
  SGR sequences with a list of parameters.

  `TTY_HandleEsc` passes all that is between `[` and `m` to one `atoi`, which takes a `;` for a
  digit of value 11. The number it gets is the parameter of a sequence with one parameter only
  (`sgr_list_iff`); with two or more it is none of the listed parameters, unless it wraps
  around `2 ^ 32` or a parameter is empty (`wholeNumber_unlisted`).
-/
import SeshOS.Video.Sgr

namespace SeshOS.Video

open Base Libc

/-! ## Lists of parameters -/

abbrev Parameters := List (List (Fin 10))

/-- The text between `[` and `m`. -/
def parameterText (ps : Parameters) : List Byte :=
  List.intercalate [chr ';'] (ps.map (List.map digit))

/-- The attributes after each parameter in turn. -/
def effects (ps : Parameters) (a : Attrs) : Attrs := ps.foldl (fun a p => effect (value p) a) a

/-- The number that the text is in base ten when `;` has the value 11. -/
def wholeNumber (ps : Parameters) : Nat :=
  Nat.ofDigits 10 (List.intercalate [11] (ps.map (List.map Fin.val))).reverse

/-- The parameters with an effect. -/
def Listed (code : Nat) : Prop :=
  code = 0 ∨ code = 1 ∨ code = 22 ∨ (30 ≤ code ∧ code ≤ 37) ∨ (40 ≤ code ∧ code ≤ 47)

theorem effect_unlisted {code : Nat} (h : ¬ Listed code) (a : Attrs) : effect code a = a := by
  unfold Listed at h
  push Not at h
  obtain ⟨h0, h1, h22, h30, h40⟩ := h
  rw [effect, if_neg h0, if_neg h1, if_neg h22, if_neg fun h => absurd (h30 h.1) (by omega),
    if_neg fun h => absurd (h40 h.1) (by omega)]

/-! ## The number of a list -/

theorem map_intercalate {α β : Type} (f : α → β) (sep : List α) (ls : List (List α)) :
    (List.intercalate sep ls).map f = List.intercalate (sep.map f) (ls.map (List.map f)) := by
  induction ls with
  | nil => rfl
  | cons l ls ih =>
    cases ls with
    | nil => simp
    | cons l' ls =>
      rw [List.intercalate_cons_cons, List.map_append, List.map_append, ih, List.map_cons,
        List.map_cons, List.map_cons, List.intercalate_cons_cons]

theorem parameterText_eq (ps : Parameters) : parameterText ps =
    (List.intercalate [11] (ps.map (List.map Fin.val))).map valueChar := by
  rw [map_intercalate, parameterText, List.map_map]
  have hdigit : digit = valueChar ∘ Fin.val := rfl
  rw [hdigit]
  have hparam : List.map valueChar ∘ List.map Fin.val = List.map (valueChar ∘ Fin.val (n := 10)) :=
    funext fun p => List.map_map
  rw [hparam]
  rfl

/-- The values are those of the digits and of `;`. -/
theorem values_small (ps : Parameters) :
    ∀ d ∈ List.intercalate [11] (ps.map (List.map Fin.val)), d < 12 := by
  induction ps with
  | nil => nofun
  | cons p ps ih =>
    have hp : ∀ d ∈ p.map Fin.val, d < 12 := by
      intro d hd
      obtain ⟨d, _, rfl⟩ := List.mem_map.mp hd
      omega
    cases ps with
    | nil => simpa using hp
    | cons q ps =>
      rw [List.map_cons, List.map_cons, List.intercalate_cons_cons]
      intro d hd
      rcases List.mem_append.mp hd with hd | hd
      · rcases List.mem_append.mp hd with hd | hd
        · exact hp d hd
        · rw [List.mem_singleton.mp hd]
          decide
      · exact ih d hd

theorem decimal_parameterText (ps : Parameters) :
    decimal (parameterText ps) = BitVec.ofNat 32 (wholeNumber ps) := by
  rw [parameterText_eq, decimal_valueChar (values_small ps), wholeNumber]

theorem wholeNumber_singleton (p : List (Fin 10)) : wholeNumber [p] = value p := by
  rw [wholeNumber, List.map_singleton, List.intercalate_singleton, value, List.map_reverse]

/-- Two parameters or more, none of them empty: a digit, 11 and a digit at least. -/
theorem wholeNumber_ge {ps : Parameters} (hmany : 2 ≤ ps.length) (hne : ∀ p ∈ ps, p ≠ []) :
    110 ≤ wholeNumber ps := by
  obtain ⟨p, q, ps, rfl⟩ : ∃ p q rest, ps = p :: q :: rest := by
    match ps, hmany with
    | p :: q :: ps, _ => exact ⟨p, q, ps, rfl⟩
  have hq : q ≠ [] := hne q (List.mem_cons_of_mem p List.mem_cons_self)
  have hrest : List.intercalate [11] ((q :: ps).map (List.map Fin.val)) ≠ [] := by
    cases ps with
    | nil => simpa using hq
    | cons q' ps =>
      rw [List.map_cons, List.map_cons, List.intercalate_cons_cons]
      simp
  rw [wholeNumber, List.map_cons, List.map_cons, List.intercalate_cons_cons, ← List.map_cons,
    List.reverse_append, List.reverse_append, Nat.ofDigits_append, Nat.ofDigits_append]
  generalize List.intercalate [11] ((q :: ps).map (List.map Fin.val)) = rest at hrest
  have hlen : 1 ≤ rest.reverse.length := by
    rw [List.length_reverse]
    exact List.length_pos_of_ne_nil hrest
  have hpow : 10 ^ 1 ≤ 10 ^ rest.reverse.length := Nat.pow_le_pow_right (by decide) hlen
  have hfirst : 11 ≤ Nat.ofDigits 10 [11].reverse +
      10 ^ [11].reverse.length * Nat.ofDigits 10 (p.map Fin.val).reverse := by
    simp [Nat.ofDigits_singleton]
  have hprod := Nat.mul_le_mul hpow hfirst
  omega

/-- Without an empty parameter and without wrapping around it is not a parameter with an
    effect. -/
theorem wholeNumber_unlisted {ps : Parameters} (hmany : 2 ≤ ps.length) (hne : ∀ p ∈ ps, p ≠ [])
    (hfits : wholeNumber ps < 2 ^ 32) : ¬ Listed (wholeNumber ps % 2 ^ 32) := by
  have hge := wholeNumber_ge hmany hne
  rw [Nat.mod_eq_of_lt hfits]
  unfold Listed
  omega

/-! ## The console -/

theorem params_parameterText {ps : Parameters} (hlen : (parameterText ps).length ≤ 253) :
    Params (parameterText ps) := by
  have hd : ∀ d : Fin 12, valueChar d ≠ escByte ∧ valueChar d ≠ letterM ∧ valueChar d ≠ 0 := by
    decide
  have hchars : ∀ ch ∈ parameterText ps, ch ≠ escByte ∧ ch ≠ letterM ∧ ch ≠ 0 := by
    intro ch hch
    rw [parameterText_eq] at hch
    obtain ⟨d, hmem, rfl⟩ := List.mem_map.mp hch
    exact hd ⟨d, values_small ps d hmem⟩
  exact ⟨fun ch hch => ⟨(hchars ch hch).1, (hchars ch hch).2.1⟩,
    fun h0 => (hchars 0 h0).2.2 rfl, hlen⟩

/-- The whole list has the effect of its number. -/
theorem sgr_list_run (font : Font) {c : Console} (hc : c.Ground) {ps : Parameters}
    {ws : List Write} (hws : ws.map Write.ch = sgrBytes (parameterText ps))
    (hlen : ws.length < 250) :
    ∃ c', feed font c ws = some c' ∧ c'.Ground ∧
      c'.attrs = effect (wholeNumber ps % 2 ^ 32) c.attrs := by
  have hbytes : (sgrBytes (parameterText ps)).length = ws.length := by
    rw [← hws, List.length_map]
  have hshort : (parameterText ps).length ≤ 253 := by
    rw [sgrBytes, List.length_cons, List.length_append, List.length_cons] at hbytes
    omega
  have hrun := Reader.run_sgr (r := ⟨none, c.attrs, []⟩) rfl (params_parameterText hshort)
  rw [← hws] at hrun
  obtain ⟨c', hfeed, hshows⟩ := feed_of_reader font (shows_of_ground hc) hrun
  refine ⟨c', hfeed, ground_of_shows hshows rfl, ?_⟩
  rw [hshows.attrs]
  show effect (decimal (parameterText ps)).toNat c.attrs = _
  rw [decimal_parameterText, BitVec.toNat_ofNat]

/-- ESC `[` p1 `;` … `;` pn `m`, written in the ground state: the attributes are those that the
    parameters give in turn exactly when there is one, or the number of the whole text is not
    listed and the parameters change nothing, or it is listed and does what they do. The number
    of two or more is not listed, if none is empty and it does not wrap around. -/
theorem sgr_list_iff (font : Font) {c : Console} (hc : c.Ground) (ps : Parameters)
    (hne : ps ≠ []) (hshort : ∀ p ∈ ps, p.length ≤ 9) (ws : List Write)
    (hws : ws.map Write.ch = sgrBytes (parameterText ps)) (hlen : ws.length < 250) :
    (∃ c', feed font c ws = some c' ∧ c'.Ground ∧
      (c'.attrs = effects ps c.attrs ↔
        ps.length = 1 ∨
        ¬ Listed (wholeNumber ps % 2 ^ 32) ∧ effects ps c.attrs = c.attrs ∨
        Listed (wholeNumber ps % 2 ^ 32) ∧
          effect (wholeNumber ps % 2 ^ 32) c.attrs = effects ps c.attrs)) ∧
    (2 ≤ ps.length → (∀ p ∈ ps, p ≠ []) → wholeNumber ps < 2 ^ 32 →
      ¬ Listed (wholeNumber ps % 2 ^ 32)) := by
  refine ⟨?_, wholeNumber_unlisted⟩
  obtain ⟨c', hfeed, hground, hattrs⟩ := sgr_list_run font hc hws hlen
  refine ⟨c', hfeed, hground, ?_⟩
  rw [hattrs]
  by_cases hone : ps.length = 1
  · refine iff_of_true ?_ (Or.inl hone)
    obtain ⟨p, rfl⟩ := List.length_eq_one_iff.mp hone
    have hlt := value_lt p
    have hpow : 10 ^ p.length ≤ 10 ^ 9 :=
      Nat.pow_le_pow_right (by decide) (hshort p (List.mem_singleton_self p))
    rw [wholeNumber_singleton, Nat.mod_eq_of_lt (by omega)]
    rfl
  · rw [or_iff_right hone]
    by_cases hlisted : Listed (wholeNumber ps % 2 ^ 32)
    · simp only [hlisted, not_true_eq_false, false_and, true_and, false_or]
    · simp only [hlisted, not_false_eq_true, false_and, true_and, or_false,
        effect_unlisted hlisted]
      exact eq_comm

/-- The law for ESC `[` 0 `;` 3 1 `m`, as the kernel starts. -/
theorem sgr_list_iff_reset_red :
    (∃ c', feed (Vector.replicate 256 (Vector.replicate 16 0)) bootConsole
        ([0x1b, 0x5b, 0x30, 0x3b, 0x33, 0x31, 0x6d].map fun ch => ⟨ch, 0, 0, 0, 0⟩) = some c' ∧
      c'.Ground ∧
      (c'.attrs = effects [[0], [3, 1]] bootConsole.attrs ↔
        [[0], [3, 1]].length = 1 ∨
        ¬ Listed (wholeNumber [[0], [3, 1]] % 2 ^ 32) ∧
          effects [[0], [3, 1]] bootConsole.attrs = bootConsole.attrs ∨
        Listed (wholeNumber [[0], [3, 1]] % 2 ^ 32) ∧
          effect (wholeNumber [[0], [3, 1]] % 2 ^ 32) bootConsole.attrs =
            effects [[0], [3, 1]] bootConsole.attrs)) ∧
    ¬ Listed (wholeNumber [[0], [3, 1]] % 2 ^ 32) := by
  obtain ⟨hrun, hunlisted⟩ := sgr_list_iff (Vector.replicate 256 (Vector.replicate 16 0))
    (c := bootConsole) ⟨rfl, rfl, rfl⟩ [[0], [3, 1]] (by decide) (by decide)
    ([0x1b, 0x5b, 0x30, 0x3b, 0x33, 0x31, 0x6d].map fun ch => ⟨ch, 0, 0, 0, 0⟩) (by decide)
    (by decide)
  exact ⟨hrun, hunlisted (by decide) (by decide) (by decide)⟩

/-- It is read as 1131 and changes nothing. -/
theorem reset_red_ignored :
    ∃ c', feed (Vector.replicate 256 (Vector.replicate 16 0)) bootConsole
        ([0x1b, 0x5b, 0x30, 0x3b, 0x33, 0x31, 0x6d].map fun ch => ⟨ch, 0, 0, 0, 0⟩) = some c' ∧
      c'.attrs ≠ effects [[0], [3, 1]] bootConsole.attrs := by
  have hws : ([0x1b, 0x5b, 0x30, 0x3b, 0x33, 0x31, 0x6d].map fun ch =>
      (⟨ch, 0, 0, 0, 0⟩ : Write)).map Write.ch = sgrBytes (parameterText [[0], [3, 1]]) := by
    decide
  obtain ⟨c', hfeed, -, hattrs⟩ := sgr_list_run (Vector.replicate 256 (Vector.replicate 16 0))
    (c := bootConsole) ⟨rfl, rfl, rfl⟩ hws (by decide)
  refine ⟨c', hfeed, ?_⟩
  rw [hattrs]
  decide

end SeshOS.Video
