/-
  Runs of a machine that takes one input at a time.

  `List.foldlM step s as` is the run; it is `none` when some step does not return.
  `Allowed step ok s as` says that the client keeps to the rules: each input is permitted at
  the state the earlier ones led to. The invariant rule of the file lets the invariant look
  at the inputs still to come (a budget, for instance). `Throughout P as` looks the other way:
  it asks for `P` at every input, with the inputs before it.
-/
import Mathlib

namespace Base

variable {σ α : Type*}

/-- Every input is permitted (`ok`) at the state it meets. -/
def Allowed (step : σ → α → Option σ) (ok : σ → α → Prop) : σ → List α → Prop
  | _, [] => True
  | s, a :: as => ok s a ∧ ∀ s', step s a = some s' → Allowed step ok s' as

variable {step : σ → α → Option σ} {ok : σ → α → Prop}

theorem foldlM_cons_of {s t : σ} {a : α} (h : step s a = some t) (as : List α) :
    (a :: as).foldlM step s = as.foldlM step t := by
  rw [List.foldlM_cons, h]
  rfl

theorem foldlM_append_of {s t : σ} {as : List α} (h : as.foldlM step s = some t) (bs : List α) :
    (as ++ bs).foldlM step s = bs.foldlM step t := by
  rw [List.foldlM_append, h]
  rfl

/-- One more step. -/
theorem foldlM_concat_of {s t u : σ} {as : List α} {a : α} (h : as.foldlM step s = some t)
    (ha : step t a = some u) : (as ++ [a]).foldlM step s = some u := by
  rw [foldlM_append_of h, foldlM_cons_of ha]
  rfl

/-- A run does not return exactly when some step of it does not. -/
theorem foldlM_eq_none_iff {as : List α} {s : σ} : as.foldlM step s = none ↔
    ∃ before a s', before ++ [a] <+: as ∧ before.foldlM step s = some s' ∧ step s' a = none := by
  constructor
  · intro h
    induction as generalizing s with
    | nil => cases h
    | cons a as ih =>
      cases hs : step s a with
      | none => exact ⟨[], a, s, ⟨as, rfl⟩, rfl, hs⟩
      | some t =>
        rw [foldlM_cons_of hs] at h
        obtain ⟨before, b, s', ⟨rest, hrest⟩, hrun, hb⟩ := ih h
        exact ⟨a :: before, b, s', ⟨rest, congrArg (a :: ·) hrest⟩,
          (foldlM_cons_of hs before).trans hrun, hb⟩
  · rintro ⟨before, a, s', ⟨rest, rfl⟩, hrun, ha⟩
    rw [List.append_assoc, foldlM_append_of hrun, List.singleton_append, List.foldlM_cons, ha]
    rfl

/-- A run whose permitted steps all return, and keep an invariant over the state and the
    inputs to come, returns and ends in the invariant. -/
theorem foldlM_inv (Inv : σ → List α → Prop)
    (hstep : ∀ s a as, Inv s (a :: as) → ok s a → ∃ s', step s a = some s' ∧ Inv s' as)
    (as : List α) {s : σ} (hs : Inv s as) (hok : Allowed step ok s as) :
    ∃ s', as.foldlM step s = some s' ∧ Inv s' [] := by
  induction as generalizing s with
  | nil => exact ⟨s, rfl, hs⟩
  | cons a as ih =>
    obtain ⟨s', h, hs'⟩ := hstep s a as hs hok.1
    obtain ⟨t, ht, hI⟩ := ih hs' (hok.2 s' h)
    refine ⟨t, ?_, hI⟩
    rw [List.foldlM_cons, h]
    exact ht

/-- What every returning step keeps, every returning run keeps. -/
theorem foldlM_keeps (Inv : σ → Prop) (hstep : ∀ s a s', Inv s → step s a = some s' → Inv s')
    (as : List α) {s t : σ} (hs : Inv s) (h : as.foldlM step s = some t) : Inv t := by
  induction as generalizing s with
  | nil =>
    cases h
    exact hs
  | cons a as ih =>
    rw [List.foldlM_cons] at h
    cases hb : step s a with
    | none => rw [hb] at h; cases h
    | some s' =>
      rw [hb] at h
      exact ih (hstep s a s' hs hb) h

/-- Along a run that keeps an invariant, one rule may be exchanged for another. -/
theorem Allowed.imp {ok' : σ → α → Prop} (Inv : σ → Prop)
    (hstep : ∀ s a s', Inv s → step s a = some s' → Inv s')
    (himp : ∀ s a, Inv s → ok s a → ok' s a) {as : List α} {s : σ} (hs : Inv s)
    (h : Allowed step ok s as) : Allowed step ok' s as := by
  induction as generalizing s with
  | nil => trivial
  | cons a as ih => exact ⟨himp s a hs h.1, fun s' hs' => ih (hstep s a s' hs hs') (h.2 s' hs')⟩

/-- What holds at every state a run can reach permits every input. -/
theorem allowed_of_inv (Inv : σ → Prop) (hok : ∀ s a, Inv s → ok s a)
    (hstep : ∀ s a s', Inv s → step s a = some s' → Inv s') (as : List α) {s : σ} (hs : Inv s) :
    Allowed step ok s as := by
  induction as generalizing s with
  | nil => trivial
  | cons a as ih => exact ⟨hok s a hs, fun s' hs' => ih (hstep s a s' hs hs')⟩

theorem allowed_append {as bs : List α} {s : σ} : Allowed step ok s (as ++ bs) ↔
    Allowed step ok s as ∧ ∀ s', as.foldlM step s = some s' → Allowed step ok s' bs := by
  induction as generalizing s with
  | nil =>
    refine ⟨fun h => ⟨trivial, fun s' hs' => ?_⟩, fun h => h.2 s rfl⟩
    cases hs'
    exact h
  | cons a as ih =>
    simp only [List.cons_append, Allowed, ih, List.foldlM_cons]
    constructor
    · rintro ⟨hok, h⟩
      refine ⟨⟨hok, fun s' hs' => (h s' hs').1⟩, fun t ht => ?_⟩
      obtain ⟨s', hs', ht⟩ := Option.bind_eq_some_iff.mp ht
      exact (h s' hs').2 t ht
    · rintro ⟨⟨hok, h⟩, ht⟩
      refine ⟨hok, fun s' hs' => ⟨h s' hs', fun t hrun => ht t ?_⟩⟩
      rw [hs']
      exact hrun

section Rel

variable {β γ : Type*} {R : β → γ → Prop}

theorem rel_none_iff {x : Option β} {y : Option γ} (h : Option.Rel R x y) :
    x = none ↔ y = none := by
  cases h with
  | some _ => exact iff_of_false nofun nofun
  | none => exact iff_of_true rfl rfl

theorem rel_some_left {b : β} {y : Option γ} (h : Option.Rel R (some b) y) :
    ∃ c, y = some c ∧ R b c := by
  cases h with
  | some h => exact ⟨_, rfl, h⟩

theorem rel_some_right {x : Option β} {c : γ} (h : Option.Rel R x (some c)) :
    ∃ b, x = some b ∧ R b c := by
  cases h with
  | some h => exact ⟨_, rfl, h⟩

end Rel

/-- Simulation: two machines whose steps agree on failing, and otherwise keep a relation,
    have runs that do. The second machine sees the inputs through `f`. -/
theorem foldlM_rel {τ β : Type*} {step' : τ → β → Option τ} (R : σ → τ → Prop) (f : α → β)
    (hstep : ∀ s t a, R s t → Option.Rel R (step s a) (step' t (f a))) (as : List α) {s : σ}
    {t : τ} (hR : R s t) : Option.Rel R (as.foldlM step s) ((as.map f).foldlM step' t) := by
  induction as generalizing s t with
  | nil => exact Option.Rel.some hR
  | cons a as ih =>
    rw [List.map_cons, List.foldlM_cons, List.foldlM_cons]
    have h := hstep s t a hR
    cases hs : step s a with
    | none =>
      rw [(rel_none_iff h).mp hs]
      exact Option.Rel.none
    | some s' =>
      rw [hs] at h
      obtain ⟨t', ht, hR'⟩ := rel_some_left h
      rw [ht]
      exact ih hR'

/-- `P` at every input, with the inputs before it. -/
def Throughout (P : List α → α → Prop) (as : List α) : Prop :=
  ∀ before a, before ++ [a] <+: as → P before a

theorem throughout_nil (P : List α → α → Prop) : Throughout P [] := by
  intro before a h
  simp at h

/-- One more input. -/
theorem throughout_concat {P : List α → α → Prop} {as : List α} {b : α} :
    Throughout P (as ++ [b]) ↔ Throughout P as ∧ P as b := by
  constructor
  · intro h
    exact ⟨fun before a hp => h before a (hp.trans (List.prefix_append as [b])),
      h as b (List.prefix_refl _)⟩
  · rintro ⟨has, hb⟩ before a hp
    rcases List.prefix_concat_iff.mp hp with heq | hp
    · obtain ⟨rfl, hab⟩ := List.append_inj' heq rfl
      obtain rfl := (List.cons.inj hab).1
      exact hb
    · exact has before a hp

theorem throughout_iff_take {P : List α → α → Prop} {as : List α} :
    Throughout P as ↔ ∀ i (h : i < as.length), P (as.take i) as[i] := by
  constructor
  · intro h i hi
    exact h _ _ (by rw [List.take_concat_get' as i hi]; exact List.take_prefix _ _)
  · rintro h before a ⟨rest, rfl⟩
    have hlt : before.length < (before ++ [a] ++ rest).length := by
      rw [List.length_append, List.length_append, List.length_singleton]
      omega
    simpa using h before.length hlt

instance (P : List α → α → Prop) [∀ before a, Decidable (P before a)] (as : List α) :
    Decidable (Throughout P as) :=
  decidable_of_iff _ throughout_iff_take.symm

end Base
