/-
  OpenBsd.Lib.Run

  Runs of a machine that takes one event at a time and may stop, and of one that gives an
  answer to each event.
-/

import Mathlib.Logic.Basic

namespace OpenBsd.Lib

/-- A step behind a check: the check holds, and the rest is done. -/
theorem guard_bind_eq_some {α : Type} {p : Prop} [Decidable p] {f : Option α} {a : α}
    (h : (guard p >>= fun _ => f) = some a) : p ∧ f = some a := by
  by_cases hp : p
  · have hpass : (guard p : Option Unit) = some () := if_pos hp
    rw [hpass] at h
    exact ⟨hp, h⟩
  · have hfail : (guard p : Option Unit) = none := if_neg hp
    rw [hfail] at h
    cases h

section

variable {σ ε : Type*} (step : σ → ε → Option σ) (ok : σ → ε → Prop)

/-- The events lead from one state to the other, and each of them meets `ok` in
    the state before it. -/
inductive Run : σ → List ε → σ → Prop where
  | nil (s : σ) : Run s [] s
  | cons {s s' s'' : σ} {e : ε} {es : List ε} :
      ok s e → step s e = some s' → Run s' es s'' → Run s (e :: es) s''

variable {step ok}

/-- What every step that meets `ok` keeps holds at the end of a run. -/
theorem Run.invariant {Inv : σ → Prop}
    (hstep : ∀ s e s', Inv s → ok s e → step s e = some s' → Inv s')
    {s s' : σ} {es : List ε} (h : Run step ok s es s') (hinit : Inv s) : Inv s' := by
  induction h with
  | nil s => exact hinit
  | cons hok hs _ ih => exact ih (hstep _ _ _ hinit hok hs)

/-- One run after the other. -/
theorem Run.trans {s s' s'' : σ} {es es' : List ε} (h : Run step ok s es s')
    (h' : Run step ok s' es' s'') : Run step ok s (es ++ es') s'' := by
  induction h with
  | nil s => exact h'
  | cons hok hs _ ih => exact .cons hok hs (ih h')

/-- The first events of a run lead to one state only. -/
theorem Run.initial {ok' : σ → ε → Prop} {s s' s₁ : σ} {es es₁ : List ε}
    (h : Run step ok s es s') (hes : es₁ <+: es) (h₁ : Run step ok' s es₁ s₁) :
    Run step ok s es₁ s₁ := by
  induction h₁ generalizing es with
  | nil s => exact .nil s
  | cons _ hstep _ ih =>
    obtain ⟨es', rfl⟩ := hes
    cases h with
    | cons hok hstep' hrest =>
      obtain rfl := Option.some.inj (hstep.symm.trans hstep')
      exact .cons hok hstep (ih hrest (List.prefix_append ..))

end

/-! ## Answers -/

section

variable {σ σ' ε ο : Type*} {step : σ → ε → Option (ο × σ)} {step' : σ' → ε → Option (ο × σ')}

/-- The answers to a list of events, and the state behind them. -/
def answers (step : σ → ε → Option (ο × σ)) : σ → List ε → Option (List ο × σ)
  | s, [] => some ([], s)
  | s, e :: es =>
    (step s e).bind fun r => (answers step r.2 es).map fun rs => (r.1 :: rs.1, rs.2)

theorem answers_cons {s s' : σ} {e : ε} {o : ο} (h : step s e = some (o, s')) (es : List ε) :
    answers step s (e :: es) = (answers step s' es).map fun rs => (o :: rs.1, rs.2) := by
  rw [answers, h]
  rfl

/-- A machine that can follow another one event by event gives the same answers in a run. -/
theorem answers_follow {R : σ → σ' → Prop}
    (hstep : ∀ s t e o s', R s t → step s e = some (o, s') →
      ∃ t', step' t e = some (o, t') ∧ R s' t')
    {s s' : σ} {t : σ'} {es : List ε} {os : List ο} (hR : R s t)
    (h : answers step s es = some (os, s')) :
    ∃ t', answers step' t es = some (os, t') ∧ R s' t' := by
  induction es generalizing s t os with
  | nil =>
    obtain ⟨rfl, rfl⟩ := Prod.mk.inj (Option.some.inj h)
    exact ⟨t, rfl, hR⟩
  | cons e es ih =>
    rw [answers, Option.bind_eq_some_iff] at h
    obtain ⟨⟨o, s₁⟩, hs₁, hrest⟩ := h
    rw [Option.map_eq_some_iff] at hrest
    obtain ⟨⟨os₁, s₂⟩, hes, he⟩ := hrest
    obtain ⟨rfl, rfl⟩ := Prod.mk.inj he
    obtain ⟨t₁, ht₁, hR₁⟩ := hstep s t e o s₁ hR hs₁
    obtain ⟨t₂, ht₂, hR₂⟩ := ih hR₁ hes
    refine ⟨t₂, ?_, hR₂⟩
    rw [answers_cons ht₁, ht₂]
    rfl

end

end OpenBsd.Lib
