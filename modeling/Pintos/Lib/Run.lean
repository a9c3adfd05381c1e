import Mathlib.Data.List.Induction
import Pintos.Lib.Options

/-!
# Runs of a state machine

`Run step ok s as s'` — the actions `as`, performed one after the other from
`s`, end in `s'`; each action is started in a state where `ok` admits it and
is run to completion. Because every prefix of a run is a run, a property of
the last state of every run is a property of every state the machine passes
through between two actions.
-/

namespace Pintos.Lib

variable {σ ι : Type}

inductive Run (step : σ → ι → Option σ) (ok : σ → ι → Prop) (s : σ) : List ι → σ → Prop
  | nil : Run step ok s [] s
  | snoc {t u : σ} {as : List ι} {a : ι} :
      Run step ok s as t → ok t a → step t a = some u → Run step ok s (as ++ [a]) u

variable {step : σ → ι → Option σ} {ok : σ → ι → Prop} {s s' : σ} {as : List ι}

/-- **Invariant rule.** What holds initially and is kept by every admitted
action holds at the end of every run. -/
theorem Run.invariant {I : σ → Prop} (hstep : ∀ s a s', I s → ok s a → step s a = some s' → I s')
    (hrun : Run step ok s as s') (hs : I s) : I s' := by
  induction hrun with
  | nil => exact hs
  | snoc _ hok heq ih => exact hstep _ _ _ ih hok heq

theorem Run.mono {ok' : σ → ι → Prop} (h : ∀ s a, ok s a → ok' s a) (hrun : Run step ok s as s') :
    Run step ok' s as s' := by
  induction hrun with
  | nil => exact .nil
  | snoc _ hok heq ih => exact .snoc ih (h _ _ hok) heq

theorem Run.append {t u : σ} {bs : List ι} (h : Run step ok s as t) (h' : Run step ok t bs u) :
    Run step ok s (as ++ bs) u := by
  induction h' with
  | nil => rwa [List.append_nil]
  | snoc _ hok heq ih =>
    rw [← List.append_assoc]
    exact .snoc ih hok heq

/-- Performing the actions one after the other is a run in which everything is
admitted. -/
theorem Run.of_foldlM (h : as.foldlM step s = some s') : Run step (fun _ _ => True) s as s' := by
  induction as using List.reverseRecOn generalizing s' with
  | nil =>
    cases h
    exact .nil
  | append_singleton as a ih =>
    rw [List.foldlM_append] at h
    obtain ⟨t, ht, ha⟩ := Option.bind_eq_some_iff.mp h
    rw [List.foldlM_cons] at ha
    obtain ⟨u, hu, hnil⟩ := Option.bind_eq_some_iff.mp ha
    cases hnil
    exact .snoc (ih ht) trivial hu

theorem Run.of_guarded [∀ s a, Decidable (ok s a)]
    (hrun : Run (fun s a => if ok s a then step s a else none) (fun _ _ => True) s as s') :
    Run step ok s as s' := by
  induction hrun with
  | nil => exact .nil
  | snoc _ _ heq ih =>
    split at heq
    · exact .snoc ih ‹_› heq
    · cases heq

section
variable [∀ s a, Decidable (ok s a)]

theorem Run.foldlM_guarded (hrun : Run step ok s as s') :
    as.foldlM (fun s a => if ok s a then step s a else none) s = some s' := by
  induction hrun with
  | nil => rfl
  | snoc _ hok heq ih =>
    rw [List.foldlM_append, ih, some_bind, List.foldlM_cons, if_pos hok, heq]
    rfl

instance decidableExistsRun {Q : σ → Prop} [DecidablePred Q] : Decidable (∃ s', Run step ok s as s' ∧ Q s') :=
  decidable_of_iff
    (∃ s', as.foldlM (fun s a => if ok s a then step s a else none) s = some s' ∧ Q s')
    (exists_congr fun _ => and_congr_left fun _ =>
      ⟨fun h => (Run.of_foldlM h).of_guarded, Run.foldlM_guarded⟩)

end

/-- A run of given actions, from what is computed of its last state. -/
theorem Run.exists_guarded {Q : σ → Prop} (P : σ → Prop) (h : ∃ s', Run step ok s as s' ∧ P s')
    (hQ : ∀ s', Run step ok s as s' → P s' → Q s') : ∃ s', Run step ok s as s' ∧ Q s' := by
  obtain ⟨s', hrun, hp⟩ := h
  exact ⟨s', hrun, hQ s' hrun hp⟩

/-- A run from a first state that is computed as well. -/
theorem Run.exists_from {σ₀ : Type} {first : Option σ₀} {start : σ₀ → σ} {Q : σ₀ → σ → Prop}
    (P : σ₀ → σ → Prop)
    (h : ∃ s₀, first = some s₀ ∧ ∃ s, Run step ok (start s₀) as s ∧ P s₀ s)
    (hQ : ∀ s₀ s, first = some s₀ → Run step ok (start s₀) as s → P s₀ s → Q s₀ s) :
    ∃ s₀ s, first = some s₀ ∧ Run step ok (start s₀) as s ∧ Q s₀ s := by
  obtain ⟨s₀, hfirst, s, hrun, hp⟩ := h
  exact ⟨s₀, s, hfirst, hrun, hQ s₀ s hfirst hrun hp⟩

end Pintos.Lib
