import ItchIngestion.Library.Run

/-! # Noninterference by unwinding

A domain sees a state through `view` and has actions of its own, those that `own` selects. If the
others never change what it sees, and its own do the same to all states that look alike to it, then
every run looks to the domain like the run of its own actions alone (`Unwinds.run_filter`).
-/
namespace ItchIngestion.Library
set_option autoImplicit false

variable {σ α ε V : Type} (step : σ → α → Except ε σ) (Inv : σ → Prop) (view : σ → V)
  (own : α → Bool)

/-- The three conditions of an unwinding: the invariant is kept, foreign actions leave the view alone,
and own actions work on the view. -/
structure Unwinds : Prop where
  inv : ∀ s a t, Inv s → step s a = .ok t → Inv t
  silent : ∀ s a t, Inv s → own a = false → step s a = .ok t → view t = view s
  alike : ∀ s s' a t, Inv s → Inv s' → view s = view s' → own a = true → step s a = .ok t →
    ∃ t', step s' a = .ok t' ∧ view t = view t'

variable {step Inv view own}

/-- **A run looks like the run of the own actions.** -/
theorem Unwinds.run_filter (h : Unwinds step Inv view own) {s s' t : σ} {as : List α} (hs : Inv s)
    (hs' : Inv s') (hview : view s = view s') (hrun : run step s as = .ok t) :
    ∃ t', run step s' (as.filter own) = .ok t' ∧ view t = view t' := by
  induction as generalizing s s' with
  | nil =>
    cases hrun
    exact ⟨s', rfl, hview⟩
  | cons a as ih =>
    obtain ⟨u, hstep, hrun⟩ := run_cons_ok.mp hrun
    have hu : Inv u := h.inv s a u hs hstep
    cases hown : own a with
    | false =>
      have hsame : view u = view s' := (h.silent s a u hs hown hstep).trans hview
      rw [List.filter_cons_of_neg (by rw [hown]; decide)]
      exact ih hu hs' hsame hrun
    | true =>
      obtain ⟨u', hstep', hview'⟩ := h.alike s s' a u hs hs' hview hown hstep
      obtain ⟨t', hrun', hend⟩ := ih hu (h.inv s' a u' hs' hstep') hview' hrun
      rw [List.filter_cons_of_pos hown]
      exact ⟨t', run_cons_ok.mpr ⟨u', hstep', hrun'⟩, hend⟩

end ItchIngestion.Library
