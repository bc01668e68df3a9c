import ItchIngestion.Library.Run

/-! # Reorderings of independent actions

Every action uses some resources (`uses i a`), and two actions are independent if they use none in
common. Where neighbours that are independent can be swapped in a successful run, a run may be
rearranged at will as long as the order of the actions at each resource stays
(`run_of_projections`): the proof brings the first action of the one run to the front of the other.
-/
namespace ItchIngestion.Library
set_option autoImplicit false

variable {σ α ι ε : Type} (step : σ → α → Except ε σ) (uses : ι → α → Bool)

/-- No resource is used by both. -/
def Independent (a b : α) : Prop := ∀ i, uses i a = true → uses i b = false

/-- Independent neighbours can change places. -/
def Swaps : Prop := ∀ s a b t u, Independent uses a b → step s a = .ok t → step t b = .ok u →
  ∃ t', step s b = .ok t' ∧ step t' a = .ok u

variable {step uses}

theorem run_move (h : Swaps step uses) {a : α} {p q : List α} (hp : ∀ b ∈ p, Independent uses a b)
    {s u : σ} (hrun : run step s (a :: (p ++ q)) = .ok u) : run step s (p ++ a :: q) = .ok u := by
  induction p generalizing s with
  | nil => exact hrun
  | cons b p ih =>
    obtain ⟨t, ha, hrun⟩ := run_cons_ok.mp hrun
    obtain ⟨t₂, hb, hrun⟩ := run_cons_ok.mp hrun
    obtain ⟨t', hb', ha'⟩ := h s a b t t₂ (hp b List.mem_cons_self) ha hb
    refine run_cons_ok.mpr ⟨t', hb', ih (fun c hc => hp c (List.mem_cons_of_mem b hc)) ?_⟩
    exact run_cons_ok.mpr ⟨t₂, ha', hrun⟩

/-- An action that comes first at all its resources has only independent ones before it. -/
theorem first_action {a : α} {as bs : List α} {i : ι} (hi : uses i a = true)
    (h : ∀ j, (a :: as).filter (uses j) = bs.filter (uses j)) :
    ∃ p q, bs = p ++ a :: q ∧ (∀ b ∈ p, Independent uses a b) ∧
      ∀ j, as.filter (uses j) = (p ++ q).filter (uses j) := by
  have hfirst := h i
  rw [List.filter_cons_of_pos hi] at hfirst
  obtain ⟨p, q, rfl, hp, -, -⟩ := List.filter_eq_cons_iff.mp hfirst.symm
  have hnone : ∀ j, uses j a = true → p.filter (uses j) = [] := by
    intro j hj
    have hproj := h j
    rw [List.filter_cons_of_pos hj, List.filter_append, List.filter_cons_of_pos hj] at hproj
    cases hc : p.filter (uses j) with
    | nil => rfl
    | cons b p' =>
      rw [hc, List.cons_append] at hproj
      obtain ⟨rfl, -⟩ := List.cons.inj hproj
      have hmem : a ∈ p.filter (uses j) := hc ▸ List.mem_cons_self
      exact absurd hi (hp a (List.mem_of_mem_filter hmem))
  refine ⟨p, q, rfl, ?_, fun j => ?_⟩
  · intro b hb j hj
    have hb' := List.filter_eq_nil_iff.mp (hnone j hj) b hb
    simpa using hb'
  · have hproj := h j
    rw [List.filter_append] at hproj ⊢
    cases hj : uses j a with
    | true =>
      rw [List.filter_cons_of_pos hj, List.filter_cons_of_pos hj, hnone j hj, List.nil_append] at hproj
      rw [hnone j hj, List.nil_append]
      exact (List.cons.inj hproj).2
    | false =>
      have hn : ¬ uses j a = true := by simp [hj]
      rwa [List.filter_cons_of_neg hn, List.filter_cons_of_neg hn] at hproj

/-- **Runs with the same order at every resource end alike.** -/
theorem run_of_projections (h : Swaps step uses) (huses : ∀ a, ∃ i, uses i a = true) {as bs : List α}
    (hproj : ∀ i, as.filter (uses i) = bs.filter (uses i)) {s u : σ}
    (hrun : run step s as = .ok u) : run step s bs = .ok u := by
  induction as generalizing s bs with
  | nil =>
    cases bs with
    | nil => exact hrun
    | cons b bs =>
      obtain ⟨i, hi⟩ := huses b
      have hi' := hproj i
      rw [List.filter_nil, List.filter_cons_of_pos hi] at hi'
      cases hi'
  | cons a as ih =>
    obtain ⟨i, hi⟩ := huses a
    obtain ⟨p, q, rfl, hp, hproj'⟩ := first_action hi hproj
    obtain ⟨t, ha, hrun⟩ := run_cons_ok.mp hrun
    exact run_move h hp (run_cons_ok.mpr ⟨t, ha, ih hproj' hrun⟩)

end ItchIngestion.Library
