import ItchIngestion.Library.Run

/-! # Bounded work

Several parties take their actions in any order. The rank of a state is what one of them has still to
do: its own actions lower the rank, and the actions of the others do not raise it. Then it takes no
more actions than the rank says, however the others interleave with it (`Ranked.count_le`). A
condition on the states is needed along the run only, `allowed` is one on the actions.
-/
namespace ItchIngestion.Library
set_option autoImplicit false

variable {σ α ε : Type}

/-- The actions `mine` lower the rank, and no other action raises it. -/
structure Ranked (step : σ → α → Except ε σ) (Q : σ → Prop) (allowed mine : α → Prop)
    (rank : σ → ℕ) : Prop where
  lowers : ∀ s a s', Q s → allowed a → mine a → step s a = .ok s' → rank s' < rank s
  others : ∀ s a s', Q s → allowed a → ¬ mine a → step s a = .ok s' → rank s' ≤ rank s

section Ranked
variable {step : σ → α → Except ε σ} {Q : σ → Prop} {allowed mine : α → Prop} {rank : σ → ℕ}
  {s t : σ} {as : List α}

/-- **A party does no more than it has to do.** -/
theorem Ranked.count_le [DecidablePred mine] (h : Ranked step Q allowed mine rank)
    (hQ : Throughout step Q s as) (hallowed : ∀ a ∈ as, allowed a) (hrun : run step s as = .ok t) :
    as.countP (fun a => mine a) + rank t ≤ rank s := by
  induction as using List.reverseRecOn generalizing t with
  | nil =>
    cases hrun
    exact le_of_eq (Nat.zero_add _)
  | append_singleton as a ih =>
    obtain ⟨u, hu, hstep⟩ := run_concat_ok hrun
    have hle := ih hQ.left (fun b hb => hallowed b (List.mem_append_left _ hb)) hu
    have ha : allowed a := hallowed a (List.mem_append_right _ (List.mem_singleton_self a))
    have hQu : Q u := hQ.left.last hu
    rw [List.countP_append, List.countP_singleton]
    by_cases hmine : mine a
    · have hlt := h.lowers u a t hQu ha hmine hstep
      rw [decide_eq_true hmine, if_pos rfl]
      omega
    · have hge := h.others u a t hQu ha hmine hstep
      rw [decide_eq_false hmine, if_neg Bool.false_ne_true]
      omega

end Ranked

end ItchIngestion.Library
