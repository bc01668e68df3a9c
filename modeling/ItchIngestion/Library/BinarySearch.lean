import Mathlib

/-! # Binary search for a partition point

`lowerBound xs below` is the halving loop of the C++ standard algorithm on the range `xs`, with
`below x` standing for the comparator applied to `x` and the sought value. On a range whose elements
satisfying `below` all come first it returns their number (`lowerBound_append`). A list that is
strictly sorted by `r` is such a range for `r · key`, whatever the key (`sorted_split`).
-/
namespace ItchIngestion.Library
set_option autoImplicit false

variable {α : Type}

/-! ## The loop -/

/-- The elements from `first` on, `len` of them, are still undecided. -/
def lowerBoundLoop (xs : List α) (below : α → Bool) : ℕ → ℕ → ℕ → ℕ
  | 0, first, _ => first
  | fuel + 1, first, len =>
    if len = 0 then first
    else
      match xs[first + len / 2]? with
      | some x =>
        if below x then lowerBoundLoop xs below fuel (first + len / 2 + 1) (len - len / 2 - 1)
        else lowerBoundLoop xs below fuel first (len / 2)
      | none => first

/-- Every pass at least halves the undecided stretch, so its length is enough fuel. -/
def lowerBound (xs : List α) (below : α → Bool) : ℕ :=
  lowerBoundLoop xs below xs.length 0 xs.length

theorem lowerBoundLoop_append (A B : List α) (below : α → Bool) (hA : ∀ a ∈ A, below a = true)
    (hB : ∀ b ∈ B, below b = false) (fuel first len : ℕ) (hf : len ≤ fuel)
    (hlo : first ≤ A.length) (hhi : A.length ≤ first + len) (hin : first + len ≤ (A ++ B).length) :
    lowerBoundLoop (A ++ B) below fuel first len = A.length := by
  induction fuel generalizing first len with
  | zero =>
    rw [lowerBoundLoop]
    omega
  | succ fuel ih =>
    rw [lowerBoundLoop]
    by_cases hlen : len = 0
    · rw [if_pos hlen]
      omega
    · rw [if_neg hlen]
      have hmid : first + len / 2 < (A ++ B).length := by omega
      rw [List.getElem?_eq_getElem hmid]
      by_cases hmA : first + len / 2 < A.length
      · have hb : below (A ++ B)[first + len / 2] = true := by
          rw [List.getElem_append_left hmA]
          exact hA _ (List.getElem_mem hmA)
        simp only [hb, if_true]
        exact ih _ _ (by omega) (by omega) (by omega) (by omega)
      · have hb : below (A ++ B)[first + len / 2] = false := by
          rw [List.getElem_append_right (by omega)]
          exact hB _ (List.getElem_mem _)
        simp only [hb, Bool.false_eq_true, if_false]
        exact ih _ _ (by omega) (by omega) (by omega) (by omega)

/-- **The search finds the partition point.** -/
theorem lowerBound_append (A B : List α) (below : α → Bool) (hA : ∀ a ∈ A, below a = true)
    (hB : ∀ b ∈ B, below b = false) : lowerBound (A ++ B) below = A.length :=
  lowerBoundLoop_append A B below hA hB _ _ _ (le_refl _) (Nat.zero_le _)
    (by rw [List.length_append]; omega) (by omega)

/-! ## Sorted ranges -/

section Sorted
variable {r : α → α → Prop} [DecidableRel r]

/-- A strictly sorted range falls apart at any key: what precedes the key, then what does not. -/
theorem sorted_split [IsTrans α r] {xs : List α} (hs : xs.Pairwise r) (key : α) :
    ∃ A B, xs = A ++ B ∧ (∀ a ∈ A, r a key) ∧ (∀ b ∈ B, ¬ r b key) := by
  induction xs with
  | nil => exact ⟨[], [], rfl, by simp, by simp⟩
  | cons x xs ih =>
    obtain ⟨hx, hs⟩ := List.pairwise_cons.mp hs
    by_cases hr : r x key
    · obtain ⟨A, B, rfl, hA, hB⟩ := ih hs
      refine ⟨x :: A, B, rfl, ?_, hB⟩
      intro a ha
      rcases List.mem_cons.mp ha with rfl | ha
      · exact hr
      · exact hA a ha
    · refine ⟨[], x :: xs, rfl, by simp, ?_⟩
      intro b hb
      rcases List.mem_cons.mp hb with rfl | hb
      · exact hr
      · exact fun h => hr (IsTrans.trans _ _ _ (hx b hb) h)

theorem lowerBound_sorted (A B : List α) (key : α) (hA : ∀ a ∈ A, r a key)
    (hB : ∀ b ∈ B, ¬ r b key) : lowerBound (A ++ B) (fun x => decide (r x key)) = A.length :=
  lowerBound_append A B _ (fun a ha => by simpa using hA a ha) (fun b hb => by simpa using hB b hb)

end Sorted

end ItchIngestion.Library
