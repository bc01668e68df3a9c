import Mathlib

/-! # Positions in a ring

Position `n` of an endless sequence goes to slot `n % N` of a ring of `N` slots. `visits N n i`
counts the positions before `n` that went to slot `i`; whether position `r` is among them is decided
by that count alone (`lt_iff_visits`).
-/
namespace ItchIngestion.Library
set_option autoImplicit false

/-- How many of the first `n` positions go to slot `i`. -/
def visits (N n i : ℕ) : ℕ := n.count fun m => m % N = i

section Visits
variable {N n : ℕ} (i : ℕ)

theorem visits_zero : visits N 0 i = 0 := Nat.count_zero _

theorem visits_succ : visits N (n + 1) i = visits N n i + if n % N = i then 1 else 0 :=
  Nat.count_succ _ n

theorem visits_le : visits N n i ≤ n := Nat.count_le _

theorem visits_mono {m : ℕ} (h : n ≤ m) : visits N n i ≤ visits N m i := Nat.count_monotone _ h

theorem visits_le_succ {m : ℕ} (h : m ≤ n + 1) : visits N m i ≤ visits N n i + 1 := by
  have hmono := visits_mono (N := N) i h
  rw [visits_succ] at hmono
  split at hmono <;> omega

end Visits

theorem visits_mod {N : ℕ} (hN : 0 < N) (n r : ℕ) :
    visits N n (r % N) = n / N + if r % N < n % N then 1 else 0 := Nat.count_modEq_card n hN r

/-- **The slot of a position knows whether the position was passed.** -/
theorem lt_iff_visits {N : ℕ} (hN : 0 < N) (r n : ℕ) : r < n ↔ r / N < visits N n (r % N) := by
  rw [visits_mod hN]
  have hr := Nat.div_add_mod r N
  have hn := Nat.div_add_mod n N
  have hrlt := Nat.mod_lt r hN
  have hnlt := Nat.mod_lt n hN
  cases Nat.lt_trichotomy (r / N) (n / N) with
  | inl hlt =>
    have hmul : N * (r / N + 1) ≤ N * (n / N) := Nat.mul_le_mul_left N hlt
    rw [Nat.mul_add] at hmul
    constructor <;> intro <;> omega
  | inr h =>
    cases h with
    | inl heq =>
      rw [heq] at hr ⊢
      split <;> omega
    | inr hgt =>
      have hmul : N * (n / N + 1) ≤ N * (r / N) := Nat.mul_le_mul_left N hgt
      rw [Nat.mul_add] at hmul
      split <;> omega

theorem add_lt_iff_visits {N : ℕ} (hN : 0 < N) (r n : ℕ) :
    r + N < n ↔ r / N + 1 < visits N n (r % N) := by
  have h := lt_iff_visits hN (r + N) n
  rwa [Nat.add_div_right r hN, Nat.add_mod_right] at h

theorem mod_ne_of_lt {N m n : ℕ} (h : m < n) (hround : n < m + N) : m % N ≠ n % N := by
  intro heq
  have hdvd : N ∣ n - m := Nat.dvd_of_mod_eq_zero (Nat.sub_mod_eq_zero_of_mod_eq heq.symm)
  have hle : N ≤ n - m := Nat.le_of_dvd (by omega) hdvd
  omega

/-! ## Sequences that grow -/

theorem getElem?_concat {α : Type} {l : List α} {x y : α} {n : ℕ} :
    (l ++ [x])[n]? = some y ↔ l[n]? = some y ∨ n = l.length ∧ x = y := by
  rcases Nat.lt_trichotomy n l.length with h | rfl | h
  · rw [List.getElem?_append_left h]
    exact ⟨Or.inl, fun e => e.resolve_right fun hn => h.ne hn.1⟩
  · rw [List.getElem?_concat_length, List.getElem?_eq_none (Nat.le_refl _)]
    simp
  · rw [List.getElem?_eq_none (by rw [List.length_append]; exact h), List.getElem?_eq_none h.le]
    exact iff_of_false (fun e => by cases e) fun e => e.elim (fun e => by cases e) fun e => h.ne' e.1

/-- The next element of a sequence extends what was taken from it. -/
theorem prefix_concat {α : Type} {l m : List α} {x : α} (hl : l <+: m) (hx : m[l.length]? = some x) :
    l ++ [x] <+: m := by
  obtain ⟨rest, rfl⟩ := hl
  rw [List.getElem?_append_right (le_refl _), Nat.sub_self] at hx
  cases rest with
  | nil => cases hx
  | cons y rest =>
    obtain rfl : y = x := Option.some.inj hx
    exact ⟨rest, by rw [List.append_assoc, List.singleton_append]⟩

end ItchIngestion.Library
