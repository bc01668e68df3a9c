import Mathlib

/-! # Sums over the values of a finite map -/
namespace ItchIngestion.Library
set_option autoImplicit false

variable {α β : Type}

/-- The sum of a weight over the values of a finite map. -/
def total (m : Finmap (fun _ : α => β)) (w : β → ℕ) : ℕ := (m.entries.map fun e => w e.2).sum

/-- The number of entries. -/
def size (m : Finmap (fun _ : α => β)) : ℕ := Multiset.card m.entries

variable {m : Finmap (fun _ : α => β)} {a : α} {b : β}

theorem total_le_size (w : β → ℕ) (c : ℕ) (hw : ∀ b, w b ≤ c) : total m w ≤ size m * c := by
  rw [total, size, ← Multiset.card_map (fun e : (_ : α) × β => w e.2), ← smul_eq_mul]
  apply Multiset.sum_le_card_nsmul
  intro x hx
  obtain ⟨e, -, rfl⟩ := Multiset.mem_map.mp hx
  exact hw e.2

variable [DecidableEq α]

theorem total_insert (h : a ∉ m) (w : β → ℕ) : total (m.insert a b) w = w b + total m w := by
  rw [total, Finmap.entries_insert_of_notMem h, Multiset.map_cons, Multiset.sum_cons, total]

theorem size_insert (h : a ∉ m) : size (m.insert a b) = size m + 1 := by
  rw [size, Finmap.entries_insert_of_notMem h, Multiset.card_cons, size]

/-- A map is what remains without an entry, with the entry put back. -/
theorem insert_erase (h : m.lookup a = some b) : (m.erase a).insert a b = m := by
  apply Finmap.ext_lookup
  intro x
  by_cases hx : x = a
  · subst hx
    rw [Finmap.lookup_insert, h]
  · rw [Finmap.lookup_insert_of_ne _ hx, Finmap.lookup_erase_ne hx]

theorem insert_eq_insert_erase : m.insert a b = (m.erase a).insert a b := by
  apply Finmap.ext_lookup
  intro x
  by_cases hx : x = a
  · subst hx
    rw [Finmap.lookup_insert, Finmap.lookup_insert]
  · rw [Finmap.lookup_insert_of_ne _ hx, Finmap.lookup_insert_of_ne _ hx, Finmap.lookup_erase_ne hx]

theorem total_erase (h : m.lookup a = some b) (w : β → ℕ) :
    total m w = w b + total (m.erase a) w := by
  have hins := total_insert (b := b) (Finmap.notMem_erase_self (a := a) (s := m)) w
  rwa [insert_erase h] at hins

theorem size_erase (h : m.lookup a = some b) : size m = size (m.erase a) + 1 := by
  have hins := size_insert (b := b) (Finmap.notMem_erase_self (a := a) (s := m))
  rwa [insert_erase h] at hins

theorem le_total (h : m.lookup a = some b) (w : β → ℕ) : w b ≤ total m w := by
  rw [total_erase h w]
  exact Nat.le_add_right _ _

theorem exists_of_total_pos {w : β → ℕ} (h : 0 < total m w) :
    ∃ a b, m.lookup a = some b ∧ 0 < w b := by
  by_contra hn
  push Not at hn
  have hz : total m w = 0 := by
    apply Multiset.sum_eq_zero
    intro x hx
    obtain ⟨⟨a, b⟩, he, rfl⟩ := Multiset.mem_map.mp hx
    exact Nat.le_zero.mp (hn a b (Finmap.lookup_eq_some_iff.mpr he))
  omega

end ItchIngestion.Library
