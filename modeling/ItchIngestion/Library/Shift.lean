import Mathlib

/-! # Arrays searched and shifted element by element

A search that stops at the first hit cuts a list where the hits begin: `findIdx_cut` from the front,
`reverse_findIdx_cut` from the back. `move` and `moveBackward` copy a stretch of a fixed array one
place down or up, in the order that lets source and destination overlap; `none` is an access outside
the array. Their lemmas read the array as a front part, the stretch and a rest.
-/
namespace ItchIngestion.Library
set_option autoImplicit false

variable {α : Type}

/-! ## Searching -/

theorem findIdx_cut {A B : List α} {p : α → Bool} (hA : ∀ a ∈ A, p a = false)
    (hB : ∀ b ∈ B.head?, p b = true) : (A ++ B).findIdx p = A.length := by
  rw [List.findIdx_append, List.findIdx_eq_length_of_false hA, if_neg (lt_irrefl _)]
  cases B with
  | nil => rw [List.findIdx_nil, Nat.zero_add]
  | cons b B =>
    have hb : p b = true := hB b rfl
    rw [List.findIdx_cons, hb, cond_true, Nat.zero_add]

theorem reverse_findIdx_cut {A B : List α} {p : α → Bool} (hB : ∀ b ∈ B, p b = false)
    (hA : ∀ a ∈ A.getLast?, p a = true) : (A ++ B).reverse.findIdx p = B.length := by
  rw [List.reverse_append, findIdx_cut, List.length_reverse]
  · intro b hb
    exact hB b (List.mem_reverse.mp hb)
  · rw [List.head?_reverse]
    exact hA

/-- What a reverse search has found, read through its position from the back. -/
theorem reverse_getElem?_middle (A B : List α) (x : α) :
    (A ++ x :: B).reverse[B.length]? = some x := by
  rw [List.reverse_append, List.reverse_cons, List.append_assoc,
    List.getElem?_append_right (by rw [List.length_reverse]), List.length_reverse, Nat.sub_self]
  rfl

/-! ## Shifting -/

section Shift
variable {n : ℕ}

def assign (xs : Vector α n) (i : ℕ) (x : α) : Option (Vector α n) :=
  if h : i < n then some (xs.set i x h) else none

/-- `std::move` of `len` elements. -/
def move (xs : Vector α n) (first dest : ℕ) : ℕ → Option (Vector α n)
  | 0 => some xs
  | len + 1 => do
    let x ← xs[first]?
    let xs ← assign xs dest x
    move xs (first + 1) (dest + 1) len

/-- `std::move_backward` of `len` elements. -/
def moveBackward (xs : Vector α n) (first dest : ℕ) : ℕ → Option (Vector α n)
  | 0 => some xs
  | len + 1 => do
    let x ← xs[first + len]?
    let xs ← assign xs (dest + len) x
    moveBackward xs first dest len

theorem assign_middle {xs : Vector α n} {A B : List α} {y : α} (h : xs.toList = A ++ y :: B) (x : α) :
    ∃ ys, assign xs A.length x = some ys ∧ ys.toList = A ++ x :: B := by
  have hlen : A.length < n := by
    rw [← @Vector.length_toList _ _ xs, h, List.length_append, List.length_cons]
    omega
  refine ⟨xs.set A.length x hlen, dif_pos hlen, ?_⟩
  rw [Vector.toList_set, h, List.set_append_right _ _ (le_refl _), Nat.sub_self, List.set_cons_zero]

theorem getElem?_of_toList {xs : Vector α n} {A B : List α} {x : α} (h : xs.toList = A ++ x :: B) :
    xs[A.length]? = some x := by
  rw [← Vector.getElem?_toList, h, List.getElem?_append_right (le_refl _), Nat.sub_self]
  rfl

/-- Closing a gap: the stretch `B` moves one place down, over `x`. -/
theorem move_down {xs : Vector α n} {A B J : List α} {x : α} (h : xs.toList = A ++ x :: B ++ J) :
    ∃ ys, move xs (A.length + 1) A.length B.length = some ys ∧
      ∃ z, ys.toList = A ++ B ++ z :: J := by
  induction B generalizing xs A x with
  | nil => exact ⟨xs, rfl, x, by rw [h, List.append_nil, List.append_assoc, List.singleton_append]⟩
  | cons b B ih =>
    have hsrc : xs.toList = (A ++ [x]) ++ b :: (B ++ J) := by
      rw [h]
      simp
    have hdst : xs.toList = A ++ x :: (b :: B ++ J) := by
      rw [h]
      simp
    obtain ⟨ys, hys, hlist⟩ := assign_middle hdst b
    have hread := getElem?_of_toList hsrc
    rw [List.length_append, List.length_singleton] at hread
    obtain ⟨zs, hzs, z, hz⟩ := @ih ys (A ++ [b]) b (by rw [hlist]; simp)
    rw [List.length_append, List.length_singleton] at hzs
    refine ⟨zs, ?_, z, by rw [hz]; simp⟩
    rw [List.length_cons, move, hread, Option.bind_eq_bind, Option.bind_some, hys,
      Option.bind_eq_bind, Option.bind_some, hzs]

theorem moveBackward_up {xs : Vector α n} {A B J : List α} {j : α}
    (h : xs.toList = A ++ B ++ j :: J) :
    ∃ ys, moveBackward xs A.length (A.length + 1) B.length = some ys ∧
      ∃ z, ys.toList = A ++ z :: (B ++ J) := by
  induction B using List.reverseRecOn generalizing xs j J with
  | nil => exact ⟨xs, rfl, j, by rw [h, List.append_nil, List.nil_append]⟩
  | append_singleton B b ih =>
    have hsrc : xs.toList = (A ++ B) ++ b :: (j :: J) := by
      rw [h]
      simp
    have hdst : xs.toList = (A ++ B ++ [b]) ++ j :: J := by
      rw [h]
      simp
    obtain ⟨ys, hys, hlist⟩ := assign_middle hdst b
    have hread := getElem?_of_toList hsrc
    rw [List.length_append] at hread
    have hwrite : (A ++ B ++ [b]).length = A.length + 1 + B.length := by
      rw [List.length_append, List.length_append, List.length_singleton]
      omega
    obtain ⟨zs, hzs, z, hz⟩ := @ih ys (b :: J) b (by rw [hlist]; simp)
    refine ⟨zs, ?_, z, by rw [hz]; simp⟩
    rw [List.length_append, List.length_singleton, moveBackward, hread, Option.bind_eq_bind,
      Option.bind_some, ← hwrite, hys, Option.bind_eq_bind, Option.bind_some, hzs]

end Shift

end ItchIngestion.Library
