import ItchIngestion.Levels.VectorLevelBSearch
import ItchIngestion.Library.Shift

/-! # The linear-search store on one vector (`vector_level.hpp`)

The searches run from the back, where the best levels are. A reverse iterator is its distance from
the back: `rit.base()` stands at `base l rit`, and `*rit` is the element before that place.
-/
namespace ItchIngestion.OB
open Library
set_option autoImplicit false

/-- The levels of a side in a vector, the best one at its back. -/
structure VectorLevel (S : Side) where
  levels : List Level
deriving DecidableEq

/-- The reverse search for the place of a price stops at the first level that is not better. -/
def Side.notBetter (S : Side) (price : UInt32) (p : Level) : Bool :=
  if S = Side.Bid then p.price ≤ price else p.price ≥ price

theorem Side.notBetter_eq_true {S : Side} {price : UInt32} {p : Level} :
    S.notBetter price p = true ↔ ¬ S.Worse price p.price := by
  unfold Side.notBetter Side.Worse
  split <;> simp

theorem Side.notBetter_eq_false {S : Side} {price : UInt32} {p : Level} :
    S.notBetter price p = false ↔ S.Worse price p.price := by
  rw [← Bool.not_eq_true, Side.notBetter_eq_true, not_not]

namespace VectorLevel
variable {S : Side}

/-! ## The code -/

def init : VectorLevel S := ⟨[]⟩

/-- `rit.base()`, as a place from the front. -/
def base (l : VectorLevel S) (rit : ℕ) : ℕ := l.levels.length - rit

/-- The back of an empty vector is undefined. -/
def best (l : VectorLevel S) : Except Fault Level := back l.levels

def remove (l : VectorLevel S) (level : Level) : Except Fault (VectorLevel S) := do
  let rit := l.levels.reverse.findIdx (fun p => p.price == level.price)
  unexpected (rit == l.levels.length) "Remove didn't find a level"
  let found ← element l.levels.reverse rit
  unexpected (decide (level.qty > found.qty)) "Remove lead to an underflow for level"
  -- `std::next(rit).base()` is the place of `*rit` itself
  let it := l.base (rit + 1)
  let levels := l.levels.set it { found with qty := found.qty - level.qty }
  if found.qty - level.qty == 0 then return ⟨← eraseAt levels it⟩
  else return ⟨levels⟩

def add (l : VectorLevel S) (level : Level) : Except Fault (VectorLevel S) := do
  let rit := l.levels.reverse.findIdx (S.notBetter level.price)
  if l.levels.reverse[rit]?.map Level.price == some level.price then
    let found ← element l.levels.reverse rit
    return ⟨l.levels.set (l.base (rit + 1)) { found with qty := found.qty + level.qty }⟩
  else return ⟨← insertAt l.levels (l.base rit) level⟩

def step (l : VectorLevel S) : LevelCall → Except Fault (VectorLevel S)
  | .add level => l.add level
  | .remove level => l.remove level

/-! ## On a cut vector -/

section Cut
variable {X Y : List Level} {p : UInt32} (hX : ∀ x ∈ X, S.Worse x.price p)
  (hY : ∀ y ∈ Y, S.Worse p y.price)
include hY

theorem equal_false {y : Level} (hy : y ∈ Y) : (y.price == p) = false := by
  rw [beq_eq_false_iff_ne]
  intro he
  exact irrefl_of S.Worse p (he ▸ hY y hy)

theorem search_equal (q : UInt64) :
    (X ++ ⟨q, p⟩ :: Y).reverse.findIdx (fun x : Level => x.price == p) = Y.length := by
  rw [List.append_cons]
  apply reverse_findIdx_cut
  · intro y hy
    exact equal_false hY hy
  · simp

theorem search_place_found (q : UInt64) :
    (X ++ ⟨q, p⟩ :: Y).reverse.findIdx (S.notBetter p) = Y.length := by
  rw [List.append_cons]
  apply reverse_findIdx_cut
  · intro y hy
    exact Side.notBetter_eq_false.mpr (hY y hy)
  · simpa [Side.notBetter_eq_true] using irrefl_of S.Worse p

include hX

theorem search_equal_absent :
    (X ++ Y).reverse.findIdx (fun x : Level => x.price == p) = (X ++ Y).length := by
  rw [List.findIdx_eq_length_of_false, List.length_reverse]
  intro x hx
  rw [List.mem_reverse, List.mem_append] at hx
  rcases hx with hx | hx
  · rw [beq_eq_false_iff_ne]
    intro he
    exact irrefl_of S.Worse p (he ▸ hX x hx)
  · exact equal_false hY hx

theorem search_place_absent : (X ++ Y).reverse.findIdx (S.notBetter p) = Y.length := by
  apply reverse_findIdx_cut
  · intro y hy
    exact Side.notBetter_eq_false.mpr (hY y hy)
  · intro x hx
    exact Side.notBetter_eq_true.mpr (asymm_of S.Worse (hX x (List.mem_of_getLast? hx)))

theorem place_price_ne : ((X ++ Y).reverse[Y.length]?).map Level.price ≠ some p := by
  rw [List.reverse_append, List.getElem?_append_right (by rw [List.length_reverse]),
    List.length_reverse, Nat.sub_self]
  intro h
  obtain ⟨x, hx, rfl⟩ := Option.map_eq_some_iff.mp h
  have hmem : x ∈ X := List.mem_reverse.mp (List.mem_of_getElem? hx)
  exact irrefl_of S.Worse _ (hX x hmem)

omit hX hY

theorem base_found (q : UInt64) :
    base (⟨X ++ ⟨q, p⟩ :: Y⟩ : VectorLevel S) (Y.length + 1) = X.length := by
  rw [base, List.length_append, List.length_cons]
  omega

theorem base_absent : base (⟨X ++ Y⟩ : VectorLevel S) Y.length = X.length := by
  rw [base, List.length_append]
  omega

theorem element_found (q : UInt64) :
    element (X ++ (⟨q, p⟩ : Level) :: Y).reverse Y.length = .ok ⟨q, p⟩ := by
  rw [element, reverse_getElem?_middle]

include hY

theorem add_found (q qty : UInt64) : add (⟨X ++ ⟨q, p⟩ :: Y⟩ : VectorLevel S) ⟨qty, p⟩ =
    .ok ⟨X ++ ⟨q + qty, p⟩ :: Y⟩ := by
  have hb : ((X ++ (⟨q, p⟩ : Level) :: Y).reverse[Y.length]?.map Level.price == some p) = true := by
    rw [reverse_getElem?_middle]
    simp
  simp only [add, search_place_found hY, hb, if_true, element_found, base_found, ok_bind,
    set_middle _ _ rfl]
  rfl

theorem remove_found (q qty : UInt64) : remove (⟨X ++ ⟨q, p⟩ :: Y⟩ : VectorLevel S) ⟨qty, p⟩ =
    if q < qty then .error (.unexpected "Remove lead to an underflow for level")
    else .ok ⟨if q - qty = 0 then X ++ Y else X ++ ⟨q - qty, p⟩ :: Y⟩ := by
  have hb : (Y.length == (X ++ (⟨q, p⟩ : Level) :: Y).length) = false := by
    rw [beq_eq_false_iff_ne, List.length_append, List.length_cons]
    omega
  simp only [remove, search_equal hY, hb, unexpected_false, ok_bind, element_found, base_found,
    set_middle _ _ rfl]
  by_cases hlt : q < qty
  · rw [if_pos hlt]
    simp [hlt]
  · rw [if_neg hlt]
    by_cases hz : q - qty = 0
    · simp [hlt, hz, eraseAt_middle]
    · simp [hlt, hz]

include hX

theorem add_absent (qty : UInt64) : add (⟨X ++ Y⟩ : VectorLevel S) ⟨qty, p⟩ =
    .ok ⟨X ++ ⟨qty, p⟩ :: Y⟩ := by
  have hb : ((X ++ Y).reverse[Y.length]?.map Level.price == some p) = false := by
    simpa using place_price_ne hX hY
  simp only [add, search_place_absent hX hY, hb, Bool.false_eq_true, if_false, base_absent,
    insertAt_middle _ rfl]
  rfl

theorem remove_absent (qty : UInt64) : remove (⟨X ++ Y⟩ : VectorLevel S) ⟨qty, p⟩ =
    .error (.unexpected "Remove didn't find a level") := by
  simp only [remove, search_equal_absent hX hY, beq_self_eq_true, unexpected_true, error_bind]

end Cut

end VectorLevel

end ItchIngestion.OB
