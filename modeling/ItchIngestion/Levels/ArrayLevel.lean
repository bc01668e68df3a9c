import ItchIngestion.Levels.VectorLevel

/-! # The stores on a fixed array (`array_level.hpp`, `array_level_binary_search.hpp`)

The two classes have the same members and differ in their searches alone. `LevelArray` is what they
share: the members, and what an operation does once it has its place. `FindsPlaces` is the contract
of the searches, and every property of the two stores comes from it.
-/
namespace ItchIngestion.OB
open Library
set_option autoImplicit false

/-- The number of entries of the array. -/
def capacity : ℕ := 3000

/-- The array and the number of its entries in use, which come first. -/
structure LevelArray where
  levels : Vector Level capacity
  size : ℕ
deriving DecidableEq

/-- The forward search for the place of a price stops at the first level that is not worse. -/
def Side.notWorse (S : Side) (price : UInt32) (p : Level) : Bool :=
  if S = Side.Bid then p.price ≥ price else p.price ≤ price

theorem Side.notWorse_eq_true {S : Side} {price : UInt32} {p : Level} :
    S.notWorse price p = true ↔ ¬ S.Worse p.price price := by
  unfold Side.notWorse Side.Worse
  split <;> simp

theorem Side.notWorse_eq_false {S : Side} {price : UInt32} {p : Level} :
    S.notWorse price p = false ↔ S.Worse p.price price := by
  rw [← Bool.not_eq_true, Side.notWorse_eq_true, not_not]

/-- An access to the array is undefined outside it. -/
def inArray {α : Type} : Option α → Except Fault α
  | some x => .ok x
  | none => .error .undefinedBehaviour

namespace LevelArray

/-! ## The code -/

def init : LevelArray := ⟨Vector.replicate capacity ⟨0, 0⟩, 0⟩

/-- From `begin()` to `begin() + size`. -/
def live (l : LevelArray) : List Level := l.levels.toList.take l.size

/-- The index of an empty store wraps around to far outside the array. -/
def best (l : LevelArray) : Except Fault Level :=
  match l.size with
  | 0 => .error .undefinedBehaviour
  | last + 1 => inArray l.levels[last]?

/-- The end of `remove`, with `it` found. -/
def takeFrom (l : LevelArray) (it : ℕ) (level : Level) : Except Fault LevelArray := do
  let found ← inArray l.levels[it]?
  unexpected (decide (level.qty > found.qty)) "Remove lead to an underflow for level"
  let levels ← inArray (assign l.levels it { found with qty := found.qty - level.qty })
  if found.qty - level.qty == 0 then
    return ⟨← inArray (move levels (it + 1) it (l.size - (it + 1))), l.size - 1⟩
  else return { l with levels }

/-- The end of `add`, with `it` found. -/
def putAt (l : LevelArray) (it : ℕ) (level : Level) : Except Fault LevelArray := do
  if l.live[it]?.map Level.price == some level.price then
    let found ← inArray l.levels[it]?
    let levels ← inArray (assign l.levels it { found with qty := found.qty + level.qty })
    return { l with levels }
  else
    let levels ← inArray (moveBackward l.levels it (it + 1) (l.size - it))
    return ⟨← inArray (assign levels it level), l.size + 1⟩

/-- A call of either operation of a store on an array. -/
def stepOf (add remove : LevelArray → Level → Except Fault LevelArray) (l : LevelArray) :
    LevelCall → Except Fault LevelArray
  | .add level => add l level
  | .remove level => remove l level

end LevelArray

namespace ArrayLevel

/-- `remove` of the store that searches from its end. -/
def remove (l : LevelArray) (level : Level) : Except Fault LevelArray := do
  let rit := l.live.reverse.findIdx (fun p => p.price == level.price)
  unexpected (rit == l.size) "Remove didn't find a level"
  -- `std::next(rit).base()`
  l.takeFrom (l.size - (rit + 1)) level

/-- `add` of the store that searches from its start. -/
def add (S : Side) (l : LevelArray) (level : Level) : Except Fault LevelArray := do
  unexpected (l.size == capacity) "ArrayLevel capacity exceeded"
  l.putAt (l.live.findIdx (S.notWorse level.price)) level

def step (S : Side) : LevelArray → LevelCall → Except Fault LevelArray :=
  LevelArray.stepOf (add S) remove

end ArrayLevel

namespace ArrayLevelBSearch

/-- `remove` of the store that halves. -/
def remove (S : Side) (l : LevelArray) (level : Level) : Except Fault LevelArray := do
  let it := lowerBound l.live (fun lhs => decide (S.Worse lhs.price level.price))
  unexpected (l.live[it]?.map Level.price != some level.price) "Remove didn't find a level"
  l.takeFrom it level

/-- `add` of the store that halves. -/
def add (S : Side) (l : LevelArray) (level : Level) : Except Fault LevelArray := do
  unexpected (l.size == capacity) "ArrayLevelBSearch capacity exceeded"
  l.putAt (lowerBound l.live fun lhs => decide (S.Worse lhs.price level.price)) level

def step (S : Side) : LevelArray → LevelCall → Except Fault LevelArray :=
  LevelArray.stepOf (add S) (remove S)

end ArrayLevelBSearch

/-! ## The live part -/

namespace LevelArray
variable {S : Side} {l : LevelArray} {xs : List Level}

/-- The live entries are `xs`; what stands behind them does not matter. -/
def Holds (l : LevelArray) (xs : List Level) : Prop :=
  l.size = xs.length ∧ ∃ rest, l.levels.toList = xs ++ rest

theorem init_holds : init.Holds [] := ⟨rfl, _, rfl⟩

theorem Holds.live_eq (h : l.Holds xs) : l.live = xs := by
  obtain ⟨hsize, rest, hlist⟩ := h
  rw [live, hlist, hsize, List.take_left]

theorem Holds.best_eq (h : l.Holds xs) (hne : xs ≠ []) : l.best = back xs := by
  obtain ⟨hsize, rest, hlist⟩ := h
  cases xs using List.reverseRecOn with
  | nil => exact absurd rfl hne
  | append_singleton ys y =>
    rw [List.append_assoc, List.singleton_append] at hlist
    rw [List.length_append, List.length_singleton] at hsize
    rw [best, hsize]
    dsimp only
    rw [getElem?_of_toList hlist, back, List.getLast?_concat]
    rfl

theorem Holds.room (h : l.Holds xs) (hroom : l.size < capacity) :
    ∃ j rest, l.levels.toList = xs ++ j :: rest := by
  obtain ⟨hsize, rest, hlist⟩ := h
  cases rest with
  | cons j rest => exact ⟨j, rest, hlist⟩
  | nil =>
    have hlen := l.levels.length_toList
    rw [hlist, List.append_nil] at hlen
    omega

section Cut
variable {X Y : List Level} {p : UInt32}

theorem putAt_found {q : UInt64} (h : l.Holds (X ++ ⟨q, p⟩ :: Y)) (qty : UInt64) :
    ∃ l', l.putAt X.length ⟨qty, p⟩ = .ok l' ∧ l'.Holds (X ++ ⟨q + qty, p⟩ :: Y) := by
  have hb : (l.live[X.length]?.map Level.price == some p) = true := by
    rw [h.live_eq]
    simp
  obtain ⟨hsize, rest, hlist⟩ := h
  rw [List.append_assoc, List.cons_append] at hlist
  obtain ⟨levels, hset, hlist'⟩ := assign_middle hlist ⟨q + qty, p⟩
  refine ⟨⟨levels, l.size⟩, ?_, ?_, rest, ?_⟩
  · simp only [putAt, hb, if_true, getElem?_of_toList hlist, inArray, ok_bind, hset]
    rfl
  · rw [hsize, List.length_append, List.length_append, List.length_cons, List.length_cons]
  · rw [hlist', List.append_assoc, List.cons_append]

theorem putAt_absent (h : l.Holds (X ++ Y)) (hroom : l.size < capacity)
    (hY : ∀ y ∈ Y, S.Worse p y.price) (qty : UInt64) :
    ∃ l', l.putAt X.length ⟨qty, p⟩ = .ok l' ∧ l'.Holds (X ++ ⟨qty, p⟩ :: Y) := by
  have hb : (l.live[X.length]?.map Level.price == some p) = false := by
    rw [h.live_eq]
    simpa using VectorLevelBSearch.head_price_ne hY
  obtain ⟨j, rest, hlist⟩ := h.room hroom
  obtain ⟨levels, hmove, z, hlist'⟩ := moveBackward_up hlist
  obtain ⟨levels', hset, hlist''⟩ := assign_middle hlist' ⟨qty, p⟩
  have hlen : l.size - X.length = Y.length := by
    rw [h.1, List.length_append]
    omega
  refine ⟨⟨levels', l.size + 1⟩, ?_, ?_, rest, ?_⟩
  · simp only [putAt, hb, Bool.false_eq_true, if_false, hlen, hmove, inArray, ok_bind, hset]
    rfl
  · dsimp only
    rw [h.1, List.length_append, List.length_append, List.length_cons]
    omega
  · rw [hlist'', List.append_assoc, List.cons_append]

theorem takeFrom_tooMuch {q qty : UInt64} (h : l.Holds (X ++ ⟨q, p⟩ :: Y)) (hlt : q < qty) :
    l.takeFrom X.length ⟨qty, p⟩ = .error (.unexpected "Remove lead to an underflow for level") := by
  obtain ⟨hsize, rest, hlist⟩ := h
  rw [List.append_assoc, List.cons_append] at hlist
  have hc : decide (qty > q) = true := by simpa using hlt
  simp only [takeFrom, getElem?_of_toList hlist, inArray, ok_bind, hc, unexpected_true, error_bind]

theorem takeFrom_found {q qty : UInt64} (h : l.Holds (X ++ ⟨q, p⟩ :: Y)) (hle : ¬ q < qty) :
    ∃ l', l.takeFrom X.length ⟨qty, p⟩ = .ok l' ∧
      l'.Holds (if q - qty = 0 then X ++ Y else X ++ ⟨q - qty, p⟩ :: Y) := by
  obtain ⟨hsize, rest, hlist⟩ := h
  rw [List.append_assoc, List.cons_append] at hlist
  have hc : decide (qty > q) = false := by simpa using hle
  obtain ⟨levels, hset, hlist'⟩ := assign_middle hlist ⟨q - qty, p⟩
  rw [List.length_append, List.length_cons] at hsize
  by_cases hz : q - qty = 0
  · have hcut : levels.toList = X ++ ⟨q - qty, p⟩ :: Y ++ rest := by
      rw [hlist', List.append_assoc, List.cons_append]
    obtain ⟨levels', hmove, z, hlist''⟩ := move_down hcut
    have hlen : l.size - (X.length + 1) = Y.length := by omega
    have hz' : (q - qty == 0) = true := by simpa using hz
    refine ⟨⟨levels', l.size - 1⟩, ?_, ?_⟩
    · simp only [takeFrom, getElem?_of_toList hlist, inArray, ok_bind, hc, unexpected_false, hset,
        hz', if_true, hlen, hmove]
      rfl
    · rw [if_pos hz]
      refine ⟨?_, z :: rest, hlist''⟩
      rw [List.length_append]
      dsimp only
      omega
  · have hz' : (q - qty == 0) = false := by simpa using hz
    refine ⟨⟨levels, l.size⟩, ?_, ?_⟩
    · simp only [takeFrom, getElem?_of_toList hlist, inArray, ok_bind, hc, unexpected_false, hset,
        hz', Bool.false_eq_true, if_false]
      rfl
    · rw [if_neg hz]
      refine ⟨?_, rest, ?_⟩
      · rw [List.length_append, List.length_cons]
        exact hsize
      · rw [hlist', List.append_assoc, List.cons_append]

end Cut

end LevelArray

/-! ## The searches -/

/-- The two operations find the place of a price: where it stands, or where it belongs. -/
structure FindsPlaces (S : Side) (add remove : LevelArray → Level → Except Fault LevelArray) :
    Prop where
  add_eq {l : LevelArray} {X Z : List Level} {p : UInt32} (qty : UInt64) : l.Holds (X ++ Z) →
    l.size < capacity → (∀ x ∈ X, S.Worse x.price p) → (∀ z ∈ Z, ¬ S.Worse z.price p) →
    add l ⟨qty, p⟩ = l.putAt X.length ⟨qty, p⟩
  remove_found {l : LevelArray} {X Y : List Level} {p : UInt32} (q qty : UInt64) :
    l.Holds (X ++ ⟨q, p⟩ :: Y) → (∀ x ∈ X, S.Worse x.price p) → (∀ y ∈ Y, S.Worse p y.price) →
    remove l ⟨qty, p⟩ = l.takeFrom X.length ⟨qty, p⟩
  remove_absent {l : LevelArray} {X Y : List Level} {p : UInt32} (qty : UInt64) : l.Holds (X ++ Y) →
    (∀ x ∈ X, S.Worse x.price p) → (∀ y ∈ Y, S.Worse p y.price) →
    remove l ⟨qty, p⟩ = .error (.unexpected "Remove didn't find a level")

variable {S : Side}

theorem not_full {l : LevelArray} (hroom : l.size < capacity) : (l.size == capacity) = false :=
  beq_eq_false_iff_ne.mpr (Nat.ne_of_lt hroom)

theorem ArrayLevel.findsPlaces : FindsPlaces S (add S) remove where
  add_eq {l X Z p} qty h hroom hX hZ := by
    have hplace : (X ++ Z).findIdx (S.notWorse p) = X.length := by
      apply findIdx_cut
      · intro x hx
        exact Side.notWorse_eq_false.mpr (hX x hx)
      · intro z hz
        exact Side.notWorse_eq_true.mpr (hZ z (List.mem_of_head? hz))
    simp only [add, not_full hroom, unexpected_false, ok_bind, h.live_eq, hplace]
  remove_found {l X Y p} q qty h _ hY := by
    have hlen : l.size = X.length + (Y.length + 1) := by
      rw [h.1, List.length_append, List.length_cons]
    have hb : (Y.length == l.size) = false := by
      rw [beq_eq_false_iff_ne]
      omega
    have hbase : l.size - (Y.length + 1) = X.length := by omega
    simp only [remove, h.live_eq, VectorLevel.search_equal hY q, hb, unexpected_false, ok_bind, hbase]
  remove_absent {l X Y p} qty h hX hY := by
    simp only [remove, h.live_eq, VectorLevel.search_equal_absent hX hY, h.1, beq_self_eq_true,
      unexpected_true, error_bind]

theorem ArrayLevelBSearch.findsPlaces : FindsPlaces S (add S) (remove S) where
  add_eq {l X Z p} qty h hroom hX hZ := by
    have hplace : lowerBound (X ++ Z) (fun lhs => decide (S.Worse lhs.price p)) = X.length := by
      apply lowerBound_append
      · intro x hx
        exact decide_eq_true (hX x hx)
      · intro z hz
        exact decide_eq_false (hZ z hz)
    simp only [add, not_full hroom, unexpected_false, ok_bind, h.live_eq, hplace]
  remove_found {l X Y p} q qty h hX hY := by
    have hb : ((X ++ (⟨q, p⟩ : Level) :: Y)[X.length]?.map Level.price != some p) = false := by
      simp
    simp only [remove, h.live_eq, VectorLevelBSearch.search_found hX hY q, hb, unexpected_false,
      ok_bind]
  remove_absent {l X Y p} qty h hX hY := by
    have hb : ((X ++ Y)[X.length]?.map Level.price != some p) = true := by
      simpa using VectorLevelBSearch.head_price_ne hY
    simp only [remove, h.live_eq, VectorLevelBSearch.search_absent hX hY, hb, unexpected_true,
      error_bind]

end ItchIngestion.OB
