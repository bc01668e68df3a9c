import ItchIngestion.Levels.VectorLevelBSearchSplit

/-! # The binary-search store on one vector (`vector_level_b_search.hpp`)

The same search as in `VectorLevelBSearchSplit`, on one vector of levels, and nothing is returned.
`split` takes the vector apart into the two columns of the other store. `locateLevel` cuts a sorted
vector at a price; what the two operations do is then said on the pieces.
-/
namespace ItchIngestion.OB
open Library
set_option autoImplicit false

/-- The levels of a side in a vector, the best one at its back. -/
structure VectorLevelBSearch (S : Side) where
  levels : List Level
deriving DecidableEq

namespace VectorLevelBSearch
variable {S : Side}

/-! ## The code -/

def init : VectorLevelBSearch S := ⟨[]⟩

def best (l : VectorLevelBSearch S) : Except Fault Level :=
  if !l.levels.isEmpty then back l.levels else return ⟨0, 0⟩

def remove (l : VectorLevelBSearch S) (level : Level) : Except Fault (VectorLevelBSearch S) := do
  let it := lowerBound l.levels (fun lhs => decide (S.Worse lhs.price level.price))
  unexpected (l.levels[it]?.map Level.price != some level.price) "Remove didn't find a level"
  let found ← element l.levels it
  unexpected (decide (level.qty > found.qty)) "Remove lead to an underflow for level"
  let levels := l.levels.set it { found with qty := found.qty - level.qty }
  if found.qty - level.qty == 0 then return ⟨← eraseAt levels it⟩
  else return ⟨levels⟩

/-- A new level goes where the search ends. -/
def add (l : VectorLevelBSearch S) (level : Level) : Except Fault (VectorLevelBSearch S) := do
  let it := lowerBound l.levels (fun lhs => decide (S.Worse lhs.price level.price))
  if l.levels[it]?.map Level.price == some level.price then
    let found ← element l.levels it
    return ⟨l.levels.set it { found with qty := found.qty + level.qty }⟩
  else return ⟨← insertAt l.levels it level⟩

def step (l : VectorLevelBSearch S) : LevelCall → Except Fault (VectorLevelBSearch S)
  | .add level => l.add level
  | .remove level => l.remove level

/-! ## Cutting the vector at a price -/

/-- Strictly sorted by price, the best level last. -/
def Sorted (S : Side) (levels : List Level) : Prop :=
  levels.Pairwise fun x y => S.Worse x.price y.price

/-- A sorted vector as the search for `p` finds it. -/
inductive LocatedLevel (S : Side) (p : UInt32) : List Level → Prop
  | found (X : List Level) (q : UInt64) (Y : List Level) (hX : ∀ x ∈ X, S.Worse x.price p)
      (hY : ∀ y ∈ Y, S.Worse p y.price) : LocatedLevel S p (X ++ ⟨q, p⟩ :: Y)
  | absent (X Y : List Level) (hX : ∀ x ∈ X, S.Worse x.price p)
      (hY : ∀ y ∈ Y, S.Worse p y.price) : LocatedLevel S p (X ++ Y)

theorem locateLevel {levels : List Level} (hs : Sorted S levels) (p : UInt32) :
    LocatedLevel S p levels := by
  have hprices : (levels.map Level.price).Pairwise S.Worse := List.pairwise_map.mpr hs
  obtain ⟨X, Y, rfl, hX, hY⟩ : ∃ X Y, levels = X ++ Y ∧ (∀ x ∈ X, S.Worse x.price p) ∧
      ∀ y ∈ Y, ¬ S.Worse y.price p := by
    obtain ⟨A, B, hAB, hA, hB⟩ := sorted_split hprices p
    obtain ⟨X, Y, rfl, rfl, rfl⟩ := List.map_eq_append_iff.mp hAB
    exact ⟨X, Y, rfl, fun x hx => hA _ (List.mem_map_of_mem hx),
      fun y hy => hB _ (List.mem_map_of_mem hy)⟩
  obtain ⟨-, hsY, -⟩ := List.pairwise_append.mp hs
  cases Y with
  | nil => exact .absent X [] hX (by simp)
  | cons y Y =>
    obtain ⟨hy, -⟩ := List.pairwise_cons.mp hsY
    rcases trichotomous_of S.Worse y.price p with h | h | h
    · exact absurd h (hY y List.mem_cons_self)
    · obtain ⟨q, price⟩ := y
      dsimp only at h hy
      subst h
      exact .found X q Y hX hy
    · refine .absent X (y :: Y) hX fun x hx => ?_
      cases List.mem_cons.mp hx with
      | inl hx => exact hx ▸ h
      | inr hx => exact IsTrans.trans _ _ _ h (hy x hx)

section Cut
variable {X Y : List Level} {p : UInt32} (hX : ∀ x ∈ X, S.Worse x.price p)
  (hY : ∀ y ∈ Y, S.Worse p y.price)
include hX hY

theorem search_found (q : UInt64) : lowerBound (X ++ ⟨q, p⟩ :: Y)
    (fun lhs : Level => decide (S.Worse lhs.price p)) = X.length := by
  apply lowerBound_append
  · intro x hx
    simpa using hX x hx
  · intro y hy
    cases List.mem_cons.mp hy with
    | inl hy => simpa [hy] using irrefl_of S.Worse p
    | inr hy => simpa using asymm_of S.Worse (hY y hy)

theorem search_absent : lowerBound (X ++ Y)
    (fun lhs : Level => decide (S.Worse lhs.price p)) = X.length := by
  apply lowerBound_append
  · intro x hx
    simpa using hX x hx
  · intro y hy
    simpa using asymm_of S.Worse (hY y hy)

omit hX in
theorem head_price_ne : (X ++ Y)[X.length]?.map Level.price ≠ some p := by
  rw [List.getElem?_append_right (le_refl _), Nat.sub_self]
  cases Y with
  | nil => simp
  | cons y Y =>
    have hne : y.price ≠ p := fun e => irrefl_of S.Worse p (e ▸ hY y List.mem_cons_self)
    simpa using hne

theorem add_found (q qty : UInt64) : add (⟨X ++ ⟨q, p⟩ :: Y⟩ : VectorLevelBSearch S) ⟨qty, p⟩ =
    .ok ⟨X ++ ⟨q + qty, p⟩ :: Y⟩ := by
  simp [add, search_found hX hY q, element_middle]

theorem add_absent (qty : UInt64) : add (⟨X ++ Y⟩ : VectorLevelBSearch S) ⟨qty, p⟩ =
    .ok ⟨X ++ ⟨qty, p⟩ :: Y⟩ := by
  have hne := head_price_ne (X := X) hY
  have hb : ((X ++ Y)[X.length]?.map Level.price == some p) = false := by simpa using hne
  simp only [add, search_absent hX hY, hb, Bool.false_eq_true, if_false, insertAt_middle _ rfl]
  rfl

theorem remove_absent (qty : UInt64) : remove (⟨X ++ Y⟩ : VectorLevelBSearch S) ⟨qty, p⟩ =
    .error (.unexpected "Remove didn't find a level") := by
  have hne := head_price_ne (X := X) hY
  have hb : ((X ++ Y)[X.length]?.map Level.price != some p) = true := by simpa using hne
  simp only [remove, search_absent hX hY, hb, unexpected_true, error_bind]

theorem remove_found (q qty : UInt64) :
    remove (⟨X ++ ⟨q, p⟩ :: Y⟩ : VectorLevelBSearch S) ⟨qty, p⟩ =
      if q < qty then .error (.unexpected "Remove lead to an underflow for level")
      else .ok ⟨if q - qty = 0 then X ++ Y else X ++ ⟨q - qty, p⟩ :: Y⟩ := by
  have hb : ((X ++ ⟨q, p⟩ :: Y)[X.length]?.map Level.price != some p) = false := by
    simp
  simp only [remove, search_found hX hY q, hb, unexpected_false, ok_bind, element_middle _ rfl,
    set_middle _ _ rfl]
  by_cases hlt : q < qty
  · rw [if_pos hlt]
    simp [hlt]
  · rw [if_neg hlt]
    by_cases hz : q - qty = 0
    · simp [hlt, hz, eraseAt_middle]
    · simp [hlt, hz]

end Cut

/-! ## The invariant -/

theorem init_sorted : Sorted S (init (S := S)).levels := List.Pairwise.nil

theorem Sorted.insert {X Y : List Level} {p : UInt32} (hs : Sorted S (X ++ Y))
    (hX : ∀ x ∈ X, S.Worse x.price p) (hY : ∀ y ∈ Y, S.Worse p y.price) (q : UInt64) :
    Sorted S (X ++ ⟨q, p⟩ :: Y) := by
  obtain ⟨hsX, hsY, hXY⟩ := List.pairwise_append.mp hs
  refine List.pairwise_append.mpr ⟨hsX, List.pairwise_cons.mpr ⟨hY, hsY⟩, fun x hx y hy => ?_⟩
  cases List.mem_cons.mp hy with
  | inl hy => exact hy ▸ hX x hx
  | inr hy => exact hXY x hx y hy

theorem Sorted.erase {X Y : List Level} {y : Level} (hs : Sorted S (X ++ y :: Y)) :
    Sorted S (X ++ Y) :=
  hs.sublist ((List.sublist_cons_self y Y).append_left X)

theorem Sorted.setQty {X Y : List Level} {p : UInt32} {q : UInt64}
    (hs : Sorted S (X ++ ⟨q, p⟩ :: Y)) (q' : UInt64) : Sorted S (X ++ ⟨q', p⟩ :: Y) := by
  have h := List.pairwise_map.mpr hs
  rw [List.map_append, List.map_cons] at h
  apply List.pairwise_map.mp
  rw [List.map_append, List.map_cons]
  exact h

/-! ## The two columns -/

/-- The two columns of the vector. -/
def split (l : VectorLevelBSearch S) : VectorLevelBSearchSplit S :=
  ⟨l.levels.map Level.price, l.levels.map Level.qty⟩

theorem split_append (X Y : List Level) : split (⟨X ++ Y⟩ : VectorLevelBSearch S) =
    ⟨X.map Level.price ++ Y.map Level.price, X.map Level.qty ++ Y.map Level.qty⟩ := by
  rw [split, List.map_append, List.map_append]

theorem split_middle (X Y : List Level) (q : UInt64) (p : UInt32) :
    split (⟨X ++ ⟨q, p⟩ :: Y⟩ : VectorLevelBSearch S) =
      ⟨X.map Level.price ++ p :: Y.map Level.price, X.map Level.qty ++ q :: Y.map Level.qty⟩ :=
  split_append X (⟨q, p⟩ :: Y)

theorem levels_eq_zip (l : VectorLevelBSearch S) :
    l.levels = List.zipWith Level.mk l.split.qtys l.split.prices := by
  rw [split, List.zipWith_map, List.zipWith_self]
  exact (List.map_id _).symm

theorem split_top (l : VectorLevelBSearch S) : l.split.top = l.levels.getLast?.getD ⟨0, 0⟩ := by
  rw [VectorLevelBSearchSplit.top, split, List.getLast?_map, List.getLast?_map]
  cases l.levels.getLast? <;> rfl

theorem best_eq (l : VectorLevelBSearch S) : l.best = .ok (l.levels.getLast?.getD ⟨0, 0⟩) := by
  obtain ⟨levels⟩ := l
  cases levels using List.reverseRecOn with
  | nil => rfl
  | append_singleton X x => simp [best, back]

end VectorLevelBSearch

end ItchIngestion.OB
