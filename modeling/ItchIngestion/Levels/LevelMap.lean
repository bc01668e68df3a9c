import ItchIngestion.Book.Shared
import ItchIngestion.Library.SortedColumns

/-! # What a price-level store is for

One side of a book maps prices to quantities. `LevelMap` is that map with the two operations every
store in `include/levels/` offers, `IsBest` is the level a side shows to the outside, and `Reports`
is the contract of the returned `BestLvlChange`: a change without a side means that the best level
is what it was, a change with a side carries the best level as it now is.

`LevelStore` is the template parameter `Levels` of `OrderBook`: what the book calls.
-/
namespace ItchIngestion.OB
set_option autoImplicit false

/-! ## The order of prices on a side -/

/-- The comparator of the searches: on the bid side a lower price is the worse one, on every other
side a higher one. -/
def Side.Worse (S : Side) (lhs price : UInt32) : Prop := if S = Side.Bid then lhs < price else lhs > price

instance (S : Side) : DecidableRel S.Worse := fun lhs price => by
  unfold Side.Worse
  exact inferInstance

theorem Side.worse_iff (S : Side) (p q : UInt32) :
    S.Worse p q ↔ if S = Side.Bid then p.toNat < q.toNat else q.toNat < p.toNat := by
  unfold Side.Worse
  split <;> simp [UInt32.lt_iff_toNat_lt]

instance (S : Side) : IsStrictTotalOrder UInt32 S.Worse where
  trichotomous p q hpq hqp := by
    rw [Side.worse_iff] at hpq hqp
    rw [← UInt32.toNat_inj]
    split at hpq <;> simp_all <;> omega
  irrefl p := by
    rw [Side.worse_iff]
    split <;> omega
  trans p q s := by
    rw [Side.worse_iff, Side.worse_iff, Side.worse_iff]
    split <;> omega

/-! ## Level maps -/

/-- The quantity at each price, if there is a level. -/
abbrev LevelMap := UInt32 → Option UInt64

namespace LevelMap

def empty : LevelMap := fun _ => none

/-- The 64-bit sum wraps, as in the stores. -/
def add (m : LevelMap) (level : Level) : LevelMap :=
  Function.update m level.price (some ((m level.price).getD 0 + level.qty))

/-- A level that runs empty goes away. -/
def remove (m : LevelMap) (level : Level) : Except Fault LevelMap :=
  match m level.price with
  | none => .error (.unexpected "Remove didn't find a level")
  | some qty =>
    if qty < level.qty then .error (.unexpected "Remove underflow")
    else .ok (Function.update m level.price (if qty - level.qty = 0 then none else some (qty - level.qty)))

theorem remove_error {m : LevelMap} {level : Level} {fault : Fault}
    (h : m.remove level = .error fault) : ∃ message, fault = .unexpected message := by
  rw [remove] at h
  split at h
  · cases h
    exact ⟨_, rfl⟩
  · split at h
    · cases h
      exact ⟨_, rfl⟩
    · cases h

theorem remove_eq_ok {m m' : LevelMap} {level : Level} :
    m.remove level = .ok m' ↔ ∃ q, m level.price = some q ∧ level.qty ≤ q ∧
      m' = Function.update m level.price (if q - level.qty = 0 then none else some (q - level.qty)) := by
  rw [remove]
  cases hq : m level.price with
  | none =>
    refine iff_of_false (fun h => by cases h) ?_
    rintro ⟨q, h, -⟩
    cases h
  | some q =>
    dsimp only
    by_cases hlt : q < level.qty
    · rw [if_pos hlt]
      refine iff_of_false (fun h => by cases h) ?_
      rintro ⟨q', h, hle, -⟩
      cases h
      exact UInt64.not_lt.mpr hle hlt
    · rw [if_neg hlt]
      constructor
      · intro h
        cases h
        exact ⟨q, rfl, UInt64.not_lt.mp hlt, rfl⟩
      · rintro ⟨q', h, -, rfl⟩
        cases h
        rfl

/-- The best level of side `S`: the empty level of an empty side, else the one at the last price in
the order of the side. -/
def IsBest (S : Side) (m : LevelMap) (level : Level) : Prop :=
  (m = empty ∧ level = ⟨0, 0⟩) ∨
    (m level.price = some level.qty ∧ ∀ p, (m p).isSome → p = level.price ∨ S.Worse p level.price)

theorem IsBest.unique {S : Side} {m : LevelMap} {x y : Level} (hx : IsBest S m x)
    (hy : IsBest S m y) : x = y := by
  rcases hx with ⟨rfl, rfl⟩ | ⟨hx, hxb⟩ <;> rcases hy with ⟨hm, hy⟩ | ⟨hy, hyb⟩
  · exact hy.symm
  · simp [empty] at hy
  · simp [hm, empty] at hx
  · have hprice : x.price = y.price := by
      rcases hyb x.price (by simp [hx]) with h | h
      · exact h
      rcases hxb y.price (by simp [hy]) with h' | h'
      · exact h'.symm
      · exact absurd h' (asymm_of S.Worse h)
    rw [hprice, hy] at hx
    obtain ⟨qx, px⟩ := x
    obtain ⟨qy, py⟩ := y
    simp_all

end LevelMap

/-! ## The interface of a store -/

/-- A call of one of the two operations that change a store. -/
inductive LevelCall
  | add (level : Level)
  | remove (level : Level)
deriving DecidableEq

/-- What `OrderBook` asks of its levels. -/
class LevelStore (Levels : Side → Type) where
  init {S : Side} : Levels S
  add {S : Side} : Levels S → Level → Except Fault (BestLvlChange × Levels S)
  remove {S : Side} : Levels S → Level → Except Fault (BestLvlChange × Levels S)
  /-- Some stores tidy up while they look. -/
  best {S : Side} : Levels S → Except Fault (Level × Levels S)

/-- What a returned change says about the best level before and after the call. -/
def Reports (S : Side) (before after : Level) (change : BestLvlChange) : Prop :=
  (change = BestLvlChange.none ∧ after = before) ∨ change = ⟨after.qty, after.price, S⟩

end ItchIngestion.OB
