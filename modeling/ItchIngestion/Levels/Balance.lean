import ItchIngestion.Levels.LevelMap
import ItchIngestion.Library.Run

/-! # Added minus removed

`balance calls p` is what a history of calls has added at a price minus what it has removed there.
A level map that went through the history shows it (`Shows`), as long as no sum reaches `2 ^ 64`
(`Fits`). `IsBestTotal` is the best price with anything left, said of such totals and so of no store.

Several stores keep their quantities in a hash map. `QtyMap` has what they have in common: the
removal up to the update, and the map read as a `LevelMap`.
-/
namespace ItchIngestion.OB
open Library
set_option autoImplicit false

/-! ## Histories -/

namespace LevelCall

/-- The level that a call names. -/
def level : LevelCall → Level
  | .add level | .remove level => level

/-- What a call puts on the level at a price. -/
def delta (p : UInt32) : LevelCall → ℤ
  | .add level => if level.price = p then (level.qty.toNat : ℤ) else 0
  | .remove level => if level.price = p then -(level.qty.toNat : ℤ) else 0

theorem delta_add (p : UInt32) (level : Level) :
    (add level).delta p = if level.price = p then (level.qty.toNat : ℤ) else 0 := rfl

theorem delta_remove (p : UInt32) (level : Level) :
    (remove level).delta p = if level.price = p then -(level.qty.toNat : ℤ) else 0 := rfl

end LevelCall

/-- What a history has put on a price, less what it has taken off. -/
def balance (calls : List LevelCall) (p : UInt32) : ℤ := (calls.map (LevelCall.delta p)).sum

theorem balance_concat (calls : List LevelCall) (call : LevelCall) (p : UInt32) :
    balance (calls ++ [call]) p = balance calls p + call.delta p := by
  rw [balance, List.map_append, List.sum_append, List.map_singleton, List.sum_singleton, ← balance]

/-- No level sum reaches `2 ^ 64` at any time. -/
def Fits (calls : List LevelCall) : Prop := ∀ pre p, pre <+: calls → balance pre p < 2 ^ 64

/-- Every quantity is positive. -/
def PositiveCalls (calls : List LevelCall) : Prop := ∀ call ∈ calls, 0 < call.level.qty

section Prefix
variable {calls pre : List LevelCall} {call : LevelCall}

theorem Fits.before (h : Fits calls) (hpre : pre <+: calls) : Fits pre :=
  fun pre' p hpre' => h pre' p (hpre'.trans hpre)

theorem Fits.last (h : Fits (calls ++ [call])) (p : UInt32) :
    balance calls p + call.delta p < 2 ^ 64 := by
  rw [← balance_concat]
  exact h _ p (List.prefix_refl _)

theorem last_mem (h : pre ++ [call] <+: calls) : call ∈ calls :=
  h.subset (List.mem_append_right pre (List.mem_singleton_self call))

end Prefix

/-- Quantities that together stay below `2 ^ 64` fit whatever is removed in between. -/
theorem fits_of_sum_lt {calls : List LevelCall}
    (h : (calls.map fun call => call.level.qty.toNat).sum < 2 ^ 64) : Fits calls := by
  have hle : ∀ (calls : List LevelCall) p,
      balance calls p ≤ ((calls.map fun call => call.level.qty.toNat).sum : ℕ) := by
    intro calls p
    induction calls with
    | nil => exact le_refl _
    | cons call calls ih =>
      have hcall : call.delta p ≤ call.level.qty.toNat := by
        cases call with
        | add level =>
          rw [LevelCall.delta_add, LevelCall.level]
          split <;> omega
        | remove level =>
          rw [LevelCall.delta_remove, LevelCall.level]
          split <;> omega
      rw [balance, List.map_cons, List.sum_cons, ← balance, List.map_cons, List.sum_cons]
      push_cast at ih ⊢
      exact add_le_add hcall ih
  intro pre p hpre
  obtain ⟨post, rfl⟩ := hpre
  rw [List.map_append, List.sum_append] at h
  have hpre := hle pre p
  omega

/-- A call of any of the three operations of a store. -/
inductive StoreCall
  | change (call : LevelCall)
  | best
deriving DecidableEq

/-- The addition or removal, if the call is one. -/
def StoreCall.change? : StoreCall → Option LevelCall
  | .change call => some call
  | .best => none

/-- The history without the calls of `best`. -/
def changes (calls : List StoreCall) : List LevelCall := calls.filterMap StoreCall.change?

/-- The best price of a side with a positive total, and that total; the empty level of a side
where nothing is left. -/
def IsBestTotal (S : Side) (total : UInt32 → ℤ) (level : Level) : Prop :=
  ((∀ p, total p ≤ 0) ∧ level = ⟨0, 0⟩) ∨
    (0 < total level.price ∧ (level.qty.toNat : ℤ) = total level.price ∧
      ∀ p, 0 < total p → p = level.price ∨ S.Worse p level.price)

theorem IsBestTotal.unique {S : Side} {total : UInt32 → ℤ} {x y : Level}
    (hx : IsBestTotal S total x) (hy : IsBestTotal S total y) : x = y := by
  rcases hx with ⟨hx, rfl⟩ | ⟨hx, hxq, hxb⟩ <;> rcases hy with ⟨hy, rfl⟩ | ⟨hy, hyq, hyb⟩
  · rfl
  · exact absurd (hx y.price) (not_le.mpr hy)
  · exact absurd (hy x.price) (not_le.mpr hx)
  · have hprice : x.price = y.price := by
      rcases hyb x.price hx with h | h
      · exact h
      rcases hxb y.price hy with h' | h'
      · exact h'.symm
      · exact absurd h' (asymm_of S.Worse h)
    have hqty : x.qty = y.qty := by
      rw [← UInt64.toNat_inj]
      rw [hprice] at hxq
      omega
    obtain ⟨qx, px⟩ := x
    obtain ⟨qy, py⟩ := y
    simp_all

/-! ## Level maps through a history -/

/-- One quantity through an addition and a removal, as an integer. -/
theorem toNat_add_int {q d : UInt64} {n : ℤ} (hq : (q.toNat : ℤ) = n) (hfit : n + d.toNat < 2 ^ 64) :
    ((q + d).toNat : ℤ) = n + d.toNat := by
  rw [UInt64.toNat_add, Nat.mod_eq_of_lt (by omega)]
  omega

theorem toNat_sub_int {q d : UInt64} {n : ℤ} (hq : (q.toNat : ℤ) = n) (hd : d ≤ q) :
    ((q - d).toNat : ℤ) = n - d.toNat := by
  have hle : d.toNat ≤ q.toNat := UInt64.le_iff_toNat_le.mp hd
  rw [UInt64.toNat_sub_of_le _ _ hd]
  omega

namespace LevelMap

/-- The quantity at every price is the balance of the history. -/
def Shows (m : LevelMap) (calls : List LevelCall) : Prop :=
  ∀ p, (((m p).getD 0).toNat : ℤ) = balance calls p

/-- No level of quantity zero is kept. -/
def Occupied (m : LevelMap) : Prop := ∀ p q, m p = some q → 0 < q

variable {m m' : LevelMap} {calls : List LevelCall} {level : Level}

theorem empty_shows : Shows empty [] := fun _ => rfl

theorem empty_occupied : Occupied empty := fun p q h => by cases h

theorem Shows.add (h : m.Shows calls) (hfit : Fits (calls ++ [.add level])) :
    (m.add level).Shows (calls ++ [.add level]) := by
  intro p
  have hlast := hfit.last p
  rw [LevelCall.delta_add] at hlast
  rw [balance_concat, LevelCall.delta_add]
  by_cases hp : level.price = p
  · subst hp
    rw [if_pos rfl] at hlast ⊢
    rw [LevelMap.add, Function.update_self, Option.getD_some]
    exact toNat_add_int (h _) hlast
  · rw [if_neg hp, LevelMap.add, Function.update_of_ne (Ne.symm hp), add_zero]
    exact h p

theorem Shows.remove (h : m.Shows calls) (hrem : m.remove level = .ok m') :
    m'.Shows (calls ++ [.remove level]) := by
  obtain ⟨q, hq, hle, rfl⟩ := remove_eq_ok.mp hrem
  intro p
  rw [balance_concat, LevelCall.delta_remove]
  by_cases hp : level.price = p
  · subst hp
    have hold := h level.price
    rw [hq, Option.getD_some] at hold
    rw [if_pos rfl, Function.update_self, ← sub_eq_add_neg, ← toNat_sub_int hold hle]
    split
    · rename_i hz
      rw [hz]
      rfl
    · rfl
  · rw [if_neg hp, Function.update_of_ne (Ne.symm hp), add_zero]
    exact h p

theorem Occupied.remove (h : m.Occupied) (hrem : m.remove level = .ok m') : m'.Occupied := by
  obtain ⟨q, hq, hle, rfl⟩ := remove_eq_ok.mp hrem
  intro p q' hq'
  by_cases hp : p = level.price
  · rw [hp, Function.update_self] at hq'
    split at hq'
    · cases hq'
    · rename_i hz
      cases hq'
      exact UInt64.pos_iff_ne_zero.mpr hz
  · rw [Function.update_of_ne hp] at hq'
    exact h p q' hq'

theorem Occupied.add (h : m.Occupied) (hshows : m.Shows calls) (hqty : 0 < level.qty)
    (hfit : Fits (calls ++ [.add level])) : (m.add level).Occupied := by
  intro p q hq
  by_cases hp : p = level.price
  · rw [LevelMap.add, hp, Function.update_self, Option.some.injEq] at hq
    have hlast := hfit.last level.price
    rw [LevelCall.delta_add, if_pos rfl] at hlast
    have hold := hshows level.price
    have hsum := toNat_add_int hold hlast
    have hpos : 0 < level.qty.toNat := UInt64.lt_iff_toNat_lt.mp hqty
    rw [← hq, UInt64.lt_iff_toNat_lt]
    have hzero : (0 : UInt64).toNat = 0 := rfl
    omega
  · rw [LevelMap.add, Function.update_of_ne hp] at hq
    exact h p q hq

section Shown
variable (h : m.Shows calls)
include h

theorem Shows.eq_balance {p : UInt32} {q : UInt64} (hq : m p = some q) :
    (q.toNat : ℤ) = balance calls p := by
  have hp := h p
  rwa [hq, Option.getD_some] at hp

theorem Shows.balance_pos {p : UInt32} : 0 < balance calls p ↔ ∃ q, m p = some q ∧ 0 < q := by
  rw [← h p]
  cases hq : m p with
  | none => exact iff_of_false (by simp) (fun ⟨_, hq', _⟩ => by cases hq')
  | some q =>
    have hzero : (0 : UInt64).toNat = 0 := rfl
    rw [Option.getD_some]
    constructor
    · intro hpos
      refine ⟨q, rfl, ?_⟩
      rw [UInt64.lt_iff_toNat_lt]
      omega
    · rintro ⟨q', hq', hpos⟩
      cases hq'
      rw [UInt64.lt_iff_toNat_lt] at hpos
      omega

theorem Shows.isBestTotal {S : Side} {q : UInt64} {p : UInt32} (hq : m p = some q) (hpos : 0 < q)
    (hbest : ∀ p' q', m p' = some q' → 0 < q' → p' = p ∨ S.Worse p' p) :
    IsBestTotal S (balance calls) ⟨q, p⟩ := by
  refine Or.inr ⟨h.balance_pos.mpr ⟨q, hq, hpos⟩, h.eq_balance hq, fun p' hp' => ?_⟩
  obtain ⟨q', hq', hpos'⟩ := h.balance_pos.mp hp'
  exact hbest p' q' hq' hpos'

theorem Shows.isBestTotal_empty {S : Side} (hnone : ∀ p q, m p = some q → ¬ 0 < q) :
    IsBestTotal S (balance calls) ⟨0, 0⟩ := by
  refine Or.inl ⟨fun p => ?_, rfl⟩
  by_contra hp
  obtain ⟨q, hq, hpos⟩ := h.balance_pos.mp (not_le.mp hp)
  exact hnone p q hq hpos

end Shown

end LevelMap

/-! ## Hash maps of quantities -/

/-- A hash map from prices to quantities. -/
abbrev QtyMap := Finmap (fun _ : UInt32 => UInt64)

namespace QtyMap

/-- `operator[]` as a value: a price that is not there gets a zero. -/
def get (m : QtyMap) (price : UInt32) : UInt64 := (m.lookup price).getD 0

/-- `find`, the two checks and the subtraction of a removal; the messages differ between stores. -/
def remaining (notFound tooMuch : String) (m : QtyMap) (level : Level) : Except Fault UInt64 :=
  match m.lookup level.price with
  | none => .error (.unexpected notFound)
  | some qty => do
    unexpected (decide (level.qty > qty)) tooMuch
    return qty - level.qty

/-- The map as a function. -/
def view (m : QtyMap) : LevelMap := fun price => m.lookup price

variable {m : QtyMap} {level : Level} {notFound tooMuch : String}

theorem view_empty : view ∅ = LevelMap.empty := funext fun _ => Finmap.lookup_empty _

theorem view_insert (price : UInt32) (qty : UInt64) :
    view (m.insert price qty) = Function.update m.view price (some qty) := by
  funext p
  by_cases h : p = price
  · subst h
    rw [view, Finmap.lookup_insert, Function.update_self]
  · rw [view, Finmap.lookup_insert_of_ne m h, Function.update_of_ne h, view]

theorem view_erase (price : UInt32) : view (m.erase price) = Function.update m.view price none := by
  funext p
  by_cases h : p = price
  · subst h
    rw [view, Finmap.lookup_erase, Function.update_self]
  · rw [view, Finmap.lookup_erase_ne h, Function.update_of_ne h, view]

theorem view_add : view (m.insert level.price (m.get level.price + level.qty)) = m.view.add level := by
  rw [view_insert]
  rfl

theorem remaining_cases (notFound tooMuch : String) (m : QtyMap) (level : Level) :
    (m.lookup level.price = none ∧
        remaining notFound tooMuch m level = .error (.unexpected notFound)) ∨
      ∃ qty, m.lookup level.price = some qty ∧
        ((qty < level.qty ∧ remaining notFound tooMuch m level = .error (.unexpected tooMuch)) ∨
          level.qty ≤ qty ∧ remaining notFound tooMuch m level = .ok (qty - level.qty)) := by
  rw [remaining]
  cases m.lookup level.price with
  | none => exact Or.inl ⟨rfl, rfl⟩
  | some qty =>
    refine Or.inr ⟨qty, rfl, ?_⟩
    dsimp only
    by_cases hlt : qty < level.qty
    · have hc : decide (level.qty > qty) = true := by simpa using hlt
      rw [hc, unexpected_true, error_bind]
      exact Or.inl ⟨hlt, rfl⟩
    · have hc : decide (level.qty > qty) = false := by simpa using hlt
      rw [hc, unexpected_false, ok_bind]
      exact Or.inr ⟨UInt64.not_lt.mp hlt, rfl⟩

theorem remaining_ok {rest : UInt64} (h : remaining notFound tooMuch m level = .ok rest) :
    ∃ qty, m.lookup level.price = some qty ∧ level.qty ≤ qty ∧ rest = qty - level.qty := by
  rcases remaining_cases notFound tooMuch m level with ⟨-, he⟩ | ⟨qty, hq, ⟨-, he⟩ | ⟨hle, hok⟩⟩
  · rw [h] at he
    cases he
  · rw [h] at he
    cases he
  · rw [h] at hok
    cases hok
    exact ⟨qty, hq, hle, rfl⟩

theorem remaining_error {fault : Fault} (h : remaining notFound tooMuch m level = .error fault) :
    fault = .unexpected notFound ∨ fault = .unexpected tooMuch := by
  rcases remaining_cases notFound tooMuch m level with ⟨-, he⟩ | ⟨qty, -, ⟨-, he⟩ | ⟨-, hok⟩⟩
  · rw [h] at he
    exact Or.inl (Except.error.inj he)
  · rw [h] at he
    exact Or.inr (Except.error.inj he)
  · rw [h] at hok
    cases hok

/-- A removal aborts exactly where there is no entry or less than asked. -/
theorem remaining_eq_error : (∃ fault, remaining notFound tooMuch m level = .error fault) ↔
    m.lookup level.price = none ∨ ∃ qty, m.lookup level.price = some qty ∧ qty < level.qty := by
  rcases remaining_cases notFound tooMuch m level with ⟨hq, he⟩ | ⟨qty, hq, ⟨hlt, he⟩ | ⟨hle, hok⟩⟩
  · exact iff_of_true ⟨_, he⟩ (Or.inl hq)
  · exact iff_of_true ⟨_, he⟩ (Or.inr ⟨qty, hq, hlt⟩)
  · rw [hok, hq]
    refine iff_of_false ?_ ?_
    · rintro ⟨fault, h⟩
      cases h
    · rintro (h | ⟨q, h, hlt⟩)
      · cases h
      · cases h
        exact UInt64.not_lt.mpr hle hlt

/-- In a map that shows a history, the amounts can be read as balances. -/
theorem missing_iff {calls : List LevelCall} (h : m.view.Shows calls) :
    (m.lookup level.price = none ∨ ∃ qty, m.lookup level.price = some qty ∧ qty < level.qty) ↔
      m.lookup level.price = none ∨ balance calls level.price < level.qty.toNat := by
  cases hq : m.lookup level.price with
  | none => exact iff_of_true (Or.inl rfl) (Or.inl rfl)
  | some qty =>
    rw [← h.eq_balance hq]
    simp [UInt64.lt_iff_toNat_lt]

/-- What the update makes of the map; a level that ran empty leaves it. -/
theorem view_remove {rest : UInt64} (h : remaining notFound tooMuch m level = .ok rest) :
    m.view.remove level =
      .ok (view (if rest = 0 then m.erase level.price else m.insert level.price rest)) := by
  obtain ⟨qty, hqty, hle, rfl⟩ := remaining_ok h
  refine LevelMap.remove_eq_ok.mpr ⟨qty, hqty, hle, ?_⟩
  split
  · rw [view_erase]
  · rw [view_insert]

end QtyMap

end ItchIngestion.OB
