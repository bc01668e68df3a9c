import ItchIngestion.Levels.VectorLevelBSearchSplit

/-! # The store on an ordered tree (`btree_level.hpp`)

`absl::btree_map` is taken as an ordered finite map: `Std.TreeMap` under the comparator of the side,
which puts the best price first. Read from its end, the tree lists the columns of the vector stores.
-/
namespace ItchIngestion.OB
open Library
set_option autoImplicit false

/-- `std::greater` on the bid side, `std::less` on every other. -/
def Side.compare (S : Side) (a b : UInt32) : Ordering :=
  if S = Side.Bid then Ord.compare b a else Ord.compare a b

theorem Side.compare_lt {S : Side} {a b : UInt32} : S.compare a b = .lt ↔ S.Worse b a := by
  unfold Side.compare Side.Worse
  split
  · exact Std.compare_eq_lt
  · exact Std.compare_eq_lt

instance (S : Side) : Std.TransCmp S.compare := by
  unfold Side.compare
  split <;> infer_instance

instance (S : Side) : Std.LawfulEqCmp S.compare := by
  unfold Side.compare
  split <;> infer_instance

/-- A tree of quantities, in which the best price comes first. -/
structure BTreeLevels (S : Side) where
  book : Std.TreeMap UInt32 UInt64 S.compare

namespace BTreeLevels
variable {S : Side}

/-! ## The code -/

def init : BTreeLevels S := ⟨∅⟩

def add (l : BTreeLevels S) (level : Level) : BTreeLevels S :=
  ⟨l.book.insert level.price (l.book.getD level.price 0 + level.qty)⟩

/-- An emptied level is erased. -/
def remove (l : BTreeLevels S) (level : Level) : Except Fault (BTreeLevels S) :=
  match l.book[level.price]? with
  | none => .error (.unexpected "Remove didn't find level")
  | some qty => do
    unexpected (decide (level.qty > qty)) "Remove underflow"
    if qty - level.qty == 0 then return ⟨l.book.erase level.price⟩
    else return ⟨l.book.insert level.price (qty - level.qty)⟩

def best (l : BTreeLevels S) : Level :=
  match l.book.toList.head? with
  | none => ⟨0, 0⟩
  | some (price, qty) => ⟨qty, price⟩

def step (l : BTreeLevels S) : LevelCall → Except Fault (BTreeLevels S)
  | .add level => .ok (l.add level)
  | .remove level => l.remove level

/-! ## The meaning -/

/-- The tree as a map. -/
def view (l : BTreeLevels S) : LevelMap := fun price => l.book[price]?

theorem view_init : (init : BTreeLevels S).view = LevelMap.empty := by
  funext price
  exact Std.TreeMap.getElem?_emptyc

theorem view_insert (l : BTreeLevels S) (price : UInt32) (qty : UInt64) :
    view ⟨l.book.insert price qty⟩ = Function.update l.view price (some qty) := by
  funext p
  rw [view, Std.TreeMap.getElem?_insert]
  by_cases h : p = price
  · subst h
    rw [if_pos Std.ReflCmp.compare_self, Function.update_self]
  · have hne : S.compare price p ≠ .eq := fun e => h (Std.LawfulEqCmp.eq_of_compare e).symm
    rw [if_neg hne, Function.update_of_ne h, view]

theorem view_erase (l : BTreeLevels S) (price : UInt32) :
    view ⟨l.book.erase price⟩ = Function.update l.view price none := by
  funext p
  rw [view, Std.TreeMap.getElem?_erase]
  by_cases h : p = price
  · subst h
    rw [if_pos Std.ReflCmp.compare_self, Function.update_self]
  · have hne : S.compare price p ≠ .eq := fun e => h (Std.LawfulEqCmp.eq_of_compare e).symm
    rw [if_neg hne, Function.update_of_ne h, view]

theorem view_add (l : BTreeLevels S) (level : Level) : (l.add level).view = l.view.add level := by
  rw [add, view_insert, LevelMap.add, Std.TreeMap.getD_eq_getD_getElem?, view]

theorem view_remove (l : BTreeLevels S) (level : Level) :
    ((∃ fault, l.view.remove level = .error fault) ∧
        ∃ message, l.remove level = .error (.unexpected message)) ∨
      ∃ l', l.remove level = .ok l' ∧ l.view.remove level = .ok l'.view := by
  cases hq : l.book[level.price]? with
  | none =>
    have hv : l.view level.price = none := hq
    refine Or.inl ⟨?_, ?_⟩
    · simp [LevelMap.remove, hv]
    · simp [remove, hq]
  | some qty =>
    have hv : l.view level.price = some qty := hq
    by_cases hlt : qty < level.qty
    · refine Or.inl ⟨?_, ?_⟩
      · simp [LevelMap.remove, hv, hlt]
      · simp [remove, hq, hlt]
    · refine Or.inr ?_
      by_cases hz : qty - level.qty = 0
      · refine ⟨⟨l.book.erase level.price⟩, ?_, ?_⟩
        · simp [remove, hq, hlt, hz]
        · simp [LevelMap.remove, hv, hlt, hz, view_erase]
      · refine ⟨⟨l.book.insert level.price (qty - level.qty)⟩, ?_, ?_⟩
        · simp [remove, hq, hlt, hz]
        · simp [LevelMap.remove, hv, hlt, hz, view_insert]

/-! ## Reading the tree from its end -/

/-- The entries as levels, the best one last. -/
def levels (l : BTreeLevels S) : List Level := l.book.toList.reverse.map fun e => ⟨e.2, e.1⟩

theorem levels_prices (l : BTreeLevels S) : l.levels.map Level.price = l.book.keys.reverse := by
  rw [levels, List.map_map, List.map_reverse, ← Std.TreeMap.map_fst_toList_eq_keys]
  rfl

theorem levels_sorted (l : BTreeLevels S) : (l.levels.map Level.price).Pairwise S.Worse := by
  rw [levels_prices, List.pairwise_reverse]
  exact Std.TreeMap.ordered_keys.imp fun h => Side.compare_lt.mp h

theorem find_levels (l : BTreeLevels S) (price : UInt32) :
    find (l.levels.map Level.price) (l.levels.map Level.qty) price = l.view price := by
  have hlen : (l.levels.map Level.price).length = (l.levels.map Level.qty).length := by simp
  cases hq : l.view price with
  | none =>
    apply find_absent
    rw [levels_prices, List.mem_reverse, Std.TreeMap.mem_keys, Std.TreeMap.mem_iff_isSome_getElem?]
    rw [view] at hq
    simp [hq]
  | some qty =>
    have hmem : ⟨qty, price⟩ ∈ l.levels := by
      have h := Std.TreeMap.mem_toList_iff_getElem?_eq_some.mpr hq
      exact List.mem_map.mpr ⟨(price, qty), List.mem_reverse.mpr h, rfl⟩
    obtain ⟨i, hi⟩ := List.getElem?_of_mem hmem
    refine find_getElem (i := i) (nodup_of_pairwise l.levels_sorted) ?_ ?_
    · rw [List.getElem?_map, hi, Option.map_some]
    · rw [List.getElem?_map, hi, Option.map_some]

theorem best_eq (l : BTreeLevels S) : l.best = l.levels.getLast?.getD ⟨0, 0⟩ := by
  rw [levels, List.map_reverse, List.getLast?_reverse, List.head?_map, best]
  cases l.book.toList.head? <;> rfl

end BTreeLevels

end ItchIngestion.OB
