import ItchIngestion.Levels.HeapLevels
import ItchIngestion.Levels.PriceToQtyMap

/-! # The heap store with the custom map (`heap_levels_custom_map.hpp`)

The store is `HeapLevels` with its hash map exchanged. `Follows` relates the two: the heaps are the
same, and the custom map has the same quantities under prices widened to 64 bits. A price of zero is
the key of a free entry there, so the stores part where one is added; nothing goes wrong if one is
only removed, because every free entry has the value zero (`Blank`).
-/
namespace ItchIngestion.OB
open Library
set_option autoImplicit false

/-- The same store on the hash table of `price_to_qty_map.hpp`. -/
structure HeapLevelsCustomMap (S : Side) where
  /-- `PriceCmp` is the order of the side. -/
  heap : PriorityQueue S.Worse
  qtyByPrice : PriceToQtyMap

/-! ## Free entries -/

namespace PriceToQtyMap

/-- No value is left over in a free entry. -/
def Blank (t : PriceToQtyMap) : Prop := ∀ p, (t.entry p).key = 0 → (t.entry p).value = 0

variable {t : PriceToQtyMap}

theorem Blank.put (h : t.Blank) {b : Fin buckets} {i : Fin bucketSize} {e : Entry}
    (he : e.key = 0 → e.value = 0) : Blank ⟨putSlot t.table b i e⟩ := by
  intro p
  rw [entry_put]
  split
  · exact he
  · exact h p

theorem Stores.erase_zero {m : Contents} {k : UInt64} (h : t.Stores m) (hblank : t.Blank) (hk : k ≠ 0)
    (hzero : m.lookup k = some 0) : ∃ t', t.erase k = .ok t' ∧ t'.Stores (m.erase k) ∧ t'.Blank := by
  cases lookup_cases h hk with
  | absent _ hnone =>
    rw [hzero] at hnone
    cases hnone
  | present p _ _ hsome _ herase =>
    rw [hzero] at hsome
    exact ⟨_, herase, h.erase hk herase, hblank.put fun _ => (Option.some.inj hsome).symm⟩

theorem deref_write (t : PriceToQtyMap) (p : Pointer) (v : UInt64) : (t.write p v).deref p = v := by
  rw [deref, write, entry_put, if_pos ⟨rfl, rfl⟩]

end PriceToQtyMap

namespace HeapLevelsCustomMap
variable {S : Side}

/-! ## The code -/

def init : HeapLevelsCustomMap S := ⟨.empty, .init⟩

/-- A price that `find` does not know is pushed. -/
def add (l : HeapLevelsCustomMap S) (level : Level) : Except Fault (HeapLevelsCustomMap S) :=
  match l.qtyByPrice.find level.price.toUInt64 with
  | none => do
    let qtyByPrice ← l.qtyByPrice.insert level.price.toUInt64 level.qty
    return ⟨l.heap.push level.price, qtyByPrice⟩
  | some qty =>
    .ok { l with qtyByPrice := l.qtyByPrice.write qty (l.qtyByPrice.deref qty + level.qty) }

def remove (l : HeapLevelsCustomMap S) (level : Level) : Except Fault (HeapLevelsCustomMap S) :=
  match l.qtyByPrice.find level.price.toUInt64 with
  | none => .error (.unexpected "Remove didn't find level")
  | some qty => do
    unexpected (decide (level.qty > l.qtyByPrice.deref qty)) "Remove underflow"
    let qtyByPrice := l.qtyByPrice.write qty (l.qtyByPrice.deref qty - level.qty)
    if qtyByPrice.deref qty == 0 then
      return { l with qtyByPrice := ← qtyByPrice.erase level.price.toUInt64 }
    else return { l with qtyByPrice }

/-- Prices without a quantity are popped on the way. -/
def best (l : HeapLevelsCustomMap S) : Level × HeapLevelsCustomMap S :=
  match _htop : l.heap.top with
  | none => (⟨0, 0⟩, l)
  | some price =>
    match l.qtyByPrice.find price.toUInt64 with
    | some qty =>
      if l.qtyByPrice.deref qty ≠ 0 then (⟨l.qtyByPrice.deref qty, price⟩, l)
      else best { l with heap := l.heap.pop }
    | none => best { l with heap := l.heap.pop }
termination_by l.heap.size
decreasing_by all_goals exact PriorityQueue.size_pop_lt _htop

def step (l : HeapLevelsCustomMap S) : StoreCall → Except Fault (HeapLevelsCustomMap S)
  | .change (.add level) => l.add level
  | .change (.remove level) => l.remove level
  | .best => .ok l.best.2

/-! ## The same quantities under wider keys -/

open PriceToQtyMap (Contents neighbours bucketOf)

/-- The table has the entries of the map, under 64-bit keys. -/
structure Widens (m : Contents) (q : QtyMap) : Prop where
  lookup : ∀ p : UInt32, m.lookup p.toUInt64 = q.lookup p
  keys : ∀ k ∈ m, ∃ p : UInt32, p.toUInt64 = k

section Widens
variable {m : Contents} {q : QtyMap} {p : UInt32}

theorem widens_empty : Widens ∅ ∅ where
  lookup p := by rw [Finmap.lookup_empty, Finmap.lookup_empty]
  keys k hk := absurd hk Finmap.notMem_empty

theorem toUInt64_ne {p p' : UInt32} (h : p' ≠ p) : p'.toUInt64 ≠ p.toUInt64 :=
  fun he => h (UInt32.toUInt64_inj.mp he)

theorem Widens.insert (h : Widens m q) (p : UInt32) (v : UInt64) :
    Widens (m.insert p.toUInt64 v) (q.insert p v) where
  lookup p' := by
    by_cases hp : p' = p
    · rw [hp, Finmap.lookup_insert, Finmap.lookup_insert]
    · rw [Finmap.lookup_insert_of_ne _ (toUInt64_ne hp), Finmap.lookup_insert_of_ne _ hp, h.lookup]
  keys k hk := by
    rcases Finmap.mem_insert.mp hk with rfl | hk
    · exact ⟨p, rfl⟩
    · exact h.keys k hk

theorem Widens.erase (h : Widens m q) (p : UInt32) : Widens (m.erase p.toUInt64) (q.erase p) where
  lookup p' := by
    by_cases hp : p' = p
    · rw [hp, Finmap.lookup_erase, Finmap.lookup_erase]
    · rw [Finmap.lookup_erase_ne (toUInt64_ne hp), Finmap.lookup_erase_ne hp, h.lookup]
  keys k hk := h.keys k (Finmap.mem_erase.mp hk).2

theorem erase_insert (q : QtyMap) (p : UInt32) (v : UInt64) : (q.insert p v).erase p = q.erase p := by
  refine Finmap.ext_lookup fun p' => ?_
  by_cases hp : p' = p
  · rw [hp, Finmap.lookup_erase, Finmap.lookup_erase]
  · rw [Finmap.lookup_erase_ne hp, Finmap.lookup_erase_ne hp, Finmap.lookup_insert_of_ne _ hp]

/-- The live prices that hash to a bucket. -/
def inBucket (q : QtyMap) (b : Fin buckets) : Finset UInt32 :=
  q.keys.filter fun p => bucketOf p.toUInt64 = b

theorem Widens.neighbours_le (h : Widens m q) (p : UInt32) :
    (neighbours m p.toUInt64).card ≤ (inBucket q (bucketOf p.toUInt64)).card := by
  refine le_trans (Finset.card_le_card ?_) (Finset.card_image_le (f := UInt32.toUInt64))
  intro k hk
  obtain ⟨hmem, hb⟩ := Finset.mem_filter.mp hk
  have hin := Finmap.mem_keys.mp hmem
  obtain ⟨p', rfl⟩ := h.keys k hin
  refine Finset.mem_image.mpr ⟨p', Finset.mem_filter.mpr ⟨?_, hb⟩, rfl⟩
  rw [Finmap.mem_keys, ← Finmap.lookup_isSome, ← h.lookup, Finmap.lookup_isSome]
  exact hin

/-- A price that is not there yet takes one more place in its bucket. -/
theorem inBucket_insert (hp : p ∉ q) (v : UInt64) :
    (inBucket (q.insert p v) (bucketOf p.toUInt64)).card = (inBucket q (bucketOf p.toUInt64)).card + 1 := by
  have hnot : p ∉ inBucket q (bucketOf p.toUInt64) := fun h =>
    hp (Finmap.mem_keys.mp (Finset.mem_filter.mp h).1)
  rw [← Finset.card_insert_of_notMem hnot]
  congr 1
  ext p'
  rw [inBucket, Finset.mem_filter, Finmap.mem_keys, Finmap.mem_insert, Finset.mem_insert, inBucket,
    Finset.mem_filter, Finmap.mem_keys]
  constructor
  · rintro ⟨rfl | hin, hb⟩
    · exact Or.inl rfl
    · exact Or.inr ⟨hin, hb⟩
  · rintro (rfl | ⟨hin, hb⟩)
    · exact ⟨Or.inl rfl, rfl⟩
    · exact ⟨Or.inr hin, hb⟩

end Widens

/-! ## The relation -/

/-- The two stores have the same heap and the same quantities, and no price is zero. -/
structure Follows (c : HeapLevelsCustomMap S) (l : HeapLevels S) : Prop where
  heap : c.heap = l.heap
  nonzero : ∀ p ∈ l.heap, p ≠ 0
  map : ∃ m, c.qtyByPrice.Stores m ∧ Widens m l.qtyByPrice
  occupied : l.qtyByPrice.view.Occupied
  blank : c.qtyByPrice.Blank

/-- What a call must be like in the state that it meets: nothing is added at the price zero, and no
sum comes to zero. -/
def Regular (l : HeapLevels S) : StoreCall → Prop
  | .change (.add level) => level.price ≠ 0 ∧ l.qtyByPrice.get level.price + level.qty ≠ 0
  | .change (.remove level) => 0 < level.qty
  | .best => True

/-- At most 8 live prices hash to a bucket. -/
def Spread (l : HeapLevels S) : Prop := ∀ b, (inBucket l.qtyByPrice b).card ≤ bucketSize

section Step
variable {c c' : HeapLevelsCustomMap S} {l l' : HeapLevels S} {level : Level}

theorem init_follows : Follows (init (S := S)) HeapLevels.init where
  heap := rfl
  nonzero p hp := absurd hp (PriorityQueue.notMem_empty p)
  map := ⟨∅, PriceToQtyMap.init_stores, widens_empty⟩
  occupied := by
    rw [HeapLevels.init, QtyMap.view_empty]
    exact LevelMap.empty_occupied
  blank _ _ := rfl

theorem Follows.lookup_zero (h : Follows c l) : l.qtyByPrice.lookup 0 = none := by
  obtain ⟨m, hm, hw⟩ := h.map
  rw [← hw.lookup]
  exact Files.free_eq_none (m := fun k => m.lookup k) hm

theorem Follows.find_cases (h : Follows c l) {p : UInt32} (hp : p ≠ 0) :
    (c.qtyByPrice.find p.toUInt64 = none ∧ l.qtyByPrice.lookup p = none) ∨
      ∃ qty, c.qtyByPrice.find p.toUInt64 = some qty ∧
        l.qtyByPrice.lookup p = some (c.qtyByPrice.deref qty) := by
  obtain ⟨m, hm, hw⟩ := h.map
  have hk : p.toUInt64 ≠ 0 := toUInt64_ne (p := 0) hp
  rw [← hw.lookup]
  cases PriceToQtyMap.lookup_cases hm hk with
  | absent hfind hnone => exact Or.inl ⟨hfind, hnone⟩
  | present qty hfind _ hsome => exact Or.inr ⟨qty, hfind, hsome⟩

/-! ### `best` -/

theorem Follows.pop (h : Follows c l) {price : UInt32} (htop : l.heap.top = some price) :
    Follows { c with heap := c.heap.pop } { l with heap := l.heap.pop } where
  heap := by rw [h.heap]
  nonzero p hp := h.nonzero p ((PriorityQueue.mem_iff_top_or_pop htop).mpr (Or.inr hp))
  map := h.map
  occupied := h.occupied
  blank := h.blank

theorem best_empty (htop : c.heap.top = none) : c.best = (⟨0, 0⟩, c) := by
  rw [HeapLevelsCustomMap.best]
  split
  · rfl
  · rename_i price htop'
    rw [htop] at htop'
    cases htop'

section Top
variable {price : UInt32} (htop : c.heap.top = some price)
include htop

theorem best_shown {qty : PriceToQtyMap.Pointer}
    (hfind : c.qtyByPrice.find price.toUInt64 = some qty) (hne : c.qtyByPrice.deref qty ≠ 0) :
    c.best = (⟨c.qtyByPrice.deref qty, price⟩, c) := by
  rw [HeapLevelsCustomMap.best]
  split
  · rename_i htop'
    rw [htop] at htop'
    cases htop'
  · rename_i price' htop'
    rw [htop] at htop'
    cases htop'
    rw [hfind]
    exact if_pos hne

theorem best_stale
    (hstale : ∀ qty, c.qtyByPrice.find price.toUInt64 = some qty → c.qtyByPrice.deref qty = 0) :
    c.best = HeapLevelsCustomMap.best { c with heap := c.heap.pop } := by
  conv_lhs => rw [HeapLevelsCustomMap.best]
  split
  · rename_i htop'
    rw [htop] at htop'
    cases htop'
  · rename_i price' htop'
    rw [htop] at htop'
    cases htop'
    cases hfind : c.qtyByPrice.find price.toUInt64 with
    | none => rfl
    | some qty => exact if_neg (not_not.mpr (hstale qty hfind))

end Top

theorem Follows.best (h : Follows c l) : c.best.1 = l.best.1 ∧ Follows c.best.2 l.best.2 := by
  fun_induction HeapLevels.best l generalizing c with
  | case1 l htop =>
    rw [best_empty (by rw [h.heap, htop])]
    exact ⟨rfl, h⟩
  | case2 l price htop qty hqty hne =>
    have hp := h.nonzero price ((PriorityQueue.mem_iff_top_or_pop htop).mpr (Or.inl rfl))
    have htop' : c.heap.top = some price := by rw [h.heap, htop]
    rcases h.find_cases hp with ⟨-, hnone⟩ | ⟨ptr, hfind, hlook⟩
    · rw [hqty] at hnone
      cases hnone
    · rw [hqty] at hlook
      have hsame : qty = c.qtyByPrice.deref ptr := Option.some.inj hlook
      rw [best_shown htop' hfind (hsame ▸ hne), hsame]
      exact ⟨rfl, h⟩
  | case3 l price htop qty hqty hz ih =>
    have hp := h.nonzero price ((PriorityQueue.mem_iff_top_or_pop htop).mpr (Or.inl rfl))
    rw [best_stale (by rw [h.heap, htop])]
    · exact ih (h.pop htop)
    · intro ptr hfind
      rcases h.find_cases hp with ⟨hnone, -⟩ | ⟨ptr', hfind', hlook⟩
      · rw [hfind] at hnone
        cases hnone
      · rw [hfind] at hfind'
        cases hfind'
        rw [hqty] at hlook
        rw [← Option.some.inj hlook]
        exact not_not.mp hz
  | case4 l price htop hnone ih =>
    have hp := h.nonzero price ((PriorityQueue.mem_iff_top_or_pop htop).mpr (Or.inl rfl))
    rw [best_stale (by rw [h.heap, htop])]
    · exact ih (h.pop htop)
    · intro ptr hfind
      rcases h.find_cases hp with ⟨hnone', -⟩ | ⟨ptr', -, hlook⟩
      · rw [hfind] at hnone'
        cases hnone'
      · rw [hnone] at hlook
        cases hlook

/-! ### `add` -/

theorem occupied_insert {q : QtyMap} (h : q.view.Occupied) (p : UInt32) {v : UInt64} (hv : v ≠ 0) :
    LevelMap.Occupied (QtyMap.view (q.insert p v)) := by
  intro p' v' hv'
  by_cases hp : p' = p
  · rw [hp] at hv'
    have heq := (Finmap.lookup_insert _).symm.trans hv'
    rw [← Option.some.inj heq]
    exact UInt64.pos_iff_ne_zero.mpr hv
  · exact h p' v' ((Finmap.lookup_insert_of_ne _ hp).symm.trans hv')

theorem Follows.add_new (h : Follows c l) (hp : level.price ≠ 0) (hqty : level.qty ≠ 0)
    (hfind : c.qtyByPrice.find level.price.toUInt64 = none)
    (hnone : l.qtyByPrice.lookup level.price = none) (hspread : Spread (l.add level)) :
    ∃ c', c.add level = .ok c' ∧ Follows c' (l.add level) := by
  have hk : level.price.toUInt64 ≠ 0 := toUInt64_ne (p := 0) hp
  obtain ⟨m, hm, hw⟩ := h.map
  have hroom : (neighbours m level.price.toUInt64).card < bucketSize := by
    have hle := hspread (bucketOf level.price.toUInt64)
    rw [HeapLevels.add, inBucket_insert (Finmap.lookup_eq_none.mp hnone)] at hle
    exact lt_of_le_of_lt (hw.neighbours_le level.price) hle
  obtain ⟨t, hins, ht⟩ := hm.insert hk hfind hroom level.qty
  have hadd : l.add level = ⟨l.heap.push level.price, l.qtyByPrice.insert level.price level.qty⟩ := by
    have hget : l.qtyByPrice.get level.price = 0 := by rw [QtyMap.get, hnone]; rfl
    rw [HeapLevels.add, hget, UInt64.zero_add]
    rfl
  rw [hadd]
  refine ⟨⟨c.heap.push level.price, t⟩, ?_, ?_, ?_, ?_, occupied_insert h.occupied _ hqty, ?_⟩
  · rw [HeapLevelsCustomMap.add, hfind, hins]
    rfl
  · rw [h.heap]
  · intro p hmem
    rcases PriorityQueue.mem_push.mp hmem with rfl | hmem
    · exact hp
    · exact h.nonzero p hmem
  · exact ⟨_, ht, hw.insert level.price level.qty⟩
  · rw [PriceToQtyMap.insert] at hins
    split at hins
    · cases hins
      exact h.blank.put fun hz => absurd hz hk
    · cases hins

theorem Follows.add_present (h : Follows c l) (hp : level.price ≠ 0) {ptr : PriceToQtyMap.Pointer}
    (hfind : c.qtyByPrice.find level.price.toUInt64 = some ptr)
    (hlook : l.qtyByPrice.lookup level.price = some (c.qtyByPrice.deref ptr))
    (hsum : c.qtyByPrice.deref ptr + level.qty ≠ 0) :
    ∃ c', c.add level = .ok c' ∧ Follows c' (l.add level) := by
  have hk : level.price.toUInt64 ≠ 0 := toUInt64_ne (p := 0) hp
  obtain ⟨m, hm, hw⟩ := h.map
  have hkey := (PriceToQtyMap.find_eq_some_iff hm hk).mp hfind
  have hadd : l.add level = ⟨l.heap,
      l.qtyByPrice.insert level.price (c.qtyByPrice.deref ptr + level.qty)⟩ := by
    have hget : l.qtyByPrice.get level.price = c.qtyByPrice.deref ptr := by rw [QtyMap.get, hlook]; rfl
    have hpos : c.qtyByPrice.deref ptr ≠ 0 := UInt64.pos_iff_ne_zero.mp (h.occupied _ _ hlook)
    have hb : (l.qtyByPrice.get level.price == 0) = false := by
      rw [hget]
      exact beq_eq_false_iff_ne.mpr hpos
    rw [HeapLevels.add, hb, hget]
    rfl
  rw [hadd]
  refine ⟨⟨c.heap, c.qtyByPrice.write ptr (c.qtyByPrice.deref ptr + level.qty)⟩, ?_, h.heap,
    h.nonzero, ?_, occupied_insert h.occupied _ hsum, ?_⟩
  · rw [HeapLevelsCustomMap.add, hfind]
  · have hwrite := hm.write (by rwa [hkey]) (c.qtyByPrice.deref ptr + level.qty)
    rw [hkey] at hwrite
    exact ⟨_, hwrite, hw.insert level.price _⟩
  · exact h.blank.put fun hz => absurd (hkey.symm.trans hz) hk

theorem Follows.add (h : Follows c l) (hp : level.price ≠ 0)
    (hsum : l.qtyByPrice.get level.price + level.qty ≠ 0) (hspread : Spread (l.add level)) :
    ∃ c', c.add level = .ok c' ∧ Follows c' (l.add level) := by
  rcases h.find_cases hp with ⟨hfind, hnone⟩ | ⟨ptr, hfind, hlook⟩
  · have hqty : level.qty ≠ 0 := by rwa [QtyMap.get, hnone, Option.getD_none, UInt64.zero_add] at hsum
    exact h.add_new hp hqty hfind hnone hspread
  · rw [QtyMap.get, hlook, Option.getD_some] at hsum
    exact h.add_present hp hfind hlook hsum

/-! ### `remove` -/

/-- Under the price zero `find` may give out a free entry, which holds nothing to remove. -/
theorem Follows.remove_zero (h : Follows c l) (hp : level.price = 0) (hqty : 0 < level.qty) :
    (∃ fault, c.remove level = .error fault) ∧ ∃ fault, l.remove level = .error fault := by
  constructor
  · rw [HeapLevelsCustomMap.remove]
    cases hfind : c.qtyByPrice.find level.price.toUInt64 with
    | none => exact ⟨_, rfl⟩
    | some ptr =>
      obtain ⟨i, hscan, rfl⟩ := Option.map_eq_some_iff.mp hfind
      have hfree : (c.qtyByPrice.table (bucketOf level.price.toUInt64) i).key = level.price.toUInt64 := by
        simpa using scanDown_some hscan
      have hk : level.price.toUInt64 = 0 := by rw [hp]; rfl
      have hzero := h.blank ⟨bucketOf level.price.toUInt64, i⟩ (hfree.trans hk)
      have hc : decide (level.qty > c.qtyByPrice.deref ⟨bucketOf level.price.toUInt64, i⟩) = true := by
        rw [PriceToQtyMap.deref, hzero]
        simpa using hqty
      dsimp only
      rw [hc, unexpected_true, error_bind]
      exact ⟨_, rfl⟩
  · rw [HeapLevels.remove_eq_error, QtyMap.remaining_eq_error, hp]
    exact Or.inl h.lookup_zero

theorem remove_found {ptr : PriceToQtyMap.Pointer}
    (hfind : c.qtyByPrice.find level.price.toUInt64 = some ptr)
    (hle : ¬ c.qtyByPrice.deref ptr < level.qty) : c.remove level =
      let rest := c.qtyByPrice.deref ptr - level.qty
      if rest = 0 then
        ((c.qtyByPrice.write ptr rest).erase level.price.toUInt64).map fun t => ⟨c.heap, t⟩
      else .ok ⟨c.heap, c.qtyByPrice.write ptr rest⟩ := by
  have hc : decide (level.qty > c.qtyByPrice.deref ptr) = false := by simpa using hle
  rw [HeapLevelsCustomMap.remove, hfind]
  dsimp only
  rw [hc, unexpected_false, ok_bind, PriceToQtyMap.deref_write]
  by_cases hz : c.qtyByPrice.deref ptr - level.qty = 0
  · rw [beq_iff_eq.mpr hz, if_pos rfl, if_pos hz]
    cases (c.qtyByPrice.write ptr (c.qtyByPrice.deref ptr - level.qty)).erase
      level.price.toUInt64 <;> rfl
  · rw [beq_eq_false_iff_ne.mpr hz, if_neg Bool.false_ne_true, if_neg hz]
    rfl

theorem Follows.remove_missing (h : Follows c l) (hp : level.price ≠ 0)
    (hmissing : ∀ ptr, c.qtyByPrice.find level.price.toUInt64 = some ptr →
      c.qtyByPrice.deref ptr < level.qty) :
    (∃ fault, c.remove level = .error fault) ∧ ∃ fault, l.remove level = .error fault := by
  rw [HeapLevels.remove_eq_error, QtyMap.remaining_eq_error, HeapLevelsCustomMap.remove]
  rcases h.find_cases hp with ⟨hfind, hnone⟩ | ⟨ptr, hfind, hlook⟩
  · rw [hfind]
    exact ⟨⟨_, rfl⟩, Or.inl hnone⟩
  · have hlt := hmissing ptr hfind
    have hc : decide (level.qty > c.qtyByPrice.deref ptr) = true := by simpa using hlt
    rw [hfind]
    dsimp only
    rw [hc, unexpected_true, error_bind]
    exact ⟨⟨_, rfl⟩, Or.inr ⟨_, hlook, hlt⟩⟩

theorem Follows.remove_ok (h : Follows c l) (hp : level.price ≠ 0) {ptr : PriceToQtyMap.Pointer}
    (hfind : c.qtyByPrice.find level.price.toUInt64 = some ptr)
    (hle : ¬ c.qtyByPrice.deref ptr < level.qty) :
    ∃ c' l', c.remove level = .ok c' ∧ l.remove level = .ok l' ∧ Follows c' l' := by
  have hk : level.price.toUInt64 ≠ 0 := toUInt64_ne (p := 0) hp
  have hfound := remove_found hfind hle
  obtain ⟨m, hm, hw⟩ := h.map
  have hkey := (PriceToQtyMap.find_eq_some_iff hm hk).mp hfind
  have hlook : l.qtyByPrice.lookup level.price = some (c.qtyByPrice.deref ptr) := by
    rw [← hw.lookup, ← PriceToQtyMap.find_deref hm hk, hfind]
    rfl
  generalize hrest : c.qtyByPrice.deref ptr - level.qty = rest at hfound
  have hwrite := hm.write (by rwa [hkey]) rest
  rw [hkey] at hwrite
  have hblank : (c.qtyByPrice.write ptr rest).Blank :=
    h.blank.put fun hz => absurd (hkey.symm.trans hz) hk
  have hremaining : l.qtyByPrice.remaining "Remove didn't find level" "Remove underflow" level =
      .ok rest := by
    have hc : decide (level.qty > c.qtyByPrice.deref ptr) = false := by simpa using hle
    rw [QtyMap.remaining, hlook]
    dsimp only
    rw [hc, unexpected_false, ok_bind, hrest]
    rfl
  have hoccupied := h.occupied.remove (QtyMap.view_remove hremaining)
  have hl : l.remove level = .ok ⟨l.heap,
      if rest = 0 then l.qtyByPrice.erase level.price else l.qtyByPrice.insert level.price rest⟩ := by
    rw [HeapLevels.remove, hremaining]
    rfl
  by_cases hz : rest = 0
  · subst hz
    rw [if_pos rfl] at hl hoccupied hfound
    obtain ⟨t, herase, ht, htblank⟩ := hwrite.erase_zero hblank hk (Finmap.lookup_insert _)
    have hw' := (hw.insert level.price 0).erase level.price
    rw [erase_insert] at hw'
    refine ⟨⟨c.heap, t⟩, _, ?_, hl, h.heap, h.nonzero, ⟨_, ht, hw'⟩, hoccupied, htblank⟩
    rw [hfound, herase]
    rfl
  · rw [if_neg hz] at hl hoccupied hfound
    exact ⟨_, _, hfound, hl, h.heap, h.nonzero, ⟨_, hwrite, hw.insert level.price rest⟩, hoccupied,
      hblank⟩

theorem Follows.remove (h : Follows c l) (hqty : 0 < level.qty) :
    ((∃ fault, c.remove level = .error fault) ∧ ∃ fault, l.remove level = .error fault) ∨
      ∃ c' l', c.remove level = .ok c' ∧ l.remove level = .ok l' ∧ Follows c' l' := by
  by_cases hp : level.price = 0
  · exact Or.inl (h.remove_zero hp hqty)
  by_cases hmissing : ∀ ptr, c.qtyByPrice.find level.price.toUInt64 = some ptr →
      c.qtyByPrice.deref ptr < level.qty
  · exact Or.inl (h.remove_missing hp hmissing)
  · push Not at hmissing
    obtain ⟨ptr, hfind, hle⟩ := hmissing
    exact Or.inr (h.remove_ok hp hfind hle)

/-! ## Runs -/

theorem Follows.step (h : Follows c l) {call : StoreCall} (hcall : Regular l call)
    (hspread : ∀ l', l.step call = .ok l' → Spread l') :
    ((∃ fault, c.step call = .error fault) ∧ (∃ fault, l.step call = .error fault) ∧
        ∃ level, call = .change (.remove level)) ∨
      ∃ c' l', c.step call = .ok c' ∧ l.step call = .ok l' ∧ Follows c' l' := by
  cases call with
  | best => exact Or.inr ⟨_, _, rfl, rfl, h.best.2⟩
  | change call =>
    cases call with
    | add level =>
      obtain ⟨c', hadd, hc'⟩ := h.add hcall.1 hcall.2 (hspread _ rfl)
      exact Or.inr ⟨c', _, hadd, rfl, hc'⟩
    | remove level =>
      rcases h.remove hcall with ⟨hc, hl⟩ | hok
      · exact Or.inl ⟨hc, hl, level, rfl⟩
      · exact Or.inr hok

end Step

section Run
variable {calls : List StoreCall}

theorem run_follows (hregular : Along HeapLevels.step Regular (HeapLevels.init (S := S)) calls)
    (hspread : Throughout HeapLevels.step Spread (HeapLevels.init (S := S)) calls)
    {l : HeapLevels S} (hrun : run HeapLevels.step HeapLevels.init calls = .ok l) :
    ∃ c : HeapLevelsCustomMap S, run step init calls = .ok c ∧ Follows c l := by
  have hstep : ∀ (c : HeapLevelsCustomMap S) (l : HeapLevels S) call, Follows c l →
      (Regular l call ∧ ∀ l', l.step call = .ok l' → Spread l') →
        (∃ fault fault', c.step call = .error fault ∧ l.step call = .error fault' ∧ True) ∨
          ∃ c' l', c.step call = .ok c' ∧ l.step call = .ok l' ∧ Follows c' l' := by
    rintro c l call h ⟨hcall, hafter⟩
    rcases h.step hcall hafter with ⟨⟨fault, hc⟩, ⟨fault', hl⟩, -⟩ | hok
    · exact Or.inl ⟨fault, fault', hc, hl, trivial⟩
    · exact Or.inr hok
  rcases run_lockstep (F := fun _ _ => True) hstep init_follows (hregular.and hspread.along) with
    ⟨_, fault, -, hl, -⟩ | ⟨c, l', hc, hl, h⟩
  · rw [hrun] at hl
    cases hl
  · rw [hrun] at hl
    cases hl
    exact ⟨c, hc, h⟩

/-- **The custom map makes no difference** to what `best` answers and to where a removal aborts, as
long as nothing is added at the price zero and no sum comes to zero. -/
theorem custom_map_invisible
    (hregular : Along HeapLevels.step Regular (HeapLevels.init (S := S)) calls)
    (hspread : Throughout HeapLevels.step Spread (HeapLevels.init (S := S)) calls) :
    (∃ (c : HeapLevelsCustomMap S) (l : HeapLevels S), run step init calls = .ok c ∧
        run HeapLevels.step HeapLevels.init calls = .ok l ∧ c.best.1 = l.best.1) ∨
      ∃ pre level post, ∃ (c : HeapLevelsCustomMap S) (l : HeapLevels S) (fault fault' : Fault),
        calls = pre ++ .change (.remove level) :: post ∧ run step init pre = .ok c ∧
        run HeapLevels.step HeapLevels.init pre = .ok l ∧ c.best.1 = l.best.1 ∧
        c.remove level = .error fault ∧ l.remove level = .error fault' := by
  cases hrun : run HeapLevels.step (HeapLevels.init (S := S)) calls with
  | ok l =>
    obtain ⟨c, hc, h⟩ := run_follows hregular hspread hrun
    exact Or.inl ⟨c, l, hc, rfl, h.best.1⟩
  | error fault =>
    obtain ⟨pre, call, post, l, rfl, hpre, hfault⟩ := run_error hrun
    obtain ⟨c, hc, h⟩ := run_follows hregular.left hspread.left hpre
    have hcall := hregular pre call post l rfl hpre
    rcases h.step hcall (fun l' hl' => by rw [hfault] at hl'; cases hl') with
      ⟨⟨fault', hc'⟩, -, level, rfl⟩ | ⟨_, l', -, hl', -⟩
    · exact Or.inr ⟨pre, level, post, c, l, fault', fault, rfl, hc, hpre, h.best.1, hc', hfault⟩
    · rw [hfault] at hl'
      cases hl'

end Run

/-- The level at 10 is emptied, comes back in the same slot, and is emptied again; its price stays
twice in the heap, above the one at 9. -/
def refilling : List StoreCall :=
  [.change (.add ⟨5, 10⟩), .change (.add ⟨3, 9⟩), .change (.remove ⟨5, 10⟩), .change (.add ⟨2, 10⟩),
    .change (.remove ⟨2, 10⟩)]

theorem custom_map_invisible_sample : ∃ (c : HeapLevelsCustomMap Side.Bid) (l : HeapLevels Side.Bid),
    run step init refilling = .ok c ∧ run HeapLevels.step HeapLevels.init refilling = .ok l ∧
      c.best.1 = l.best.1 := by
  have hregular : Along HeapLevels.step Regular (HeapLevels.init (S := Side.Bid)) refilling :=
    Along.cons rfl ⟨by decide, by decide⟩ <| Along.cons rfl ⟨by decide, by decide⟩ <|
      Along.cons rfl (show (0 : UInt64) < 5 by decide) <| Along.cons rfl ⟨by decide, by decide⟩ <|
      Along.cons rfl (show (0 : UInt64) < 2 by decide) Along.nil
  have hspread : ∀ {l : HeapLevels Side.Bid}, l.qtyByPrice.keys.card ≤ bucketSize → Spread l :=
    fun hcard b => (Finset.card_filter_le _ _).trans hcard
  have hlive : Throughout HeapLevels.step Spread (HeapLevels.init (S := Side.Bid)) refilling :=
    Throughout.cons rfl (hspread (by decide)) <| Throughout.cons rfl (hspread (by decide)) <|
      Throughout.cons rfl (hspread (by decide)) <| Throughout.cons rfl (hspread (by decide)) <|
      Throughout.cons rfl (hspread (by decide)) <| Throughout.nil (hspread (by decide))
  rcases custom_map_invisible hregular hlive with ⟨c, l, hc, hl, hbest⟩ |
    ⟨pre, level, post, c, l, fault, fault', hsplit, hc, hl, -, -, hfault⟩
  · exact ⟨c, l, hc, hl, hbest⟩
  · have hcut : run HeapLevels.step (HeapLevels.init (S := Side.Bid)) refilling = .error fault' := by
      rw [hsplit]
      exact run_error_of hl hfault
    cases hcut

/-- A bid at the price zero is seen in one store and not in the other. -/
theorem custom_map_zero_price : ∃ (c : HeapLevelsCustomMap Side.Bid) (l : HeapLevels Side.Bid),
    run step init [.change (.add ⟨5, 0⟩)] = .ok c ∧
      run HeapLevels.step HeapLevels.init [.change (.add ⟨5, 0⟩)] = .ok l ∧
      (∀ b, (inBucket l.qtyByPrice b).card ≤ bucketSize) ∧
      c.best.1 = ⟨0, 0⟩ ∧ l.best.1 = ⟨5, 0⟩ := by
  refine ⟨_, _, rfl, rfl, fun b => ?_, ?_, ?_⟩
  · exact le_trans (Finset.card_filter_le _ _) (by decide)
  · rw [best_empty]
    rfl
  · rw [HeapLevels.best]
    rfl

end HeapLevelsCustomMap

end ItchIngestion.OB
