import ItchIngestion.Levels.Balance

/-! # The store on a hash map with a cached best price (`map_level.hpp`)

`bestIdx` follows the best price by comparisons on `add` and by a scan when the level at it runs
empty. Two things are wrong with it. It is not moved when the last level of a side goes, and starts at
zero, so it can stand better than every level there is (`Drained`, `Refilled`); and `best` returns
price and quantity in each other's fields. `best_right_iff` is what is left of the contract.
-/
namespace ItchIngestion.OB
open Library
set_option autoImplicit false

/-! ## Ranks -/

/-- Better prices have higher ranks. -/
def Side.rank (S : Side) (p : UInt32) : ℕ := if S = Side.Bid then p.toNat else 2 ^ 32 - 1 - p.toNat

theorem Side.worse_iff_rank {S : Side} {p q : UInt32} : S.Worse p q ↔ S.rank p < S.rank q := by
  have hp := p.toNat_lt
  have hq := q.toNat_lt
  rw [Side.worse_iff, Side.rank, Side.rank]
  split
  · exact Iff.rfl
  · omega

theorem Side.rank_inj {S : Side} {p q : UInt32} (h : S.rank p = S.rank q) : p = q := by
  have hp := p.toNat_lt
  have hq := q.toNat_lt
  rw [← UInt32.toNat_inj]
  unfold Side.rank at h
  split at h <;> omega

theorem Side.rank_lt (S : Side) (p : UInt32) : S.rank p < 2 ^ 32 := by
  have hp := p.toNat_lt
  unfold Side.rank
  split <;> omega

/-- The quantities, and the best price as it was last seen. -/
structure MapLevels (S : Side) where
  bestIdx : UInt32
  book : QtyMap

namespace MapLevels
variable {S : Side}

/-! ## The code -/

def init : MapLevels S := ⟨0, ∅⟩

/-- The better one of the cached price and a price. -/
def advance (S : Side) (bestIdx price : UInt32) : UInt32 :=
  if S = Side.Bid then if price > bestIdx then price else bestIdx
  else if price < bestIdx then price else bestIdx

/-- The cached price follows a better one. -/
def add (l : MapLevels S) (level : Level) : MapLevels S :=
  ⟨advance S l.bestIdx level.price, l.book.insert level.price (l.book.get level.price + level.qty)⟩

/-- One step of the scan; it wraps around at the ends of the prices. -/
def next (S : Side) (idx : UInt32) : UInt32 := if S = Side.Bid then idx - 1 else idx + 1

/-- `while (book.find(best_idx) == book.end())`, for so many steps at most. -/
def scan (S : Side) (book : QtyMap) : ℕ → UInt32 → Option UInt32
  | 0, _ => none
  | steps + 1, idx => if idx ∈ book then some idx else scan S book steps (next S idx)

/-- After `2 ^ 32` steps the scan has been everywhere; a loop that has not ended by then never ends,
which is undefined. -/
def remove (l : MapLevels S) (level : Level) : Except Fault (MapLevels S) := do
  let rest ← l.book.remaining "Remove didn't find a level" "Remove underflow" level
  if rest = 0 then
    let book := l.book.erase level.price
    if level.price = l.bestIdx ∧ book ≠ ∅ then
      match scan S book (2 ^ 32) l.bestIdx with
      | some bestIdx => return ⟨bestIdx, book⟩
      | none => .error .undefinedBehaviour
    else return ⟨l.bestIdx, book⟩
  else return { l with book := l.book.insert level.price rest }

/-- The price goes into the field of the quantity, and the quantity, cut to 32 bits, into the field
of the price. -/
def best (l : MapLevels S) : Level :=
  match l.book.lookup l.bestIdx with
  | none => ⟨0, 0⟩
  | some qty => ⟨l.bestIdx.toUInt64, qty.toUInt32⟩

def step (l : MapLevels S) : LevelCall → Except Fault (MapLevels S)
  | .add level => .ok (l.add level)
  | .remove level => l.remove level

/-! ## The scan -/

theorem rank_next {idx : UInt32} (h : 0 < S.rank idx) : S.rank (next S idx) = S.rank idx - 1 := by
  have hlt := idx.toNat_lt
  have hone : (1 : UInt32).toNat = 1 := rfl
  unfold Side.rank at h ⊢
  unfold next
  by_cases hS : S = Side.Bid
  · rw [if_pos hS] at h ⊢
    have hle : 1 ≤ idx := by
      rw [UInt32.le_iff_toNat_le, hone]
      exact h
    rw [if_pos hS, if_pos hS, UInt32.toNat_sub_of_le _ _ hle, hone]
  · rw [if_neg hS] at h ⊢
    rw [if_neg hS, if_neg hS, UInt32.toNat_add, hone, Nat.mod_eq_of_lt (by omega)]
    omega

/-- With a key somewhere ahead, the scan ends at the nearest one and does not wrap around. -/
theorem scan_spec {book : QtyMap} {p : UInt32} (hp : p ∈ book) {steps : ℕ} {idx : UInt32}
    (hle : S.rank p ≤ S.rank idx) (hsteps : S.rank idx < steps) :
    ∃ b, scan S book steps idx = some b ∧ b ∈ book ∧
      ∀ k ∈ book, S.rank k ≤ S.rank idx → S.rank k ≤ S.rank b := by
  induction steps generalizing idx with
  | zero => omega
  | succ steps ih =>
    rw [scan]
    by_cases hidx : idx ∈ book
    · exact ⟨idx, if_pos hidx, hidx, fun k _ hk => hk⟩
    · have hahead : ∀ k ∈ book, S.rank k ≤ S.rank idx → S.rank k < S.rank idx := by
        intro k hk hle
        refine Nat.lt_of_le_of_ne hle fun he => hidx ?_
        rwa [← Side.rank_inj he]
      have hlt := hahead p hp hle
      have hnext := rank_next (S := S) (Nat.lt_of_le_of_lt (Nat.zero_le _) hlt)
      obtain ⟨b, hb, hmem, hnearest⟩ := @ih (next S idx) (by omega) (by omega)
      refine ⟨b, (if_neg hidx).trans hb, hmem, fun k hk hle => hnearest k hk ?_⟩
      have hk' := hahead k hk hle
      omega

/-! ## What the operations do -/

/-- No key is better than the cached price. -/
def Bounded (l : MapLevels S) : Prop := ∀ p ∈ l.book, S.rank p ≤ S.rank l.bestIdx

theorem rank_advance (S : Side) (idx price : UInt32) :
    S.rank idx ≤ S.rank (advance S idx price) ∧ S.rank price ≤ S.rank (advance S idx price) ∧
      (advance S idx price = price ∨ advance S idx price = idx) := by
  have hidx := idx.toNat_lt
  have hprice := price.toNat_lt
  unfold advance Side.rank
  simp only [gt_iff_lt, UInt32.lt_iff_toNat_lt]
  split <;> split <;> simp <;> omega

section Step
variable {l l' : MapLevels S} {level : Level}

/-- The three ways through a removal that does not abort. -/
inductive Removed (l : MapLevels S) (price : UInt32) (rest : UInt64) : MapLevels S → Prop
  | reduced (hrest : rest ≠ 0) : Removed l price rest ⟨l.bestIdx, l.book.insert price rest⟩
  | erased (hrest : rest = 0) (hstay : price ≠ l.bestIdx ∨ l.book.erase price = ∅) :
      Removed l price rest ⟨l.bestIdx, l.book.erase price⟩
  | moved (hrest : rest = 0) (hprice : price = l.bestIdx) (b : UInt32)
      (hmem : b ∈ l.book.erase price) (hbest : ∀ k ∈ l.book.erase price, S.rank k ≤ S.rank b) :
      Removed l price rest ⟨b, l.book.erase price⟩

/-- A removal that passes its two checks ends; the scan has a key ahead of it. -/
theorem remove_of_remaining (hb : l.Bounded) {rest : UInt64}
    (hrest : l.book.remaining "Remove didn't find a level" "Remove underflow" level = .ok rest) :
    ∃ l', l.remove level = .ok l' ∧ l.Removed level.price rest l' := by
  rw [remove, hrest, ok_bind]
  by_cases hz : rest = 0
  · rw [if_pos hz]
    dsimp only
    by_cases hscan : level.price = l.bestIdx ∧ l.book.erase level.price ≠ ∅
    · obtain ⟨hprice, hne⟩ := hscan
      obtain ⟨p, hp⟩ : ∃ p, p ∈ l.book.erase level.price := by
        by_contra hnone
        exact hne (Finmap.ext_lookup fun p => by
          rw [Finmap.lookup_empty]
          exact Finmap.lookup_eq_none.mpr fun hp => hnone ⟨p, hp⟩)
      have hahead : ∀ k ∈ l.book.erase level.price, S.rank k ≤ S.rank l.bestIdx :=
        fun k hk => hb k (Finmap.mem_erase.mp hk).2
      obtain ⟨b, hfound, hmem, hnearest⟩ := scan_spec hp (hahead p hp) (S.rank_lt l.bestIdx)
      rw [if_pos ⟨hprice, hne⟩, hfound]
      exact ⟨_, rfl, .moved hz hprice b hmem fun k hk => hnearest k hk (hahead k hk)⟩
    · rw [if_neg hscan]
      rw [not_and_or, not_not] at hscan
      exact ⟨_, rfl, .erased hz hscan⟩
  · rw [if_neg hz]
    exact ⟨_, rfl, .reduced hz⟩

theorem remove_cases (hb : l.Bounded) (hrem : l.remove level = .ok l') :
    ∃ q, l.book.lookup level.price = some q ∧ level.qty ≤ q ∧
      l.Removed level.price (q - level.qty) l' := by
  obtain ⟨rest, hrest, -⟩ := bind_eq_ok.mp hrem
  obtain ⟨l'', hok, hremoved⟩ := remove_of_remaining hb hrest
  rw [hrem] at hok
  cases hok
  obtain ⟨q, hq, hle, rfl⟩ := QtyMap.remaining_ok hrest
  exact ⟨q, hq, hle, hremoved⟩

end Step

/-! ## Histories -/

/-- The side is empty. `c` is the price of the removal that emptied it; at the start, where the cached
price is zero, it is zero. -/
def Drained (calls : List LevelCall) (c : UInt32) : Prop :=
  (calls = [] ∧ c = 0) ∨
    ∃ before level, calls = before ++ [.remove level] ∧ level.price = c ∧ ∀ p, balance calls p = 0

/-- Whenever the side was empty, a price not worse than the one it was emptied at came later. -/
def Refilled (S : Side) (calls : List LevelCall) : Prop :=
  ∀ pre post c, calls = pre ++ post → Drained pre c →
    ∃ level, .add level ∈ post ∧ ¬ S.Worse level.price c

/-- What a history says about the cached price. `settled`: it is a key, or the price of a draining
that nothing as good has come after. `passed`: where nothing as good has come after a draining, the
cached price is still beyond all the keys. -/
structure Traces (l : MapLevels S) (calls : List LevelCall) : Prop where
  shows : l.book.view.Shows calls
  occupied : l.book.view.Occupied
  bounded : l.Bounded
  settled : l.bestIdx ∈ l.book ∨ ∃ pre post, calls = pre ++ post ∧ Drained pre l.bestIdx ∧
    ∀ level, .add level ∈ post → S.Worse level.price l.bestIdx
  passed : ∀ pre post c, calls = pre ++ post → Drained pre c →
    (∃ level, .add level ∈ post ∧ ¬ S.Worse level.price c) ∨
      S.rank c ≤ S.rank l.bestIdx ∧ ∀ p ∈ l.book, S.Worse p c

theorem init_traces : Traces (init : MapLevels S) [] where
  shows := by
    rw [init, QtyMap.view_empty]
    exact LevelMap.empty_shows
  occupied := by
    rw [init, QtyMap.view_empty]
    exact LevelMap.empty_occupied
  bounded p hp := absurd hp Finmap.notMem_empty
  settled := Or.inr ⟨[], [], rfl, Or.inl ⟨rfl, rfl⟩, fun _ h => absurd h List.not_mem_nil⟩
  passed := by
    rintro pre post c he (⟨-, rfl⟩ | ⟨before, level, rfl, -⟩)
    · exact Or.inr ⟨le_refl _, fun p hp => absurd hp Finmap.notMem_empty⟩
    · simp at he

section Traced
variable {l l' : MapLevels S} {level : Level} {calls : List LevelCall}

theorem Traces.mem_iff (h : l.Traces calls) {p : UInt32} : p ∈ l.book ↔ 0 < balance calls p := by
  rw [h.shows.balance_pos, Finmap.mem_iff]
  constructor
  · rintro ⟨q, hq⟩
    exact ⟨q, hq, h.occupied p q hq⟩
  · rintro ⟨q, hq, -⟩
    exact ⟨q, hq⟩

theorem bounded_add (h : l.Bounded) : (l.add level).Bounded := by
  obtain ⟨hidx, hprice, -⟩ := rank_advance S l.bestIdx level.price
  intro p hp
  rcases Finmap.mem_insert.mp hp with rfl | hp
  · exact hprice
  · exact (h p hp).trans hidx

theorem Traces.settled_add (h : l.Traces calls) :
    (l.add level).bestIdx ∈ (l.add level).book ∨ ∃ pre post, calls ++ [.add level] = pre ++ post ∧
      Drained pre (l.add level).bestIdx ∧
      ∀ level', .add level' ∈ post → S.Worse level'.price (l.add level).bestIdx := by
  obtain ⟨-, hprice, hor⟩ := rank_advance S l.bestIdx level.price
  unfold add
  dsimp only
  rcases hor with hor | hor
  · rw [hor]
    exact Or.inl (Finmap.mem_insert.mpr (Or.inl rfl))
  · rw [hor] at hprice ⊢
    rcases h.settled with hkey | ⟨pre, post, rfl, hdrained, hworse⟩
    · exact Or.inl (Finmap.mem_insert.mpr (Or.inr hkey))
    · by_cases he : l.bestIdx = level.price
      · exact Or.inl (Finmap.mem_insert.mpr (Or.inl he))
      · refine Or.inr ⟨pre, post ++ [.add level], List.append_assoc .., hdrained, ?_⟩
        intro level' hmem
        rcases List.mem_append.mp hmem with hmem | hmem
        · exact hworse level' hmem
        · obtain rfl : level' = level := by simpa using hmem
          rw [Side.worse_iff_rank]
          exact Nat.lt_of_le_of_ne hprice fun hr => he (Side.rank_inj hr).symm

theorem Traces.passed_add (h : l.Traces calls) {pre post : List LevelCall} {c : UInt32}
    (he : calls ++ [.add level] = pre ++ post) (hdrained : Drained pre c) :
    (∃ level', .add level' ∈ post ∧ ¬ S.Worse level'.price c) ∨
      S.rank c ≤ S.rank (l.add level).bestIdx ∧ ∀ p ∈ (l.add level).book, S.Worse p c := by
  rcases split_concat he with ⟨rfl, rfl⟩ | ⟨post', rfl, rfl⟩
  · rcases hdrained with ⟨hnil, -⟩ | ⟨before, level', hlast, -⟩
    · simp at hnil
    · obtain ⟨-, hlast⟩ := List.append_inj' hlast rfl
      cases hlast
  · rcases h.passed pre post' c rfl hdrained with ⟨level', hmem, hw⟩ | ⟨hc, hkeys⟩
    · exact Or.inl ⟨level', List.mem_append_left _ hmem, hw⟩
    · by_cases hw : S.Worse level.price c
      · obtain ⟨hidx, -, -⟩ := rank_advance S l.bestIdx level.price
        refine Or.inr ⟨hc.trans hidx, fun p hp => ?_⟩
        rcases Finmap.mem_insert.mp hp with rfl | hp
        · exact hw
        · exact hkeys p hp
      · exact Or.inl ⟨level, List.mem_append_right _ (List.mem_singleton_self _), hw⟩

theorem Traces.add (h : l.Traces calls) (hqty : 0 < level.qty) (hfit : Fits (calls ++ [.add level])) :
    (l.add level).Traces (calls ++ [.add level]) where
  shows := by
    rw [MapLevels.add, QtyMap.view_add]
    exact h.shows.add hfit
  occupied := by
    rw [MapLevels.add, QtyMap.view_add]
    exact h.occupied.add h.shows hqty hfit
  bounded := bounded_add h.bounded
  settled := h.settled_add
  passed _ _ _ := h.passed_add

/-! ### A removal -/

theorem mem_of_remove (hb : l.Bounded) (hrem : l.remove level = .ok l') :
    level.price ∈ l.book ∧ (∀ p ∈ l'.book, p ∈ l.book) ∧
      ∀ p ∈ l.book, p ≠ level.price → p ∈ l'.book := by
  obtain ⟨q, hq, -, hremoved⟩ := remove_cases hb hrem
  have hprice : level.price ∈ l.book := Finmap.mem_iff.mpr ⟨q, hq⟩
  have herase : (∀ p ∈ l.book.erase level.price, p ∈ l.book) ∧
      ∀ p ∈ l.book, p ≠ level.price → p ∈ l.book.erase level.price :=
    ⟨fun p hp => (Finmap.mem_erase.mp hp).2, fun p hp hne => Finmap.mem_erase.mpr ⟨hne, hp⟩⟩
  cases hremoved with
  | reduced hrest =>
    refine ⟨hprice, fun p hp => ?_, fun p hp _ => Finmap.mem_insert.mpr (Or.inr hp)⟩
    rcases Finmap.mem_insert.mp hp with rfl | hp
    · exact hprice
    · exact hp
  | erased hrest hstay => exact ⟨hprice, herase⟩
  | moved hrest hbest b hmem hbound => exact ⟨hprice, herase⟩

/-- The cached price moves only off the level that ran empty, and then to the best key. -/
theorem bestIdx_of_remove (hb : l.Bounded) (hrem : l.remove level = .ok l') :
    (l'.bestIdx = l.bestIdx ∧ (level.price = l.bestIdx → l.bestIdx ∈ l'.book ∨ l'.book = ∅)) ∨
      level.price = l.bestIdx ∧ l'.bestIdx ∈ l'.book ∧ l'.Bounded := by
  obtain ⟨q, -, -, hremoved⟩ := remove_cases hb hrem
  cases hremoved with
  | reduced hrest => exact Or.inl ⟨rfl, fun hp => Or.inl (Finmap.mem_insert.mpr (Or.inl hp.symm))⟩
  | erased hrest hstay => exact Or.inl ⟨rfl, fun hp => Or.inr (hstay.resolve_left fun hne => hne hp)⟩
  | moved hrest hprice b hmem hbound => exact Or.inr ⟨hprice, hmem, hbound⟩

theorem bounded_remove (hb : l.Bounded) (hrem : l.remove level = .ok l') : l'.Bounded := by
  rcases bestIdx_of_remove hb hrem with ⟨he, -⟩ | ⟨-, -, hb'⟩
  · intro p hp
    rw [he]
    exact hb p ((mem_of_remove hb hrem).2.1 p hp)
  · exact hb'

theorem view_of_remove (hb : l.Bounded) (hrem : l.remove level = .ok l') :
    l.book.view.remove level = .ok l'.book.view := by
  obtain ⟨q, hq, hle, hremoved⟩ := remove_cases hb hrem
  refine LevelMap.remove_eq_ok.mpr ⟨q, hq, hle, ?_⟩
  cases hremoved with
  | reduced hrest => rw [if_neg hrest, QtyMap.view_insert]
  | erased hrest hstay => rw [if_pos hrest, QtyMap.view_erase]
  | moved hrest hprice b hmem hbound => rw [if_pos hrest, QtyMap.view_erase]

theorem Traces.drained (h : l.Traces calls) (hrem : l.remove level = .ok l') (hempty : l'.book = ∅) :
    Drained (calls ++ [.remove level]) level.price := by
  refine Or.inr ⟨calls, level, rfl, rfl, fun p => ?_⟩
  rw [← h.shows.remove (view_of_remove h.bounded hrem) p, hempty, QtyMap.view, Finmap.lookup_empty]
  rfl

theorem Traces.settled_remove (h : l.Traces calls) (hrem : l.remove level = .ok l') :
    l'.bestIdx ∈ l'.book ∨ ∃ pre post, calls ++ [.remove level] = pre ++ post ∧
      Drained pre l'.bestIdx ∧ ∀ level', .add level' ∈ post → S.Worse level'.price l'.bestIdx := by
  obtain ⟨hprice, -, hkept⟩ := mem_of_remove h.bounded hrem
  rcases bestIdx_of_remove h.bounded hrem with ⟨he, hlast⟩ | ⟨-, hmem, -⟩
  · rw [he]
    by_cases hkey : l.bestIdx ∈ l.book
    · by_cases hp : l.bestIdx = level.price
      · refine (hlast hp.symm).imp id fun hempty => ?_
        refine ⟨calls ++ [.remove level], [], (List.append_nil _).symm, ?_, by simp⟩
        rw [hp]
        exact h.drained hrem hempty
      · exact Or.inl (hkept _ hkey hp)
    · obtain ⟨pre, post, rfl, hdrained, hworse⟩ := h.settled.resolve_left hkey
      refine Or.inr ⟨pre, post ++ [.remove level], List.append_assoc .., hdrained, ?_⟩
      intro level' hmem
      rcases List.mem_append.mp hmem with hmem | hmem
      · exact hworse level' hmem
      · simp at hmem
  · exact Or.inl hmem

theorem Traces.passed_remove (h : l.Traces calls) (hrem : l.remove level = .ok l')
    (h' : l'.book.view.Shows (calls ++ [.remove level])) (hocc : l'.book.view.Occupied)
    {pre post : List LevelCall} {c : UInt32}
    (he : calls ++ [.remove level] = pre ++ post) (hdrained : Drained pre c) :
    (∃ level', .add level' ∈ post ∧ ¬ S.Worse level'.price c) ∨
      S.rank c ≤ S.rank l'.bestIdx ∧ ∀ p ∈ l'.book, S.Worse p c := by
  obtain ⟨hprice, hsub, -⟩ := mem_of_remove h.bounded hrem
  rcases split_concat he with ⟨rfl, rfl⟩ | ⟨post', rfl, rfl⟩
  · rcases hdrained with ⟨hnil, -⟩ | ⟨before, level', hlast, rfl, hzero⟩
    · simp at hnil
    · obtain ⟨-, hlast⟩ := List.append_inj' hlast rfl
      cases hlast
      have hempty : ∀ p, p ∉ l'.book := by
        intro p hp
        obtain ⟨q, hq⟩ := Finmap.mem_iff.mp hp
        have hpos := h'.balance_pos.mpr ⟨q, hq, hocc p q hq⟩
        rw [hzero p] at hpos
        exact absurd hpos (lt_irrefl 0)
      refine Or.inr ⟨?_, fun p hp => absurd hp (hempty p)⟩
      rcases bestIdx_of_remove h.bounded hrem with ⟨he, -⟩ | ⟨-, hmem, -⟩
      · rw [he]
        exact h.bounded _ hprice
      · exact absurd hmem (hempty _)
  · rcases h.passed pre post' c rfl hdrained with ⟨level', hmem, hw⟩ | ⟨hc, hkeys⟩
    · exact Or.inl ⟨level', List.mem_append_left _ hmem, hw⟩
    · refine Or.inr ⟨?_, fun p hp => hkeys p (hsub p hp)⟩
      rcases bestIdx_of_remove h.bounded hrem with ⟨he, -⟩ | ⟨hbest, -, -⟩
      · rwa [he]
      · have hw := Side.worse_iff_rank.mp (hkeys _ hprice)
        rw [hbest] at hw
        omega

theorem Traces.remove (h : l.Traces calls) (hrem : l.remove level = .ok l') :
    l'.Traces (calls ++ [.remove level]) := by
  have hview := view_of_remove h.bounded hrem
  have hshows := h.shows.remove hview
  have hocc := h.occupied.remove hview
  exact
    { shows := hshows
      occupied := hocc
      bounded := bounded_remove h.bounded hrem
      settled := h.settled_remove hrem
      passed := fun _ _ _ => h.passed_remove hrem hshows hocc }

/-! ## Runs -/

theorem traces_run (hpos : PositiveCalls calls) (hfit : Fits calls)
    (hrun : run step init calls = .ok l) : l.Traces calls := by
  refine run_prefix_induction (fun calls l => l.Traces calls) init_traces ?_ hrun
  intro calls call l l' hpre h hstep
  cases call with
  | add level =>
    cases hstep
    exact h.add (hpos _ (last_mem hpre)) (hfit.before hpre)
  | remove level => exact h.remove hstep

theorem scan_ends (hrun : run step init calls = .ok l) (level : Level) :
    l.remove level ≠ .error .undefinedBehaviour := by
  have hb : l.Bounded := by
    refine run_invariant Bounded (fun p hp => absurd hp Finmap.notMem_empty) ?_ hrun
    intro l call l' hb hstep
    cases call with
    | add level =>
      cases hstep
      exact bounded_add hb
    | remove level => exact bounded_remove hb hstep
  intro hloop
  cases hrest : l.book.remaining "Remove didn't find a level" "Remove underflow" level with
  | ok rest =>
    obtain ⟨l', hok, -⟩ := remove_of_remaining hb hrest
    rw [hok] at hloop
    cases hloop
  | error fault =>
    rw [remove, hrest] at hloop
    cases hloop
    rcases QtyMap.remaining_error hrest with he | he <;> cases he

/-- The cached price is a key exactly when every draining has been made up for. -/
theorem Traces.bestIdx_mem_iff (h : l.Traces calls) : l.bestIdx ∈ l.book ↔ Refilled S calls := by
  constructor
  · intro hkey pre post c he hdrained
    refine (h.passed pre post c he hdrained).resolve_right fun ⟨hc, hkeys⟩ => ?_
    have hw := Side.worse_iff_rank.mp (hkeys _ hkey)
    omega
  · intro hrefilled
    refine h.settled.resolve_right fun ⟨pre, post, he, hdrained, hworse⟩ => ?_
    obtain ⟨level, hmem, hnot⟩ := hrefilled pre post _ he hdrained
    exact hnot (hworse level hmem)

theorem Traces.bestIdx_best (h : l.Traces calls) {p : UInt32} (hp : 0 < balance calls p) :
    p = l.bestIdx ∨ S.Worse p l.bestIdx := by
  have hle := h.bounded p (h.mem_iff.mpr hp)
  rw [Side.worse_iff_rank]
  rcases Nat.lt_or_eq_of_le hle with hlt | he
  · exact Or.inr hlt
  · exact Or.inl (Side.rank_inj he)

theorem best_of_lookup {q : UInt64} (hq : l.book.lookup l.bestIdx = some q) :
    l.best = ⟨l.bestIdx.toUInt64, q.toUInt32⟩ := by
  rw [best, hq]

theorem best_of_notMem (h : l.bestIdx ∉ l.book) : l.best = ⟨0, 0⟩ := by
  rw [best, Finmap.lookup_eq_none.mpr h]

/-- With the total equal to the price it does not matter which field is which. -/
theorem best_of_eq {q : UInt64} (hq : l.book.lookup l.bestIdx = some q)
    (he : q.toNat = l.bestIdx.toNat) : l.best = ⟨q, l.bestIdx⟩ := by
  have hq64 : l.bestIdx.toUInt64 = q := by
    rw [← UInt64.toNat_inj, UInt32.toNat_toUInt64, he]
  have hp32 : q.toUInt32 = l.bestIdx := by
    rw [← UInt32.toNat_inj, UInt64.toNat_toUInt32, he]
    exact Nat.mod_eq_of_lt l.bestIdx.toNat_lt
  rw [best_of_lookup hq, hq64, hp32]

end Traced

/-- **When `best` is right**: on an empty side, and where the cached price is the best one and its
total is, as a number, that price. -/
theorem best_right_iff {l : MapLevels S} {calls : List LevelCall} (hpos : PositiveCalls calls)
    (hfit : Fits calls) (hrun : run step init calls = .ok l) :
    IsBestTotal S (balance calls) l.best ↔
      (∀ p, balance calls p = 0) ∨ (Refilled S calls ∧
        ∀ p, 0 < balance calls p → (∀ p', 0 < balance calls p' → p' = p ∨ S.Worse p' p) →
          balance calls p = p.toNat) := by
  have h := traces_run hpos hfit hrun
  constructor
  · rintro (⟨hall, -⟩ | ⟨htotal, hqty, hbest⟩)
    · refine Or.inl fun p => ?_
      have hp := hall p
      rw [← h.shows p] at hp ⊢
      omega
    · by_cases hkey : l.bestIdx ∈ l.book
      · refine Or.inr ⟨h.bestIdx_mem_iff.mp hkey, fun p hp hfirst => ?_⟩
        obtain ⟨q, hq⟩ := Finmap.mem_iff.mp hkey
        have hidx : p = l.bestIdx := by
          rcases hfirst _ (h.mem_iff.mp hkey) with he | hw
          · exact he.symm
          · exact (h.bestIdx_best hp).resolve_right (asymm_of S.Worse hw)
        have hprice : l.best.price = l.bestIdx := by
          rcases hbest _ (h.mem_iff.mp hkey) with he | hw
          · exact he.symm
          · exact (h.bestIdx_best htotal).resolve_right (asymm_of S.Worse hw)
        rw [hprice, best_of_lookup hq] at hqty
        rw [hidx, ← hqty, UInt32.toNat_toUInt64]
      · rw [best_of_notMem hkey] at hqty htotal
        rw [← hqty] at htotal
        exact absurd htotal (lt_irrefl 0)
  · rintro (hzero | ⟨hrefilled, hequal⟩)
    · have hkey : l.bestIdx ∉ l.book := by
        rw [h.mem_iff, hzero]
        exact lt_irrefl 0
      exact Or.inl ⟨fun p => le_of_eq (hzero p), best_of_notMem hkey⟩
    · have hkey := h.bestIdx_mem_iff.mpr hrefilled
      obtain ⟨q, hq⟩ := Finmap.mem_iff.mp hkey
      have htotal := hequal _ (h.mem_iff.mp hkey) fun p' hp' => h.bestIdx_best hp'
      rw [← h.shows.eq_balance hq] at htotal
      rw [best_of_eq hq (by exact_mod_cast htotal)]
      exact h.shows.isBestTotal hq (h.occupied _ _ hq) fun p' q' hq' _ =>
        h.bestIdx_best (h.mem_iff.mp (Finmap.mem_iff.mpr ⟨q', hq'⟩))

/-- The side is emptied at the price 8, and a better price comes behind it. -/
def drainedAndRefilled : List LevelCall :=
  [.add ⟨9, 9⟩, .add ⟨4, 8⟩, .remove ⟨9, 9⟩, .remove ⟨4, 8⟩, .add ⟨10, 10⟩, .add ⟨3, 9⟩]

theorem best_right_iff_sample : ∃ l : MapLevels Side.Bid, run step init drainedAndRefilled = .ok l ∧
    IsBestTotal Side.Bid (balance drainedAndRefilled) l.best := by
  have hat : ∀ p, 0 < balance drainedAndRefilled p → p = 10 ∨ p = 9 := by
    intro p hp
    by_contra hne
    have h10 : (10 : UInt32) ≠ p := fun h => hne (Or.inl h.symm)
    have h9 : (9 : UInt32) ≠ p := fun h => hne (Or.inr h.symm)
    simp only [balance, drainedAndRefilled, List.map_cons, List.map_nil, List.sum_cons, List.sum_nil,
      LevelCall.delta, if_neg h10, if_neg h9] at hp
    split at hp <;> exact absurd hp (by decide)
  have hpos : PositiveCalls drainedAndRefilled := by
    unfold PositiveCalls
    decide
  refine ⟨_, rfl, (best_right_iff hpos (fits_of_sum_lt (by decide)) rfl).mpr
    (Or.inr ⟨?_, fun p hp hfirst => ?_⟩)⟩
  · rintro pre post c he (⟨rfl, rfl⟩ | ⟨before, level, rfl, rfl, -⟩)
    · obtain rfl : drainedAndRefilled = post := he
      exact ⟨⟨10, 10⟩, by decide, by decide⟩
    · obtain _ | ⟨_, _ | ⟨_, _ | ⟨_, _ | ⟨_, _ | ⟨_, _ | ⟨_, later⟩⟩⟩⟩⟩⟩ := before
      · cases he
      · cases he
      · cases he
        exact ⟨⟨10, 10⟩, by decide, by decide⟩
      · cases he
        exact ⟨⟨10, 10⟩, by decide, by decide⟩
      · cases he
      · cases he
      · simp [drainedAndRefilled] at he
  · rcases hat p hp with rfl | rfl
    · rfl
    · exact absurd (hfirst 10 (by decide)) (by decide)

/-- The two fields come back exchanged. -/
theorem best_exchanged : ∃ l : MapLevels Side.Bid, run step init [.add ⟨5, 10⟩] = .ok l ∧
    l.best = ⟨10, 5⟩ ∧ ¬ IsBestTotal Side.Bid (balance [.add ⟨5, 10⟩]) l.best := by
  refine ⟨_, rfl, rfl, ?_⟩
  rintro (⟨hall, -⟩ | ⟨htotal, -⟩)
  · exact absurd (hall 10) (by decide)
  · exact absurd htotal (by decide)

end MapLevels

end ItchIngestion.OB
