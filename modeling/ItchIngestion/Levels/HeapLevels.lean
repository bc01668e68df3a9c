import ItchIngestion.Levels.Balance
import ItchIngestion.Library.PriorityQueue

/-! # The store on a heap (`heap_level.hpp`)

The heap is never told of a removal. It collects prices that have no level any more, and the same
price several times over; `best` throws such entries away when they come to the top. What keeps this
right is `Covers`: a price with a quantity is somewhere in the heap. Everything else depends on the
map alone, which `best` does not touch.
-/
namespace ItchIngestion.OB
open Library
set_option autoImplicit false

/-- A heap of prices, some of them out of date, and the quantities. -/
structure HeapLevels (S : Side) where
  /-- `PriceCmp` is the order of the side. -/
  heap : PriorityQueue S.Worse
  qtyByPrice : QtyMap

namespace HeapLevels
variable {S : Side}

/-! ## The code -/

def init : HeapLevels S := ⟨.empty, ∅⟩

/-- A price without a quantity is pushed. -/
def add (l : HeapLevels S) (level : Level) : HeapLevels S :=
  let qty := l.qtyByPrice.get level.price
  let heap := if qty == 0 then l.heap.push level.price else l.heap
  ⟨heap, l.qtyByPrice.insert level.price (qty + level.qty)⟩

def remove (l : HeapLevels S) (level : Level) : Except Fault (HeapLevels S) := do
  let rest ← l.qtyByPrice.remaining "Remove didn't find level" "Remove underflow" level
  let qtyByPrice :=
    if rest = 0 then l.qtyByPrice.erase level.price else l.qtyByPrice.insert level.price rest
  return { l with qtyByPrice }

/-- Prices without a quantity are popped on the way. -/
def best (l : HeapLevels S) : Level × HeapLevels S :=
  match _htop : l.heap.top with
  | none => (⟨0, 0⟩, l)
  | some price =>
    match l.qtyByPrice.lookup price with
    | some qty => if qty ≠ 0 then (⟨qty, price⟩, l) else best { l with heap := l.heap.pop }
    | none => best { l with heap := l.heap.pop }
termination_by l.heap.size
decreasing_by all_goals exact PriorityQueue.size_pop_lt _htop

def step (l : HeapLevels S) : StoreCall → Except Fault (HeapLevels S)
  | .change (.add level) => .ok (l.add level)
  | .change (.remove level) => l.remove level
  | .best => .ok l.best.2

/-! ## The map on its own -/

/-- What the two changing operations do to the map. -/
def mapStep (m : QtyMap) : LevelCall → Except Fault QtyMap
  | .add level => .ok (m.insert level.price (m.get level.price + level.qty))
  | .remove level =>
    (m.remaining "Remove didn't find level" "Remove underflow" level).map fun rest =>
      if rest = 0 then m.erase level.price else m.insert level.price rest

theorem best_qtyByPrice (l : HeapLevels S) : l.best.2.qtyByPrice = l.qtyByPrice := by
  fun_induction best l with
  | case1 => rfl
  | case2 => rfl
  | case3 _ _ _ _ _ _ ih => exact ih
  | case4 _ _ _ _ ih => exact ih

theorem step_change_qtyByPrice (l : HeapLevels S) (call : LevelCall) :
    (l.step (.change call)).map qtyByPrice = mapStep l.qtyByPrice call := by
  cases call with
  | add level => rfl
  | remove level =>
    rw [step, mapStep, remove]
    cases l.qtyByPrice.remaining "Remove didn't find level" "Remove underflow" level <;> rfl

theorem run_qtyByPrice (l : HeapLevels S) (calls : List StoreCall) :
    (run step l calls).map qtyByPrice = run mapStep l.qtyByPrice (changes calls) := by
  induction calls generalizing l with
  | nil => rfl
  | cons call calls ih =>
    rw [run, List.foldlM_cons]
    cases call with
    | best =>
      show (run step l.best.2 calls).map qtyByPrice = run mapStep l.qtyByPrice (changes calls)
      rw [ih, best_qtyByPrice]
    | change call =>
      show (l.step (.change call) >>= fun l => run step l calls).map qtyByPrice =
        run mapStep l.qtyByPrice (call :: changes calls)
      rw [run, List.foldlM_cons, ← step_change_qtyByPrice]
      cases l.step (.change call) with
      | error fault => rfl
      | ok l' => exact ih l'

/-! ## The invariant -/

/-- A price with a quantity is in the heap. -/
def Covers (l : HeapLevels S) : Prop :=
  ∀ p q, l.qtyByPrice.lookup p = some q → 0 < q → p ∈ l.heap

theorem init_covers : Covers (init (S := S)) := by
  intro p q h
  rw [init, Finmap.lookup_empty] at h
  cases h

theorem Covers.add {l : HeapLevels S} (h : l.Covers) (level : Level) : (l.add level).Covers := by
  intro p q hq hpos
  unfold HeapLevels.add at hq ⊢
  dsimp only at hq ⊢
  by_cases hp : p = level.price
  · subst hp
    split
    · exact PriorityQueue.mem_push.mpr (Or.inl rfl)
    · rename_i hz
      rw [beq_iff_eq, QtyMap.get] at hz
      cases hold : l.qtyByPrice.lookup level.price with
      | none =>
        rw [hold] at hz
        exact absurd rfl hz
      | some q₀ =>
        rw [hold] at hz
        exact h _ q₀ hold (UInt64.pos_iff_ne_zero.mpr hz)
  · rw [Finmap.lookup_insert_of_ne _ hp] at hq
    split
    · exact PriorityQueue.mem_push.mpr (Or.inr (h p q hq hpos))
    · exact h p q hq hpos

theorem Covers.remove {l l' : HeapLevels S} (h : l.Covers) {level : Level}
    (hrem : l.remove level = .ok l') : l'.Covers := by
  obtain ⟨rest, hrest, he⟩ := bind_eq_ok.mp hrem
  obtain ⟨q₀, hq₀, hle, rfl⟩ := QtyMap.remaining_ok hrest
  cases he
  intro p q hq hpos
  dsimp only at hq ⊢
  by_cases hp : p = level.price
  · subst hp
    have hpos₀ : 0 < q₀ := by
      split at hq
      · rw [Finmap.lookup_erase] at hq
        cases hq
      · rename_i hz
        rw [UInt64.pos_iff_ne_zero]
        rintro rfl
        have hzero : level.qty = 0 := UInt64.le_zero_iff.mp hle
        exact hz (by rw [hzero, UInt64.sub_zero])
    exact h _ q₀ hq₀ hpos₀
  · have hsame : l.qtyByPrice.lookup p = some q := by
      split at hq
      · rwa [Finmap.lookup_erase_ne hp] at hq
      · rwa [Finmap.lookup_insert_of_ne _ hp] at hq
    exact h p q hsame hpos

theorem Covers.pop {l : HeapLevels S} (h : l.Covers) {price : UInt32} (htop : l.heap.top = some price)
    (hstale : ∀ q, l.qtyByPrice.lookup price = some q → q = 0) :
    Covers { l with heap := l.heap.pop } := by
  intro p q hq hpos
  rcases (PriorityQueue.mem_iff_top_or_pop htop).mp (h p q hq hpos) with rfl | hp
  · exact absurd (hstale q hq) (UInt64.pos_iff_ne_zero.mp hpos)
  · exact hp

/-- What `best` finds in a map. -/
def Finds (m : QtyMap) (S : Side) (level : Level) : Prop :=
  (level = ⟨0, 0⟩ ∧ ∀ p q, m.lookup p = some q → ¬ 0 < q) ∨
    (m.lookup level.price = some level.qty ∧ 0 < level.qty ∧
      ∀ p q, m.lookup p = some q → 0 < q → p = level.price ∨ S.Worse p level.price)

/-- **`best` finds the best price that has a quantity.** -/
theorem best_spec {l : HeapLevels S} (h : l.Covers) :
    l.best.2.Covers ∧ Finds l.qtyByPrice S l.best.1 := by
  fun_induction best l with
  | case1 l htop =>
    refine ⟨h, Or.inl ⟨rfl, fun p q hq hpos => ?_⟩⟩
    exact PriorityQueue.notMem_of_top_eq_none htop p (h p q hq hpos)
  | case2 l price htop qty hqty hne =>
    refine ⟨h, Or.inr ⟨hqty, UInt64.pos_iff_ne_zero.mpr hne, fun p q hq hpos => ?_⟩⟩
    rcases (PriorityQueue.mem_iff_top_or_pop htop).mp (h p q hq hpos) with hp | hp
    · exact Or.inl hp
    · rcases trichotomous_of S.Worse p price with hw | hw | hw
      · exact Or.inr hw
      · exact Or.inl hw
      · exact absurd hw (PriorityQueue.not_less_of_top htop hp)
  | case3 l price htop qty hqty hz ih =>
    have hzero : qty = 0 := not_not.mp hz
    refine ih (h.pop htop fun q hq => ?_)
    rw [hqty] at hq
    cases hq
    exact hzero
  | case4 l price htop hnone ih =>
    refine ih (h.pop htop fun q hq => ?_)
    rw [hnone] at hq
    cases hq

/-! ## Runs -/

section Run
variable {l l' : HeapLevels S} {calls : List StoreCall}

theorem covers_step {call : StoreCall} (h : l.Covers) (hstep : l.step call = .ok l') : l'.Covers := by
  cases call with
  | best =>
    cases hstep
    exact (best_spec h).1
  | change call =>
    cases call with
    | add level =>
      cases hstep
      exact h.add level
    | remove level => exact h.remove hstep

theorem covers_run (hrun : run step init calls = .ok l) : l.Covers :=
  run_invariant Covers init_covers (fun _ _ _ h hstep => covers_step h hstep) hrun

theorem mapStep_shows {m m' : QtyMap} {history : List LevelCall} {call : LevelCall}
    (h : m.view.Shows history) (hfit : Fits (history ++ [call])) (hstep : mapStep m call = .ok m') :
    m'.view.Shows (history ++ [call]) := by
  cases call with
  | add level =>
    cases hstep
    rw [QtyMap.view_add]
    exact h.add hfit
  | remove level =>
    rw [mapStep] at hstep
    cases hrest : m.remaining "Remove didn't find level" "Remove underflow" level with
    | error fault =>
      rw [hrest] at hstep
      cases hstep
    | ok rest =>
      rw [hrest] at hstep
      cases hstep
      exact h.remove (QtyMap.view_remove hrest)

theorem shows_run (hfit : Fits (changes calls)) (hrun : run step init calls = .ok l) :
    l.qtyByPrice.view.Shows (changes calls) := by
  have hmap : run mapStep ∅ (changes calls) = .ok l.qtyByPrice := by
    rw [← show (init (S := S)).qtyByPrice = ∅ from rfl, ← run_qtyByPrice, hrun]
    rfl
  refine run_prefix_induction (fun history m => m.view.Shows history) ?_ ?_ hmap
  · rw [QtyMap.view_empty]
    exact LevelMap.empty_shows
  · intro history call m m' hpre ih hstep
    exact mapStep_shows ih (hfit.before hpre) hstep

theorem best_isBestTotal (hfit : Fits (changes calls)) (hrun : run step init calls = .ok l) :
    IsBestTotal S (balance (changes calls)) l.best.1 := by
  have hshows := shows_run hfit hrun
  rcases (best_spec (covers_run hrun)).2 with ⟨he, hnone⟩ | ⟨hq, hpos, hbest⟩
  · rw [he]
    exact hshows.isBestTotal_empty hnone
  · exact hshows.isBestTotal hq hpos hbest

/-- Whether a run goes through depends on its additions and removals alone. -/
theorem run_of_changes_eq {calls' : List StoreCall} (hrun : run step init calls = .ok l)
    (hchanges : changes calls' = changes calls) :
    ∃ l' : HeapLevels S, run step init calls' = .ok l' := by
  have hmap := run_qtyByPrice (init (S := S)) calls'
  rw [hchanges, ← run_qtyByPrice, hrun] at hmap
  cases h : run step (init (S := S)) calls' with
  | ok l' => exact ⟨l', rfl⟩
  | error fault =>
    rw [h] at hmap
    cases hmap

theorem remove_eq_error {level : Level} : (∃ fault, l.remove level = .error fault) ↔
    ∃ fault, l.qtyByPrice.remaining "Remove didn't find level" "Remove underflow" level =
      .error fault := by
  rw [remove]
  cases l.qtyByPrice.remaining "Remove didn't find level" "Remove underflow" level with
  | error fault => exact iff_of_true ⟨fault, rfl⟩ ⟨fault, rfl⟩
  | ok rest => exact iff_of_false (fun ⟨_, h⟩ => by cases h) (fun ⟨_, h⟩ => by cases h)

end Run

/-- **The lazy deletion cannot be seen.** -/
theorem lazy_deletion_invisible {calls : List StoreCall} {l : HeapLevels S}
    (hfit : Fits (changes calls)) (hrun : run step init calls = .ok l) :
    IsBestTotal S (balance (changes calls)) l.best.1 ∧
      (∀ level, (∃ fault, l.remove level = .error fault) ↔
        l.qtyByPrice.lookup level.price = none ∨
          balance (changes calls) level.price < level.qty.toNat) ∧
      ∀ calls', changes calls' = changes calls →
        ∃ l' : HeapLevels S, run step init calls' = .ok l' ∧ l'.best.1 = l.best.1 := by
  refine ⟨best_isBestTotal hfit hrun, fun level => ?_, fun calls' hchanges => ?_⟩
  · rw [remove_eq_error, QtyMap.remaining_eq_error]
    exact QtyMap.missing_iff (shows_run hfit hrun)
  · obtain ⟨l', hrun'⟩ := run_of_changes_eq hrun hchanges
    have hbest := best_isBestTotal (hchanges ▸ hfit) hrun'
    rw [hchanges] at hbest
    exact ⟨l', hrun', hbest.unique (best_isBestTotal hfit hrun)⟩

theorem lazy_deletion_invisible_sample : ∃ l : HeapLevels Side.Bid,
    run step init [.change (.add ⟨5, 10⟩), .change (.remove ⟨5, 10⟩), .change (.add ⟨2, 10⟩)] = .ok l ∧
      IsBestTotal Side.Bid (balance [.add ⟨5, 10⟩, .remove ⟨5, 10⟩, .add ⟨2, 10⟩]) l.best.1 ∧
      ∃ l' : HeapLevels Side.Bid,
        run step init [.change (.add ⟨5, 10⟩), .change (.remove ⟨5, 10⟩), .best,
          .change (.add ⟨2, 10⟩)] = .ok l' ∧ l'.best.1 = l.best.1 := by
  have hfit : Fits (changes
      [.change (.add ⟨5, 10⟩), .change (.remove ⟨5, 10⟩), .change (.add ⟨2, 10⟩)]) :=
    fits_of_sum_lt (by decide)
  obtain ⟨hbest, -, hsame⟩ := lazy_deletion_invisible (S := Side.Bid) hfit rfl
  exact ⟨_, rfl, hbest, hsame _ rfl⟩

end HeapLevels

end ItchIngestion.OB
