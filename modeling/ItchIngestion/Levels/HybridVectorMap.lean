import ItchIngestion.Levels.Balance

/-! # The store on a sorted vector and a hash map (`hybrid_vector_map.hpp`)

The vector has the prices in the order of the side, the map has their quantities. `InStep` says that
the two have the same prices and that no quantity is zero. The second half carries the first: `add`
takes a quantity of zero for a price that is not there.
-/
namespace ItchIngestion.OB
open Library
set_option autoImplicit false

/-- The prices in order, and the quantities in a hash map. -/
structure HybridVectorMap (S : Side) where
  prices : List UInt32
  qtyByPrice : QtyMap

namespace HybridVectorMap
variable {S : Side}

/-! ## The code -/

def init : HybridVectorMap S := ⟨[], ∅⟩

/-- A price without a quantity goes into the vector. -/
def add (l : HybridVectorMap S) (level : Level) : Except Fault (HybridVectorMap S) := do
  let qty := l.qtyByPrice.get level.price
  if qty != 0 then return { l with qtyByPrice := l.qtyByPrice.insert level.price (qty + level.qty) }
  else
    let pit := lowerBound l.prices (fun lhs => decide (S.Worse lhs level.price))
    let prices ← insertAt l.prices pit level.price
    return ⟨prices, l.qtyByPrice.insert level.price level.qty⟩

/-- A price that ran empty is erased from both. -/
def remove (l : HybridVectorMap S) (level : Level) : Except Fault (HybridVectorMap S) := do
  let rest ← l.qtyByPrice.remaining "Qty missing for level" "Remove lead to an underflow" level
  if rest == 0 then
    let pit := lowerBound l.prices (fun lhs => decide (S.Worse lhs level.price))
    unexpected (l.prices[pit]? != some level.price) "Remove didn't find a level"
    let prices ← eraseAt l.prices pit
    return ⟨prices, l.qtyByPrice.erase level.price⟩
  else return { l with qtyByPrice := l.qtyByPrice.insert level.price rest }

/-- The two fields of the level are filled in the order price, quantity. -/
def best (l : HybridVectorMap S) : Except Fault Level :=
  if !l.prices.isEmpty then do
    let price ← back l.prices
    match l.qtyByPrice.lookup price with
    | none => .error (.unexpected "Best price missing qty")
    | some qty => return ⟨price.toUInt64, qty.toUInt32⟩
  else return ⟨0, 0⟩

def step (l : HybridVectorMap S) : LevelCall → Except Fault (HybridVectorMap S)
  | .add level => l.add level
  | .remove level => l.remove level

/-! ## In step -/

/-- Vector and map have the same prices, in order and none of them empty. -/
structure InStep (l : HybridVectorMap S) : Prop where
  sorted : l.prices.Pairwise S.Worse
  keys : ∀ p, p ∈ l.prices ↔ p ∈ l.qtyByPrice
  occupied : l.qtyByPrice.view.Occupied

theorem init_inStep : InStep (init : HybridVectorMap S) where
  sorted := List.Pairwise.nil
  keys p := iff_of_false List.not_mem_nil Finmap.notMem_empty
  occupied := by
    rw [init, QtyMap.view_empty]
    exact LevelMap.empty_occupied

section Step
variable {l l' : HybridVectorMap S} {level : Level} {calls : List LevelCall}

theorem InStep.get_eq_zero (h : l.InStep) {p : UInt32} : l.qtyByPrice.get p = 0 ↔ p ∉ l.prices := by
  rw [h.keys, QtyMap.get]
  cases hq : l.qtyByPrice.lookup p with
  | none => exact iff_of_true rfl (Finmap.lookup_eq_none.mp hq)
  | some q =>
    have hpos := UInt64.pos_iff_ne_zero.mp (h.occupied p q hq)
    exact iff_of_false hpos (not_not.mpr (Finmap.mem_iff.mpr ⟨q, hq⟩))

/-- Either branch of `add` puts the sum into the map, and the price into the vector if it was not
there. -/
theorem add_ok (h : l.InStep) (level : Level) : ∃ prices, l.add level =
      .ok ⟨prices, l.qtyByPrice.insert level.price (l.qtyByPrice.get level.price + level.qty)⟩ ∧
    prices.Pairwise S.Worse ∧ ∀ p, p ∈ prices ↔ p = level.price ∨ p ∈ l.prices := by
  rw [add]
  by_cases hz : l.qtyByPrice.get level.price = 0
  · have hc : (l.qtyByPrice.get level.price != 0) = false := by simpa using hz
    have hnew := h.get_eq_zero.mp hz
    obtain ⟨A, B, hcut, hA, hB⟩ := sorted_split h.sorted level.price
    have hB' : ∀ b ∈ B, S.Worse level.price b := by
      intro b hb
      rcases trichotomous_of S.Worse b level.price with hw | rfl | hw
      · exact absurd hw (hB b hb)
      · exact absurd (hcut ▸ List.mem_append_right A hb) hnew
      · exact hw
    obtain ⟨hsA, hsB, hAB⟩ := List.pairwise_append.mp (hcut ▸ h.sorted)
    refine ⟨A ++ level.price :: B, ?_, ?_, fun p => ?_⟩
    · dsimp only
      rw [hc, if_neg Bool.false_ne_true, hcut, lowerBound_sorted A B level.price hA hB,
        insertAt_middle _ rfl, hz, UInt64.zero_add]
      rfl
    · refine List.pairwise_append.mpr ⟨hsA, List.pairwise_cons.mpr ⟨hB', hsB⟩, fun a ha b hb => ?_⟩
      rcases List.mem_cons.mp hb with rfl | hb
      · exact hA a ha
      · exact hAB a ha b hb
    · rw [hcut, List.mem_append, List.mem_cons, List.mem_append]
      tauto
  · have hc : (l.qtyByPrice.get level.price != 0) = true := by simpa using hz
    have hold : level.price ∈ l.prices := not_not.mp (mt h.get_eq_zero.mpr hz)
    refine ⟨l.prices, ?_, h.sorted, fun p => ⟨Or.inr, fun hp => ?_⟩⟩
    · dsimp only
      rw [hc, if_pos rfl]
      rfl
    · rcases hp with rfl | hp
      · exact hold
      · exact hp

theorem InStep.add (h : l.InStep) (hsum : l.qtyByPrice.get level.price + level.qty ≠ 0) :
    ∃ l', l.add level = .ok l' ∧ l'.InStep ∧ l'.qtyByPrice.view = l.qtyByPrice.view.add level := by
  obtain ⟨prices, hok, hsorted, hmem⟩ := add_ok h level
  refine ⟨_, hok, ⟨hsorted, fun p => ?_, fun p q hq => ?_⟩, QtyMap.view_add⟩
  · rw [hmem, h.keys, Finmap.mem_insert]
  · rw [QtyMap.view_insert] at hq
    by_cases hp : p = level.price
    · rw [hp, Function.update_self, Option.some.injEq] at hq
      rw [← hq]
      exact UInt64.pos_iff_ne_zero.mpr hsum
    · rw [Function.update_of_ne hp] at hq
      exact h.occupied p q hq

theorem sum_ne_zero (hshows : l.qtyByPrice.view.Shows calls) (hqty : 0 < level.qty)
    (hfit : Fits (calls ++ [.add level])) : l.qtyByPrice.get level.price + level.qty ≠ 0 := by
  have hlast := hfit.last level.price
  rw [LevelCall.delta_add, if_pos rfl] at hlast
  have hsum := toNat_add_int (hshows level.price) hlast
  have hold := hshows level.price
  have hpos : 0 < level.qty.toNat := UInt64.lt_iff_toNat_lt.mp hqty
  intro hz
  have hzero : (l.qtyByPrice.get level.price + level.qty).toNat = 0 := by
    rw [hz]
    rfl
  have hsum' : ((l.qtyByPrice.get level.price + level.qty).toNat : ℤ) = _ := hsum
  omega

/-- A removal that passes its two checks finds the price in the vector as well. -/
theorem remove_of_remaining (h : l.InStep) {rest : UInt64} (hrest : l.qtyByPrice.remaining
      "Qty missing for level" "Remove lead to an underflow" level = .ok rest) :
    ∃ prices, l.remove level = .ok ⟨prices, if rest = 0 then l.qtyByPrice.erase level.price
        else l.qtyByPrice.insert level.price rest⟩ ∧
      prices.Pairwise S.Worse ∧ ∀ p, p ∈ prices ↔ p ∈ l.prices ∧ (p = level.price → rest ≠ 0) := by
  obtain ⟨q, hq, -, -⟩ := QtyMap.remaining_ok hrest
  have hold : level.price ∈ l.prices := (h.keys _).mpr (Finmap.mem_iff.mpr ⟨q, hq⟩)
  rw [remove, hrest, ok_bind]
  by_cases hz : rest = 0
  · have hc : (rest == 0) = true := by simpa using hz
    obtain ⟨A, B, hcut⟩ := List.append_of_mem hold
    obtain ⟨hsA, hsB, hAB⟩ := List.pairwise_append.mp (hcut ▸ h.sorted)
    obtain ⟨hB, hsB⟩ := List.pairwise_cons.mp hsB
    have hA : ∀ a ∈ A, S.Worse a level.price := fun a ha => hAB a ha _ List.mem_cons_self
    have hstop : ∀ b ∈ level.price :: B, ¬ S.Worse b level.price := by
      intro b hb
      rcases List.mem_cons.mp hb with rfl | hb
      · exact irrefl_of S.Worse _
      · exact asymm_of S.Worse (hB b hb)
    have hfound : ((A ++ level.price :: B)[A.length]? != some level.price) = false := by simp
    refine ⟨A ++ B, ?_, ?_, fun p => ?_⟩
    · dsimp only
      rw [hc, if_pos rfl, hcut, lowerBound_sorted A _ level.price hA hstop, hfound, unexpected_false,
        ok_bind, eraseAt_middle _ rfl, if_pos hz]
      rfl
    · refine List.pairwise_append.mpr ⟨hsA, hsB, fun a ha b hb => ?_⟩
      exact hAB a ha b (List.mem_cons_of_mem _ hb)
    · have hne : ∀ p ∈ A ++ B, p ≠ level.price := by
        rintro p hp rfl
        rcases List.mem_append.mp hp with hp | hp
        · exact irrefl_of S.Worse _ (hA _ hp)
        · exact irrefl_of S.Worse _ (hB _ hp)
      rw [hcut]
      constructor
      · intro hp
        refine ⟨?_, fun he => absurd he (hne p hp)⟩
        rw [List.mem_append] at hp ⊢
        exact hp.imp id (List.mem_cons_of_mem _)
      · rintro ⟨hp, hpne⟩
        rw [List.mem_append, List.mem_cons] at hp
        rw [List.mem_append]
        rcases hp with hp | rfl | hp
        · exact Or.inl hp
        · exact absurd hz (hpne rfl)
        · exact Or.inr hp
  · have hc : (rest == 0) = false := by simpa using hz
    refine ⟨l.prices, ?_, h.sorted, fun p => ⟨fun hp => ⟨hp, fun _ => hz⟩, And.left⟩⟩
    rw [hc, if_neg Bool.false_ne_true, if_neg hz]
    rfl

theorem InStep.remove (h : l.InStep) (hrem : l.remove level = .ok l') :
    l'.InStep ∧ l.qtyByPrice.view.remove level = .ok l'.qtyByPrice.view := by
  obtain ⟨rest, hrest, -⟩ := bind_eq_ok.mp hrem
  obtain ⟨prices, hok, hsorted, hmem⟩ := remove_of_remaining h hrest
  rw [hrem] at hok
  cases hok
  obtain ⟨q, hq, -, -⟩ := QtyMap.remaining_ok hrest
  have hview := QtyMap.view_remove hrest
  refine ⟨⟨hsorted, fun p => ?_, h.occupied.remove hview⟩, hview⟩
  rw [hmem, h.keys]
  dsimp only
  split
  · rename_i hz
    rw [Finmap.mem_erase]
    exact ⟨fun ⟨hp, hne⟩ => ⟨fun he => hne he hz, hp⟩, fun ⟨hne, hp⟩ => ⟨hp, fun he => absurd he hne⟩⟩
  · rename_i hz
    rw [Finmap.mem_insert]
    refine ⟨fun ⟨hp, _⟩ => Or.inr hp, fun hp => ⟨?_, fun _ => hz⟩⟩
    rcases hp with rfl | hp
    · exact Finmap.mem_iff.mpr ⟨q, hq⟩
    · exact hp

theorem remove_eq_error (h : l.InStep) {fault : Fault} : l.remove level = .error fault ↔
    l.qtyByPrice.remaining "Qty missing for level" "Remove lead to an underflow" level =
      .error fault := by
  constructor
  · intro herr
    cases hrest : l.qtyByPrice.remaining "Qty missing for level" "Remove lead to an underflow"
      level with
    | ok rest =>
      obtain ⟨prices, hok, -⟩ := remove_of_remaining h hrest
      rw [herr] at hok
      cases hok
    | error fault' =>
      rw [HybridVectorMap.remove, hrest] at herr
      cases herr
      rfl
  · intro hrest
    rw [HybridVectorMap.remove, hrest]
    rfl

theorem best_ok (h : l.InStep) : ∃ level, l.best = .ok level := by
  rw [best]
  by_cases hne : l.prices = []
  · exact ⟨⟨0, 0⟩, by rw [hne]; rfl⟩
  · have hlast : l.prices.getLast hne ∈ l.qtyByPrice := (h.keys _).mp (List.getLast_mem hne)
    obtain ⟨q, hq⟩ := Finmap.mem_iff.mp hlast
    refine ⟨⟨(l.prices.getLast hne).toUInt64, q.toUInt32⟩, ?_⟩
    rw [if_pos (by simpa using hne), back_of_ne_nil hne, ok_bind, hq]
    rfl

/-! ## Runs -/

theorem inStep_run (hpos : PositiveCalls calls) (hfit : Fits calls)
    (hrun : run step init calls = .ok l) : l.InStep ∧ l.qtyByPrice.view.Shows calls := by
  refine run_prefix_induction (fun calls l => l.InStep ∧ l.qtyByPrice.view.Shows calls)
    ⟨init_inStep, ?_⟩ ?_ hrun
  · rw [init, QtyMap.view_empty]
    exact LevelMap.empty_shows
  · intro calls call l l' hpre ⟨h, hshows⟩ hstep
    cases call with
    | add level =>
      have hfit' := hfit.before hpre
      have hqty : 0 < level.qty := hpos _ (last_mem hpre)
      obtain ⟨l', hadd, hl', hview⟩ := h.add (sum_ne_zero hshows hqty hfit')
      rw [step, hadd] at hstep
      cases hstep
      exact ⟨hl', hview ▸ hshows.add hfit'⟩
    | remove level =>
      obtain ⟨hl', hview⟩ := h.remove hstep
      exact ⟨hl', hshows.remove hview⟩

end Step

/-- **Vector and map stay in step**, and the checks that say so are never reached. -/
theorem stays_in_step {l : HybridVectorMap S} {calls : List LevelCall} (hpos : PositiveCalls calls)
    (hfit : Fits calls) (hrun : run step init calls = .ok l) :
    l.prices.Pairwise S.Worse ∧ (∀ p, p ∈ l.prices ↔ p ∈ l.qtyByPrice) ∧
      (∀ p q, l.qtyByPrice.lookup p = some q → 0 < q ∧ (q.toNat : ℤ) = balance calls p) ∧
      (∀ level, (∃ fault, l.remove level = .error fault) ↔
        l.qtyByPrice.lookup level.price = none ∨ balance calls level.price < level.qty.toNat) ∧
      (∀ level, l.remove level ≠ .error (.unexpected "Remove didn't find a level")) ∧
      ∃ level, l.best = .ok level := by
  obtain ⟨h, hshows⟩ := inStep_run hpos hfit hrun
  refine ⟨h.sorted, h.keys, fun p q hq => ⟨h.occupied p q hq, hshows.eq_balance hq⟩, fun level => ?_,
    fun level herr => ?_, best_ok h⟩
  · rw [← QtyMap.missing_iff hshows, ← QtyMap.remaining_eq_error]
    exact exists_congr fun fault => remove_eq_error h
  · rcases QtyMap.remaining_error ((remove_eq_error h).mp herr) with he | he
    · exact absurd (Fault.unexpected.inj he) (by decide)
    · exact absurd (Fault.unexpected.inj he) (by decide)

theorem stays_in_step_sample : ∃ l : HybridVectorMap Side.Ask,
    run step init [.add ⟨5, 10⟩, .add ⟨3, 12⟩, .remove ⟨5, 10⟩, .add ⟨1, 10⟩] = .ok l ∧
      l.prices = [12, 10] ∧ l.prices.Pairwise Side.Ask.Worse := by
  have hpos : PositiveCalls [.add ⟨5, 10⟩, .add ⟨3, 12⟩, .remove ⟨5, 10⟩, .add ⟨1, 10⟩] := by
    unfold PositiveCalls
    decide
  exact ⟨_, rfl, rfl, (stays_in_step (S := Side.Ask) hpos (fits_of_sum_lt (by decide)) rfl).1⟩

end HybridVectorMap

end ItchIngestion.OB
