import ItchIngestion.Levels.HybridVectorMap
import ItchIngestion.Levels.VectorLevelBSearchSplit

/-! # The hybrid store in place of the store on two vectors

The two stores hold the same map through every run in which no sum comes to zero, and abort at the
same removals. What they show differs: the hybrid store fills the two fields of its best level in the
other order, so the levels are equal just where the quantity reads like the price.
-/
namespace ItchIngestion.OB
open Library
set_option autoImplicit false

variable {S : Side}

/-! ## The same map -/

namespace HybridVectorMap

/-- No addition brings the sum at its price to zero. -/
def LeavesSomething (h : HybridVectorMap S) : LevelCall → Prop
  | .add level => h.qtyByPrice.get level.price + level.qty ≠ 0
  | .remove _ => True

/-- The two stores hold the same levels. -/
def Mirrors (h : HybridVectorMap S) (l : VectorLevelBSearchSplit S) : Prop :=
  h.InStep ∧ l.WellFormed ∧ h.qtyByPrice.view = l.view

section Step
variable {h : HybridVectorMap S} {l : VectorLevelBSearchSplit S} {level : Level}

theorem init_mirrors : Mirrors (init (S := S)) VectorLevelBSearchSplit.init :=
  ⟨init_inStep, VectorLevelBSearchSplit.init_wellFormed, QtyMap.view_empty⟩

theorem Mirrors.add (hm : Mirrors h l) (hsum : h.qtyByPrice.get level.price + level.qty ≠ 0) :
    ∃ l' h', l.step (.add level) = .ok l' ∧ h.step (.add level) = .ok h' ∧ Mirrors h' l' := by
  obtain ⟨hstep, hwf, hview⟩ := hm
  obtain ⟨h', hadd, hstep', hview'⟩ := hstep.add hsum
  obtain ⟨change, l', hadd', hwf', hl', -⟩ := VectorLevelBSearchSplit.add_spec hwf level
  refine ⟨l', h', ?_, hadd, hstep', hwf', ?_⟩
  · rw [VectorLevelBSearchSplit.step, hadd']
    rfl
  · rw [hview', hl', hview]

theorem Mirrors.remove (hm : Mirrors h l) (level : Level) :
    (∃ fault fault', l.step (.remove level) = .error fault ∧ h.step (.remove level) = .error fault') ∨
      ∃ l' h', l.step (.remove level) = .ok l' ∧ h.step (.remove level) = .ok h' ∧ Mirrors h' l' := by
  obtain ⟨hstep, hwf, hview⟩ := hm
  cases hrem : h.remove level with
  | ok h' =>
    obtain ⟨hstep', hmap⟩ := hstep.remove hrem
    rcases VectorLevelBSearchSplit.remove_spec hwf level with ⟨fault, hl, -⟩ |
      ⟨change, l', hrem', hwf', hl, -⟩
    · rw [← hview, hmap] at hl
      cases hl
    · refine Or.inr ⟨l', h', ?_, hrem, hstep', hwf', ?_⟩
      · rw [VectorLevelBSearchSplit.step, hrem']
        rfl
      · rw [← hview, hmap] at hl
        exact Except.ok.inj hl
  | error fault =>
    have hmissing := QtyMap.remaining_eq_error.mp ⟨fault, (remove_eq_error hstep).mp hrem⟩
    rcases VectorLevelBSearchSplit.remove_spec hwf level with ⟨fault', -, hl⟩ | ⟨_, l', -, -, hl, -⟩
    · refine Or.inl ⟨fault', fault, ?_, hrem⟩
      rw [VectorLevelBSearchSplit.step, hl]
      rfl
    · rw [← hview] at hl
      obtain ⟨q, hq, hle, -⟩ := LevelMap.remove_eq_ok.mp hl
      have hq' : h.qtyByPrice.lookup level.price = some q := hq
      rw [hq'] at hmissing
      rcases hmissing with hnone | ⟨q', hq'', hlt⟩
      · cases hnone
      · cases hq''
        exact absurd hlt (UInt64.not_lt.mpr hle)

theorem Mirrors.step (hm : Mirrors h l) (call : LevelCall) (hcall : h.LeavesSomething call) :
    (∃ fault fault', l.step call = .error fault ∧ h.step call = .error fault' ∧ True) ∨
      ∃ l' h', l.step call = .ok l' ∧ h.step call = .ok h' ∧ Mirrors h' l' := by
  cases call with
  | add level => exact Or.inr (hm.add hcall)
  | remove level =>
    rcases hm.remove level with ⟨fault, fault', hl, hh⟩ | hok
    · exact Or.inl ⟨fault, fault', hl, hh, trivial⟩
    · exact Or.inr hok

/-! ## The best level -/

/-- The quantity at the best price is that price, as a number. -/
def ReadsAlike (h : HybridVectorMap S) : Prop :=
  ∀ price, h.prices.getLast? = some price → h.qtyByPrice.lookup price = some price.toUInt64

/-- The last price of the vector is the best one, in either store. -/
theorem Mirrors.best (hm : Mirrors h l) :
    (h.prices = [] ∧ h.best = .ok ⟨0, 0⟩ ∧ l.best = .ok ⟨0, 0⟩) ∨
      ∃ price qty, h.prices.getLast? = some price ∧ h.qtyByPrice.lookup price = some qty ∧
        h.best = .ok ⟨price.toUInt64, qty.toUInt32⟩ ∧ l.best = .ok ⟨qty, price⟩ := by
  obtain ⟨hstep, hwf, hview⟩ := hm
  have htop := VectorLevelBSearchSplit.best_eq_top hwf.length
  have hspec := VectorLevelBSearchSplit.best_spec hwf
  rw [← hview] at hspec
  rw [htop]
  by_cases hne : h.prices = []
  · have hempty : h.qtyByPrice.view = LevelMap.empty := by
      funext p
      refine Finmap.lookup_eq_none.mpr fun hp => ?_
      rw [← hstep.keys, hne] at hp
      cases hp
    refine Or.inl ⟨hne, ?_, ?_⟩
    · rw [HybridVectorMap.best, hne]
      rfl
    · rw [hspec.unique (Or.inl ⟨hempty, rfl⟩)]
  · obtain ⟨A, price, hcut⟩ := (List.eq_nil_or_concat h.prices).resolve_left hne
    rw [List.concat_eq_append] at hcut
    have hlast : h.prices.getLast? = some price := by rw [hcut, List.getLast?_concat]
    have hin : price ∈ h.qtyByPrice := (hstep.keys _).mp (List.mem_of_getLast? hlast)
    obtain ⟨qty, hqty⟩ := Finmap.mem_iff.mp hin
    refine Or.inr ⟨price, qty, hlast, hqty, ?_, ?_⟩
    · rw [HybridVectorMap.best, if_pos (by simpa using hne), back, hlast, ok_bind, hqty]
      rfl
    · refine congrArg _ (hspec.unique (Or.inr ⟨hqty, fun p hp => ?_⟩))
      have hp' : p ∈ h.prices := (hstep.keys _).mpr (Finmap.lookup_isSome.mp hp)
      have hsorted := hstep.sorted
      rw [hcut] at hp' hsorted
      rcases List.mem_append.mp hp' with hp' | hp'
      · exact Or.inr ((List.pairwise_append.mp hsorted).2.2 p hp' price (List.mem_singleton_self _))
      · exact Or.inl (List.mem_singleton.mp hp')

theorem Mirrors.best_eq_iff (hm : Mirrors h l) : h.best = l.best ↔ h.ReadsAlike := by
  rcases hm.best with ⟨hnil, hh, hl⟩ | ⟨price, qty, hlast, hqty, hh, hl⟩
  · rw [hh, hl, ReadsAlike, hnil]
    exact iff_of_true rfl fun price h => by cases h
  · rw [hh, hl, ReadsAlike, hlast]
    constructor
    · intro he price' h'
      cases h'
      rw [hqty, (Level.mk.inj (Except.ok.inj he)).1]
    · intro hread
      have hsame := hread price rfl
      rw [hqty] at hsame
      cases hsame
      rw [UInt32.toUInt32_toUInt64]

end Step

/-! ## Runs -/

/-- Positive quantities leave something as long as no sum reaches `2 ^ 64`. -/
theorem leavesSomething_of_fits {calls : List LevelCall} (hpos : PositiveCalls calls)
    (hfit : Fits calls) : Along step LeavesSomething (init (S := S)) calls := by
  intro pre call post h he hrun
  have hpre : pre ++ [call] <+: calls := ⟨post, by rw [he]; simp⟩
  cases call with
  | remove level => trivial
  | add level =>
    have hpre' : pre <+: calls := (List.prefix_append pre _).trans hpre
    have hshows := (inStep_run (fun c hc => hpos c (hpre'.subset hc)) (hfit.before hpre') hrun).2
    exact sum_ne_zero hshows (hpos _ (last_mem hpre)) (hfit.before hpre)

/-- **Where the hybrid store is a drop-in.** The two runs abort together; otherwise the two stores
have the same map, and show the same level exactly where the quantity reads like the price. -/
theorem drop_in_iff {calls : List LevelCall}
    (hsum : Along step LeavesSomething (init (S := S)) calls) :
    (∃ fault fault', run VectorLevelBSearchSplit.step (VectorLevelBSearchSplit.init (S := S)) calls =
        .error fault ∧ run step (init (S := S)) calls = .error fault') ∨
      ∃ (l : VectorLevelBSearchSplit S) (h : HybridVectorMap S),
        run VectorLevelBSearchSplit.step VectorLevelBSearchSplit.init calls = .ok l ∧
        run step init calls = .ok h ∧ h.qtyByPrice.view = l.view ∧ (h.best = l.best ↔ h.ReadsAlike) := by
  rcases run_lockstep (R := fun l h => Mirrors h l) (F := fun _ _ => True)
      (fun l h call hm hcall => Mirrors.step hm call hcall) init_mirrors hsum with
    ⟨fault, fault', hl, hh, -⟩ | ⟨l, h, hl, hh, hm⟩
  · exact Or.inl ⟨fault, fault', hl, hh⟩
  · exact Or.inr ⟨l, h, hl, hh, hm.2.2, hm.best_eq_iff⟩

theorem drop_in_iff_sample : ∃ (l : VectorLevelBSearchSplit Side.Ask) (h : HybridVectorMap Side.Ask),
    run step init [.add ⟨7, 7⟩, .add ⟨3, 9⟩] = .ok h ∧
      run VectorLevelBSearchSplit.step VectorLevelBSearchSplit.init [.add ⟨7, 7⟩, .add ⟨3, 9⟩] = .ok l ∧
      h.best = l.best := by
  have hsum : Along step LeavesSomething (init (S := Side.Ask)) [.add ⟨7, 7⟩, .add ⟨3, 9⟩] := by
    apply leavesSomething_of_fits _ (fits_of_sum_lt (by decide))
    unfold PositiveCalls
    decide
  rcases drop_in_iff hsum with ⟨fault, fault', hl, -⟩ | ⟨l, h, hl, hh, -, hbest⟩
  · cases hl
  · refine ⟨l, h, hh, hl, hbest.mpr ?_⟩
    cases hh
    intro price hprice
    cases hprice
    rfl

/-- One bid of 10 at 100 is shown as 100 at 10. -/
theorem drop_in_swapped : PositiveCalls [.add ⟨10, 100⟩] ∧
    ∃ (l : VectorLevelBSearchSplit Side.Bid) (h : HybridVectorMap Side.Bid),
      run VectorLevelBSearchSplit.step VectorLevelBSearchSplit.init [.add ⟨10, 100⟩] = .ok l ∧
      run step init [.add ⟨10, 100⟩] = .ok h ∧
      l.best = .ok ⟨10, 100⟩ ∧ h.best = .ok ⟨100, 10⟩ ∧ h.best ≠ l.best := by
  have hpos : PositiveCalls [.add ⟨10, 100⟩] := by
    unfold PositiveCalls
    decide
  refine ⟨hpos, _, _, rfl, rfl, rfl, rfl, fun he => ?_⟩
  have hqty := (Level.mk.inj (Except.ok.inj he)).1
  exact absurd hqty (by decide)

end HybridVectorMap

end ItchIngestion.OB
