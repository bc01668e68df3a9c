import ItchIngestion.Levels.VectorLevelBSearchSplit
import ItchIngestion.Library.Run

/-! # Notifications without a change

A returned side announces a new best level. `remove` announces one only when there is one. `add`
compares the insertion index with the old size, so a price inserted right behind the best one counts
as a change, although the best level is what it was; everywhere else `add` is right as well.

Which calls announce anything can be told from the prices before the call (`AtFront`).
-/
namespace ItchIngestion.OB
open Library
set_option autoImplicit false

/-- At most one of the prices of a side is as good as `price`: it is the best one, it would be, or it
would come right behind the best one. -/
def Side.AtFront (S : Side) (prices : List UInt32) (price : UInt32) : Prop :=
  (prices.filter fun p => decide (¬ S.Worse p price)).length ≤ 1

instance (S : Side) (prices : List UInt32) (price : UInt32) : Decidable (S.AtFront prices price) :=
  inferInstanceAs (Decidable (_ ≤ 1))

namespace VectorLevelBSearchSplit

variable {S : Side}

/-! ## What is announced -/

theorem atFront_around {A B : List UInt32} {p : UInt32} (hA : ∀ a ∈ A, S.Worse a p)
    (hB : ∀ b ∈ B, ¬ S.Worse b p) : S.AtFront (A ++ B) p ↔ B.length ≤ 1 := by
  have hfilter : (A ++ B).filter (fun x => decide (¬ S.Worse x p)) = B := by
    rw [List.filter_append, List.filter_eq_nil_iff.mpr, List.filter_eq_self.mpr, List.nil_append]
    · intro b hb
      simpa using hB b hb
    · intro a ha
      simpa using hA a ha
  rw [Side.AtFront, hfilter]

theorem atFront_found {A B : List UInt32} {p : UInt32} (hA : ∀ a ∈ A, S.Worse a p)
    (hB : ∀ b ∈ B, S.Worse p b) : S.AtFront (A ++ p :: B) p ↔ B = [] := by
  have hrest : ∀ b ∈ p :: B, ¬ S.Worse b p :=
    List.forall_mem_cons.mpr ⟨irrefl_of S.Worse p, fun b hb => asymm_of S.Worse (hB b hb)⟩
  rw [atFront_around hA hrest, List.length_cons, ← List.length_eq_zero_iff]
  omega

section Announced
variable {l l' : VectorLevelBSearchSplit S} {level : Level} {change : BestLvlChange}

theorem announced_ite (hS : S ≠ Side.None) {c : Prop} [Decidable c] {level : Level} :
    (if c then (⟨level.qty, level.price, S⟩ : BestLvlChange) else BestLvlChange.none).side ≠ Side.None ↔
      c := by
  by_cases hc : c
  · rw [if_pos hc]
    exact iff_of_true hS hc
  · rw [if_neg hc]
    exact iff_of_false (fun h => h rfl) hc

theorem add_announces_iff (hS : S ≠ Side.None) (h : l.WellFormed)
    (hadd : l.add level = .ok (change, l')) :
    change.side ≠ Side.None ↔ S.AtFront l.prices level.price := by
  obtain ⟨prices, qtys⟩ := l
  obtain ⟨hs, hlen⟩ := h
  obtain ⟨qty, p⟩ := level
  dsimp only at hs hlen
  cases locate hs hlen p with
  | found A B QA q QB hl hr hA hB =>
    rw [add_found q qty hl hr hA hB] at hadd
    cases hadd
    rw [announced_ite hS, atFront_found hA hB]
  | absent A B QA QB hl hr hA hB =>
    rw [add_absent qty hl hr hA hB] at hadd
    cases hadd
    rw [announced_ite hS, atFront_around hA fun b hb => asymm_of S.Worse (hB b hb)]

/-- `remove` announces what it takes from the best level, and leaves its price unless it takes all. -/
theorem remove_announces_iff (hS : S ≠ Side.None) (h : l.WellFormed)
    (hrem : l.remove level = .ok (change, l')) :
    (change.side ≠ Side.None ↔ S.AtFront l.prices level.price) ∧
      l'.prices = if l.view level.price = some level.qty then l.prices.erase level.price else l.prices := by
  obtain ⟨prices, qtys⟩ := l
  obtain ⟨hs, hlen⟩ := h
  obtain ⟨qty, p⟩ := level
  dsimp only at hs hlen
  cases locate hs hlen p with
  | absent A B QA QB hl hr hA hB =>
    rw [remove_absent qty hA hB] at hrem
    cases hrem
  | found A B QA q QB hl hr hA hB =>
    have hnot := notMem_before hA
    have hview : view (⟨A ++ p :: B, QA ++ q :: QB⟩ : VectorLevelBSearchSplit S) p = some q := by
      rw [view, find_middle q hl hnot, Function.update_self]
    by_cases hlt : q < qty
    · rw [remove_underflow hl hA hB hlt] at hrem
      cases hrem
    rw [remove_found hl hr hA hB hlt] at hrem
    cases hrem
    refine ⟨?_, ?_⟩
    · rw [announced_ite hS, atFront_found hA hB]
    · dsimp only
      rw [hview, List.erase_append_right _ hnot, List.erase_cons_head]
      by_cases hz : q - qty = 0
      · have hall : q = qty := by
          have := congrArg (· + qty) hz
          simpa using this
        rw [if_pos hz, if_pos (congrArg some hall)]
      · have hpart : some q ≠ some qty := by
          rintro ⟨rfl⟩
          exact hz (by simp)
        rw [if_neg hz, if_neg hpart]

end Announced

/-! ## What is announced without a change -/

/-- The price is not stored, and exactly one stored price is better. -/
def NextToBest (l : VectorLevelBSearchSplit S) (price : UInt32) : Prop :=
  price ∉ l.prices ∧ (l.prices.filter fun p => decide (S.Worse price p)).length = 1

instance (l : VectorLevelBSearchSplit S) (price : UInt32) : Decidable (l.NextToBest price) :=
  inferInstanceAs (Decidable (_ ∧ _))

theorem top_concat (A : List UInt32) (QA : List UInt64) (p : UInt32) (q : UInt64) :
    top (⟨A ++ [p], QA ++ [q]⟩ : VectorLevelBSearchSplit S) = ⟨q, p⟩ := by
  rw [top, List.getLast?_concat, List.getLast?_concat]

theorem top_price_mem {l : VectorLevelBSearchSplit S} (h : l.top ≠ ⟨0, 0⟩) : l.top.price ∈ l.prices := by
  rw [top] at h ⊢
  split
  next price qty hp hq => exact List.mem_of_getLast? hp
  next hnone =>
    split at h
    next price qty hp hq => exact absurd hq (hnone price qty hp)
    next => exact absurd rfl h

theorem top_ne_of_absent {l : VectorLevelBSearchSplit S} {p : UInt32} (h : p ∉ l.prices) {q : UInt64}
    (hq : 0 < q) : l.top ≠ ⟨q, p⟩ := by
  intro htop
  apply h
  have hne : l.top ≠ ⟨0, 0⟩ := by
    rw [htop]
    intro e
    obtain ⟨rfl, -⟩ := Level.mk.inj e
    exact UInt64.lt_irrefl 0 hq
  have hmem := top_price_mem hne
  rwa [htop] at hmem

theorem nextToBest_iff {A B : List UInt32} {Q : List UInt64} {p : UInt32}
    (hA : ∀ a ∈ A, S.Worse a p) (hB : ∀ b ∈ B, S.Worse p b) :
    (⟨A ++ B, Q⟩ : VectorLevelBSearchSplit S).NextToBest p ↔ B.length = 1 := by
  have hfilter : (A ++ B).filter (fun x => decide (S.Worse p x)) = B := by
    rw [List.filter_append, List.filter_eq_nil_iff.mpr, List.filter_eq_self.mpr, List.nil_append]
    · intro b hb
      simpa using hB b hb
    · intro a ha
      simpa using asymm_of S.Worse (hA a ha)
  rw [NextToBest, hfilter, and_iff_right (notMem_around hA hB)]

theorem add_report {l : VectorLevelBSearchSplit S} (h : l.WellFormed) {level : Level}
    (hq : 0 < level.qty) : ∃ change l', l.add level = .ok (change, l') ∧
      ((l.NextToBest level.price ∧ change.side = S ∧ l'.top = l.top) ∨
        (¬ l.NextToBest level.price ∧ (change.side = Side.None ∨ l'.top ≠ l.top))) := by
  obtain ⟨prices, qtys⟩ := l
  obtain ⟨hs, hlen⟩ := h
  obtain ⟨qty, p⟩ := level
  dsimp only at hs hlen hq
  cases locate hs hlen p with
  | found A B QA q QB hl hr hA hB =>
    refine ⟨_, _, add_found q qty hl hr hA hB, Or.inr ⟨fun hn => hn.1 (by simp), ?_⟩⟩
    by_cases hB' : B = []
    · subst hB'
      obtain rfl := List.length_eq_zero_iff.mp hr.symm
      right
      rw [top_concat, top_concat]
      intro e
      obtain ⟨e, -⟩ := Level.mk.inj e
      have h0 : qty = 0 := by simpa using e
      rw [h0] at hq
      exact UInt64.lt_irrefl 0 hq
    · rw [if_neg hB']
      exact Or.inl rfl
  | absent A B QA QB hl hr hA hB =>
    refine ⟨_, _, add_absent qty hl hr hA hB, ?_⟩
    rw [nextToBest_iff hA hB]
    match B, QB, hr, hB with
    | [], [], _, hB =>
      refine Or.inr ⟨by simp, Or.inr ?_⟩
      rw [top_concat]
      refine (top_ne_of_absent ?_ hq).symm
      exact notMem_around hA hB
    | [b], [r], hr, _ =>
      refine Or.inl ⟨rfl, rfl, ?_⟩
      rw [top_append_cons (by simp) hr, top_append (by simp) hr]
    | _ :: _ :: _, _, _, _ => exact Or.inr ⟨by simp, Or.inl (by simp [BestLvlChange.none])⟩

theorem remove_report {l l' : VectorLevelBSearchSplit S} (h : l.WellFormed) {level : Level}
    (hq : 0 < level.qty) {change : BestLvlChange} (hrem : l.remove level = .ok (change, l')) :
    change.side = Side.None ∨ l'.top ≠ l.top := by
  obtain ⟨prices, qtys⟩ := l
  obtain ⟨hs, hlen⟩ := h
  obtain ⟨qty, p⟩ := level
  dsimp only at hs hlen hq
  cases locate hs hlen p with
  | absent A B QA QB hl hr hA hB =>
    rw [remove_absent qty hA hB] at hrem
    cases hrem
  | found A B QA q QB hl hr hA hB =>
    by_cases hlt : q < qty
    · rw [remove_underflow hl hA hB hlt] at hrem
      cases hrem
    rw [remove_found hl hr hA hB hlt] at hrem
    cases hrem
    by_cases hB' : B = []
    · right
      subst hB'
      obtain rfl := List.length_eq_zero_iff.mp hr.symm
      have hle : qty ≤ q := UInt64.not_lt.mp hlt
      have hpos : 0 < q := UInt64.lt_of_lt_of_le hq hle
      by_cases hz : q - qty = 0
      · rw [if_pos hz, top_concat]
        refine top_ne_of_absent ?_ hpos
        exact notMem_around hA hB
      · rw [if_neg hz, top_concat, top_concat]
        intro e
        obtain ⟨e, -⟩ := Level.mk.inj e
        have h0 : qty = 0 := by simpa using e
        rw [h0] at hq
        exact UInt64.lt_irrefl 0 hq
    · rw [if_neg hB']
      exact Or.inl rfl

/-! ## Reachable stores -/

theorem step_wellFormed {l l' : VectorLevelBSearchSplit S} {call : LevelCall} (h : l.WellFormed)
    (hstep : l.step call = .ok l') : l'.WellFormed := by
  cases call with
  | add level =>
    obtain ⟨change, l₁, hadd, hwf, -⟩ := add_spec h level
    rw [step, hadd] at hstep
    cases hstep
    exact hwf
  | remove level =>
    rcases remove_spec h level with ⟨fault, -, hrem⟩ | ⟨change, l₁, hrem, hwf, -⟩
    · rw [step, hrem] at hstep
      cases hstep
    · rw [step, hrem] at hstep
      cases hstep
      exact hwf

theorem run_wellFormed {calls : List LevelCall} {l : VectorLevelBSearchSplit S}
    (h : run step init calls = .ok l) : l.WellFormed :=
  run_invariant WellFormed init_wellFormed (fun _ _ _ hwf hstep => step_wellFormed hwf hstep) h

/-- **Where a notification is spurious.** -/
theorem notified_iff (hS : S = Side.Bid ∨ S = Side.Ask) {calls : List LevelCall}
    {l : VectorLevelBSearchSplit S} (hrun : run step init calls = .ok l) {level : Level}
    (hq : 0 < level.qty) :
    ((∀ change l', l.add level = .ok (change, l') → change.side ≠ Side.None → l'.best ≠ l.best) ↔
        ¬ l.NextToBest level.price) ∧
      ∀ change l', l.remove level = .ok (change, l') → change.side ≠ Side.None → l'.best ≠ l.best := by
  have hwf := run_wellFormed hrun
  have hbest := best_eq_top hwf.length
  refine ⟨?_, ?_⟩
  · obtain ⟨change, l', hadd, hreport⟩ := add_report hwf hq
    have hstep : step l (.add level) = .ok l' := by
      rw [step, hadd]
      rfl
    have hbest' := best_eq_top (step_wellFormed hwf hstep).length
    rcases hreport with ⟨hnext, hside, htop⟩ | ⟨hnext, hok⟩
    · refine iff_of_false (fun h => ?_) (not_not_intro hnext)
      refine h change l' hadd (hside ▸ Side.ne_none hS) ?_
      rw [hbest, hbest', htop]
    · refine iff_of_true ?_ hnext
      intro change₁ l₁ hadd₁ hside
      rw [hadd] at hadd₁
      cases hadd₁
      rw [hbest, hbest']
      exact fun e => hok.elim hside fun hne => hne (Except.ok.inj e)
  · intro change l' hrem hside
    have hstep : step l (.remove level) = .ok l' := by
      rw [step, hrem]
      rfl
    have hbest' := best_eq_top (step_wellFormed hwf hstep).length
    rw [hbest, hbest']
    exact fun e => (remove_report hwf hq hrem).elim hside fun hne => hne (Except.ok.inj e)

/-- A better price stays in front: 5 at 10, then 3 at 9. -/
theorem spurious_notification : ∃ l l' change,
    run step (init (S := Side.Bid)) [.add ⟨5, 10⟩] = .ok l ∧ l.add ⟨3, 9⟩ = .ok (change, l') ∧
      change.side ≠ Side.None ∧ l'.best = l.best :=
  ⟨⟨[10], [5]⟩, ⟨[9, 10], [3, 5]⟩, ⟨5, 10, Side.Bid⟩, by decide, by decide, by decide, by decide⟩

theorem notified_new_best : ∃ l l' change,
    run step (init (S := Side.Bid)) [.add ⟨5, 10⟩] = .ok l ∧ l.add ⟨3, 11⟩ = .ok (change, l') ∧
      change.side ≠ Side.None ∧ l'.best ≠ l.best := by
  have h := @notified_iff Side.Bid (.inl rfl) [.add ⟨5, 10⟩] ⟨[10], [5]⟩ (by decide) ⟨3, 11⟩
    (by decide)
  refine ⟨⟨[10], [5]⟩, ⟨[10, 11], [5, 3]⟩, ⟨3, 11, Side.Bid⟩, by decide, by decide, by decide, ?_⟩
  exact h.1.mpr (by decide) ⟨3, 11, Side.Bid⟩ _ (by decide) (by decide)

end VectorLevelBSearchSplit

end ItchIngestion.OB
