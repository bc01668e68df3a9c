import ItchIngestion.Levels.LevelMap

/-! # The binary-search store on two vectors (`vector_levels_b_search_split.hpp`)

`prices` runs from the worst price of the side to its best one, `qtys` in parallel. The three
operations are followed by the store's invariant `WellFormed`, by its meaning as a `LevelMap`
(`view`), and by one theorem for each operation that says all the rest of the development uses:
`add_spec`, `remove_spec` and `best_spec`.
-/
namespace ItchIngestion.OB
open Library
set_option autoImplicit false

/-- Prices and quantities in a vector each. -/
structure VectorLevelBSearchSplit (S : Side) where
  prices : List UInt32
  qtys : List UInt64
deriving DecidableEq

namespace VectorLevelBSearchSplit
variable {S : Side}

/-! ## The code -/

def init : VectorLevelBSearchSplit S := ⟨[], []⟩

def best (l : VectorLevelBSearchSplit S) : Except Fault Level :=
  if !l.prices.isEmpty then do
    let i := l.prices.length - 1
    let qty ← element l.qtys i
    let price ← element l.prices i
    return ⟨qty, price⟩
  else return ⟨0, 0⟩

/-- Both vectors lose an entry that runs empty; the report is about the back. -/
def remove (l : VectorLevelBSearchSplit S) (level : Level) :
    Except Fault (BestLvlChange × VectorLevelBSearchSplit S) := do
  let oldSize := l.prices.length
  let idx := lowerBound l.prices (fun lhs => decide (S.Worse lhs level.price))
  unexpected (l.prices[idx]? != some level.price) "Remove didn't find a level"
  let bestChanged := idx + 1 == oldSize
  let qty ← element l.qtys idx
  unexpected (decide (level.qty > qty)) "Remove underflow"
  let qtys := l.qtys.set idx (qty - level.qty)
  let l' : VectorLevelBSearchSplit S ←
    if qty - level.qty == 0 then do
      let prices ← eraseAt l.prices idx
      let qtys ← eraseAt qtys idx
      pure ⟨prices, qtys⟩
    else pure ⟨l.prices, qtys⟩
  if !bestChanged then return (BestLvlChange.none, l')
  if l'.prices.isEmpty then return (⟨0, 0, S⟩, l')
  let qty ← back l'.qtys
  let price ← back l'.prices
  return (⟨qty, price, S⟩, l')

/-- `bestChanged` also holds for a price right behind the best one. -/
def add (l : VectorLevelBSearchSplit S) (level : Level) :
    Except Fault (BestLvlChange × VectorLevelBSearchSplit S) := do
  let oldSize := l.prices.length
  let idx := lowerBound l.prices (fun lhs => decide (S.Worse lhs level.price))
  let bestChanged := oldSize == 0 || decide (idx + 1 ≥ oldSize)
  let l' : VectorLevelBSearchSplit S ←
    if l.prices[idx]? == some level.price then do
      let qty ← element l.qtys idx
      pure ⟨l.prices, l.qtys.set idx (qty + level.qty)⟩
    else do
      let prices ← insertAt l.prices idx level.price
      let qtys ← insertAt l.qtys idx level.qty
      pure ⟨prices, qtys⟩
  if bestChanged then
    let qty ← back l'.qtys
    let price ← back l'.prices
    return (⟨qty, price, S⟩, l')
  else return (BestLvlChange.none, l')

/-- One call of the interface; the report is dropped. -/
def step (l : VectorLevelBSearchSplit S) : LevelCall → Except Fault (VectorLevelBSearchSplit S)
  | .add level => Prod.snd <$> l.add level
  | .remove level => Prod.snd <$> l.remove level

instance : LevelStore VectorLevelBSearchSplit where
  init := init
  add := add
  remove := remove
  best l := do
    let level ← l.best
    return (level, l)

/-! ## The invariant and the meaning -/

/-- The prices are in order, and there is a quantity for each. -/
structure WellFormed (l : VectorLevelBSearchSplit S) : Prop where
  sorted : l.prices.Pairwise S.Worse
  length : l.prices.length = l.qtys.length

/-- The two vectors as a map. -/
def view (l : VectorLevelBSearchSplit S) : LevelMap := find l.prices l.qtys

/-- The last entry of both vectors. -/
def top (l : VectorLevelBSearchSplit S) : Level :=
  match l.prices.getLast?, l.qtys.getLast? with
  | some price, some qty => ⟨qty, price⟩
  | _, _ => ⟨0, 0⟩

theorem init_wellFormed : (init : VectorLevelBSearchSplit S).WellFormed :=
  ⟨List.Pairwise.nil, rfl⟩

theorem eq_of_view {l l' : VectorLevelBSearchSplit S} (h : l.WellFormed) (h' : l'.WellFormed)
    (hview : ∀ p, l.view p = l'.view p) : l = l' := by
  obtain ⟨prices, qtys⟩ := l
  obtain ⟨prices', qtys'⟩ := l'
  obtain ⟨rfl, rfl⟩ := columns_eq h.sorted h'.sorted h.length h'.length hview
  rfl

theorem top_append {A B : List UInt32} {QA QB : List UInt64} (hB : B ≠ [])
    (hl : B.length = QB.length) :
    top (⟨A ++ B, QA ++ QB⟩ : VectorLevelBSearchSplit S) = top (⟨B, QB⟩ : VectorLevelBSearchSplit S) := by
  have hQB : QB ≠ [] := by
    intro h
    rw [h, List.length_nil, List.length_eq_zero_iff] at hl
    exact hB hl
  obtain ⟨p, hp⟩ := Option.ne_none_iff_exists'.mp (mt List.getLast?_eq_none_iff.mp hB)
  obtain ⟨q, hq⟩ := Option.ne_none_iff_exists'.mp (mt List.getLast?_eq_none_iff.mp hQB)
  simp only [top, List.getLast?_append, hp, hq, Option.some_or]

theorem top_append_cons {A B : List UInt32} {QA QB : List UInt64} (hB : B ≠ [])
    (hl : B.length = QB.length) (p : UInt32) (q : UInt64) :
    top (⟨A ++ p :: B, QA ++ q :: QB⟩ : VectorLevelBSearchSplit S) =
      top (⟨B, QB⟩ : VectorLevelBSearchSplit S) := by
  have h := @top_append S (A ++ [p]) B (QA ++ [q]) QB hB hl
  rwa [List.append_assoc, List.append_assoc] at h

theorem back_top {l : VectorLevelBSearchSplit S} (hne : l.prices ≠ [])
    (hl : l.prices.length = l.qtys.length) :
    back l.qtys = .ok l.top.qty ∧ back l.prices = .ok l.top.price := by
  have hq : l.qtys ≠ [] := by
    intro h
    rw [h, List.length_nil, List.length_eq_zero_iff] at hl
    exact hne hl
  rw [back_of_ne_nil hne, back_of_ne_nil hq, top, List.getLast?_eq_some_getLast hne,
    List.getLast?_eq_some_getLast hq]
  exact ⟨rfl, rfl⟩

/-! ## `best` -/

theorem best_eq_top {l : VectorLevelBSearchSplit S} (hl : l.prices.length = l.qtys.length) :
    l.best = .ok l.top := by
  obtain ⟨prices, qtys⟩ := l
  cases prices using List.reverseRecOn with
  | nil => rfl
  | append_singleton A p =>
    cases qtys using List.reverseRecOn with
    | nil => simp at hl
    | append_singleton QA q =>
      have hA : A.length = QA.length := by simpa using hl
      have hi : (A ++ [p]).length - 1 = A.length := by simp
      have hne : (A ++ [p]).isEmpty = false := by simp
      simp only [best, hi, hne, element_middle p rfl, element_middle q hA.symm, top,
        List.getLast?_concat]
      rfl

theorem best_spec {l : VectorLevelBSearchSplit S} (h : l.WellFormed) :
    LevelMap.IsBest S l.view l.top := by
  obtain ⟨prices, qtys⟩ := l
  obtain ⟨hs, hl⟩ := h
  dsimp only at hs hl
  cases prices using List.reverseRecOn with
  | nil => exact Or.inl ⟨rfl, rfl⟩
  | append_singleton A p =>
    cases qtys using List.reverseRecOn with
    | nil => simp at hl
    | append_singleton QA q =>
      have hA : A.length = QA.length := by simpa using hl
      have hbefore : ∀ a ∈ A, S.Worse a p := fun a ha =>
        (List.pairwise_append.mp hs).2.2 a ha p (List.mem_singleton_self p)
      have htop : top (⟨A ++ [p], QA ++ [q]⟩ : VectorLevelBSearchSplit S) = ⟨q, p⟩ := by simp [top]
      rw [htop]
      refine Or.inr ⟨?_, ?_⟩
      · rw [view, find_middle q hA (notMem_before hbefore), Function.update_self]
      · intro x hx
        have hmem : x ∈ A ++ [p] := (find_isSome hl).mp hx
        rw [List.mem_append, List.mem_singleton] at hmem
        exact hmem.elim (fun h => Or.inr (hbefore x h)) Or.inl

/-! ## `add` -/

/-- The last lines of `add`: the report read off the updated vectors. -/
theorem report_eq {l : VectorLevelBSearchSplit S} (hne : l.prices ≠ [])
    (hl : l.prices.length = l.qtys.length) (changed : Bool) :
    (if changed then do
        let qty ← back l.qtys
        let price ← back l.prices
        return (⟨qty, price, S⟩, l)
      else return (BestLvlChange.none, l) : Except Fault (BestLvlChange × VectorLevelBSearchSplit S)) =
      .ok (if changed then ⟨l.top.qty, l.top.price, S⟩ else BestLvlChange.none, l) := by
  obtain ⟨hq, hp⟩ := back_top hne hl
  cases changed with
  | false => rfl
  | true => rw [if_pos rfl, hq, hp]; rfl

theorem add_found {A B : List UInt32} {QA QB : List UInt64} {p : UInt32} (q qty : UInt64)
    (hl : A.length = QA.length) (hr : B.length = QB.length) (hA : ∀ a ∈ A, S.Worse a p)
    (hB : ∀ b ∈ B, S.Worse p b) :
    add (⟨A ++ p :: B, QA ++ q :: QB⟩ : VectorLevelBSearchSplit S) ⟨qty, p⟩ =
      let l' : VectorLevelBSearchSplit S := ⟨A ++ p :: B, QA ++ (q + qty) :: QB⟩
      .ok (if B = [] then ⟨l'.top.qty, l'.top.price, S⟩ else BestLvlChange.none, l') := by
  have hidx : lowerBound (A ++ p :: B) (fun lhs => decide (S.Worse lhs p)) = A.length := by
    apply lowerBound_sorted A (p :: B) p hA
    intro b hb
    cases hb with
    | head => exact irrefl_of S.Worse p
    | tail _ hb => exact asymm_of S.Worse (hB b hb)
  have hchanged : ((A ++ p :: B).length == 0 || decide (A.length + 1 ≥ (A ++ p :: B).length)) =
      decide (B = []) := by
    cases B with
    | nil => simp
    | cons b B => simp
  have hrep := report_eq (S := S) (l := ⟨A ++ p :: B, QA ++ (q + qty) :: QB⟩) (by simp)
    (by simp [hl, hr]) (decide (B = []))
  simp only [decide_eq_true_eq, pure_eq_ok] at hrep
  simp only [add, hidx, hchanged, List.getElem?_append_right (le_refl _), Nat.sub_self,
    List.getElem?_cons_zero, beq_self_eq_true, if_true, element_middle q hl.symm, ok_bind,
    pure_eq_ok, set_middle q (q + qty) hl.symm, decide_eq_true_eq]
  exact hrep

theorem add_absent {A B : List UInt32} {QA QB : List UInt64} {p : UInt32} (qty : UInt64)
    (hl : A.length = QA.length) (hr : B.length = QB.length) (hA : ∀ a ∈ A, S.Worse a p)
    (hB : ∀ b ∈ B, S.Worse p b) :
    add (⟨A ++ B, QA ++ QB⟩ : VectorLevelBSearchSplit S) ⟨qty, p⟩ =
      let l' : VectorLevelBSearchSplit S := ⟨A ++ p :: B, QA ++ qty :: QB⟩
      .ok (if B.length ≤ 1 then ⟨l'.top.qty, l'.top.price, S⟩ else BestLvlChange.none, l') := by
  have hidx : lowerBound (A ++ B) (fun lhs => decide (S.Worse lhs p)) = A.length :=
    lowerBound_sorted A B p hA fun b hb => asymm_of S.Worse (hB b hb)
  have hnext : ((A ++ B)[A.length]? == some p) = false := by
    rw [List.getElem?_append_right (le_refl _), Nat.sub_self]
    cases B with
    | nil => rfl
    | cons b B =>
      have hne : b ≠ p := fun e => irrefl_of S.Worse p (e ▸ hB b (List.mem_cons_self ..))
      simpa using hne
  have hchanged : ((A ++ B).length == 0 || decide (A.length + 1 ≥ (A ++ B).length)) =
      decide (B.length ≤ 1) := by
    rw [Bool.eq_iff_iff]
    simp only [Bool.or_eq_true, beq_iff_eq, decide_eq_true_eq, List.length_append]
    omega
  have hrep := report_eq (S := S) (l := ⟨A ++ p :: B, QA ++ qty :: QB⟩) (by simp)
    (by simp [hl, hr]) (decide (B.length ≤ 1))
  simp only [decide_eq_true_eq, pure_eq_ok] at hrep
  simp only [add, hidx, hchanged, hnext, Bool.false_eq_true, if_false, insertAt_middle p rfl,
    insertAt_middle qty hl.symm, ok_bind, pure_eq_ok, decide_eq_true_eq]
  exact hrep

/-- **What `add` does.** -/
theorem add_spec {l : VectorLevelBSearchSplit S} (h : l.WellFormed) (level : Level) :
    ∃ change l', l.add level = .ok (change, l') ∧ l'.WellFormed ∧ l'.view = l.view.add level ∧
      Reports S l.top l'.top change := by
  obtain ⟨prices, qtys⟩ := l
  obtain ⟨hs, hlen⟩ := h
  obtain ⟨qty, p⟩ := level
  dsimp only at hs hlen
  cases locate hs hlen p with
  | found A B QA q QB hl hr hA hB =>
    refine ⟨_, _, add_found q qty hl hr hA hB, ⟨hs, by simp [hl, hr]⟩, ?_, ?_⟩
    · have hbefore := notMem_before hA
      simp only [view, LevelMap.add, find_middle _ hl hbefore, Function.update_self,
        Option.getD_some, Function.update_idem]
    · by_cases hB' : B = []
      · rw [if_pos hB']
        exact Or.inr rfl
      · rw [if_neg hB']
        refine Or.inl ⟨rfl, ?_⟩
        rw [top_append_cons hB' hr, top_append_cons hB' hr]
  | absent A B QA QB hl hr hA hB =>
    refine ⟨_, _, add_absent qty hl hr hA hB, ⟨pairwise_insert hs hA hB, by simp [hl, hr]⟩, ?_, ?_⟩
    · have hnone : find (A ++ B) (QA ++ QB) p = none := find_absent (notMem_around hA hB)
      simp only [view, LevelMap.add, find_middle _ hl (notMem_before hA), hnone, Option.getD_none,
        zero_add]
    · by_cases hB' : B.length ≤ 1
      · rw [if_pos hB']
        exact Or.inr rfl
      · rw [if_neg hB']
        refine Or.inl ⟨rfl, ?_⟩
        have hne : B ≠ [] := by
          rintro rfl
          simp at hB'
        rw [top_append_cons hne hr, top_append hne hr]

/-! ## `remove` -/

/-- The last lines of `remove`: a side that ran empty reports the empty level. -/
theorem report_or_empty_eq {l : VectorLevelBSearchSplit S}
    (hl : l.prices.length = l.qtys.length) (changed : Bool) :
    (if !changed then return (BestLvlChange.none, l)
      else if l.prices.isEmpty then return (⟨0, 0, S⟩, l)
      else do
        let qty ← back l.qtys
        let price ← back l.prices
        return (⟨qty, price, S⟩, l) : Except Fault (BestLvlChange × VectorLevelBSearchSplit S)) =
      .ok (if changed then ⟨l.top.qty, l.top.price, S⟩ else BestLvlChange.none, l) := by
  cases changed with
  | false => rfl
  | true =>
    by_cases hne : l.prices = []
    · obtain ⟨prices, qtys⟩ := l
      dsimp only at hne
      subst hne
      rfl
    · have hemp : l.prices.isEmpty = false := by simpa using hne
      obtain ⟨hq, hp⟩ := back_top hne hl
      simp only [hemp, hq, hp, Bool.not_true, Bool.false_eq_true, if_false, ok_bind, pure_eq_ok, if_true]

theorem remove_absent {A B : List UInt32} {QA QB : List UInt64} {p : UInt32} (qty : UInt64)
    (hA : ∀ a ∈ A, S.Worse a p) (hB : ∀ b ∈ B, S.Worse p b) :
    remove (⟨A ++ B, QA ++ QB⟩ : VectorLevelBSearchSplit S) ⟨qty, p⟩ =
      .error (.unexpected "Remove didn't find a level") := by
  have hidx : lowerBound (A ++ B) (fun lhs => decide (S.Worse lhs p)) = A.length :=
    lowerBound_sorted A B p hA fun b hb => asymm_of S.Worse (hB b hb)
  have hnext : ((A ++ B)[A.length]? != some p) = true := by
    rw [List.getElem?_append_right (le_refl _), Nat.sub_self]
    cases B with
    | nil => rfl
    | cons b B =>
      have hne : b ≠ p := fun e => irrefl_of S.Worse p (e ▸ hB b (List.mem_cons_self ..))
      simpa using hne
  simp only [remove, hidx, hnext, unexpected_true, error_bind]

section Found
variable {A B : List UInt32} {QA QB : List UInt64} {p : UInt32} {q qty : UInt64}
  (hl : A.length = QA.length) (hr : B.length = QB.length) (hA : ∀ a ∈ A, S.Worse a p)
  (hB : ∀ b ∈ B, S.Worse p b)
include hl hA hB

/-- Up to the underflow check the two outcomes of a removal run alike. -/
theorem remove_found_eq (l : VectorLevelBSearchSplit S)
    (hl' : l = ⟨A ++ p :: B, QA ++ q :: QB⟩) :
    remove l ⟨qty, p⟩ = do
      unexpected (decide (qty > q)) "Remove underflow"
      let l' : VectorLevelBSearchSplit S ←
        if q - qty == 0 then pure ⟨A ++ B, QA ++ QB⟩
        else pure ⟨A ++ p :: B, QA ++ (q - qty) :: QB⟩
      if !decide (B = []) then return (BestLvlChange.none, l')
      if l'.prices.isEmpty then return (⟨0, 0, S⟩, l')
      let qty ← back l'.qtys
      let price ← back l'.prices
      return (⟨qty, price, S⟩, l') := by
  subst hl'
  have hidx : lowerBound (A ++ p :: B) (fun lhs => decide (S.Worse lhs p)) = A.length := by
    apply lowerBound_sorted A (p :: B) p hA
    intro b hb
    cases hb with
    | head => exact irrefl_of S.Worse p
    | tail _ hb => exact asymm_of S.Worse (hB b hb)
  have hhere : ((A ++ p :: B)[A.length]? != some p) = false := by simp
  have hchanged : (A.length + 1 == (A ++ p :: B).length) = decide (B = []) := by
    cases B with
    | nil => simp
    | cons b B => simp
  simp only [remove, hidx, hhere, hchanged, unexpected_false, ok_bind, element_middle q hl.symm,
    set_middle q _ hl.symm, eraseAt_middle p rfl, eraseAt_middle (q - qty) hl.symm]

theorem remove_underflow (h : q < qty) :
    remove (⟨A ++ p :: B, QA ++ q :: QB⟩ : VectorLevelBSearchSplit S) ⟨qty, p⟩ =
      .error (.unexpected "Remove underflow") := by
  have hc : decide (qty > q) = true := by simpa using h
  rw [remove_found_eq hl hA hB _ rfl, hc, unexpected_true, error_bind]

include hr in
theorem remove_found (h : ¬ q < qty) :
    remove (⟨A ++ p :: B, QA ++ q :: QB⟩ : VectorLevelBSearchSplit S) ⟨qty, p⟩ =
      let l' : VectorLevelBSearchSplit S :=
        if q - qty = 0 then ⟨A ++ B, QA ++ QB⟩ else ⟨A ++ p :: B, QA ++ (q - qty) :: QB⟩
      .ok (if B = [] then ⟨l'.top.qty, l'.top.price, S⟩ else BestLvlChange.none, l') := by
  have hc : decide (qty > q) = false := by simpa using h
  rw [remove_found_eq hl hA hB _ rfl, hc, unexpected_false, ok_bind]
  by_cases hz : q - qty = 0
  · have hrep := report_or_empty_eq (S := S) (l := ⟨A ++ B, QA ++ QB⟩) (by simp [hl, hr])
      (decide (B = []))
    simp only [decide_eq_true_eq] at hrep
    simp only [hz, if_true]
    exact hrep
  · have hz' : (q - qty == 0) = false := by simpa using hz
    have hrep := report_or_empty_eq (S := S) (l := ⟨A ++ p :: B, QA ++ (q - qty) :: QB⟩)
      (by simp [hl, hr]) (decide (B = []))
    simp only [decide_eq_true_eq] at hrep
    simp only [hz', hz, if_false, Bool.false_eq_true]
    exact hrep

end Found

/-- **What `remove` does.** -/
theorem remove_spec {l : VectorLevelBSearchSplit S} (h : l.WellFormed) (level : Level) :
    (∃ fault, l.view.remove level = .error fault ∧ l.remove level = .error fault) ∨
      ∃ change l', l.remove level = .ok (change, l') ∧ l'.WellFormed ∧
        l.view.remove level = .ok l'.view ∧ Reports S l.top l'.top change := by
  obtain ⟨prices, qtys⟩ := l
  obtain ⟨hs, hlen⟩ := h
  obtain ⟨qty, p⟩ := level
  dsimp only at hs hlen
  cases locate hs hlen p with
  | absent A B QA QB hl hr hA hB =>
    refine Or.inl ⟨_, ?_, remove_absent qty hA hB⟩
    have hnone : find (A ++ B) (QA ++ QB) p = none := find_absent (notMem_around hA hB)
    simp only [LevelMap.remove, view, hnone]
  | found A B QA q QB hl hr hA hB =>
    have hview : view (⟨A ++ p :: B, QA ++ q :: QB⟩ : VectorLevelBSearchSplit S) =
        Function.update (find (A ++ B) (QA ++ QB)) p (some q) := find_middle q hl (notMem_before hA)
    by_cases hq : q < qty
    · refine Or.inl ⟨_, ?_, remove_underflow hl hA hB hq⟩
      simp only [LevelMap.remove, hview, Function.update_self, hq, if_true]
    · refine Or.inr ⟨_, _, remove_found hl hr hA hB hq, ?_, ?_, ?_⟩
      · by_cases hz : q - qty = 0
        · rw [if_pos hz]
          exact ⟨pairwise_erase hs, by simp [hl, hr]⟩
        · rw [if_neg hz]
          exact ⟨hs, by simp [hl, hr]⟩
      · have hnone : find (A ++ B) (QA ++ QB) p = none := find_absent (notMem_around hA hB)
        simp only [LevelMap.remove, hview, Function.update_self, hq, if_false, Function.update_idem]
        by_cases hz : q - qty = 0
        · simp only [hz, if_true, view, Except.ok.injEq]
          rw [← hnone, Function.update_eq_self]
        · simp only [hz, if_false, view, find_middle _ hl (notMem_before hA)]
      · by_cases hB' : B = []
        · rw [if_pos hB']
          exact Or.inr rfl
        · rw [if_neg hB']
          refine Or.inl ⟨rfl, ?_⟩
          by_cases hz : q - qty = 0
          · rw [if_pos hz, top_append hB' hr, top_append_cons hB' hr]
          · rw [if_neg hz, top_append_cons hB' hr, top_append_cons hB' hr]

end VectorLevelBSearchSplit

end ItchIngestion.OB
