import ItchIngestion.Levels.BTreeLevels
import ItchIngestion.Levels.VectorLevelBSearch
import ItchIngestion.Library.Run

/-! # The optimised stores refine the ordered map

The store on two vectors is the pivot. The store on one vector is in lockstep with it through
`VectorLevelBSearch.split`, the tree through the map that both denote. The columns of a sorted store
are determined by its map, so the tree read from its end lists the vectors.
-/
namespace ItchIngestion.OB
open Library
set_option autoImplicit false

variable {S : Side}

/-- Both calls end in `UNEXPECTED`. -/
def BothAbort (fault fault' : Fault) : Prop :=
  ∃ message message', fault = .unexpected message ∧ fault' = .unexpected message'

/-! ## One vector and two -/

namespace VectorLevelBSearch

theorem columns_worse {X : List Level} {p : UInt32} (hX : ∀ x ∈ X, S.Worse x.price p) :
    ∀ a ∈ X.map Level.price, S.Worse a p := by simpa using hX

theorem columns_better {Y : List Level} {p : UInt32} (hY : ∀ y ∈ Y, S.Worse p y.price) :
    ∀ b ∈ Y.map Level.price, S.Worse p b := by simpa using hY

theorem columns_length (X : List Level) :
    (X.map Level.price).length = (X.map Level.qty).length := by
  rw [List.length_map, List.length_map]

theorem split_add {v : VectorLevelBSearch S} (hs : Sorted S v.levels) (level : Level) :
    ∃ v', v.split.step (.add level) = .ok v'.split ∧ v.add level = .ok v' ∧ Sorted S v'.levels := by
  obtain ⟨levels⟩ := v
  obtain ⟨qty, p⟩ := level
  dsimp only at hs
  cases locateLevel hs p with
  | found X q Y hX hY =>
    refine ⟨_, ?_, add_found hX hY q qty, hs.setQty _⟩
    have hl := VectorLevelBSearchSplit.add_found q qty (columns_length X) (columns_length Y)
      (columns_worse hX) (columns_better hY)
    rw [split_middle, split_middle, VectorLevelBSearchSplit.step, hl]
    rfl
  | absent X Y hX hY =>
    refine ⟨_, ?_, add_absent hX hY qty, hs.insert hX hY qty⟩
    have hl := VectorLevelBSearchSplit.add_absent qty (columns_length X) (columns_length Y)
      (columns_worse hX) (columns_better hY)
    rw [split_append, split_middle, VectorLevelBSearchSplit.step, hl]
    rfl

theorem split_remove {v : VectorLevelBSearch S} (hs : Sorted S v.levels) (level : Level) :
    (∃ fault fault', v.split.step (.remove level) = .error fault ∧ v.remove level = .error fault' ∧
        BothAbort fault fault') ∨
      ∃ v', v.split.step (.remove level) = .ok v'.split ∧ v.remove level = .ok v' ∧
        Sorted S v'.levels := by
  obtain ⟨levels⟩ := v
  obtain ⟨qty, p⟩ := level
  dsimp only at hs
  cases locateLevel hs p with
  | found X q Y hX hY =>
    have hv := remove_found hX hY q qty
    rw [split_middle, VectorLevelBSearchSplit.step]
    by_cases hlt : q < qty
    · rw [if_pos hlt] at hv
      rw [VectorLevelBSearchSplit.remove_underflow (columns_length X) (columns_worse hX)
        (columns_better hY) hlt]
      exact Or.inl ⟨_, _, rfl, hv, _, _, rfl, rfl⟩
    · rw [if_neg hlt] at hv
      rw [VectorLevelBSearchSplit.remove_found (columns_length X) (columns_length Y)
        (columns_worse hX) (columns_better hY) hlt]
      refine Or.inr ⟨_, ?_, hv, ?_⟩
      · by_cases hz : q - qty = 0
        · rw [if_pos hz, if_pos hz, split_append]
          rfl
        · rw [if_neg hz, if_neg hz, split_middle]
          rfl
      · by_cases hz : q - qty = 0
        · rw [if_pos hz]
          exact hs.erase
        · rw [if_neg hz]
          exact hs.setQty _
  | absent X Y hX hY =>
    have hl := @VectorLevelBSearchSplit.remove_absent S _ _ (X.map Level.qty) (Y.map Level.qty) p
      qty (columns_worse hX) (columns_better hY)
    rw [split_append, VectorLevelBSearchSplit.step, hl]
    exact Or.inl ⟨_, _, rfl, remove_absent hX hY qty, _, _, rfl, rfl⟩

theorem lockstep : Lockstep (VectorLevelBSearchSplit.step (S := S)) step
    (fun l v => l = v.split ∧ Sorted S v.levels) BothAbort := by
  rintro l v call ⟨rfl, hs⟩
  cases call with
  | add level =>
    obtain ⟨v', hl, hv, hs'⟩ := split_add hs level
    exact Or.inr ⟨v'.split, v', hl, hv, rfl, hs'⟩
  | remove level =>
    rcases split_remove hs level with h | ⟨v', hl, hv, hs'⟩
    · exact Or.inl h
    · exact Or.inr ⟨v'.split, v', hl, hv, rfl, hs'⟩

end VectorLevelBSearch

/-! ## Two vectors and the tree -/

namespace BTreeLevels

theorem lockstep : Lockstep (VectorLevelBSearchSplit.step (S := S)) (step (S := S))
    (fun l t => l.WellFormed ∧ t.view = l.view) BothAbort := by
  rintro l t call ⟨hwf, hview⟩
  cases call with
  | add level =>
    right
    obtain ⟨change, l', hadd, hwf', hview', -⟩ := VectorLevelBSearchSplit.add_spec hwf level
    refine ⟨l', t.add level, by rw [VectorLevelBSearchSplit.step, hadd]; rfl, rfl, hwf', ?_⟩
    rw [view_add, hview, hview']
  | remove level =>
    rcases VectorLevelBSearchSplit.remove_spec hwf level with
      ⟨fault, hm, hl⟩ | ⟨change, l', hl, hwf', hm, -⟩
    · left
      rcases view_remove t level with ⟨-, message, ht⟩ | ⟨t', -, hm'⟩
      · obtain ⟨message', rfl⟩ := LevelMap.remove_error hm
        exact ⟨_, _, by rw [VectorLevelBSearchSplit.step, hl]; rfl, ht, message', message, rfl, rfl⟩
      · rw [hview, hm] at hm'
        cases hm'
    · right
      rcases view_remove t level with ⟨⟨fault, hm'⟩, -⟩ | ⟨t', ht, hm'⟩
      · rw [hview, hm] at hm'
        cases hm'
      · rw [hview, hm] at hm'
        exact ⟨l', t', by rw [VectorLevelBSearchSplit.step, hl]; rfl, ht, hwf',
          (Except.ok.inj hm').symm⟩

theorem levels_eq {l : VectorLevelBSearchSplit S} {t : BTreeLevels S} (hwf : l.WellFormed)
    (hview : t.view = l.view) :
    l.prices = t.levels.map Level.price ∧ l.qtys = t.levels.map Level.qty := by
  refine columns_eq hwf.sorted t.levels_sorted hwf.length (by simp) fun price => ?_
  rw [t.find_levels, hview]
  rfl

end BTreeLevels

/-! ## The three stores side by side -/

/-- What the three stores show of each other. -/
structure Agree (l : VectorLevelBSearchSplit S) (v : VectorLevelBSearch S) (t : BTreeLevels S) :
    Prop where
  best : l.best = .ok t.best ∧ v.best = .ok t.best
  length : l.prices.length = l.qtys.length
  paired : v.levels = List.zipWith Level.mk l.qtys l.prices
  entries : v.levels = t.book.toList.reverse.map fun e => ⟨e.2, e.1⟩

theorem agree_of_related {l : VectorLevelBSearchSplit S} {v : VectorLevelBSearch S}
    {t : BTreeLevels S} (hwf : l.WellFormed) (hsplit : l = v.split) (hview : t.view = l.view) :
    Agree l v t := by
  obtain ⟨hprices, hqtys⟩ := BTreeLevels.levels_eq hwf hview
  have hentries : v.levels = t.levels := by
    rw [v.levels_eq_zip, ← hsplit, hprices, hqtys, List.zipWith_map, List.zipWith_self]
    exact List.map_id _
  have hlast : v.levels.getLast?.getD ⟨0, 0⟩ = t.best := by rw [hentries, t.best_eq]
  refine ⟨⟨?_, ?_⟩, hwf.length, ?_, hentries⟩
  · rw [VectorLevelBSearchSplit.best_eq_top hwf.length, hsplit, v.split_top, hlast]
  · rw [v.best_eq, hlast]
  · rw [v.levels_eq_zip, hsplit]

/-- Whatever the pivot has survived, the two others have survived with it. -/
theorem runs_agree {calls : List LevelCall} {l : VectorLevelBSearchSplit S}
    (h : run VectorLevelBSearchSplit.step .init calls = .ok l) :
    ∃ v t, run VectorLevelBSearch.step (.init (S := S)) calls = .ok v ∧
      run BTreeLevels.step (.init (S := S)) calls = .ok t ∧
      (l = v.split ∧ VectorLevelBSearch.Sorted S v.levels) ∧ l.WellFormed ∧ t.view = l.view := by
  have hlv : (.init : VectorLevelBSearchSplit S) = (VectorLevelBSearch.init : VectorLevelBSearch S).split ∧
      VectorLevelBSearch.Sorted S (VectorLevelBSearch.init (S := S)).levels :=
    ⟨rfl, VectorLevelBSearch.init_sorted⟩
  have hlt : (.init : VectorLevelBSearchSplit S).WellFormed ∧
      (BTreeLevels.init (S := S)).view = VectorLevelBSearchSplit.view (.init (S := S)) :=
    ⟨VectorLevelBSearchSplit.init_wellFormed, BTreeLevels.view_init⟩
  obtain ⟨v, hv, hlv⟩ := VectorLevelBSearch.lockstep.run_ok hlv h
  obtain ⟨t, ht, hlt⟩ := BTreeLevels.lockstep.run_ok hlt h
  exact ⟨v, t, hv, ht, hlv, hlt⟩

/-- **The stores refine the ordered map.** -/
theorem stores_agree (S : Side) (calls : List LevelCall) :
    (∃ l v t, run VectorLevelBSearchSplit.step (.init (S := S)) calls = .ok l ∧
        run VectorLevelBSearch.step (.init (S := S)) calls = .ok v ∧
        run BTreeLevels.step (.init (S := S)) calls = .ok t ∧ Agree l v t) ∨
      ∃ pre call post l v t, calls = pre ++ call :: post ∧
        run VectorLevelBSearchSplit.step (.init (S := S)) pre = .ok l ∧
        run VectorLevelBSearch.step (.init (S := S)) pre = .ok v ∧
        run BTreeLevels.step (.init (S := S)) pre = .ok t ∧ Agree l v t ∧
        ∃ m₁ m₂ m₃, l.step call = .error (.unexpected m₁) ∧
          v.step call = .error (.unexpected m₂) ∧ t.step call = .error (.unexpected m₃) := by
  cases h : run VectorLevelBSearchSplit.step (.init (S := S)) calls with
  | ok l =>
    obtain ⟨v, t, hv, ht, hlv, hlt⟩ := runs_agree h
    exact Or.inl ⟨l, v, t, rfl, hv, ht, agree_of_related hlt.1 hlv.1 hlt.2⟩
  | error fault =>
    obtain ⟨pre, call, post, l, rfl, hl, hcall⟩ := run_error h
    obtain ⟨v, t, hv, ht, hlv, hlt⟩ := runs_agree hl
    obtain ⟨_, hvcall, m₁, m₂, rfl, rfl⟩ := VectorLevelBSearch.lockstep.error hlv hcall
    obtain ⟨_, htcall, _, m₃, -, rfl⟩ := BTreeLevels.lockstep.error hlt hcall
    exact Or.inr ⟨pre, call, post, l, v, t, rfl, hl, hv, ht,
      agree_of_related hlt.1 hlv.1 hlt.2, m₁, m₂, m₃, hcall, hvcall, htcall⟩

end ItchIngestion.OB
