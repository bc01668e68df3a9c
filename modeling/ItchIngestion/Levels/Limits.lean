import ItchIngestion.Levels.Agreement

/-! # The vector and array stores at their limits

Two branches of these stores go wrong at a limit. An array store asks whether it is full before it
searches, so a full one refuses an addition at a price that it holds. And three of the stores read
their last level without asking whether there is one. Everywhere else they do what they should, and
nothing that they do reaches outside their memory.
-/
namespace ItchIngestion.OB
open Library
open VectorLevelBSearch (Sorted locateLevel)
set_option autoImplicit false

variable {S : Side}

/-! ## The states of an array store -/

/-- The two operations find their places, and `add` gives up in a full store. -/
structure Guarded (S : Side) (add remove : LevelArray → Level → Except Fault LevelArray) : Prop where
  places : FindsPlaces S add remove
  full {l : LevelArray} : l.size = capacity → ∀ level,
    ∃ message, add l level = .error (.unexpected message)

theorem ArrayLevel.guarded : Guarded S (add S) remove where
  places := findsPlaces
  full {l} hfull level := by
    have hb : (l.size == capacity) = true := beq_iff_eq.mpr hfull
    exact ⟨_, by rw [add, hb, unexpected_true, error_bind]⟩

theorem ArrayLevelBSearch.guarded : Guarded S (add S) (remove S) where
  places := findsPlaces
  full {l} hfull level := by
    have hb : (l.size == capacity) = true := beq_iff_eq.mpr hfull
    exact ⟨_, by rw [add, hb, unexpected_true, error_bind]⟩

/-- The store holds some sorted levels. -/
def LevelArray.Stores (S : Side) (l : LevelArray) : Prop := ∃ xs, Sorted S xs ∧ l.Holds xs

theorem LevelArray.Holds.size_le {l : LevelArray} {xs : List Level} (h : l.Holds xs) :
    l.size ≤ capacity := by
  obtain ⟨hsize, rest, hlist⟩ := h
  have hlen := l.levels.length_toList
  rw [hlist, List.length_append] at hlen
  omega

namespace Guarded
variable {add remove : LevelArray → Level → Except Fault LevelArray} {l l' : LevelArray}
  {calls : List LevelCall} {level : Level}

theorem room_of_ok (h : Guarded S add remove) (hl : l.Stores S) {call : LevelCall}
    (hstep : LevelArray.stepOf add remove l call = .ok l') : Room l call := by
  obtain ⟨xs, -, hxs⟩ := hl
  cases call with
  | remove level => trivial
  | add level =>
    refine lt_of_le_of_ne hxs.size_le fun hfull => ?_
    obtain ⟨message, hadd⟩ := h.full hfull level
    have hcontra : add l level = .ok l' := hstep
    rw [hadd] at hcontra
    cases hcontra

theorem stores_run (h : Guarded S add remove)
    (hrun : run (LevelArray.stepOf add remove) LevelArray.init calls = .ok l) : l.Stores S := by
  refine run_invariant (LevelArray.Stores S)
    ⟨[], VectorLevelBSearch.init_sorted, LevelArray.init_holds⟩ ?_ hrun
  rintro l call l' hl hstep
  have hroom := h.room_of_ok hl hstep
  obtain ⟨xs, hs, hxs⟩ := hl
  rcases h.places.tandem (r := ⟨xs⟩) ⟨hs, hxs⟩ call hroom with ⟨fault, -, herr⟩ |
    ⟨r, l'', -, hok, hs', hl'⟩
  · rw [hstep] at herr
    cases herr
  · rw [hstep] at hok
    cases hok
    exact ⟨r.levels, hs', hl'⟩

/-! ## Full -/

/-- With a free entry an addition goes through, whatever the price. -/
theorem add_ok (h : Guarded S add remove) (hl : l.Stores S) (hroom : l.size < capacity)
    (level : Level) : ∃ l', add l level = .ok l' := by
  obtain ⟨xs, hs, hxs⟩ := hl
  rcases h.places.tandem (r := ⟨xs⟩) ⟨hs, hxs⟩ (.add level) hroom with ⟨fault, herr, -⟩ |
    ⟨r, l', -, hok, -⟩
  · obtain ⟨_, _, hcall, -⟩ := VectorLevelBSearch.step_error (r := ⟨xs⟩) hs herr
    cases hcall
  · exact ⟨l', hok⟩

theorem remove_ne_undefined (h : Guarded S add remove) (hl : l.Stores S) (level : Level) :
    remove l level ≠ .error .undefinedBehaviour := by
  obtain ⟨xs, hs, hxs⟩ := hl
  intro hund
  rcases h.places.tandem (r := ⟨xs⟩) ⟨hs, hxs⟩ (.remove level) trivial with ⟨fault, herr, hrem⟩ |
    ⟨r, l', -, hok, -⟩
  · obtain ⟨_, message, -, rfl⟩ := VectorLevelBSearch.step_error (r := ⟨xs⟩) hs herr
    have hcontra : remove l level = .error (.unexpected message) := hrem
    rw [hund] at hcontra
    cases hcontra
  · have hcontra : remove l level = .ok l' := hok
    rw [hund] at hcontra
    cases hcontra

end Guarded

/-- An addition aborts just where it needs an entry and there is none, and nothing is read or
written outside the array. -/
def AbortsOnlyForRoom (add remove : LevelArray → Level → Except Fault LevelArray) (l : LevelArray)
    (level : Level) : Prop :=
  ((∃ fault, add l level = .error fault) ↔
      l.size = capacity ∧ level.price ∉ l.live.map Level.price) ∧
    add l level ≠ .error .undefinedBehaviour ∧ ∀ level', remove l level' ≠ .error .undefinedBehaviour

theorem Guarded.abortsOnlyForRoom_iff {add remove : LevelArray → Level → Except Fault LevelArray}
    (h : Guarded S add remove) {l : LevelArray} (hl : l.Stores S) (level : Level) :
    AbortsOnlyForRoom add remove l level ↔
      ¬ (l.size = capacity ∧ level.price ∈ l.live.map Level.price) := by
  have hrem := h.remove_ne_undefined hl
  by_cases hfull : l.size = capacity
  · obtain ⟨message, hadd⟩ := h.full hfull level
    rw [AbortsOnlyForRoom, hadd]
    constructor
    · rintro ⟨hiff, -⟩ ⟨-, hheld⟩
      exact (hiff.mp ⟨_, rfl⟩).2 hheld
    · intro habsent
      refine ⟨iff_of_true ⟨_, rfl⟩ ⟨hfull, fun hheld => habsent ⟨hfull, hheld⟩⟩, ?_, hrem⟩
      intro hund
      cases hund
  · obtain ⟨xs, hs, hxs⟩ := hl
    obtain ⟨l', hadd⟩ := h.add_ok ⟨xs, hs, hxs⟩ (lt_of_le_of_ne hxs.size_le hfull) level
    rw [AbortsOnlyForRoom, hadd]
    refine iff_of_true ⟨iff_of_false ?_ (fun hf => hfull hf.1), ?_, hrem⟩ (fun hf => hfull hf.1)
    · rintro ⟨fault, herr⟩
      cases herr
    · intro hund
      cases hund

/-- **Where the array stores abort only for want of room**: unless a full store is asked to add at a
price that it holds. -/
theorem capacity_abort_iff {calls : List LevelCall} :
    (∀ l level, run (ArrayLevel.step S) LevelArray.init calls = .ok l →
      (AbortsOnlyForRoom (ArrayLevel.add S) ArrayLevel.remove l level ↔
        ¬ (l.size = capacity ∧ level.price ∈ l.live.map Level.price))) ∧
    ∀ l level, run (ArrayLevelBSearch.step S) LevelArray.init calls = .ok l →
      (AbortsOnlyForRoom (ArrayLevelBSearch.add S) (ArrayLevelBSearch.remove S) l level ↔
        ¬ (l.size = capacity ∧ level.price ∈ l.live.map Level.price)) := by
  refine ⟨fun l level hrun => ?_, fun l level hrun => ?_⟩
  · exact ArrayLevel.guarded.abortsOnlyForRoom_iff (ArrayLevel.guarded.stores_run hrun) level
  · exact ArrayLevelBSearch.guarded.abortsOnlyForRoom_iff (ArrayLevelBSearch.guarded.stores_run hrun)
      level

/-! ### A full store -/

/-- One share at each of the first `n` prices. -/
def ladder (n : ℕ) : List Level := (List.range n).map fun i => ⟨1, UInt32.ofNat i⟩

theorem ladder_succ (n : ℕ) : ladder (n + 1) = ladder n ++ [⟨1, UInt32.ofNat n⟩] := by
  rw [ladder, List.range_succ, List.map_append, ← ladder]
  rfl

theorem ladder_length (n : ℕ) : (ladder n).length = n := by rw [ladder, List.length_map, List.length_range]

theorem ladder_worse {n : ℕ} (hn : n ≤ capacity) {x : Level} (hx : x ∈ ladder n) :
    Side.Bid.Worse x.price (UInt32.ofNat n) := by
  obtain ⟨i, hi, rfl⟩ := List.mem_map.mp hx
  have hi' : i < n := List.mem_range.mp hi
  have hc : n ≤ 3000 := hn
  have hsize : UInt32.size = 4294967296 := rfl
  rw [Side.worse_iff, if_pos rfl, UInt32.toNat_ofNat_of_lt' (by omega),
    UInt32.toNat_ofNat_of_lt' (by omega)]
  exact hi'

theorem Guarded.run_ladder {add remove : LevelArray → Level → Except Fault LevelArray}
    (h : Guarded Side.Bid add remove) {n : ℕ} (hn : n ≤ capacity) :
    ∃ l, run (LevelArray.stepOf add remove) LevelArray.init ((ladder n).map .add) = .ok l ∧
      l.Holds (ladder n) := by
  induction n with
  | zero => exact ⟨LevelArray.init, rfl, LevelArray.init_holds⟩
  | succ n ih =>
    obtain ⟨l, hrun, hl⟩ := ih (Nat.le_of_succ_le hn)
    have hroom : l.size < capacity := by
      rw [hl.1, ladder_length]
      exact hn
    have hcut : l.Holds (ladder n ++ []) := by rwa [List.append_nil]
    have hworse := fun x hx => ladder_worse (Nat.le_of_succ_le hn) (x := x) hx
    obtain ⟨l', hput, hl'⟩ := LevelArray.putAt_absent (S := Side.Bid) hcut hroom
      (fun y hy => absurd hy List.not_mem_nil) 1
    have hadd := h.places.add_eq 1 hcut hroom hworse (fun z hz => absurd hz List.not_mem_nil)
    refine ⟨l', ?_, ?_⟩
    · rw [ladder_succ, List.map_append]
      exact (run_concat hrun _).trans (hadd.trans hput)
    · rwa [ladder_succ]

/-- A full store asked for a price that it does not hold, and one with room for a price that it does. -/
theorem capacity_abort_iff_sample :
    (∃ l, run (ArrayLevel.step Side.Bid) LevelArray.init ((ladder 3000).map .add) = .ok l ∧
      l.size = capacity ∧ AbortsOnlyForRoom (ArrayLevel.add Side.Bid) ArrayLevel.remove l ⟨1, 5000⟩) ∧
    (∃ l, run (ArrayLevelBSearch.step Side.Bid) LevelArray.init ((ladder 3000).map .add) = .ok l ∧
      l.size = capacity ∧
      AbortsOnlyForRoom (ArrayLevelBSearch.add Side.Bid) (ArrayLevelBSearch.remove Side.Bid) l ⟨1, 5000⟩) ∧
    (∃ l, run (ArrayLevel.step Side.Bid) LevelArray.init ((ladder 2).map .add) = .ok l ∧
      l.live = ladder 2 ∧ AbortsOnlyForRoom (ArrayLevel.add Side.Bid) ArrayLevel.remove l ⟨1, 0⟩) ∧
    ∃ l, run (ArrayLevelBSearch.step Side.Bid) LevelArray.init ((ladder 2).map .add) = .ok l ∧
      l.live = ladder 2 ∧
      AbortsOnlyForRoom (ArrayLevelBSearch.add Side.Bid) (ArrayLevelBSearch.remove Side.Bid) l ⟨1, 0⟩ := by
  have habsent : (5000 : UInt32) ∉ (ladder 3000).map Level.price := by
    intro hheld
    obtain ⟨x, hx, hprice⟩ := List.mem_map.mp hheld
    have hworse := ladder_worse (le_refl 3000) hx
    rw [hprice] at hworse
    exact absurd hworse (by decide)
  have hroom : ∀ {l : LevelArray}, l.Holds (ladder 2) → l.size ≠ capacity := by
    intro l hl
    rw [hl.1, ladder_length]
    decide
  obtain ⟨a, hrunA, ha⟩ := ArrayLevel.guarded.run_ladder (n := 3000) (le_refl _)
  obtain ⟨b, hrunB, hb⟩ := ArrayLevelBSearch.guarded.run_ladder (n := 3000) (le_refl _)
  obtain ⟨c, hrunC, hc⟩ := ArrayLevel.guarded.run_ladder (n := 2) (by decide)
  obtain ⟨d, hrunD, hd⟩ := ArrayLevelBSearch.guarded.run_ladder (n := 2) (by decide)
  obtain ⟨hA, hB⟩ := @capacity_abort_iff Side.Bid ((ladder 3000).map .add)
  obtain ⟨hC, hD⟩ := @capacity_abort_iff Side.Bid ((ladder 2).map .add)
  refine ⟨⟨a, hrunA, ?_, (hA a _ hrunA).mpr ?_⟩, ⟨b, hrunB, ?_, (hB b _ hrunB).mpr ?_⟩,
    ⟨c, hrunC, hc.live_eq, (hC c _ hrunC).mpr fun hf => hroom hc hf.1⟩,
    d, hrunD, hd.live_eq, (hD d _ hrunD).mpr fun hf => hroom hd hf.1⟩
  · rw [ha.1, ladder_length]
    rfl
  · rw [ha.live_eq]
    exact fun hf => habsent hf.2
  · rw [hb.1, ladder_length]
    rfl
  · rw [hb.live_eq]
    exact fun hf => habsent hf.2

/-- Both stores abort at an addition to the lowest of 3000 prices that they hold. -/
theorem capacity_abort_held :
    (∃ l, run (ArrayLevel.step Side.Bid) LevelArray.init ((ladder 3000).map .add) = .ok l ∧
      l.live = ladder 3000 ∧ (⟨1, 0⟩ : Level) ∈ l.live ∧
      ArrayLevel.add Side.Bid l ⟨1, 0⟩ = .error (.unexpected "ArrayLevel capacity exceeded")) ∧
    ∃ l, run (ArrayLevelBSearch.step Side.Bid) LevelArray.init ((ladder 3000).map .add) = .ok l ∧
      l.live = ladder 3000 ∧ (⟨1, 0⟩ : Level) ∈ l.live ∧
      ArrayLevelBSearch.add Side.Bid l ⟨1, 0⟩ =
        .error (.unexpected "ArrayLevelBSearch capacity exceeded") := by
  have hheld : (⟨1, 0⟩ : Level) ∈ ladder 3000 := List.mem_map.mpr ⟨0, List.mem_range.mpr (by decide), rfl⟩
  obtain ⟨a, hrunA, ha⟩ := ArrayLevel.guarded.run_ladder (n := 3000) (le_refl _)
  obtain ⟨b, hrunB, hb⟩ := ArrayLevelBSearch.guarded.run_ladder (n := 3000) (le_refl _)
  have hfull : ∀ {l : LevelArray}, l.Holds (ladder 3000) → (l.size == capacity) = true := by
    intro l hl
    rw [hl.1, ladder_length]
    rfl
  refine ⟨⟨a, hrunA, ha.live_eq, ha.live_eq ▸ hheld, ?_⟩, b, hrunB, hb.live_eq, hb.live_eq ▸ hheld, ?_⟩
  · rw [ArrayLevel.add, hfull ha, unexpected_true, error_bind]
  · rw [ArrayLevelBSearch.add, hfull hb, unexpected_true, error_bind]

/-! ## Empty -/

/-- The answer is the last of the stored levels, and the empty level if there is none. -/
def ShowsLast (best : Except Fault Level) (stored : List Level) : Prop :=
  best = .ok (stored.getLast?.getD ⟨0, 0⟩)

theorem VectorLevelBSearch.best_showsLast (r : VectorLevelBSearch S) : ShowsLast r.best r.levels := by
  obtain ⟨levels⟩ := r
  cases levels using List.reverseRecOn with
  | nil => rfl
  | append_singleton X x => simp [ShowsLast, best, back]

theorem back_showsLast_iff (stored : List Level) : ShowsLast (back stored) stored ↔ stored ≠ [] := by
  cases stored using List.reverseRecOn with
  | nil => exact iff_of_false (fun h => by cases h) (fun h => h rfl)
  | append_singleton X x => exact iff_of_true (by simp [ShowsLast, back]) (by simp)

theorem LevelArray.Holds.showsLast_iff {l : LevelArray} {xs : List Level} (h : l.Holds xs) :
    ShowsLast l.best l.live ↔ l.live ≠ [] := by
  rw [h.live_eq]
  by_cases hne : xs = []
  · have hsize : l.size = 0 := by rw [h.1, hne, List.length_nil]
    have hbest : l.best = .error .undefinedBehaviour := by rw [best, hsize]
    rw [hbest, hne]
    exact iff_of_false (fun h => by cases h) (fun h => h rfl)
  · rw [h.best_eq hne]
    exact back_showsLast_iff xs

/-- **Where the unguarded stores show their best level**: wherever they hold one. -/
theorem best_shown_iff {calls : List LevelCall} :
    (∀ l, run (ArrayLevel.step S) LevelArray.init calls = .ok l →
      (ShowsLast l.best l.live ↔ l.live ≠ [])) ∧
    (∀ l, run (ArrayLevelBSearch.step S) LevelArray.init calls = .ok l →
      (ShowsLast l.best l.live ↔ l.live ≠ [])) ∧
    ∀ l : VectorLevel S, run VectorLevel.step VectorLevel.init calls = .ok l →
      (ShowsLast l.best l.levels ↔ l.levels ≠ []) := by
  refine ⟨fun l hrun => ?_, fun l hrun => ?_, fun l _ => back_showsLast_iff l.levels⟩
  · obtain ⟨xs, -, hxs⟩ := ArrayLevel.guarded.stores_run hrun
    exact hxs.showsLast_iff
  · obtain ⟨xs, -, hxs⟩ := ArrayLevelBSearch.guarded.stores_run hrun
    exact hxs.showsLast_iff

theorem best_shown_iff_sample :
    (∃ l, run (ArrayLevel.step Side.Bid) LevelArray.init ((ladder 1).map .add) = .ok l ∧
      ShowsLast l.best l.live) ∧
    (∃ l, run (ArrayLevelBSearch.step Side.Bid) LevelArray.init ((ladder 1).map .add) = .ok l ∧
      ShowsLast l.best l.live) ∧
    ∃ l : VectorLevel Side.Bid, run VectorLevel.step VectorLevel.init ((ladder 1).map .add) = .ok l ∧
      ShowsLast l.best l.levels := by
  obtain ⟨a, hrunA, ha⟩ := ArrayLevel.guarded.run_ladder (n := 1) (by decide)
  obtain ⟨b, hrunB, hb⟩ := ArrayLevelBSearch.guarded.run_ladder (n := 1) (by decide)
  obtain ⟨hA, hB, hV⟩ := @best_shown_iff Side.Bid ((ladder 1).map .add)
  have hne : ladder 1 ≠ [] := List.cons_ne_nil _ _
  refine ⟨⟨a, hrunA, (hA a hrunA).mpr ?_⟩, ⟨b, hrunB, (hB b hrunB).mpr ?_⟩,
    ⟨ladder 1⟩, rfl, (hV ⟨ladder 1⟩ rfl).mpr hne⟩
  · rwa [ha.live_eq]
  · rwa [hb.live_eq]

/-- Before the first addition there is no element to read. -/
theorem best_shown_empty :
    LevelArray.init.best = .error .undefinedBehaviour ∧ ¬ ShowsLast LevelArray.init.best LevelArray.init.live ∧
      (VectorLevel.init (S := Side.Bid)).best = .error .undefinedBehaviour ∧
      ¬ ShowsLast (VectorLevel.init (S := Side.Bid)).best (VectorLevel.init (S := Side.Bid)).levels := by
  refine ⟨rfl, fun h => ?_, rfl, fun h => ?_⟩
  · cases h
  · cases h

end ItchIngestion.OB
