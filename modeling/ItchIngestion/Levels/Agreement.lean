import ItchIngestion.Levels.ArrayLevel
import ItchIngestion.Library.Run

/-! # The four vector and array stores agree

Each of the other three stores runs in tandem with `VectorLevelBSearch`: on a sorted list of levels
all the searches cut at the same place, and what is done at a cut was said store by store. `Room` is
what the arrays need for it, `SameLevels` what is seen of four stores that saw the same calls.
-/
namespace ItchIngestion.OB
open Library
open VectorLevelBSearch (Sorted locateLevel)
set_option autoImplicit false

/-- An array store has a free entry when a level is added. -/
def Room (l : LevelArray) : LevelCall → Prop
  | .add _ => l.size < capacity
  | .remove _ => True

variable {S : Side}

/-! ## Steps -/

section Step
variable {r : VectorLevelBSearch S} {l : LevelArray}
  {add remove : LevelArray → Level → Except Fault LevelArray}

theorem VectorLevelBSearch.step_sorted (hs : Sorted S r.levels) (call : LevelCall)
    {r' : VectorLevelBSearch S} (h : r.step call = .ok r') : Sorted S r'.levels := by
  obtain ⟨levels⟩ := r
  dsimp only at hs
  cases call with
  | add level =>
    obtain ⟨qty, p⟩ := level
    rw [step] at h
    cases locateLevel hs p with
    | found X q Y hX hY =>
      rw [add_found hX hY] at h
      cases h
      exact hs.setQty _
    | absent X Y hX hY =>
      rw [add_absent hX hY] at h
      cases h
      exact hs.insert hX hY qty
  | remove level =>
    obtain ⟨qty, p⟩ := level
    rw [step] at h
    cases locateLevel hs p with
    | absent X Y hX hY =>
      rw [remove_absent hX hY] at h
      cases h
    | found X q Y hX hY =>
      rw [remove_found hX hY] at h
      by_cases hlt : q < qty
      · rw [if_pos hlt] at h
        cases h
      · rw [if_neg hlt] at h
        cases h
        dsimp only
        split
        · exact hs.erase
        · exact hs.setQty _

theorem VectorLevelBSearch.step_error (hs : Sorted S r.levels) {call : LevelCall} {fault : Fault}
    (h : r.step call = .error fault) :
    ∃ level message, call = .remove level ∧ fault = .unexpected message := by
  obtain ⟨levels⟩ := r
  dsimp only at hs
  cases call with
  | add level =>
    obtain ⟨qty, p⟩ := level
    rw [step] at h
    cases locateLevel hs p with
    | found X q Y hX hY =>
      rw [add_found hX hY] at h
      cases h
    | absent X Y hX hY =>
      rw [add_absent hX hY] at h
      cases h
  | remove level =>
    obtain ⟨qty, p⟩ := level
    rw [step] at h
    cases locateLevel hs p with
    | absent X Y hX hY =>
      rw [remove_absent hX hY] at h
      cases h
      exact ⟨_, _, rfl, rfl⟩
    | found X q Y hX hY =>
      rw [remove_found hX hY] at h
      split at h
      · cases h
        exact ⟨_, _, rfl, rfl⟩
      · cases h

theorem VectorLevel.tandem {v : VectorLevel S} (h : Sorted S r.levels ∧ v.levels = r.levels)
    (call : LevelCall) : Tandem (fun (r : VectorLevelBSearch S) (v : VectorLevel S) =>
      Sorted S r.levels ∧ v.levels = r.levels) (r.step call) (v.step call) := by
  obtain ⟨levels⟩ := r
  obtain ⟨levels'⟩ := v
  obtain ⟨hs, he⟩ := h
  dsimp only at hs he
  subst he
  cases call with
  | add level =>
    obtain ⟨qty, p⟩ := level
    cases locateLevel hs p with
    | found X q Y hX hY =>
      have hr := VectorLevelBSearch.add_found hX hY q qty
      exact Or.inr ⟨_, _, hr, add_found hY q qty,
        VectorLevelBSearch.step_sorted hs (.add ⟨qty, p⟩) hr, rfl⟩
    | absent X Y hX hY =>
      have hr := VectorLevelBSearch.add_absent hX hY qty
      exact Or.inr ⟨_, _, hr, add_absent hX hY qty,
        VectorLevelBSearch.step_sorted hs (.add ⟨qty, p⟩) hr, rfl⟩
  | remove level =>
    obtain ⟨qty, p⟩ := level
    cases locateLevel hs p with
    | absent X Y hX hY =>
      exact Or.inl ⟨_, VectorLevelBSearch.remove_absent hX hY qty, remove_absent hX hY qty⟩
    | found X q Y hX hY =>
      have hr := VectorLevelBSearch.remove_found hX hY q qty
      have hv := remove_found (X := X) hY q qty
      by_cases hlt : q < qty
      · rw [if_pos hlt] at hr hv
        exact Or.inl ⟨_, hr, hv⟩
      · rw [if_neg hlt] at hr hv
        exact Or.inr ⟨_, _, hr, hv, VectorLevelBSearch.step_sorted hs (.remove ⟨qty, p⟩) hr, rfl⟩

theorem FindsPlaces.tandem (hplaces : FindsPlaces S add remove)
    (h : Sorted S r.levels ∧ l.Holds r.levels) (call : LevelCall) (hroom : Room l call) :
    Tandem (fun (r : VectorLevelBSearch S) (l : LevelArray) => Sorted S r.levels ∧ l.Holds r.levels)
      (r.step call) (LevelArray.stepOf add remove l call) := by
  obtain ⟨levels⟩ := r
  obtain ⟨hs, hl⟩ := h
  dsimp only at hs hl
  cases call with
  | add level =>
    obtain ⟨qty, p⟩ := level
    cases locateLevel hs p with
    | found X q Y hX hY =>
      have hZ : ∀ z ∈ (⟨q, p⟩ : Level) :: Y, ¬ S.Worse z.price p := by
        rintro z hz
        rcases List.mem_cons.mp hz with rfl | hz
        · exact irrefl_of S.Worse p
        · exact asymm_of S.Worse (hY z hz)
      obtain ⟨l', hput, hl'⟩ := LevelArray.putAt_found hl qty
      have hr := VectorLevelBSearch.add_found hX hY q qty
      exact Or.inr ⟨_, l', hr, (hplaces.add_eq qty hl hroom hX hZ).trans hput,
        VectorLevelBSearch.step_sorted hs (.add ⟨qty, p⟩) hr, hl'⟩
    | absent X Y hX hY =>
      have hZ : ∀ y ∈ Y, ¬ S.Worse y.price p := fun y hy => asymm_of S.Worse (hY y hy)
      obtain ⟨l', hput, hl'⟩ := LevelArray.putAt_absent hl hroom hY qty
      have hr := VectorLevelBSearch.add_absent hX hY qty
      exact Or.inr ⟨_, l', hr, (hplaces.add_eq qty hl hroom hX hZ).trans hput,
        VectorLevelBSearch.step_sorted hs (.add ⟨qty, p⟩) hr, hl'⟩
  | remove level =>
    obtain ⟨qty, p⟩ := level
    cases locateLevel hs p with
    | absent X Y hX hY =>
      exact Or.inl ⟨_, VectorLevelBSearch.remove_absent hX hY qty,
        hplaces.remove_absent qty hl hX hY⟩
    | found X q Y hX hY =>
      have hr := VectorLevelBSearch.remove_found hX hY q qty
      have heq := hplaces.remove_found q qty hl hX hY
      by_cases hlt : q < qty
      · rw [if_pos hlt] at hr
        exact Or.inl ⟨_, hr, heq.trans (LevelArray.takeFrom_tooMuch hl hlt)⟩
      · rw [if_neg hlt] at hr
        obtain ⟨l', htake, hl'⟩ := LevelArray.takeFrom_found hl hlt
        exact Or.inr ⟨_, l', hr, heq.trans htake,
          VectorLevelBSearch.step_sorted hs (.remove ⟨qty, p⟩) hr, hl'⟩

end Step

/-! ## Runs -/

/-- What is seen of the four stores together. -/
structure SameLevels (v : VectorLevel S) (a b : LevelArray) (r : VectorLevelBSearch S) : Prop where
  sorted : Sorted S r.levels
  vector : v.levels = r.levels
  array : a.size = r.levels.length ∧ a.live = r.levels
  bsearch : b.size = r.levels.length ∧ b.live = r.levels
  best : r.levels ≠ [] → v.best = r.best ∧ a.best = r.best ∧ b.best = r.best

theorem sameLevels_of_holds {v : VectorLevel S} {a b : LevelArray} {r : VectorLevelBSearch S}
    (hs : Sorted S r.levels) (hv : v.levels = r.levels) (ha : a.Holds r.levels)
    (hb : b.Holds r.levels) : SameLevels v a b r where
  sorted := hs
  vector := hv
  array := ⟨ha.1, ha.live_eq⟩
  bsearch := ⟨hb.1, hb.live_eq⟩
  best hne := by
    have hr : r.best = back r.levels := by
      rw [VectorLevelBSearch.best, if_pos (by simpa using hne)]
    rw [hr, VectorLevel.best, hv]
    exact ⟨rfl, ha.best_eq hne, hb.best_eq hne⟩

section Run
variable {calls : List LevelCall}

theorem run_tandem_vector (calls : List LevelCall) :
    Tandem (fun (r : VectorLevelBSearch S) (v : VectorLevel S) =>
        Sorted S r.levels ∧ v.levels = r.levels)
      (run VectorLevelBSearch.step VectorLevelBSearch.init calls)
      (run VectorLevel.step VectorLevel.init calls) :=
  run_tandem (P := fun _ _ => True) (fun _ _ call h _ => VectorLevel.tandem h call)
    ⟨VectorLevelBSearch.init_sorted, rfl⟩ fun _ _ _ _ _ _ => trivial

theorem FindsPlaces.run_tandem {add remove : LevelArray → Level → Except Fault LevelArray}
    (hplaces : FindsPlaces S add remove)
    (hroom : Along (LevelArray.stepOf add remove) Room LevelArray.init calls) :
    Tandem (fun (r : VectorLevelBSearch S) (l : LevelArray) => Sorted S r.levels ∧ l.Holds r.levels)
      (run VectorLevelBSearch.step VectorLevelBSearch.init calls)
      (run (LevelArray.stepOf add remove) LevelArray.init calls) :=
  Library.run_tandem (P := Room) (fun _ _ call h hcall => hplaces.tandem h call hcall)
    ⟨VectorLevelBSearch.init_sorted, LevelArray.init_holds⟩ hroom

theorem exists_same {r : VectorLevelBSearch S}
    (hA : Along (ArrayLevel.step S) Room LevelArray.init calls)
    (hB : Along (ArrayLevelBSearch.step S) Room LevelArray.init calls)
    (hr : run VectorLevelBSearch.step VectorLevelBSearch.init calls = .ok r) :
    ∃ (v : VectorLevel S) (a b : LevelArray),
      run VectorLevel.step VectorLevel.init calls = .ok v ∧
      run (ArrayLevel.step S) LevelArray.init calls = .ok a ∧
      run (ArrayLevelBSearch.step S) LevelArray.init calls = .ok b ∧
      Sorted S r.levels ∧ v.levels = r.levels ∧ a.Holds r.levels ∧ b.Holds r.levels := by
  obtain ⟨v, hv, hs, hlevels⟩ := (run_tandem_vector calls).ok hr
  obtain ⟨a, ha, -, hholdsA⟩ := (ArrayLevel.findsPlaces.run_tandem hA).ok hr
  obtain ⟨b, hb, -, hholdsB⟩ := (ArrayLevelBSearch.findsPlaces.run_tandem hB).ok hr
  exact ⟨v, a, b, hv, ha, hb, hs, hlevels, hholdsA, hholdsB⟩

end Run

/-- **The four stores agree after every call, up to a removal at which all of them abort.** -/
theorem searches_agree {calls : List LevelCall}
    (hA : Along (ArrayLevel.step S) Room LevelArray.init calls)
    (hB : Along (ArrayLevelBSearch.step S) Room LevelArray.init calls) :
    (∃ (v : VectorLevel S) (a b : LevelArray) (r : VectorLevelBSearch S),
      run VectorLevel.step VectorLevel.init calls = .ok v ∧
      run (ArrayLevel.step S) LevelArray.init calls = .ok a ∧
      run (ArrayLevelBSearch.step S) LevelArray.init calls = .ok b ∧
      run VectorLevelBSearch.step VectorLevelBSearch.init calls = .ok r ∧ SameLevels v a b r) ∨
    ∃ pre level post, ∃ (v : VectorLevel S) (a b : LevelArray) (r : VectorLevelBSearch S) (message : _),
      calls = pre ++ .remove level :: post ∧
      run VectorLevel.step VectorLevel.init pre = .ok v ∧
      run (ArrayLevel.step S) LevelArray.init pre = .ok a ∧
      run (ArrayLevelBSearch.step S) LevelArray.init pre = .ok b ∧
      run VectorLevelBSearch.step VectorLevelBSearch.init pre = .ok r ∧ SameLevels v a b r ∧
      v.remove level = .error (.unexpected message) ∧
      ArrayLevel.remove a level = .error (.unexpected message) ∧
      ArrayLevelBSearch.remove S b level = .error (.unexpected message) ∧
      r.remove level = .error (.unexpected message) := by
  cases hr : run (VectorLevelBSearch.step (S := S)) VectorLevelBSearch.init calls with
  | ok r =>
    obtain ⟨v, a, b, hv, ha, hb, hs, hlevels, hholdsA, hholdsB⟩ := exists_same hA hB hr
    exact Or.inl ⟨v, a, b, r, hv, ha, hb, rfl, sameLevels_of_holds hs hlevels hholdsA hholdsB⟩
  | error fault =>
    obtain ⟨pre, call, post, r, rfl, hpre, hcall⟩ := run_error hr
    obtain ⟨v, a, b, hv, ha, hb, hs, hlevels, hholdsA, hholdsB⟩ := exists_same hA.left hB.left hpre
    obtain ⟨level, message, rfl, rfl⟩ := VectorLevelBSearch.step_error hs hcall
    refine Or.inr ⟨pre, level, post, v, a, b, r, message, rfl, hv, ha, hb, hpre,
      sameLevels_of_holds hs hlevels hholdsA hholdsB, ?_, ?_, ?_, hcall⟩
    · exact (VectorLevel.tandem ⟨hs, hlevels⟩ (.remove level)).error hcall
    · exact (ArrayLevel.findsPlaces.tandem ⟨hs, hholdsA⟩ (.remove level) trivial).error hcall
    · exact (ArrayLevelBSearch.findsPlaces.tandem ⟨hs, hholdsB⟩ (.remove level) trivial).error hcall

theorem searches_agree_sample : ∃ (v : VectorLevel Side.Ask) (a b : LevelArray)
    (r : VectorLevelBSearch Side.Ask),
    run VectorLevel.step VectorLevel.init [.add ⟨5, 10⟩, .remove ⟨2, 10⟩] = .ok v ∧
      run (ArrayLevel.step Side.Ask) LevelArray.init [.add ⟨5, 10⟩, .remove ⟨2, 10⟩] = .ok a ∧
      run (ArrayLevelBSearch.step Side.Ask) LevelArray.init [.add ⟨5, 10⟩, .remove ⟨2, 10⟩] = .ok b ∧
      run VectorLevelBSearch.step VectorLevelBSearch.init [.add ⟨5, 10⟩, .remove ⟨2, 10⟩] = .ok r ∧
      SameLevels v a b r := by
  have hroom : ∀ step : LevelArray → LevelCall → Except Fault LevelArray,
      Along step Room LevelArray.init [.add ⟨5, 10⟩, .remove ⟨2, 10⟩] := by
    intro step pre call post l he hl
    rcases pre with _ | ⟨first, pre⟩
    · obtain ⟨rfl, -⟩ := List.cons.inj he
      cases hl
      show 0 < 3000
      decide
    · obtain ⟨-, hrest⟩ := List.cons.inj he
      rcases pre with _ | ⟨second, pre⟩
      · obtain ⟨rfl, -⟩ := List.cons.inj hrest
        trivial
      · simp at hrest
  rcases searches_agree (hroom (ArrayLevel.step Side.Ask)) (hroom (ArrayLevelBSearch.step Side.Ask)) with
    h | ⟨pre, level, post, v, a, b, r, message, he, -, -, -, hr, -, -, -, -, hfault⟩
  · exact h
  · have hok : ∃ r : VectorLevelBSearch Side.Ask, run VectorLevelBSearch.step VectorLevelBSearch.init
        [.add ⟨5, 10⟩, .remove ⟨2, 10⟩] = .ok r := ⟨_, rfl⟩
    obtain ⟨r', hr'⟩ := hok
    rw [he, run_append_of_ok hr] at hr'
    obtain ⟨t, ht, -⟩ := run_cons_ok.mp hr'
    have hcontra : r.remove level = .ok t := ht
    rw [hfault] at hcontra
    cases hcontra

end ItchIngestion.OB
