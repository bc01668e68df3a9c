import ItchIngestion.Queue.WaitFree
import ItchIngestion.Queue.Overrun

/-! # What a step means to one consumer

A consumer receives a value when the second load of its own `pop` succeeds, and at no other step of
any party (`track_advances`, `track_other`). What it was created with stays (`track_start`), and the
values pushed are those of the calls of `push` (`track_pushed`).
-/
namespace ItchIngestion.SPMC
open Library
set_option autoImplicit false

section Reception
variable {ι Word C : Type} [DecidableEq ι] [Fintype ι] [DecidableEq C] {g : Geometry}
  {s s' : State ι Word C} {h h' : History ι Word C} {a : Action ι Word C}

/-- The value that the last `pop` of a consumer returned, if it has ended and returned `true`. -/
def returned (s : State ι Word C) (c : C) : Option (Value ι Word) :=
  match s.consumers c with
  | some ⟨_, .idle, some (true, v)⟩ => some v
  | _ => none

/-- The value that an action begins to push. -/
def Action.value? : Action ι Word C → Option (Value ι Word)
  | .push val => some val
  | _ => none

omit [DecidableEq ι] [Fintype ι] in
theorem Action.starts_advances {p : Party C} (h : a.advances p = true) : a.starts p = false := by
  cases p <;> cases a <;> simp_all [Action.starts, Action.advances]

omit [DecidableEq ι] [Fintype ι] in
theorem Action.advances_only {p q : Party C} (h : a.advances p = true) (hne : q ≠ p) :
    a.starts q = false ∧ a.advances q = false := by
  have hconsumer : ∀ c : C, p = .consumer c → ∀ d, q = .consumer d → c ≠ d := by
    rintro c rfl d rfl rfl
    exact hne rfl
  cases p with
  | producer =>
    cases q with
    | producer => exact absurd rfl hne
    | consumer d => cases a <;> simp_all [Action.starts, Action.advances]
  | consumer c =>
    cases q with
    | producer => cases a <;> simp_all [Action.starts, Action.advances]
    | consumer d => cases a <;> simp_all [Action.starts, Action.advances]

omit [DecidableEq ι] [Fintype ι] in
theorem Action.value?_advances {p : Party C} (h : a.advances p = true) : a.value? = none := by
  cases a with
  | push val => cases p <;> cases h
  | _ => rfl

omit [DecidableEq ι] [Fintype ι] in
theorem Action.of_advances {c : C} (h : a.advances (.consumer c) = true) :
    a = .loadFirst c ∨ (∃ i, a = .copyWord c i) ∨ a = .loadSecond c := by
  cases a with
  | loadFirst d => exact .inl (congrArg _ (of_decide_eq_true h))
  | copyWord d i => exact .inr (.inl ⟨i, congrArg (Action.copyWord · i) (of_decide_eq_true h)⟩)
  | loadSecond d => exact .inr (.inr (congrArg _ (of_decide_eq_true h)))
  | _ => cases h

omit [DecidableEq ι] [Fintype ι] in
theorem observe_pushed_eq (s : State ι Word C) (a : Action ι Word C) (s' : State ι Word C)
    (h : History ι Word C) : (observe s a s' h).pushed = h.pushed ++ a.value?.toList := by
  have hnil : h.pushed = h.pushed ++ [] := (List.append_nil _).symm
  cases a with
  | push val => rfl
  | loadFirst c =>
    dsimp only [observe]
    split
    · rw [note_pushed]
      exact hnil
    · exact hnil
  | loadSecond c =>
    dsimp only [observe]
    split
    · rw [note_pushed]
      exact hnil
    · exact hnil
  | _ => exact hnil

theorem track_pushed (htrack : track g (s, h) a = .ok (s', h')) :
    h'.pushed = h.pushed ++ a.value?.toList := by
  obtain ⟨-, rfl⟩ := track_ok htrack
  exact observe_pushed_eq s a s' h

omit [DecidableEq C] [DecidableEq ι] [Fintype ι] in
theorem note_start (c : C) (reader : UInt64) (dst : Value ι Word) (second : Option Snapshot) :
    (h.note c reader dst second s').start = h.start := by
  unfold History.note
  split <;> rfl

omit [DecidableEq C] [DecidableEq ι] [Fintype ι] in
theorem note_finished (c : C) (reader : UInt64) (dst : Value ι Word) (second : Option Snapshot) :
    (h.note c reader dst second s').finished = h.finished := by
  unfold History.note
  split <;> rfl

theorem track_start (htrack : track g (s, h) a = .ok (s', h')) {d : C}
    (hd : s.consumers d ≠ none) : h'.start d = h.start d := by
  obtain ⟨hstep, rfl⟩ := track_ok htrack
  obtain ⟨-, hsteps⟩ := step_ok g hstep
  cases hsteps with
  | makeConsumer hc =>
    refine Function.update_of_ne ?_ ..
    rintro rfl
    exact hd hc
  | loadFirst hc =>
    simp only [observe, hc]
    rw [note_start]
    rfl
  | loadSecond hc =>
    simp only [observe, hc]
    rw [note_start]
  | _ => rfl

theorem track_makeConsumer {c : C} (htrack : track g (s, h) (.makeConsumer c) = .ok (s', h')) :
    s.consumers c = none ∧ s'.consumers c = some ⟨s.writer, .idle, none⟩ ∧
      h'.start c = s.writer.toNat ∧ h'.received c = h.received c := by
  obtain ⟨hstep, rfl⟩ := track_ok htrack
  obtain ⟨-, hsteps⟩ := step_ok g hstep
  cases hsteps with
  | makeConsumer hc => exact ⟨hc, Function.update_self .., Function.update_self .., rfl⟩

theorem track_other (htrack : track g (s, h) a = .ok (s', h')) {d : C} (hd : s.consumers d ≠ none)
    (hstart : a.starts (.consumer d) = false) (hadvance : a.advances (.consumer d) = false) :
    s'.consumers d = s.consumers d ∧ h'.received d = h.received d := by
  obtain ⟨hstep, rfl⟩ := track_ok htrack
  obtain ⟨hab, hsteps⟩ := step_ok g hstep
  cases hsteps with
  | makeConsumer hc =>
    refine ⟨Function.update_of_ne ?_ .., rfl⟩
    rintro rfl
    exact hd hc
  | @pop c dst reader result hc =>
    have hne : d ≠ c := fun e => of_decide_eq_false hstart e.symm
    exact ⟨Function.update_of_ne hne .., rfl⟩
  | @copyWord c dst temp copied reader i result hc =>
    have hne : d ≠ c := fun e => of_decide_eq_false hadvance e.symm
    exact ⟨Function.update_of_ne hne .., rfl⟩
  | @loadFirst c dst reader result hc =>
    have hne : d ≠ c := fun e => of_decide_eq_false hadvance e.symm
    rcases loadFirst_cases (g := g) (h := h) hab hc with
      ⟨-, ⟨e, hs'⟩, hh'⟩ | ⟨-, hs', hh'⟩ | ⟨-, -, hs', hh'⟩
    · rw [hh', hs', received_ended_ne hne]
      exact ⟨rfl, rfl⟩
    · rw [hh', hs', received_ended_ne hne]
      exact ⟨Function.update_of_ne hne .., rfl⟩
    · rw [hh', hs']
      exact ⟨Function.update_of_ne hne .., rfl⟩
  | @loadSecond c dst temp reader result hc =>
    have hne : d ≠ c := fun e => of_decide_eq_false hadvance e.symm
    rcases loadSecond_cases (g := g) (h := h) hab hc with ⟨-, ⟨e, hs'⟩, hh'⟩ | ⟨-, hs', hh'⟩
    · rw [hh', hs', received_ended_ne hne]
      exact ⟨rfl, rfl⟩
    · rw [hh', hs', received_ended_ne hne]
      exact ⟨Function.update_of_ne hne .., rfl⟩
  | _ => exact ⟨rfl, rfl⟩

theorem track_pop {c : C} {dst : Value ι Word}
    (htrack : track g (s, h) (.pop c dst) = .ok (s', h')) :
    (∃ k, s.consumers c = some k ∧ k.pop = .idle) ∧
      (∃ k, s'.consumers c = some k ∧ k.pop = .loadFirst dst) ∧ h'.received c = h.received c := by
  obtain ⟨hstep, rfl⟩ := track_ok htrack
  obtain ⟨hab, hsteps⟩ := step_ok g hstep
  cases hsteps with
  | pop hc => exact ⟨⟨_, hc, rfl⟩, ⟨_, Function.update_self .., rfl⟩, rfl⟩

/-- What a step of its own `pop` does to a consumer. -/
inductive Advanced (s' : State ι Word C) (h h' : History ι Word C) (c : C) : Prop
  | aborted (e : String) (hab : s'.aborted = some e) (hc : s'.consumers c ≠ none)
      (hreceived : h'.received c = h.received c)
  | going (hab : s'.aborted = none) (hc : s'.consumers c ≠ none) (hreturned : returned s' c = none)
      (hreceived : h'.received c = h.received c)
  | returned (v : Value ι Word) (hab : s'.aborted = none) (hc : s'.consumers c ≠ none)
      (hreturned : returned s' c = some v) (hreceived : h'.received c = h.received c ++ [v])

omit [DecidableEq ι] [Fintype ι] [DecidableEq C] in
theorem returned_idle {c : C} {v : Value ι Word} (hv : returned s c = some v) :
    ∃ k, s.consumers c = some k ∧ k.pop = .idle := by
  unfold returned at hv
  split at hv
  · rename_i hc
    exact ⟨_, hc, rfl⟩
  · cases hv

omit [DecidableEq ι] [Fintype ι] in
theorem returned_setConsumer (c : C) (k : Consumer ι Word) : returned (setConsumer s c k) c =
    match k with
    | ⟨_, .idle, some (true, v)⟩ => some v
    | _ => none := by
  simp only [returned, setConsumer, Function.update_self]
  split <;> simp_all

/-- **A consumer receives what its own `pop` returns.** -/
theorem track_advances (htrack : track g (s, h) a = .ok (s', h')) {c : C}
    (hadvance : a.advances (.consumer c) = true) : Advanced s' h h' c := by
  obtain ⟨hstep, rfl⟩ := track_ok htrack
  obtain ⟨hab, hsteps⟩ := step_ok g hstep
  have hsome : ∀ k, (setConsumer s c k).consumers c ≠ none := by
    intro k hnone
    have hself : (setConsumer s c k).consumers c = some k := Function.update_self ..
    rw [hself] at hnone
    cases hnone
  rcases Action.of_advances hadvance with rfl | ⟨i, rfl⟩ | rfl
  · cases hsteps with
    | loadFirst hc =>
      rcases loadFirst_cases (g := g) (h := h) hab hc with
        ⟨-, ⟨e, hs'⟩, hh'⟩ | ⟨-, hs', hh'⟩ | ⟨-, -, hs', hh'⟩
      · rw [hh', hs']
        exact .aborted e rfl (by rw [hc]; simp) (received_ended_other (by simp) _)
      · rw [hh', hs']
        exact .going hab (hsome _) (returned_setConsumer ..) (received_ended_other (by simp) _)
      · rw [hh', hs']
        exact .going hab (hsome _) (returned_setConsumer ..) rfl
  · cases hsteps with
    | copyWord hc => exact .going hab (hsome _) (returned_setConsumer ..) rfl
  · cases hsteps with
    | @loadSecond _ dst temp reader result hc =>
      rcases loadSecond_cases (g := g) (h := h) hab hc with ⟨-, ⟨e, hs'⟩, hh'⟩ | ⟨-, hs', hh'⟩
      · rw [hh', hs']
        exact .aborted e rfl (by rw [hc]; simp) (received_ended_other (by simp) _)
      · rw [hh', hs']
        refine .returned temp hab (hsome _) (returned_setConsumer ..) ?_
        exact (received_ended rfl rfl c).trans (if_pos rfl)

/-! ## A push that has finished -/

theorem track_finished (htrack : track g (s, h) a = .ok (s', h')) : h.finished ≤ h'.finished := by
  obtain ⟨-, rfl⟩ := track_ok htrack
  cases a with
  | storeEven => exact Nat.le_succ _
  | loadFirst c =>
    dsimp only [observe]
    split
    · rw [note_finished]
      exact le_refl _
    · exact le_refl _
  | loadSecond c =>
    dsimp only [observe]
    split
    · rw [note_finished]
    · exact le_refl _
  | _ => exact le_refl _

theorem track_aborted (htrack : track g (s, h) a = .ok (s', h'))
    (hadvance : ∀ c, a.advances (.consumer c) = false) : s'.aborted = none := by
  obtain ⟨hstep, -⟩ := track_ok htrack
  obtain ⟨hab, hsteps⟩ := step_ok g hstep
  cases hsteps with
  | @loadFirst c => exact absurd (hadvance c) (by simp [Action.advances])
  | @loadSecond c => exact absurd (hadvance c) (by simp [Action.advances])
  | _ => exact hab

omit [DecidableEq ι] [Fintype ι] in
theorem first_ready (hinv : Inv g s h) (hfew : h.pushed.length < 2 ^ 63) {reader : UInt64}
    (hready : reader.toNat < h.finished) :
    ¬ (s.buffer (g.slotIndex reader)).version < g.expectedVersion reader := by
  cases Nat.lt_or_ge (reader.toNat / g.bufferSize + 1) (2 ^ 63) with
  | inl hwrap => exact fun hlt => absurd ((hinv.check_iff hwrap).1.mp hlt) (not_le.mpr hready)
  | inr hwrap =>
    have hhigh := hinv.check_wrap hready.le hfew hwrap
    exact fun hlt => UInt64.lt_irrefl _ (UInt64.lt_trans hlt hhigh)

/-- **If there is a value, a `pop` does not come back without one.** -/
theorem track_ready (hinv : Inv g s h) (hfew : h.pushed.length < 2 ^ 63)
    (htrack : track g (s, h) a = .ok (s', h')) {c : C} (hadvance : a.advances (.consumer c) = true)
    (hready : ∀ k, s.consumers c = some k → k.reader.toNat < h.finished) (hab : s'.aborted = none)
    (hreturned : returned s' c = none) : ∃ k, s'.consumers c = some k ∧ k.pop ≠ .idle := by
  obtain ⟨hstep, -⟩ := track_ok htrack
  obtain ⟨hab', hsteps⟩ := step_ok g hstep
  rcases Action.of_advances hadvance with rfl | ⟨i, rfl⟩ | rfl
  · cases hsteps with
    | loadFirst hc =>
      have hfirst := first_ready hinv hfew (hready _ hc)
      rcases loadFirst_cases (g := g) (h := h) hab' hc with
        ⟨-, ⟨e, hs'⟩, -⟩ | ⟨hlt, -, -⟩ | ⟨-, -, hs', -⟩
      · rw [hs'] at hab
        cases hab
      · exact absurd hlt hfirst
      · rw [hs']
        exact ⟨_, Function.update_self .., by simp⟩
  · cases hsteps with
    | copyWord hc => exact ⟨_, Function.update_self .., by simp⟩
  · cases hsteps with
    | loadSecond hc =>
      rcases loadSecond_cases (g := g) (h := h) hab' hc with ⟨-, ⟨e, hs'⟩, -⟩ | ⟨-, hs', -⟩
      · rw [hs'] at hab
        cases hab
      · rw [hs', returned_setConsumer] at hreturned
        cases hreturned

/-- **Who is overrun has missed a whole round**: the producer is at a push more than `bufferSize` ahead. -/
theorem track_overran (hinv : Inv g s h) (hwrap : ∀ r ≤ h.finished, r / g.bufferSize + 1 < 2 ^ 63)
    (htrack : track g (s, h) a = .ok (s', h')) {c : C} (hadvance : a.advances (.consumer c) = true)
    (hab : s'.aborted ≠ none) :
    ∃ k, s.consumers c = some k ∧ k.reader.toNat + g.bufferSize < h.begun := by
  obtain ⟨hstep, -⟩ := track_ok htrack
  obtain ⟨hnone, hsteps⟩ := step_ok g hstep
  rcases Action.of_advances hadvance with rfl | ⟨i, rfl⟩ | rfl
  · cases hsteps with
    | loadFirst hc =>
      obtain ⟨-, hhigh⟩ := hinv.check_iff (hwrap _ (hinv.consumer _ _ hc).reader_le)
      rcases loadFirst_cases (g := g) (h := h) hnone hc with ⟨hgt, -, -⟩ | ⟨-, hs', -⟩ | ⟨-, -, hs', -⟩
      · exact ⟨_, hc, hhigh.mp hgt⟩
      · rw [hs'] at hab
        exact absurd hnone hab
      · rw [hs'] at hab
        exact absurd hnone hab
  · exact absurd hnone (by cases hsteps; exact hab)
  · cases hsteps with
    | @loadSecond _ dst temp reader result hc =>
      obtain ⟨hlow, hhigh⟩ := hinv.check_iff (hwrap _ (hinv.consumer _ _ hc).reader_le)
      rcases loadSecond_cases (g := g) (h := h) hnone hc with ⟨hne, -, -⟩ | ⟨-, hs', -⟩
      · obtain ⟨⟨hfirst, -, hle⟩, -⟩ := (hinv.consumer _ _ hc).copying dst temp _ rfl
        have hdone : ¬ h.finished ≤ reader.toNat := Nat.not_le.mpr (hfirst.trans_le hle)
        refine ⟨_, hc, hhigh.mp ?_⟩
        exact (UInt64.lt_or_lt_of_ne hne).resolve_left fun hlt => hdone (hlow.mp hlt)
      · rw [hs'] at hab
        exact absurd hnone hab

end Reception

end ItchIngestion.SPMC
