import ItchIngestion.Queue.Broadcast
import ItchIngestion.Queue.SPSCQueue
import ItchIngestion.Library.Ranked

/-! # No party waits for another

A call is some loads and stores and the copy of a value, and nothing in it is done again because of
what another party does. So a call under way can always go on, and it is over after a number of its
own actions that depends on the size of a value only, whatever the other parties do in between, the
ones that stop in the middle of a call included (`broadcast_wait_free`, `fifo_wait_free`). An abort
ends all calls of the process.
-/
namespace ItchIngestion.SPMC
open Library
set_option autoImplicit false

inductive Party (C : Type)
  | producer
  | consumer (c : C)

section Work
variable {ι Word C : Type} [DecidableEq C]

/-- The action begins a call of the party. -/
def Action.starts (a : Action ι Word C) (p : Party C) : Bool :=
  match a, p with
  | .push _, .producer => true
  | .pop c _, .consumer d => c = d
  | _, _ => false

/-- The action is one of a call of the party that is under way. -/
def Action.advances (a : Action ι Word C) (p : Party C) : Bool :=
  match a, p with
  | .loadWriter, .producer | .loadVersion, .producer | .storeOdd, .producer
  | .writeWord _, .producer | .storeEven, .producer | .storeWriter, .producer => true
  | .loadFirst c, .consumer d | .copyWord c _, .consumer d | .loadSecond c, .consumer d => c = d
  | _, _ => false

/-- The party is in the middle of a call. -/
def Busy (s : State ι Word C) (p : Party C) : Prop :=
  s.aborted = none ∧
    match p with
    | .producer => s.producer ≠ .idle
    | .consumer c => ∃ k, s.consumers c = some k ∧ k.pop ≠ .idle

variable [Fintype ι]

/-- The steps that are left of a `push`, at most. -/
def Producer.work : Producer ι Word → ℕ
  | .idle => 0
  | .loadWriter _ => Fintype.card ι + 5
  | .loadVersion _ _ => Fintype.card ι + 4
  | .storeOdd _ _ _ => Fintype.card ι + 3
  | .writing _ _ _ written => Fintype.card ι - written.card + 2
  | .storeWriter _ => 1

/-- The steps that are left of a `pop`, at most. -/
def PopState.work : PopState ι Word → ℕ
  | .idle => 0
  | .loadFirst _ => Fintype.card ι + 2
  | .copying _ _ copied => Fintype.card ι - copied.card + 1

/-- The actions that the call of the party can still take. -/
def work (s : State ι Word C) (p : Party C) : ℕ :=
  if s.aborted = none then
    match p with
    | .producer => s.producer.work
    | .consumer c => (s.consumers c).elim 0 fun k => k.pop.work
  else 0

/-- A call takes at most so many actions. -/
def Party.bound (ι : Type) [Fintype ι] : Party C → ℕ
  | .producer => Fintype.card ι + 5
  | .consumer _ => Fintype.card ι + 2

variable {s s' : State ι Word C}

omit [DecidableEq C]

theorem Producer.work_le (p : Producer ι Word) : p.work ≤ Fintype.card ι + 5 := by
  cases p <;> simp only [Producer.work] <;> omega

theorem PopState.work_le (p : PopState ι Word) : p.work ≤ Fintype.card ι + 2 := by
  cases p <;> simp only [PopState.work] <;> omega

theorem Producer.work_pos (p : Producer ι Word) : p ≠ .idle ↔ 0 < p.work := by
  cases p <;> simp [Producer.work]

theorem PopState.work_pos (p : PopState ι Word) : p ≠ .idle ↔ 0 < p.work := by
  cases p <;> simp [PopState.work]

theorem work_le (s : State ι Word C) (p : Party C) : work s p ≤ p.bound ι := by
  unfold work
  split
  · cases p with
    | producer => exact s.producer.work_le
    | consumer c =>
      dsimp only
      cases s.consumers c with
      | none => exact Nat.zero_le _
      | some k => exact k.pop.work_le
  · exact Nat.zero_le _

theorem busy_iff_work {p : Party C} : Busy s p ↔ 0 < work s p := by
  unfold Busy work
  by_cases hab : s.aborted = none
  · rw [if_pos hab]
    cases p with
    | producer => exact ⟨fun h => s.producer.work_pos.mp h.2, fun h => ⟨hab, s.producer.work_pos.mpr h⟩⟩
    | consumer c =>
      dsimp only
      cases s.consumers c with
      | none => simp
      | some k => simp [hab, k.pop.work_pos]
  · rw [if_neg hab]
    exact iff_of_false (fun h => hab h.1) (lt_irrefl 0)

theorem work_producer_le (hab : s.aborted = none) (hp : s'.producer = s.producer) :
    work s' .producer ≤ work s .producer := by
  rw [work, work, if_pos hab, hp]
  split
  · exact le_refl _
  · exact Nat.zero_le _

theorem work_consumer_le {c : C} (hab : s.aborted = none) (hc : s'.consumers c = s.consumers c) :
    work s' (.consumer c) ≤ work s (.consumer c) := by
  rw [work, work, if_pos hab, hc]
  split
  · exact le_refl _
  · exact Nat.zero_le _

theorem work_consumer {c : C} {k : Consumer ι Word} (hab : s.aborted = none)
    (hc : s.consumers c = some k) : work s (.consumer c) = k.pop.work := by
  rw [work, if_pos hab, hc]
  rfl

end Work

/-! ## One action -/

section Step
variable {ι Word C : Type} [DecidableEq C] [Fintype ι] {g : Geometry} {s s' : State ι Word C}
  {a : Action ι Word C}

/-- An action lowers the work of the party whose call it advances, and raises that of no other. -/
def Eases (s : State ι Word C) (a : Action ι Word C) (s' : State ι Word C) (p : Party C) : Prop :=
  work s' p ≤ work s p ∧ (a.advances p = true → work s' p < work s p)

omit [DecidableEq C] in
theorem work_abort (e : String) (p : Party C) : work { s with aborted := some e } p = 0 :=
  if_neg (Option.some_ne_none e)

theorem eases_producer {p : Party C} (hab : s.aborted = none) (hab' : s'.aborted = none)
    (hc : s'.consumers = s.consumers) (hwork : s'.producer.work < s.producer.work)
    (hconsumer : ∀ c, a.advances (.consumer c) = false) : Eases s a s' p := by
  cases p with
  | producer =>
    have hlt : work s' .producer < work s .producer := by
      rw [work, work, if_pos hab, if_pos hab']
      exact hwork
    exact ⟨hlt.le, fun _ => hlt⟩
  | consumer c =>
    refine ⟨work_consumer_le hab (congrFun hc c), fun ha => ?_⟩
    rw [hconsumer c] at ha
    cases ha

theorem eases_consumer {p : Party C} {c : C} {k : Consumer ι Word} (hab : s.aborted = none)
    (hc : s.consumers c = some k) (hbusy : 0 < k.pop.work)
    (hs' : (∃ e, s' = { s with aborted := some e }) ∨
      ∃ k', s' = setConsumer s c k' ∧ k'.pop.work < k.pop.work)
    (hproducer : a.advances .producer = false) (hother : ∀ d, d ≠ c → a.advances (.consumer d) = false) :
    Eases s a s' p := by
  have hwork := work_consumer hab hc
  rcases hs' with ⟨e, rfl⟩ | ⟨k', rfl, hlt⟩
  · refine ⟨(work_abort e p).le.trans (Nat.zero_le _), fun ha => ?_⟩
    rw [work_abort]
    cases p with
    | producer => rw [hproducer] at ha; cases ha
    | consumer d =>
      have hd : d = c := by
        by_contra hd
        rw [hother d hd] at ha
        cases ha
      rw [hd, hwork]
      exact hbusy
  · cases p with
    | producer =>
      refine ⟨work_producer_le hab rfl, fun ha => ?_⟩
      rw [hproducer] at ha
      cases ha
    | consumer d =>
      by_cases hd : d = c
      · rw [hd]
        have hnew : work (setConsumer s c k') (.consumer c) = k'.pop.work :=
          @work_consumer _ _ _ _ (setConsumer s c k') c k' hab (Function.update_self ..)
        refine ⟨?_, fun _ => ?_⟩
        · rw [hnew, hwork]
          exact hlt.le
        · rw [hnew, hwork]
          exact hlt
      · refine ⟨work_consumer_le hab (Function.update_of_ne hd ..), fun ha => ?_⟩
        rw [hother d hd] at ha
        cases ha

theorem card_insert_lt {i : ι} [DecidableEq ι] {done : Finset ι} (hi : i ∉ done) :
    Fintype.card ι - (insert i done).card < Fintype.card ι - done.card := by
  have hcard := Finset.card_insert_of_notMem hi
  have hle : (insert i done).card ≤ Fintype.card ι := Finset.card_le_univ _
  omega

omit [Fintype ι] in
theorem checkFirst_cases (s : State ι Word C) (c : C) (reader : UInt64) (dst : Value ι Word)
    (result : Option (Bool × Value ι Word)) :
    (∃ e, checkFirst g s c reader dst result = { s with aborted := some e }) ∨
      ∃ k, checkFirst g s c reader dst result = setConsumer s c k ∧
        (k.pop = .idle ∨ k.pop = .copying dst dst ∅) := by
  unfold checkFirst
  dsimp only
  split
  · exact .inl ⟨_, rfl⟩
  · split
    · exact .inr ⟨_, rfl, .inl rfl⟩
    · exact .inr ⟨_, rfl, .inr rfl⟩

omit [Fintype ι] in
theorem checkSecond_cases (s : State ι Word C) (c : C) (reader : UInt64) (temp : Value ι Word) :
    (∃ e, checkSecond g s c reader temp = { s with aborted := some e }) ∨
      ∃ k, checkSecond g s c reader temp = setConsumer s c k ∧ k.pop = .idle := by
  unfold checkSecond
  dsimp only
  split
  · exact .inl ⟨_, rfl⟩
  · exact .inr ⟨_, rfl, rfl⟩

variable [DecidableEq ι]

theorem writeWord_fresh {i : ι} {val : Value ι Word} {w slotVer : UInt64} {written : Finset ι}
    (hp : s.producer = .writing val w slotVer written) (h : step g s (.writeWord i) = .ok s') :
    i ∉ written := by
  intro hi
  unfold step at h
  split at h
  · cases h
  all_goals simp_all [producerStep]

theorem copyWord_fresh {c : C} {i : ι} {reader : UInt64} {dst temp : Value ι Word}
    {copied : Finset ι} {result : Option (Bool × Value ι Word)}
    (hc : s.consumers c = some ⟨reader, .copying dst temp copied, result⟩)
    (h : step g s (.copyWord c i) = .ok s') : i ∉ copied := by
  intro hi
  unfold step at h
  split at h
  · cases h
  all_goals simp_all [consumerStep]

theorem step_eases {p : Party C} (h : step g s a = .ok s') (hstart : a.starts p = false) :
    Eases s a s' p := by
  obtain ⟨hab, hsteps⟩ := step_ok g h
  cases hsteps with
  | push hp =>
    cases p with
    | producer => cases hstart
    | consumer c => exact ⟨work_consumer_le hab rfl, fun ha => by cases ha⟩
  | loadWriter hp =>
    exact eases_producer hab hab rfl (by rw [hp]; exact Nat.lt_succ_self _) fun _ => rfl
  | loadVersion hp =>
    exact eases_producer hab hab rfl (by rw [hp]; exact Nat.lt_succ_self _) fun _ => rfl
  | storeOdd hp =>
    refine eases_producer hab hab rfl ?_ fun _ => rfl
    rw [hp, Producer.work, Producer.work, Finset.card_empty]
    omega
  | writeWord hp =>
    refine eases_producer hab hab rfl ?_ fun _ => rfl
    rw [hp, Producer.work, Producer.work]
    exact Nat.add_lt_add_right (card_insert_lt (writeWord_fresh hp h)) 2
  | storeEven hp =>
    refine eases_producer hab hab rfl ?_ fun _ => rfl
    rw [hp, Producer.work, Producer.work]
    omega
  | storeWriter hp =>
    exact eases_producer hab hab rfl (by rw [hp]; exact Nat.lt_succ_self _) fun _ => rfl
  | @makeConsumer c hc =>
    cases p with
    | producer => exact ⟨work_producer_le hab rfl, fun ha => by cases ha⟩
    | consumer d =>
      refine ⟨?_, fun ha => by cases ha⟩
      by_cases hd : d = c
      · have hnew : work (setConsumer s c ⟨s.writer, .idle, none⟩) (.consumer c) = 0 :=
          @work_consumer _ _ _ _ (setConsumer s c ⟨s.writer, .idle, none⟩) c _ hab
            (Function.update_self ..)
        rw [hd, hnew]
        exact Nat.zero_le _
      · exact work_consumer_le hab (Function.update_of_ne hd ..)
  | @pop c dst reader result hc =>
    cases p with
    | producer => exact ⟨work_producer_le hab rfl, fun ha => by cases ha⟩
    | consumer d =>
      have hd : d ≠ c := fun hd => of_decide_eq_false hstart hd.symm
      exact ⟨work_consumer_le hab (Function.update_of_ne hd ..), fun ha => by cases ha⟩
  | @loadFirst c dst reader result hc =>
    refine eases_consumer hab hc (Nat.succ_pos _) ?_ rfl fun d hd => decide_eq_false (Ne.symm hd)
    refine (checkFirst_cases s c reader dst result).imp_right ?_
    rintro ⟨k, hk, hpop⟩
    refine ⟨k, hk, ?_⟩
    cases hpop with
    | inl hidle =>
      rw [hidle]
      exact Nat.succ_pos _
    | inr hcopying =>
      rw [hcopying, PopState.work, PopState.work, Finset.card_empty]
      omega
  | @copyWord c dst temp copied reader i result hc =>
    refine eases_consumer hab hc (Nat.succ_pos _) (.inr ⟨_, rfl, ?_⟩) rfl
      fun d hd => decide_eq_false (Ne.symm hd)
    exact Nat.add_lt_add_right (card_insert_lt (copyWord_fresh hc h)) 1
  | @loadSecond c dst temp reader result hc =>
    refine eases_consumer hab hc (Nat.succ_pos _) ?_ rfl fun d hd => decide_eq_false (Ne.symm hd)
    refine (checkSecond_cases s c reader temp).imp_right ?_
    rintro ⟨k, hk, hidle⟩
    exact ⟨k, hk, by rw [hidle]; exact Nat.succ_pos _⟩

theorem busy_enabled {p : Party C} (hbusy : Busy s p) :
    ∃ a s', a.advances p = true ∧ step g s a = .ok s' := by
  obtain ⟨hab, hbusy⟩ := hbusy
  cases p with
  | producer =>
    cases hp : s.producer with
    | idle => exact absurd hp hbusy
    | loadWriter val => exact ⟨.loadWriter, _, rfl, by simp [step, producerStep, hab, hp]; rfl⟩
    | loadVersion val w => exact ⟨.loadVersion, _, rfl, by simp [step, producerStep, hab, hp]; rfl⟩
    | storeOdd val w slotVer => exact ⟨.storeOdd, _, rfl, by simp [step, producerStep, hab, hp]; rfl⟩
    | storeWriter w => exact ⟨.storeWriter, _, rfl, by simp [step, producerStep, hab, hp]; rfl⟩
    | writing val w slotVer written =>
      by_cases hall : written = Finset.univ
      · exact ⟨.storeEven, _, rfl, by simp [step, producerStep, hab, hp, hall]; rfl⟩
      · obtain ⟨i, hi⟩ := not_forall.mp (mt Finset.eq_univ_iff_forall.mpr hall)
        exact ⟨.writeWord i, _, rfl, by simp [step, producerStep, hab, hp, hi]; rfl⟩
  | consumer c =>
    obtain ⟨⟨reader, pop, result⟩, hc, hpop⟩ := hbusy
    cases pop with
    | idle => exact absurd rfl hpop
    | loadFirst dst =>
      exact ⟨.loadFirst c, _, decide_eq_true rfl, by simp [step, consumerStep, hab, hc]; rfl⟩
    | copying dst temp copied =>
      by_cases hall : copied = Finset.univ
      · exact ⟨.loadSecond c, _, decide_eq_true rfl, by simp [step, consumerStep, hab, hc, hall]; rfl⟩
      · obtain ⟨i, hi⟩ := not_forall.mp (mt Finset.eq_univ_iff_forall.mpr hall)
        exact ⟨.copyWord c i, _, decide_eq_true rfl, by simp [step, consumerStep, hab, hc, hi]; rfl⟩

end Step

/-! ## Runs -/

/-- **The broadcast queue is wait-free**: whatever the others do, a call is over after so many
actions of its party, or the process is; and until then the party has an action to take. -/
theorem broadcast_wait_free {ι Word C : Type} [DecidableEq C] [Fintype ι] [DecidableEq ι] {g : Geometry}
    {s t : State ι Word C} {as : List (Action ι Word C)} {p : Party C}
    (hrun : run (step g) s as = .ok t) (hno : ∀ a ∈ as, a.starts p = false) :
    as.countP (fun a => a.advances p) ≤ p.bound ι ∧
      (Busy t p → as.countP (fun a => a.advances p) < p.bound ι ∧
        ∃ a t', a.advances p = true ∧ step g t a = .ok t') := by
  have hranked : Ranked (step g) (fun _ => True) (fun a : Action ι Word C => a.starts p = false)
      (fun a => a.advances p = true) (fun s => work s p) :=
    ⟨fun _ _ _ _ hstart hmine hstep => (step_eases hstep hstart).2 hmine,
      fun _ _ _ _ hstart _ hstep => (step_eases hstep hstart).1⟩
  have hle := hranked.count_le (fun _ _ _ _ _ => trivial) hno hrun
  simp only [Bool.decide_eq_true] at hle
  have hbound := work_le s p
  refine ⟨by omega, fun hbusy => ⟨?_, busy_enabled hbusy⟩⟩
  have hpos := busy_iff_work.mp hbusy
  omega

/-- A consumer is created while a push is under way. -/
theorem broadcast_wait_free_sample : ∃ t : State (Fin 2) ℕ Bool,
    run (step .twoSlots) { init (fun _ _ => 0) with producer := .loadWriter ![1, 2] }
      [.loadWriter, .makeConsumer true, .loadVersion, .storeOdd, .writeWord 1] = .ok t ∧
    ∃ a t', Action.advances a .producer = true ∧ step .twoSlots t a = .ok t' := by
  obtain ⟨t, hrun, hbusy⟩ : ∃ t : State (Fin 2) ℕ Bool,
      run (step .twoSlots) { init (fun _ _ => 0) with producer := .loadWriter ![1, 2] }
        [.loadWriter, .makeConsumer true, .loadVersion, .storeOdd, .writeWord 1] = .ok t ∧
      Busy t .producer := ⟨_, rfl, rfl, by simp⟩
  exact ⟨t, hrun, ((@broadcast_wait_free _ _ _ _ _ _ _ _ _ _ .producer hrun (by decide)).2 hbusy).2⟩

end ItchIngestion.SPMC

namespace ItchIngestion.SPSC
open Library
set_option autoImplicit false

inductive Party
  | producer
  | consumer

section Work
variable {T : Type}

/-- The action begins a call of the party. -/
def Action.starts : Action T → Party → Bool
  | .tryPush _, .producer | .tryPop, .consumer => true
  | _, _ => false

/-- The action is one of a call of the party that is under way. -/
def Action.advances : Action T → Party → Bool
  | .pushLoadWriter, .producer | .pushLoadReader, .producer | .writeSlot, .producer
  | .storeWriter, .producer => true
  | .popLoadReader, .consumer | .popLoadWriter, .consumer | .readSlot, .consumer
  | .storeReader, .consumer => true
  | _, _ => false

/-- The party is in the middle of a call. -/
def Busy (s : State T) : Party → Prop
  | .producer => ∀ returned, s.producer ≠ .idle returned
  | .consumer => ∀ returned, s.consumer ≠ .idle returned

/-- The steps that are left of a `try_push`, at most. -/
def Producer.work : Producer T → ℕ
  | .idle _ => 0
  | .loadWriter _ => 4
  | .loadReader _ _ => 3
  | .writeSlot _ _ => 2
  | .storeWriter _ _ => 1

/-- The steps that are left of a `try_pop`, at most. -/
def Consumer.work : Consumer T → ℕ
  | .idle _ => 0
  | .loadReader => 4
  | .loadWriter _ => 3
  | .readSlot _ => 2
  | .storeReader _ _ => 1

/-- The actions that the call of the party can still take. -/
def work (s : State T) : Party → ℕ
  | .producer => s.producer.work
  | .consumer => s.consumer.work

theorem work_le (s : State T) (p : Party) : work s p ≤ 4 := by
  cases p with
  | producer => rw [work]; cases s.producer <;> simp [Producer.work]
  | consumer => rw [work]; cases s.consumer <;> simp [Consumer.work]

theorem busy_iff_work {s : State T} {p : Party} : Busy s p ↔ 0 < work s p := by
  cases p with
  | producer => rw [Busy, work]; cases s.producer <;> simp [Producer.work]
  | consumer => rw [Busy, work]; cases s.consumer <;> simp [Consumer.work]

theorem checkSpace_work (data : T) (writer reader : UInt64) :
    (checkSpace data writer reader).work < (Producer.loadReader data writer).work := by
  unfold checkSpace
  split <;> simp [Producer.work]

theorem checkEmpty_work (reader writer : UInt64) :
    (checkEmpty reader writer : Consumer T).work < (.loadWriter reader : Consumer T).work := by
  unfold checkEmpty
  split <;> simp [Consumer.work]

variable {leftover : T → T} {s s' : State T} {a : Action T}

/-- The action lowers the work of the party whose call it advances, and raises that of no other. -/
def Eases (s : State T) (a : Action T) (s' : State T) (p : Party) : Prop :=
  work s' p ≤ work s p ∧ (a.advances p = true → work s' p < work s p)

theorem eases_producer {p : Party} {x : Queue T} {q r : Producer T} (hp : s.producer = q)
    (hlt : r.work < q.work) (hconsumer : a.advances .consumer = false) :
    Eases s a ⟨x, r, s.consumer⟩ p := by
  subst hp
  cases p with
  | producer => exact ⟨hlt.le, fun _ => hlt⟩
  | consumer =>
    refine ⟨le_refl _, fun ha => ?_⟩
    rw [hconsumer] at ha
    cases ha

theorem eases_consumer {p : Party} {x : Queue T} {q r : Consumer T} (hc : s.consumer = q)
    (hlt : r.work < q.work) (hproducer : a.advances .producer = false) :
    Eases s a ⟨x, s.producer, r⟩ p := by
  subst hc
  cases p with
  | producer =>
    refine ⟨le_refl _, fun ha => ?_⟩
    rw [hproducer] at ha
    cases ha
  | consumer => exact ⟨hlt.le, fun _ => hlt⟩

theorem step_eases {p : Party} (h : step leftover s a = .ok s') (hstart : a.starts p = false) :
    Eases s a s' p := by
  cases step_ok leftover h with
  | tryPush data hp =>
    cases p with
    | producer => cases hstart
    | consumer => exact ⟨le_refl _, fun ha => by cases ha⟩
  | tryPop hc =>
    cases p with
    | producer => exact ⟨le_refl _, fun ha => by cases ha⟩
    | consumer => cases hstart
  | pushLoadReader hp => exact eases_producer hp (checkSpace_work ..) rfl
  | popLoadWriter hc => exact eases_consumer hc (checkEmpty_work ..) rfl
  | pushLoadWriter hp | writeSlot hp | storeWriter hp =>
    exact eases_producer hp (Nat.lt_succ_self _) rfl
  | popLoadReader hc | readSlot hc | storeReader hc =>
    exact eases_consumer hc (Nat.lt_succ_self _) rfl

theorem busy_enabled {p : Party} (leftover : T → T) (hbusy : Busy s p) :
    ∃ a s', a.advances p = true ∧ step leftover s a = .ok s' := by
  obtain ⟨⟨reader, writer, buffer⟩, producer, consumer⟩ := s
  cases p with
  | producer =>
    cases producer with
    | idle returned => exact absurd rfl (hbusy returned)
    | loadWriter data => exact ⟨.pushLoadWriter, _, rfl, rfl⟩
    | loadReader data w => exact ⟨.pushLoadReader, _, rfl, rfl⟩
    | writeSlot data w => exact ⟨.writeSlot, _, rfl, rfl⟩
    | storeWriter data w => exact ⟨.storeWriter, _, rfl, rfl⟩
  | consumer =>
    cases consumer with
    | idle returned => exact absurd rfl (hbusy returned)
    | loadReader =>
      exact ⟨.popLoadReader, ⟨⟨reader, writer, buffer⟩, producer, .loadWriter reader⟩, rfl,
        by cases producer <;> rfl⟩
    | loadWriter r =>
      exact ⟨.popLoadWriter, ⟨⟨reader, writer, buffer⟩, producer, checkEmpty r writer⟩, rfl,
        by cases producer <;> rfl⟩
    | readSlot r =>
      refine ⟨.readSlot, ⟨⟨reader, writer, Function.update buffer (slotIndex r)
        (leftover (buffer (slotIndex r)))⟩, producer, .storeReader (buffer (slotIndex r)) r⟩, rfl, ?_⟩
      cases producer <;> rfl
    | storeReader dst r =>
      exact ⟨.storeReader, ⟨⟨r + 1, writer, buffer⟩, producer, .idle (some true)⟩, rfl,
        by cases producer <;> rfl⟩

end Work

/-- **The queue of one producer and one consumer is wait-free**: a call takes at most four actions,
whatever the other party does. -/
theorem fifo_wait_free {T : Type} {leftover : T → T} {s t : State T} {as : List (Action T)} {p : Party}
    (hrun : run (step leftover) s as = .ok t) (hno : ∀ a ∈ as, a.starts p = false) :
    as.countP (fun a => a.advances p) ≤ 4 ∧
      (Busy t p → as.countP (fun a => a.advances p) < 4 ∧
        ∃ a t', a.advances p = true ∧ step leftover t a = .ok t') := by
  have hranked : Ranked (step leftover) (fun _ => True) (fun a : Action T => a.starts p = false)
      (fun a => a.advances p = true) (fun s => work s p) :=
    ⟨fun _ _ _ _ hstart hmine hstep => (step_eases hstep hstart).2 hmine,
      fun _ _ _ _ hstart _ hstep => (step_eases hstep hstart).1⟩
  have hle := hranked.count_le (fun _ _ _ _ _ => trivial) hno hrun
  simp only [Bool.decide_eq_true] at hle
  have hbound := work_le s p
  refine ⟨by omega, fun hbusy => ⟨?_, busy_enabled leftover hbusy⟩⟩
  have hpos := busy_iff_work.mp hbusy
  omega

/-- The consumer asks while a value is being pushed. -/
theorem fifo_wait_free_sample : ∃ t : State ℕ,
    run (step id) { init (fun _ => 0) with producer := .loadWriter 7 }
      [.pushLoadWriter, .tryPop, .pushLoadReader, .popLoadReader] = .ok t ∧
    ∃ a t', Action.advances a .producer = true ∧ step id t a = .ok t' := by
  obtain ⟨t, hrun, hbusy⟩ : ∃ t : State ℕ,
      run (step id) { init (fun _ => 0) with producer := .loadWriter 7 }
        [.pushLoadWriter, .tryPop, .pushLoadReader, .popLoadReader] = .ok t ∧
      Busy t .producer := ⟨_, rfl, busy_iff_work.mpr (by decide)⟩
  exact ⟨t, hrun, ((@fifo_wait_free _ _ _ _ _ .producer hrun (by decide)).2 hbusy).2⟩

end ItchIngestion.SPSC
