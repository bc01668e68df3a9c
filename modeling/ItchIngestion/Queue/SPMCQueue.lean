import ItchIngestion.Library.Run
import ItchIngestion.Library.Ring

/-! # The broadcast queue (`spmc_queue.hpp`)

One producer writes the slots of a ring round and round; every consumer reads all of them at its own
pace. A slot has a version, odd while the slot is written. The model is a state machine under
sequential consistency: each load and store of an atomic is one action, the data of a slot is
written and copied word by word, in any order, and the actions of the producer and of any number of
consumers interleave freely. `UNEXPECTED` ends the process, so nothing runs after it.

`History` is what an observer notes of a run (`observe`); the state machine does not read it.
-/
namespace ItchIngestion.SPMC
open Library
set_option autoImplicit false

/-! ## Geometry -/

/-- The size of a slot, with what `alignas(64)` and the `static_assert` guarantee; `shift` is
`std::countr_zero(buffer_size)`. -/
structure Geometry where
  sizeofSlot : ℕ
  shift : ℕ
  aligned : 64 ∣ sizeofSlot
  popcount : 8 * 1024 * 1024 / sizeofSlot = 2 ^ shift

namespace Geometry
variable (g : Geometry)

def bufferSize : ℕ := 8 * 1024 * 1024 / g.sizeofSlot

def wrapMask : UInt64 := UInt64.ofNat g.bufferSize - 1

def slotIndex (position : UInt64) : ℕ := (position &&& g.wrapMask).toNat

/-- The version of a slot in which the push at this position is complete. -/
def expectedVersion (reader : UInt64) : UInt64 :=
  let gen := reader >>> UInt64.ofNat g.shift
  2 * (gen + 1)

end Geometry

/-! ## The code -/

section Code
variable (ι Word C : Type)

/-- A value of `T`, as words at the indices `ι`. -/
abbrev Value := ι → Word

structure Slot where
  version : UInt64
  data : Value ι Word

/-- Where the producer is in `push(val)`, with its local variables. -/
inductive Producer
  | idle
  | loadWriter (val : Value ι Word)
  | loadVersion (val : Value ι Word) (w : UInt64)
  | storeOdd (val : Value ι Word) (w slotVer : UInt64)
  | writing (val : Value ι Word) (w slotVer : UInt64) (written : Finset ι)
  | storeWriter (w : UInt64)

/-- Where a consumer is in `pop(dst)`, with its local variables. -/
inductive PopState
  | idle
  | loadFirst (dst : Value ι Word)
  | copying (dst temp : Value ι Word) (copied : Finset ι)

/-- A consumer with what it does. -/
structure Consumer where
  reader : UInt64
  pop : PopState ι Word
  /-- What the last `pop` returned, and the `dst` it left. -/
  result : Option (Bool × Value ι Word)

/-- The queue, and where each party is. -/
structure State where
  writer : UInt64
  buffer : ℕ → Slot ι Word
  producer : Producer ι Word
  consumers : C → Option (Consumer ι Word)
  aborted : Option String

/-- The steps of a push, of a `pop`, and the creation of a consumer. -/
inductive Action
  | push (val : Value ι Word)
  | loadWriter
  | loadVersion
  | storeOdd
  | writeWord (i : ι)
  | storeEven
  | storeWriter
  | makeConsumer (c : C)
  | pop (c : C) (dst : Value ι Word)
  | loadFirst (c : C)
  | copyWord (c : C) (i : ι)
  | loadSecond (c : C)

end Code

/-- The action is not one that can be taken now. -/
inductive Disabled
  | disabled

section Step
variable {ι Word C : Type} [DecidableEq ι] [Fintype ι] [DecidableEq C] (g : Geometry)

/-- A new queue; `make_unique` leaves some `data` in the slots. -/
def init (data : ℕ → Value ι Word) : State ι Word C where
  writer := 0
  buffer i := ⟨0, data i⟩
  producer := .idle
  consumers _ := none
  aborted := none

def setVersion (s : State ι Word C) (i : ℕ) (version : UInt64) : ℕ → Slot ι Word :=
  Function.update s.buffer i { s.buffer i with version }

/-- One word of the copy into a slot. -/
def setWord (s : State ι Word C) (k : ℕ) (i : ι) (x : Word) : ℕ → Slot ι Word :=
  Function.update s.buffer k { s.buffer k with data := Function.update (s.buffer k).data i x }

def setConsumer (s : State ι Word C) (c : C) (k : Consumer ι Word) : State ι Word C :=
  { s with consumers := Function.update s.consumers c (some k) }

/-- The test of the version loaded first, and the return if the slot is not ready. -/
def checkFirst (s : State ι Word C) (c : C) (reader : UInt64) (dst : Value ι Word)
    (result : Option (Bool × Value ι Word)) : State ι Word C :=
  let expected := g.expectedVersion reader
  let v1 := (s.buffer (g.slotIndex reader)).version
  if v1 > expected then { s with aborted := some "Consumer was overun before trying to pop." }
  else if v1 < expected then setConsumer s c ⟨reader, .idle, some (false, dst)⟩
  else setConsumer s c ⟨reader, .copying dst dst ∅, result⟩

/-- The test of the version loaded second, and the return of the copy. -/
def checkSecond (s : State ι Word C) (c : C) (reader : UInt64) (temp : Value ι Word) :
    State ι Word C :=
  let v2 := (s.buffer (g.slotIndex reader)).version
  if v2 ≠ g.expectedVersion reader then { s with aborted := some "Consumer was overun while popping." }
  else setConsumer s c ⟨reader + 1, .idle, some (true, temp)⟩

def producerStep (s : State ι Word C) (a : Action ι Word C) :
    Except Disabled (State ι Word C) :=
  match a, s.producer with
  | .push val, .idle => .ok { s with producer := .loadWriter val }
  | .loadWriter, .loadWriter val => .ok { s with producer := .loadVersion val s.writer }
  | .loadVersion, .loadVersion val w =>
    .ok { s with producer := .storeOdd val w (s.buffer (g.slotIndex w)).version }
  | .storeOdd, .storeOdd val w slotVer =>
    .ok { s with
      buffer := setVersion s (g.slotIndex w) (slotVer + 1), producer := .writing val w slotVer ∅ }
  | .writeWord i, .writing val w slotVer written =>
    if i ∈ written then .error .disabled
    else .ok { s with
      buffer := setWord s (g.slotIndex w) i (val i)
      producer := .writing val w slotVer (insert i written) }
  | .storeEven, .writing _ w slotVer written =>
    if written = Finset.univ then
      .ok { s with
        buffer := setVersion s (g.slotIndex w) (slotVer + 2), producer := .storeWriter w }
    else .error .disabled
  | .storeWriter, .storeWriter w => .ok { s with writer := w + 1, producer := .idle }
  | _, _ => .error .disabled

def consumerStep (s : State ι Word C) (a : Action ι Word C) :
    Except Disabled (State ι Word C) :=
  match a with
  | .makeConsumer c =>
    match s.consumers c with
    | none => .ok (setConsumer s c ⟨s.writer, .idle, none⟩)
    | some _ => .error .disabled
  | .pop c dst =>
    match s.consumers c with
    | some ⟨reader, .idle, result⟩ => .ok (setConsumer s c ⟨reader, .loadFirst dst, result⟩)
    | _ => .error .disabled
  | .loadFirst c =>
    match s.consumers c with
    | some ⟨reader, .loadFirst dst, result⟩ => .ok (checkFirst g s c reader dst result)
    | _ => .error .disabled
  | .copyWord c i =>
    match s.consumers c with
    | some ⟨reader, .copying dst temp copied, result⟩ =>
      if i ∈ copied then .error .disabled
      else
        let x := (s.buffer (g.slotIndex reader)).data i
        .ok (setConsumer s c
          ⟨reader, .copying dst (Function.update temp i x) (insert i copied), result⟩)
    | _ => .error .disabled
  | .loadSecond c =>
    match s.consumers c with
    | some ⟨reader, .copying _ temp copied, _⟩ =>
      if copied = Finset.univ then .ok (checkSecond g s c reader temp) else .error .disabled
    | _ => .error .disabled
  | _ => .error .disabled

def step (s : State ι Word C) (a : Action ι Word C) : Except Disabled (State ι Word C) :=
  match s.aborted, a with
  | some _, _ => .error .disabled
  | none, .push _ | none, .loadWriter | none, .loadVersion | none, .storeOdd | none, .writeWord _
  | none, .storeEven | none, .storeWriter => producerStep g s a
  | none, _ => consumerStep g s a

/-! ## What a step can do -/

/-- The cases of `step`, with their conditions. -/
inductive Steps (s : State ι Word C) : Action ι Word C → State ι Word C → Prop
  | push {val : Value ι Word} (hp : s.producer = .idle) :
      Steps s (.push val) { s with producer := .loadWriter val }
  | loadWriter {val : Value ι Word} (hp : s.producer = .loadWriter val) :
      Steps s .loadWriter { s with producer := .loadVersion val s.writer }
  | loadVersion {val : Value ι Word} {w : UInt64} (hp : s.producer = .loadVersion val w) :
      Steps s .loadVersion
        { s with producer := .storeOdd val w (s.buffer (g.slotIndex w)).version }
  | storeOdd {val : Value ι Word} {w slotVer : UInt64} (hp : s.producer = .storeOdd val w slotVer) :
      Steps s .storeOdd { s with
        buffer := setVersion s (g.slotIndex w) (slotVer + 1), producer := .writing val w slotVer ∅ }
  | writeWord {val : Value ι Word} {w slotVer : UInt64} {written : Finset ι} {i : ι}
      (hp : s.producer = .writing val w slotVer written) :
      Steps s (.writeWord i) { s with
        buffer := setWord s (g.slotIndex w) i (val i)
        producer := .writing val w slotVer (insert i written) }
  | storeEven {val : Value ι Word} {w slotVer : UInt64}
      (hp : s.producer = .writing val w slotVer Finset.univ) :
      Steps s .storeEven { s with
        buffer := setVersion s (g.slotIndex w) (slotVer + 2), producer := .storeWriter w }
  | storeWriter {w : UInt64} (hp : s.producer = .storeWriter w) :
      Steps s .storeWriter { s with writer := w + 1, producer := .idle }
  | makeConsumer {c : C} (hc : s.consumers c = none) :
      Steps s (.makeConsumer c) (setConsumer s c ⟨s.writer, .idle, none⟩)
  | pop {c : C} {dst : Value ι Word} {reader : UInt64} {result : Option (Bool × Value ι Word)}
      (hc : s.consumers c = some ⟨reader, .idle, result⟩) :
      Steps s (.pop c dst) (setConsumer s c ⟨reader, .loadFirst dst, result⟩)
  | loadFirst {c : C} {dst : Value ι Word} {reader : UInt64} {result : Option (Bool × Value ι Word)}
      (hc : s.consumers c = some ⟨reader, .loadFirst dst, result⟩) :
      Steps s (.loadFirst c) (checkFirst g s c reader dst result)
  | copyWord {c : C} {dst temp : Value ι Word} {copied : Finset ι} {reader : UInt64} {i : ι}
      {result : Option (Bool × Value ι Word)}
      (hc : s.consumers c = some ⟨reader, .copying dst temp copied, result⟩) :
      Steps s (.copyWord c i) (setConsumer s c ⟨reader, .copying dst
        (Function.update temp i ((s.buffer (g.slotIndex reader)).data i)) (insert i copied), result⟩)
  | loadSecond {c : C} {dst temp : Value ι Word} {reader : UInt64}
      {result : Option (Bool × Value ι Word)}
      (hc : s.consumers c = some ⟨reader, .copying dst temp Finset.univ, result⟩) :
      Steps s (.loadSecond c) (checkSecond g s c reader temp)

theorem producerStep_ok {s s' : State ι Word C} {a : Action ι Word C}
    (h : producerStep g s a = .ok s') : Steps g s a s' := by
  unfold producerStep at h
  split at h
  · rename_i hp; cases h; exact .push hp
  · rename_i hp; cases h; exact .loadWriter hp
  · rename_i hp; cases h; exact .loadVersion hp
  · rename_i hp; cases h; exact .storeOdd hp
  · rename_i hp
    split at h
    · cases h
    · cases h
      exact .writeWord hp
  · rename_i hp
    split at h
    · rename_i hall
      cases h
      subst hall
      exact .storeEven hp
    · cases h
  · rename_i hp; cases h; exact .storeWriter hp
  · cases h

theorem consumerStep_ok {s s' : State ι Word C} {a : Action ι Word C}
    (h : consumerStep g s a = .ok s') : Steps g s a s' := by
  unfold consumerStep at h
  split at h
  · split at h
    · rename_i hc; cases h; exact .makeConsumer hc
    · cases h
  · split at h
    · rename_i hc; cases h; exact .pop hc
    · cases h
  · split at h
    · rename_i hc; cases h; exact .loadFirst hc
    · cases h
  · split at h
    · rename_i hc
      split at h
      · cases h
      · cases h
        exact .copyWord hc
    · cases h
  · split at h
    · rename_i hc
      split at h
      · rename_i hall
        cases h
        subst hall
        exact .loadSecond hc
      · cases h
    · cases h
  · cases h

theorem step_ok {s s' : State ι Word C} {a : Action ι Word C} (h : step g s a = .ok s') :
    s.aborted = none ∧ Steps g s a s' := by
  unfold step at h
  split at h
  · cases h
  all_goals first
    | exact ⟨by assumption, producerStep_ok g h⟩
    | exact ⟨by assumption, consumerStep_ok g h⟩

end Step

/-! ## What an observer notes -/

/-- How many pushes had finished and begun at some moment. -/
structure Snapshot where
  finished : ℕ
  begun : ℕ

/-- How a `pop` ends. -/
inductive Outcome
  | empty
  | returned
  | overrun

section History
variable (ι Word C : Type)

/-- One `pop`: its read index and `dst`, how many pushes had begun and finished at its two loads,
and its outcome with the read index and `dst` it left. -/
structure Pop where
  consumer : C
  reader : UInt64
  dst : Value ι Word
  first : Snapshot
  second : Option Snapshot
  outcome : Outcome
  after : Option (UInt64 × Value ι Word)

/-- The values pushed, the odd and the even version stores, the value of `writer` that a consumer
was created with, the first load of its `pop` under way, and the `pop`s that ended. -/
structure History where
  pushed : List (Value ι Word)
  begun : ℕ
  finished : ℕ
  start : C → ℕ
  first : C → Snapshot
  pops : List (Pop ι Word C)

end History

section Observe
variable {ι Word C : Type} [DecidableEq ι] [Fintype ι] [DecidableEq C] (g : Geometry)

def History.init : History ι Word C where
  pushed := []
  begun := 0
  finished := 0
  start _ := 0
  first _ := ⟨0, 0⟩
  pops := []

/-- The numbers of pushes at this moment. -/
def History.now (h : History ι Word C) : Snapshot := ⟨h.finished, h.begun⟩

def History.loaded (h : History ι Word C) (c : C) : History ι Word C :=
  { h with first := Function.update h.first c h.now }

def History.ended (h : History ι Word C) (p : Pop ι Word C) : History ι Word C :=
  { h with pops := h.pops ++ [p] }

/-- Whether a `pop` has ended in a state, and how. -/
def outcomeOf (s : State ι Word C) (c : C) : Option (Outcome × Option (UInt64 × Value ι Word)) :=
  match s.aborted, s.consumers c with
  | some _, _ => some (.overrun, none)
  | none, some ⟨reader, .idle, some (ret, dst)⟩ =>
    some (if ret then .returned else .empty, some (reader, dst))
  | none, _ => none

/-- Note a `pop` if it has ended. -/
def History.note (h : History ι Word C) (c : C) (reader : UInt64) (dst : Value ι Word)
    (second : Option Snapshot) (s' : State ι Word C) : History ι Word C :=
  match outcomeOf s' c with
  | none => h
  | some (outcome, after) => h.ended ⟨c, reader, dst, h.first c, second, outcome, after⟩

/-- What an observer notes of a step. -/
def observe (s : State ι Word C) (a : Action ι Word C) (s' : State ι Word C)
    (h : History ι Word C) : History ι Word C :=
  match a with
  | .push val => { h with pushed := h.pushed ++ [val] }
  | .storeOdd => { h with begun := h.begun + 1 }
  | .storeEven => { h with finished := h.finished + 1 }
  | .makeConsumer c => { h with start := Function.update h.start c s.writer.toNat }
  | .loadFirst c =>
    match s.consumers c with
    | some ⟨reader, .loadFirst dst, _⟩ => (h.loaded c).note c reader dst none s'
    | _ => h
  | .loadSecond c =>
    match s.consumers c with
    | some ⟨reader, .copying dst _ _, _⟩ => h.note c reader dst (some h.now) s'
    | _ => h
  | _ => h

/-- A step with what is noted of it. -/
def track (sh : State ι Word C × History ι Word C) (a : Action ι Word C) :
    Except Disabled (State ι Word C × History ι Word C) :=
  match step g sh.1 a with
  | .ok s' => .ok (s', observe sh.1 a s' sh.2)
  | .error e => .error e

/-- The values that the `pop`s of a consumer returned. -/
def History.received (h : History ι Word C) (c : C) : List (Value ι Word) :=
  h.pops.filterMap fun p =>
    match p.outcome, p.after with
    | .returned, some (_, v) => if p.consumer = c then some v else none
    | _, _ => none

variable {g}

theorem track_ok {s s' : State ι Word C} {h h' : History ι Word C} {a : Action ι Word C}
    (htrack : track g (s, h) a = .ok (s', h')) :
    step g s a = .ok s' ∧ h' = observe s a s' h := by
  unfold track at htrack
  split at htrack
  · rename_i t hstep
    cases htrack
    exact ⟨hstep, rfl⟩
  · cases htrack

theorem run_track (s : State ι Word C) (h : History ι Word C) (as : List (Action ι Word C)) :
    (run (track g) (s, h) as).map Prod.fst = run (step g) s as := by
  induction as generalizing s h with
  | nil => rfl
  | cons a as ih =>
    unfold run at ih ⊢
    rw [List.foldlM_cons, List.foldlM_cons]
    cases hstep : step g s a with
    | error e =>
      have htrack : track g (s, h) a = .error e := by simp only [track, hstep]
      rw [htrack]
      rfl
    | ok s' =>
      have htrack : track g (s, h) a = .ok (s', observe s a s' h) := by simp only [track, hstep]
      rw [htrack]
      exact ih s' _

end Observe

end ItchIngestion.SPMC
