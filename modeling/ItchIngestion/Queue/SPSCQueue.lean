import ItchIngestion.Library.Run
import ItchIngestion.Library.Ring

/-! # The queue of one producer and one consumer (`spsc_queue.hpp`)

The model is a state machine under sequential consistency: each load and store of `reader_` and
`writer_`, the write of a slot and its reading are one action each, and the actions of the two
parties interleave freely. A comparison of local variables belongs to the load before it. The two
overloads of `try_push` differ in how the value gets into the slot, which takes one action either
way; what a pop leaves in its slot is `leftover` (`memcpy` leaves the value, a move does not).

`History` is what an observer notes of a run (`observe`); the state machine does not read it.
-/
namespace ItchIngestion.SPSC
open Library
set_option autoImplicit false

/-! ## The code -/

def bufferSizeBytes : ℕ := 8 * 1024 * 1024

def bufferSizeSlots : ℕ := bufferSizeBytes / 64

def wrapMask : UInt64 := UInt64.ofNat bufferSizeSlots - 1

/-- The number of values in the queue; the difference may wrap. -/
def used (writer reader : UInt64) : UInt64 := writer - reader

/-- One slot always stays free. -/
def freeSpace (avail : UInt64) : UInt64 := UInt64.ofNat bufferSizeSlots - 1 - avail

def slotIndex (position : UInt64) : ℕ := (position &&& wrapMask).toNat

section Code
variable (T : Type)

/-- Where the producer is in `try_push(data)`, with its local variables; idle, with what the last
call returned. -/
inductive Producer
  | idle (returned : Option Bool)
  | loadWriter (data : T)
  | loadReader (data : T) (writer : UInt64)
  | writeSlot (data : T) (writer : UInt64)
  | storeWriter (data : T) (writer : UInt64)

/-- Where the consumer is in `try_pop(dst)`; `dst` once it has been assigned. -/
inductive Consumer
  | idle (returned : Option Bool)
  | loadReader
  | loadWriter (reader : UInt64)
  | readSlot (reader : UInt64)
  | storeReader (dst : T) (reader : UInt64)

/-- The shared members. -/
structure Queue where
  reader : UInt64
  writer : UInt64
  buffer : ℕ → T

/-- The queue, and where its two parties are. -/
structure State extends Queue T where
  producer : Producer T
  consumer : Consumer T

/-- One load, store or copy of a party. -/
inductive Action
  | tryPush (data : T)
  | pushLoadWriter
  | pushLoadReader
  | writeSlot
  | storeWriter
  | tryPop
  | popLoadReader
  | popLoadWriter
  | readSlot
  | storeReader

end Code

/-- The action is not one that can be taken now. -/
inductive Disabled
  | disabled

section Step
variable {T : Type} (leftover : T → T)

/-- A new queue; `make_unique` leaves some bytes in the slots. -/
def init (storage : ℕ → T) : State T where
  reader := 0
  writer := 0
  buffer := storage
  producer := .idle none
  consumer := .idle none

/-- The loads are over: the producer gives up or goes on to the slot. -/
def checkSpace (data : T) (writer reader : UInt64) : Producer T :=
  if freeSpace (used writer reader) < 1 then .idle (some false) else .writeSlot data writer

/-- The loads are over: the consumer gives up or goes on to the slot. -/
def checkEmpty (reader writer : UInt64) : Consumer T :=
  if reader = writer then .idle (some false) else .readSlot reader

def step (s : State T) (a : Action T) : Except Disabled (State T) :=
  match a, s.producer, s.consumer with
  | .tryPush data, .idle _, _ => .ok { s with producer := .loadWriter data }
  | .pushLoadWriter, .loadWriter data, _ => .ok { s with producer := .loadReader data s.writer }
  | .pushLoadReader, .loadReader data writer, _ =>
    .ok { s with producer := checkSpace data writer s.reader }
  | .writeSlot, .writeSlot data writer, _ =>
    .ok { s with
      buffer := Function.update s.buffer (slotIndex writer) data
      producer := .storeWriter data writer }
  | .storeWriter, .storeWriter _ writer, _ =>
    .ok { s with writer := writer + 1, producer := .idle (some true) }
  | .tryPop, _, .idle _ => .ok { s with consumer := .loadReader }
  | .popLoadReader, _, .loadReader => .ok { s with consumer := .loadWriter s.reader }
  | .popLoadWriter, _, .loadWriter reader => .ok { s with consumer := checkEmpty reader s.writer }
  | .readSlot, _, .readSlot reader =>
    .ok { s with
      buffer := Function.update s.buffer (slotIndex reader) (leftover (s.buffer (slotIndex reader)))
      consumer := .storeReader (s.buffer (slotIndex reader)) reader }
  | .storeReader, _, .storeReader _ reader =>
    .ok { s with reader := reader + 1, consumer := .idle (some true) }
  | _, _, _ => .error .disabled

/-! ## What a step can do -/

/-- The cases of `step`, with their conditions. -/
inductive Steps (s : State T) : Action T → State T → Prop
  | tryPush (data : T) {returned : Option Bool} (hp : s.producer = .idle returned) :
      Steps s (.tryPush data) { s with producer := .loadWriter data }
  | pushLoadWriter {data : T} (hp : s.producer = .loadWriter data) :
      Steps s .pushLoadWriter { s with producer := .loadReader data s.writer }
  | pushLoadReader {data : T} {writer : UInt64} (hp : s.producer = .loadReader data writer) :
      Steps s .pushLoadReader { s with producer := checkSpace data writer s.reader }
  | writeSlot {data : T} {writer : UInt64} (hp : s.producer = .writeSlot data writer) :
      Steps s .writeSlot { s with
        buffer := Function.update s.buffer (slotIndex writer) data
        producer := .storeWriter data writer }
  | storeWriter {data : T} {writer : UInt64} (hp : s.producer = .storeWriter data writer) :
      Steps s .storeWriter { s with writer := writer + 1, producer := .idle (some true) }
  | tryPop {returned : Option Bool} (hc : s.consumer = .idle returned) :
      Steps s .tryPop { s with consumer := .loadReader }
  | popLoadReader (hc : s.consumer = .loadReader) :
      Steps s .popLoadReader { s with consumer := .loadWriter s.reader }
  | popLoadWriter {reader : UInt64} (hc : s.consumer = .loadWriter reader) :
      Steps s .popLoadWriter { s with consumer := checkEmpty reader s.writer }
  | readSlot {reader : UInt64} (hc : s.consumer = .readSlot reader) :
      Steps s .readSlot { s with
        buffer :=
          Function.update s.buffer (slotIndex reader) (leftover (s.buffer (slotIndex reader)))
        consumer := .storeReader (s.buffer (slotIndex reader)) reader }
  | storeReader {dst : T} {reader : UInt64} (hc : s.consumer = .storeReader dst reader) :
      Steps s .storeReader { s with reader := reader + 1, consumer := .idle (some true) }

theorem step_ok {s s' : State T} {a : Action T} (h : step leftover s a = .ok s') :
    Steps leftover s a s' := by
  unfold step at h
  split at h
  · rename_i hp; cases h; exact .tryPush _ hp
  · rename_i hp; cases h; exact .pushLoadWriter hp
  · rename_i hp; cases h; exact .pushLoadReader hp
  · rename_i hp; cases h; exact .writeSlot hp
  · rename_i hp; cases h; exact .storeWriter hp
  · rename_i hc; cases h; exact .tryPop hc
  · rename_i hc; cases h; exact .popLoadReader hc
  · rename_i hc; cases h; exact .popLoadWriter hc
  · rename_i hc; cases h; exact .readSlot hc
  · rename_i hc; cases h; exact .storeReader hc
  · cases h

end Step

/-! ## What an observer notes -/

/-- A published value and the slot it was written to. -/
structure Entry (T : Type) where
  slot : ℕ
  value : T

/-- The values whose `writer_` store was made, the values whose `reader_` store was made, and
whether the call under way has touched the queue, for each party. -/
structure History (T : Type) where
  published : List (Entry T)
  popped : List T
  pushTouched : Bool
  popTouched : Bool

section Observe
variable {T : Type} (leftover : T → T)

def History.init : History T := ⟨[], [], false, false⟩

/-- What an observer notes of a step. -/
def observe (s : State T) (a : Action T) (h : History T) : History T :=
  match a, s.producer, s.consumer with
  | .tryPush _, _, _ => { h with pushTouched := false }
  | .writeSlot, _, _ => { h with pushTouched := true }
  | .storeWriter, .storeWriter data writer, _ =>
    { h with published := h.published ++ [⟨slotIndex writer, data⟩], pushTouched := true }
  | .tryPop, _, _ => { h with popTouched := false }
  | .readSlot, _, _ => { h with popTouched := true }
  | .storeReader, _, .storeReader dst _ =>
    { h with popped := h.popped ++ [dst], popTouched := true }
  | _, _, _ => h

/-- A step with what is noted of it. -/
def track (sh : State T × History T) (a : Action T) : Except Disabled (State T × History T) :=
  match step leftover sh.1 a with
  | .ok s' => .ok (s', observe sh.1 a sh.2)
  | .error e => .error e

variable {leftover}

theorem track_ok {s s' : State T} {h h' : History T} {a : Action T}
    (htrack : track leftover (s, h) a = .ok (s', h')) :
    step leftover s a = .ok s' ∧ h' = observe s a h := by
  unfold track at htrack
  split at htrack
  · rename_i t hstep
    cases htrack
    exact ⟨hstep, rfl⟩
  · cases htrack

end Observe

end ItchIngestion.SPSC
