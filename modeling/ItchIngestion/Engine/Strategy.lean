import ItchIngestion.Engine.Handler
import ItchIngestion.Queue.Reception
import ItchIngestion.Telemetry.Clock
import ItchIngestion.Telemetry.Histogram

/-! # The strategies (`main.cpp`)

A strategy is a thread with a consumer of one queue. It pops until it gets a message, leaves its loop
at a `Stop`, and counts how long every update took from the packet to here. Behind the loop it writes
its histogram to a file. A message crosses the queue as the words of its members.

`samples` is what an observer notes of a thread; the thread does not read it.
-/
namespace ItchIngestion.Engine
open Library OB Telemetry
set_option autoImplicit false

/-! ## Messages as words -/

/-- The members of `StrategyMsg`. -/
inductive Member
  | type
  | t0
  | qty
  | price
  | side
deriving DecidableEq

instance : Fintype Member where
  elems := {.type, .t0, .qty, .price, .side}
  complete m := by cases m <;> decide

/-- A message as it lies in a slot. -/
abbrev Words := SPMC.Value Member UInt64

namespace StrategyMsg

/-- The words of a message; a `Stop` has nothing but its type. -/
def words : StrategyMsg → Words
  | .bookUpdate t0 qty price side => fun
    | .type => 0
    | .t0 => t0
    | .qty => qty
    | .price => price.toUInt64
    | .side => side.raw.toUInt64
  | .stop => fun
    | .type => 1
    | _ => 0

/-- The message that a consumer reads. -/
def ofWords (v : Words) : StrategyMsg :=
  if v .type = 1 then .stop
  else .bookUpdate (v .t0) (v .qty) (v .price).toUInt32 ⟨(v .side).toUInt8⟩

/-- **A message arrives as it was sent.** -/
theorem ofWords_words (m : StrategyMsg) : ofWords m.words = m := by
  cases m with
  | stop => rfl
  | bookUpdate t0 qty price side =>
    have hprice : price.toUInt64.toUInt32 = price := UInt32.toUInt32_toUInt64 price
    have hside : side.raw.toUInt64.toUInt8 = side.raw := UInt8.toUInt8_toUInt64 side.raw
    show (if (0 : UInt64) = 1 then _ else _) = _
    rw [if_neg (by decide)]
    simp only [words, hprice, hside]

theorem words_type (m : StrategyMsg) : m.words .type = 1 ↔ m = .stop := by
  cases m with
  | stop => exact iff_of_true rfl rfl
  | bookUpdate t0 qty price side =>
    have hne : (0 : UInt64) ≠ 1 := by decide
    exact iff_of_false hne (by simp)

end StrategyMsg

/-! ## The loop of a consumer thread -/

/-- A slot holds an eight-byte version and a message of 32 bytes, and is aligned to 64. -/
def ring : SPMC.Geometry := ⟨64, 17, by decide, by decide⟩

def maxLatency : UInt64 := 100000

/-- Where a thread is in its loop. -/
inductive Loop
  | polling
  | received (msg : Words)
  | stopped

/-- An update, the time it was taken at, and the nanoseconds since its packet. -/
structure Sample where
  msg : Words
  t1 : UInt64
  ns : UInt64

structure Thread where
  queue : QueueId
  loop : Loop
  hist : ℕ → UInt64
  skippedLatencies : UInt64
  samples : List Sample
  /-- What it has written behind the loop. -/
  file : Option Text

namespace Loop

/-- The message behind which a thread is. -/
def pending : Loop → List Words
  | .polling => []
  | .received msg => [msg]
  | .stopped => [StrategyMsg.stop.words]

end Loop

namespace Thread

def start (queue : QueueId) : Thread := ⟨queue, .polling, fun _ => 0, 0, [], none⟩

/-- The count of a latency. -/
def count (th : Thread) (ns : UInt64) : Thread :=
  if ns ≤ maxLatency then { th with hist := Function.update th.hist ns.toNat (th.hist ns.toNat + 1) }
  else { th with skippedLatencies := th.skippedLatencies + 1 }

theorem count_queue (th : Thread) (ns : UInt64) : (th.count ns).queue = th.queue := by
  unfold count
  split <;> rfl

theorem count_file (th : Thread) (ns : UInt64) : (th.count ns).file = th.file := by
  unfold count
  split <;> rfl

/-- The body of the loop behind the `pop`. -/
def take (freq now : UInt64) (msg : Words) (th : Thread) : Except Fault Thread :=
  if msg .type = 1 then .ok { th with loop := .stopped }
  else do
    let cycles := now - msg .t0
    let ns ← cyclesToNs cycles freq
    return { th.count ns with loop := .polling, samples := th.samples ++ [⟨msg, now, ns⟩] }

theorem take_queue {freq now : UInt64} {msg : Words} (th : Thread) {th' : Thread}
    (h : th.take freq now msg = .ok th') : th'.queue = th.queue := by
  unfold take at h
  split at h
  · cases h
    rfl
  · obtain ⟨ns, -, h⟩ := bind_eq_ok.mp h
    cases h
    exact th.count_queue ns

/-- The text of its file. -/
def report (th : Thread) : Text := exportLatencyHistogram (maxLatency.toNat + 1) th.hist

/-- `export_latency_histogram_csv_ns` aborts if the file cannot be opened. -/
def exportHistogram (opened : Bool) (th : Thread) : Except Fault Thread :=
  if opened then .ok { th with file := some th.report } else .error .abort

theorem exportHistogram_ok {opened : Bool} {th th' : Thread} (h : th.exportHistogram opened = .ok th') :
    th' = { th with file := some th.report } := by
  unfold exportHistogram at h
  split at h <;> cases h
  rfl

/-- The messages that a thread has received. -/
def heard (th : Thread) : List Words := th.samples.map (fun x => x.msg) ++ th.loop.pending

/-! ## The histogram -/

/-- The counters count the samples. -/
structure Counted (th : Thread) : Prop where
  hist : ∀ i, (th.hist i).toNat =
    th.samples.countP fun s => decide (s.ns.toNat = i ∧ s.ns ≤ maxLatency)
  skipped : th.skippedLatencies.toNat = th.samples.countP fun s => decide (maxLatency < s.ns)

theorem start_counted (queue : QueueId) : (start queue).Counted := ⟨fun _ => rfl, rfl⟩

theorem toNat_succ {n : UInt64} {k : ℕ} (hle : n.toNat ≤ k) (hk : k < 2 ^ 63) :
    (n + 1).toNat = n.toNat + 1 := by
  have hone : (1 : UInt64).toNat = 1 := rfl
  rw [UInt64.toNat_add, hone]
  omega

theorem Counted.take {th : Thread} (h : th.Counted) (hfew : th.samples.length < 2 ^ 63) (loop : Loop)
    (msg : Words) (now ns : UInt64) :
    Counted { th.count ns with loop := loop, samples := th.samples ++ [⟨msg, now, ns⟩] } := by
  unfold count
  by_cases hns : ns ≤ maxLatency
  · rw [if_pos hns]
    refine ⟨fun i => ?_, ?_⟩
    · rw [List.countP_append, List.countP_singleton]
      by_cases hi : ns.toNat = i
      · subst hi
        have hle : (th.hist ns.toNat).toNat ≤ th.samples.length := by
          rw [h.hist]
          exact List.countP_le_length
        show (Function.update th.hist ns.toNat (th.hist ns.toNat + 1) ns.toNat).toNat = _
        rw [Function.update_self, toNat_succ hle hfew, h.hist, if_pos (by simpa using hns)]
      · show (Function.update th.hist ns.toNat (th.hist ns.toNat + 1) i).toNat = _
        rw [Function.update_of_ne (Ne.symm hi), h.hist, if_neg (by simp [hi])]
        rfl
    · rw [List.countP_append, List.countP_singleton, if_neg (by simpa using hns)]
      exact h.skipped
  · rw [if_neg hns]
    refine ⟨fun i => ?_, ?_⟩
    · rw [List.countP_append, List.countP_singleton, if_neg (by simp [hns])]
      exact h.hist i
    · have hle : th.skippedLatencies.toNat ≤ th.samples.length := by
        rw [h.skipped]
        exact List.countP_le_length
      show (th.skippedLatencies + 1).toNat = _
      rw [toNat_succ hle hfew, h.skipped, List.countP_append, List.countP_singleton,
        if_pos (by simpa using hns)]

theorem sum_counts (samples : List Sample) (bound : UInt64) :
    (∑ i ∈ Finset.range (bound.toNat + 1),
      samples.countP fun s => decide (s.ns.toNat = i ∧ s.ns ≤ bound)) +
        samples.countP (fun s => decide (bound < s.ns)) = samples.length := by
  induction samples with
  | nil => simp
  | cons s samples ih =>
    simp only [List.countP_cons, Finset.sum_add_distrib, List.length_cons]
    by_cases hs : s.ns ≤ bound
    · have hle : s.ns.toNat < bound.toNat + 1 := Nat.lt_succ_of_le (UInt64.le_iff_toNat_le.mp hs)
      have hone : (∑ i ∈ Finset.range (bound.toNat + 1),
          if decide (s.ns.toNat = i ∧ s.ns ≤ bound) = true then 1 else 0) = 1 := by
        simp [hs, hle]
      rw [hone, if_neg (by simpa using hs)]
      omega
    · have hzero : (∑ i ∈ Finset.range (bound.toNat + 1),
          if decide (s.ns.toNat = i ∧ s.ns ≤ bound) = true then 1 else 0) = 0 := by
        simp [hs]
      rw [hzero, if_pos (by simpa using hs)]
      omega

/-- **Every sample is in one counter.** -/
theorem Counted.total {th : Thread} (h : th.Counted) :
    (∑ i ∈ Finset.range (maxLatency.toNat + 1), (th.hist i).toNat) + th.skippedLatencies.toNat =
      th.samples.length := by
  have hsum := sum_counts th.samples maxLatency
  simp only [← h.hist, ← h.skipped] at hsum
  exact hsum

end Thread

end ItchIngestion.Engine
