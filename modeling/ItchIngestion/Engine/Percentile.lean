import ItchIngestion.Engine.EndToEnd
import ItchIngestion.Telemetry.Histogram

/-! # The percentiles of a strategy

A strategy writes its histogram to a file when it leaves its loop. The percentile that the plot gets
from the file is the latency of an update that the strategy has taken, and it has the right number of
updates below and above (`percentile_reported`). Latencies above 100000 ns are in no bucket.
-/
namespace ItchIngestion.Engine
open Library OB Telemetry
set_option autoImplicit false

namespace Thread

/-- The updates that are in a bucket. -/
def kept (th : Thread) : List Sample := th.samples.filter fun x => x.ns ≤ maxLatency

variable {th : Thread}

theorem countP_lt_succ (xs : List Sample) (n : ℕ) :
    xs.countP (fun x => x.ns.toNat < n + 1) =
      xs.countP (fun x => x.ns.toNat < n) + xs.countP fun x => x.ns.toNat = n := by
  induction xs with
  | nil => rfl
  | cons x xs ih =>
    simp only [List.countP_cons, ih, decide_eq_true_eq]
    split <;> split <;> split <;> omega

theorem Counted.hist_eq (h : th.Counted) (n : ℕ) :
    (th.hist n).toNat = th.kept.countP fun x => x.ns.toNat = n := by
  rw [h.hist, kept, List.countP_filter]
  simp only [Bool.decide_and]

theorem Counted.hist_ne_zero (h : th.Counted) {n : ℕ} : th.hist n ≠ 0 ↔ ∃ x ∈ th.kept, x.ns.toNat = n := by
  have hzero : th.hist n ≠ 0 ↔ 0 < (th.hist n).toNat := by
    rw [Nat.pos_iff_ne_zero]
    exact not_congr UInt64.toNat_inj.symm
  rw [hzero, h.hist_eq, List.countP_pos_iff]
  simp only [decide_eq_true_eq]

/-- The buckets below a latency have the updates that were faster. -/
theorem Counted.sum_hist (h : th.Counted) (n : ℕ) :
    ∑ i ∈ Finset.range n, (th.hist i).toNat = th.kept.countP fun x => x.ns.toNat < n := by
  induction n with
  | zero => simp
  | succ n ih => rw [Finset.sum_range_succ, ih, h.hist_eq, countP_lt_succ]

theorem kept_lt {x : Sample} (hx : x ∈ th.kept) : x.ns.toNat < maxLatency.toNat + 1 := by
  have hle := of_decide_eq_true (List.mem_filter.mp hx).2
  exact Nat.lt_succ_of_le (UInt64.le_iff_toNat_le.mp hle)

theorem Counted.sum_all (h : th.Counted) :
    th.kept.length = ∑ i ∈ Finset.range (maxLatency.toNat + 1), (th.hist i).toNat := by
  rw [h.sum_hist, eq_comm, List.countP_eq_length]
  exact fun x hx => decide_eq_true (kept_lt hx)

end Thread

/-- **The percentile of the plot is the percentile of the updates**: the latency of one of them, such
that the faster ones do not reach the threshold and those not slower do. It is shown if some update took
at most 2000 ns, and if none did, the script stops at its first plot. A file that the thread has written
is the one that the script reads. -/
theorem percentile_reported {cfg : Config} {t0 : UInt64} {data : QueueId → ℕ → Words}
    {es : List Event} {s : System} {c : ℕ} {th : Thread} {times : ℕ → ℚ}
    (hrun : run (System.step cfg) (System.init cfg t0 data) es = .ok s)
    (hfew : s.handler.pushed.length < 2 ^ 63) (hth : s.threads[c]? = some th)
    (hlow : 0 < times th.kept.length) (hhigh : times th.kept.length ≤ th.kept.length) :
    (∀ file, th.file = some file → file = th.report) ∧ ∃ x ∈ th.kept,
    ((∃ y ∈ th.kept, y.ns.toNat ≤ maxLinearPlotLatencyNs) →
      plotPercentile times th.report = .ok x.ns.toNat) ∧
    ((∀ y ∈ th.kept, maxLinearPlotLatencyNs < y.ns.toNat) →
      plotPercentile times th.report = .error (noData maxLinearPlotLatencyNs)) ∧
    (th.kept.countP (fun y => y.ns < x.ns) : ℚ) < times th.kept.length ∧
    times th.kept.length ≤ th.kept.countP fun y => y.ns ≤ x.ns := by
  have hatt := (System.run_inv hrun hfew).attended c th hth
  have hcounted := hatt.counted
  obtain ⟨v, -, hshown, hraised, hbelow, habove⟩ := percentile_least hcounted.sum_all hlow hhigh
  rw [hcounted.sum_hist] at hbelow habove
  obtain ⟨x, hx, hns⟩ : ∃ x ∈ th.kept, x.ns.toNat = v := by
    by_contra hnone
    have hempty : (th.kept.countP fun x => x.ns.toNat = v) = 0 :=
      List.countP_eq_zero.mpr fun x hx h => hnone ⟨x, hx, of_decide_eq_true h⟩
    rw [Thread.countP_lt_succ, hempty, Nat.add_zero] at habove
    exact absurd hbelow (not_lt.mpr habove)
  refine ⟨fun file hfile => (hatt.file file hfile).2, x, hx, ?_, ?_, ?_, ?_⟩
  · rintro ⟨y, hy, hle⟩
    rw [hns]
    exact hshown ⟨_, Thread.kept_lt hy, hle, hcounted.hist_ne_zero.mpr ⟨y, hy, rfl⟩⟩
  · intro hslow
    refine hraised fun i _ hle => ?_
    by_contra hne
    obtain ⟨y, hy, rfl⟩ := hcounted.hist_ne_zero.mp hne
    exact absurd hle (not_le.mpr (hslow y hy))
  · rw [← hns] at hbelow
    simpa only [UInt64.lt_iff_toNat_lt] using hbelow
  · rw [← hns] at habove
    simpa only [UInt64.le_iff_toNat_le, Nat.lt_succ_iff] using habove

/-- The only update is the median. -/
theorem percentile_reported_sample : ∃ s th x,
    run (System.step oneStrategy) (System.init oneStrategy 0 fun _ _ _ => 0) bidEvents = .ok s ∧
    s.threads[0]? = some th ∧ x ∈ th.kept ∧
    plotPercentile (fun total => total / 2) th.report = .ok x.ns.toNat := by
  obtain ⟨s, th, hrun, hth, -, hupdates, hone, hpushed, -⟩ := bid_run
  have hcounted := ((System.run_inv hrun (by rw [hpushed]; decide)).attended 0 th hth).counted
  have hkept : th.kept.length = 1 := by
    have hle : th.kept.length ≤ th.updates.length := by
      rw [Thread.updates, List.length_map]
      exact List.length_filter_le _ _
    have hge : (th.hist 1000).toNat ≤ th.kept.length := by
      have hmem : 1000 ∈ Finset.range (maxLatency.toNat + 1) := Finset.mem_range.mpr (by decide)
      have hsingle := Finset.single_le_sum (f := fun i => (th.hist i).toNat) (fun _ _ => Nat.zero_le _) hmem
      rwa [← hcounted.sum_all] at hsingle
    rw [hupdates] at hle
    rw [hone] at hge
    exact le_antisymm hle hge
  obtain ⟨-, x, hx, hshown, -⟩ := @percentile_reported _ _ _ _ _ _ _ (fun total => total / 2) hrun
    (by rw [hpushed]; decide) hth (by rw [hkept]; norm_num) (by rw [hkept]; norm_num)
  obtain ⟨y, hy, hns⟩ := (hcounted.hist_ne_zero (n := 1000)).mp (by rw [hone]; decide)
  exact ⟨s, th, x, hrun, hth, hx, hshown ⟨y, hy, by rw [hns]; decide⟩⟩

end ItchIngestion.Engine
