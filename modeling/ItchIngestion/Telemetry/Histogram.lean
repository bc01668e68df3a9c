import ItchIngestion.Library.Csv
import ItchIngestion.Library.FinmapSum

/-! # The files (`benchmark_utils`, `analysis`)

A strategy writes its histogram as lines of two numbers, without the empty buckets, a benchmark its
distribution in the order of the latencies and its prices, and the plots read them back. Nothing is
lost on the way (`exports_read_back`), so a percentile of the plot is one of the histogram
(`percentile_least`). The product that the plot compares with is a floating-point number; it is a
function of the total here.
-/
namespace ItchIngestion.Telemetry
open Library
set_option autoImplicit false

/-! ## The code -/

/-- The columns of the two latency files. -/
def latencyColumns : Columns where
  first := "latency_ns".toList
  second := "count".toList
  ne := by decide
  comma := by decide
  newline := by decide

/-- The columns of the file of prices. -/
def priceColumns : Columns where
  first := "timestamp".toList
  second := "price".toList
  ne := by decide
  comma := by decide
  newline := by decide

/-- The second loop over the buckets. -/
def exportLatencyHistogram (bucketCount : ℕ) (hist : ℕ → UInt64) : Text :=
  (List.range bucketCount).foldl
    (fun out ns => if hist ns ≠ 0 then out ++ (csvLine (ns, (hist ns).toNat) ++ ['\n']) else out)
    (latencyColumns.header ++ ['\n'])

/-- The entries of the map, behind `std::sort`. -/
def sortedData (latencies : Finmap fun _ : UInt64 => UInt64) : List (ℕ × ℕ) :=
  (latencies.keys.image UInt64.toNat).sort.map fun ns =>
    (ns, ((latencies.lookup (UInt64.ofNat ns)).getD 0).toNat)

def exportLatencyDistribution (latencies : Finmap fun _ : UInt64 => UInt64) : Text :=
  (sortedData latencies).foldl (fun out row => out ++ (csvLine row ++ ['\n']))
    (latencyColumns.header ++ ['\n'])

def exportPrices (prices : List (UInt64 × UInt32)) : Text :=
  prices.foldl (fun out x => out ++ (csvLine (x.1.toNat, x.2.toNat) ++ ['\n']))
    (priceColumns.header ++ ['\n'])

/-- The points of the plot, before they are scaled. -/
def plotPrices (file : Text) : Option (List (ℕ × ℕ)) :=
  (readCsv priceColumns file).map fun rows => rows.filter fun row => row.2 ≠ 0

/-- The first row at which the counts reach the threshold. -/
def percentileLoop (threshold : ℚ) : ℕ → List (ℕ × ℕ) → Option ℕ
  | _, [] => none
  | acc, (latency, count) :: rows =>
    if threshold ≤ (acc + count : ℕ) then some latency else percentileLoop threshold (acc + count) rows

/-- `times` is the product of the total and the percentile. -/
def weightedPercentile (times : ℕ → ℚ) (rows : List (ℕ × ℕ)) : Option ℕ :=
  (percentileLoop (times (rows.map Prod.snd).sum) 0 rows).or (rows.getLast?.map Prod.fst)

/-- What a script raises; a line that is no row of two numbers is `unreadable`. -/
inductive ScriptError
  | unreadable
  | indexError
  | zeroDivisionError
  | runtimeError (message : String)
deriving DecidableEq

def raiseIf (condition : Bool) (error : ScriptError) : Except ScriptError Unit :=
  if condition then .error error else .ok ()

def maxLinearPlotLatencyNs : ℕ := 2000

def maxLogPlotLatencyNs : ℕ := 10000

/-- The error of a plot without data. -/
def noData (bound : ℕ) : ScriptError := .runtimeError s!"No data <= {bound} ns"

/-- A percentile that the script shows for a file. Its checks come before anything is shown. -/
def plotPercentile (times : ℕ → ℚ) (file : Text) : Except ScriptError ℕ := do
  let rows ← (readCsv latencyColumns file).elim (.error .unreadable) .ok
  raiseIf rows.isEmpty (.runtimeError "CSV is empty")
  let data := rows.mergeSort fun x y => x.1 ≤ y.1
  let percentile ← (weightedPercentile times data).elim (.error .indexError) .ok
  raiseIf ((data.map Prod.snd).sum == 0) .zeroDivisionError
  raiseIf (data.filter fun row => row.1 ≤ maxLinearPlotLatencyNs).isEmpty (noData maxLinearPlotLatencyNs)
  raiseIf (data.filter fun row => row.1 ≤ maxLogPlotLatencyNs).isEmpty (noData maxLogPlotLatencyNs)
  return percentile

/-! ## Lines -/

theorem foldl_lines {α : Type} (f : α → ℕ × ℕ) (xs : List α) (cols : Columns) :
    xs.foldl (fun out x => out ++ (csvLine (f x) ++ ['\n'])) (cols.header ++ ['\n']) =
      csvText cols (xs.map f) := by
  rw [csvText]
  generalize cols.header ++ ['\n'] = out
  induction xs generalizing out with
  | nil => simp
  | cons x xs ih => rw [List.foldl_cons, ih, List.map_cons, List.flatMap_cons, List.append_assoc]

/-! ## Buckets -/

/-- The buckets that are not empty, with their counts. -/
def buckets (hist : ℕ → UInt64) (ns : List ℕ) : List (ℕ × ℕ) :=
  ns.filterMap fun i => if hist i ≠ 0 then some (i, (hist i).toNat) else none

section Buckets
variable {hist : ℕ → UInt64}

theorem exportLatencyHistogram_eq (bucketCount : ℕ) :
    exportLatencyHistogram bucketCount hist =
      csvText latencyColumns (buckets hist (List.range bucketCount)) := by
  unfold exportLatencyHistogram csvText
  induction bucketCount with
  | zero => rfl
  | succ n ih =>
    rw [List.range_succ, List.foldl_append, ih, List.foldl_cons, List.foldl_nil, buckets, buckets,
      List.filterMap_append, List.flatMap_append]
    by_cases hzero : hist n = 0
    · simp [hzero]
    · simp [hzero]

theorem mem_buckets {ns : List ℕ} {i n : ℕ} :
    (i, n) ∈ buckets hist ns ↔ i ∈ ns ∧ n = (hist i).toNat ∧ n ≠ 0 := by
  have hzero : hist i ≠ 0 ↔ (hist i).toNat ≠ 0 := not_congr UInt64.toNat_inj.symm
  rw [buckets, List.mem_filterMap]
  constructor
  · rintro ⟨j, hj, heq⟩
    split at heq
    · rename_i hne
      cases heq
      exact ⟨hj, rfl, hzero.mp hne⟩
    · cases heq
  · rintro ⟨hi, rfl, hne⟩
    exact ⟨i, hi, if_pos (hzero.mpr hne)⟩

theorem buckets_sorted (n : ℕ) : (buckets hist (List.range n)).Pairwise fun x y => x.1 < y.1 := by
  refine List.Pairwise.filterMap _ ?_ List.pairwise_lt_range
  intro i j hlt x hx y hy
  split at hx <;> split at hy <;> cases hx <;> cases hy
  exact hlt

theorem sum_buckets (n : ℕ) :
    ((buckets hist (List.range n)).map Prod.snd).sum = ∑ i ∈ Finset.range n, (hist i).toNat := by
  induction n with
  | zero => rfl
  | succ n ih =>
    rw [List.range_succ, buckets, List.filterMap_append, List.map_append, List.sum_append,
      Finset.sum_range_succ, ← ih, buckets]
    by_cases hzero : hist n = 0
    · simp [hzero]
    · simp [hzero]

/-! ## Percentiles -/

theorem percentileLoop_eq {threshold : ℚ} {rows : List (ℕ × ℕ)} {acc : ℕ} (hlow : (acc : ℚ) < threshold)
    (hhigh : threshold ≤ (acc + (rows.map Prod.snd).sum : ℕ)) : ∃ pre v n post,
    rows = pre ++ (v, n) :: post ∧ percentileLoop threshold acc rows = some v ∧
    ((acc + (pre.map Prod.snd).sum : ℕ) : ℚ) < threshold ∧
    threshold ≤ (acc + (pre.map Prod.snd).sum + n : ℕ) := by
  induction rows generalizing acc with
  | nil => exact absurd hlow (not_lt.mpr hhigh)
  | cons row rows ih =>
    obtain ⟨latency, count⟩ := row
    by_cases hreach : threshold ≤ (acc + count : ℕ)
    · exact ⟨[], latency, count, rows, rfl, by rw [percentileLoop, if_pos hreach], hlow, hreach⟩
    · rw [List.map_cons, List.sum_cons, ← Nat.add_assoc] at hhigh
      obtain ⟨pre, v, n, post, hrows, hloop, hbelow, habove⟩ := ih (not_le.mp hreach) hhigh
      refine ⟨(latency, count) :: pre, v, n, post, by rw [hrows]; rfl, ?_, ?_, ?_⟩
      · rw [percentileLoop, if_neg hreach, hloop]
      · rwa [List.map_cons, List.sum_cons, ← Nat.add_assoc]
      · rwa [List.map_cons, List.sum_cons, ← Nat.add_assoc]

theorem range_split {n v : ℕ} {below above : List ℕ} (h : List.range n = below ++ v :: above) :
    v < n ∧ below = List.range v := by
  have hat : (List.range n)[below.length]? = some v := by rw [h]; simp
  obtain ⟨hlt, hv⟩ := List.getElem?_eq_some_iff.mp hat
  rw [List.getElem_range] at hv
  rw [List.length_range] at hlt
  have htake : (List.range n).take below.length = below := by rw [h, List.take_left]
  rw [List.take_range, hv, Nat.min_eq_left (by omega)] at htake
  exact ⟨by omega, htake.symm⟩

theorem buckets_split {n v c : ℕ} {pre post : List (ℕ × ℕ)}
    (h : buckets hist (List.range n) = pre ++ (v, c) :: post) :
    v < n ∧ c = (hist v).toNat ∧ pre = buckets hist (List.range v) := by
  have hmem : (v, c) ∈ buckets hist (List.range n) := by rw [h]; simp
  obtain ⟨-, hc, hne⟩ := mem_buckets.mp hmem
  obtain ⟨below, rest, hrange, hbelow, hrest⟩ := List.filterMap_eq_append_iff.mp h
  obtain ⟨skipped, i, above, hat, hskipped, hi, -⟩ := List.filterMap_eq_cons_iff.mp hrest
  have hiv : i = v := by
    split at hi <;> cases hi
    rfl
  rw [hat, hiv, ← List.append_assoc] at hrange
  obtain ⟨hv, hbefore⟩ := range_split hrange
  refine ⟨hv, hc, ?_⟩
  have hnone : buckets hist skipped = [] := List.filterMap_eq_nil_iff.mpr hskipped
  rw [← hbefore, buckets, List.filterMap_append, hbelow]
  exact (List.append_nil pre).symm.trans (congrArg (pre ++ ·) hnone.symm)

/-- With samples to count, only the check for data in the first plot can fail. -/
theorem plotPercentile_eq {times : ℕ → ℚ} {file : Text} {rows : List (ℕ × ℕ)} {v : ℕ}
    (hrows : readCsv latencyColumns file = some rows) (hsorted : rows.Pairwise fun x y => x.1 < y.1)
    (hsum : (rows.map Prod.snd).sum ≠ 0) (hv : weightedPercentile times rows = some v) :
    ((∃ row ∈ rows, row.1 ≤ maxLinearPlotLatencyNs) → plotPercentile times file = .ok v) ∧
      ((∀ row ∈ rows, maxLinearPlotLatencyNs < row.1) →
        plotPercentile times file = .error (noData maxLinearPlotLatencyNs)) := by
  have hdata : rows.mergeSort (fun x y => x.1 ≤ y.1) = rows :=
    List.mergeSort_of_pairwise (hsorted.imp fun h => decide_eq_true h.le)
  have hempty : rows.isEmpty = false := by
    cases rows with
    | nil => exact absurd rfl hsum
    | cons => rfl
  have hplot : plotPercentile times file = do
      raiseIf (rows.filter fun row => row.1 ≤ maxLinearPlotLatencyNs).isEmpty
        (noData maxLinearPlotLatencyNs)
      raiseIf (rows.filter fun row => row.1 ≤ maxLogPlotLatencyNs).isEmpty (noData maxLogPlotLatencyNs)
      return v := by
    unfold plotPercentile
    rw [hrows]
    show (do
      raiseIf rows.isEmpty (.runtimeError "CSV is empty")
      let percentile ← (weightedPercentile times (rows.mergeSort fun x y => x.1 ≤ y.1)).elim _ _
      raiseIf (((rows.mergeSort fun x y => x.1 ≤ y.1).map Prod.snd).sum == 0) .zeroDivisionError
      _) = _
    rw [hdata, hempty, hv, beq_eq_false_iff_ne.mpr hsum]
    rfl
  refine ⟨fun ⟨row, hrow, hle⟩ => ?_, fun hslow => ?_⟩
  · have hkept : ∀ bound, maxLinearPlotLatencyNs ≤ bound →
        (rows.filter fun row => row.1 ≤ bound).isEmpty = false := by
      intro bound hbound
      rw [List.isEmpty_eq_false_iff]
      exact List.ne_nil_of_mem (List.mem_filter.mpr ⟨hrow, decide_eq_true (hle.trans hbound)⟩)
    rw [hplot, hkept _ (le_refl _), hkept _ (by decide)]
    rfl
  · have hnone : (rows.filter fun row => row.1 ≤ maxLinearPlotLatencyNs).isEmpty = true := by
      rw [List.isEmpty_iff, List.filter_eq_nil_iff]
      exact fun row hrow hle => absurd (of_decide_eq_true hle) (not_le.mpr (hslow row hrow))
    rw [hplot, hnone]
    rfl

/-- **The percentile of the plot** is the least latency up to which the buckets reach the threshold; it
is shown if there is anything in the buckets of the first plot. -/
theorem percentile_least {times : ℕ → ℚ} {bucketCount total : ℕ}
    (htotal : total = ∑ i ∈ Finset.range bucketCount, (hist i).toNat)
    (hlow : 0 < times total) (hhigh : times total ≤ total) : ∃ v < bucketCount,
    ((∃ i < bucketCount, i ≤ maxLinearPlotLatencyNs ∧ hist i ≠ 0) →
      plotPercentile times (exportLatencyHistogram bucketCount hist) = .ok v) ∧
    ((∀ i < bucketCount, i ≤ maxLinearPlotLatencyNs → hist i = 0) →
      plotPercentile times (exportLatencyHistogram bucketCount hist) =
        .error (noData maxLinearPlotLatencyNs)) ∧
    ((∑ i ∈ Finset.range v, (hist i).toNat : ℕ) : ℚ) < times total ∧
    times total ≤ (∑ i ∈ Finset.range (v + 1), (hist i).toNat : ℕ) := by
  have hsum := @sum_buckets hist bucketCount
  rw [← htotal] at hsum
  have hnonzero : total ≠ 0 := by
    rintro rfl
    exact absurd hlow (not_lt.mpr (by simpa using hhigh))
  obtain ⟨pre, v, n, post, hrows, hloop, hbelow, habove⟩ :=
    @percentileLoop_eq (times total) (buckets hist (List.range bucketCount)) 0 (by simpa using hlow)
      (by simpa [hsum] using hhigh)
  have hpercentile : weightedPercentile times (buckets hist (List.range bucketCount)) = some v := by
    rw [weightedPercentile, hsum, hloop, Option.some_or]
  have hread : readCsv latencyColumns (exportLatencyHistogram bucketCount hist) =
      some (buckets hist (List.range bucketCount)) := by
    rw [exportLatencyHistogram_eq, readCsv_text]
  obtain ⟨hshown, hraised⟩ := plotPercentile_eq hread (buckets_sorted bucketCount)
    (by rw [hsum]; exact hnonzero) hpercentile
  obtain ⟨hv, rfl, rfl⟩ := buckets_split hrows
  rw [Nat.zero_add, sum_buckets] at hbelow habove
  refine ⟨v, hv, fun ⟨i, hi, hle, hne⟩ => hshown ⟨(i, (hist i).toNat), ?_, hle⟩, fun hzero => ?_, hbelow,
    by rwa [Finset.sum_range_succ]⟩
  · exact mem_buckets.mpr ⟨List.mem_range.mpr hi, rfl, not_congr UInt64.toNat_inj.symm |>.mp hne⟩
  · refine hraised fun ⟨i, n⟩ hrow => ?_
    obtain ⟨hi, rfl, hne⟩ := mem_buckets.mp hrow
    by_contra hle
    exact hne (by rw [hzero i (List.mem_range.mp hi) (not_lt.mp hle)]; rfl)

end Buckets

/-! ## The other files -/

theorem mem_sortedData {latencies : Finmap fun _ : UInt64 => UInt64} {row : ℕ × ℕ} :
    row ∈ sortedData latencies ↔
      ∃ ns count, latencies.lookup ns = some count ∧ row = (ns.toNat, count.toNat) := by
  rw [sortedData, List.mem_map]
  constructor
  · rintro ⟨i, hi, rfl⟩
    obtain ⟨ns, hns, rfl⟩ := Finset.mem_image.mp ((Finset.mem_sort _).mp hi)
    obtain ⟨count, hcount⟩ := Finmap.mem_iff.mp (Finmap.mem_keys.mp hns)
    exact ⟨ns, count, hcount, by rw [UInt64.ofNat_toNat, hcount]; rfl⟩
  · rintro ⟨ns, count, hcount, rfl⟩
    refine ⟨ns.toNat, (Finset.mem_sort _).mpr (Finset.mem_image_of_mem _ ?_), ?_⟩
    · exact Finmap.mem_keys.mpr (Finmap.mem_iff.mpr ⟨count, hcount⟩)
    · rw [UInt64.ofNat_toNat, hcount]
      rfl

theorem sortedData_sorted (latencies : Finmap fun _ : UInt64 => UInt64) :
    (sortedData latencies).Pairwise fun x y => x.1 < y.1 :=
  List.pairwise_map.mpr (Finset.sortedLT_sort _).pairwise

/-- **What the plots read is what was recorded**: of a histogram the buckets that are not empty, of a
distribution all entries, both in order, and of the prices those that are not zero, as they came. -/
theorem exports_read_back :
    (∀ (hist : ℕ → UInt64) (bucketCount : ℕ), ∃ rows,
      readCsv latencyColumns (exportLatencyHistogram bucketCount hist) = some rows ∧
      rows.Pairwise (fun x y => x.1 < y.1) ∧
      ∀ i n, (i, n) ∈ rows ↔ i < bucketCount ∧ n = (hist i).toNat ∧ n ≠ 0) ∧
    (∀ latencies : Finmap fun _ : UInt64 => UInt64, ∃ rows,
      readCsv latencyColumns (exportLatencyDistribution latencies) = some rows ∧
      rows.Pairwise (fun x y => x.1 < y.1) ∧
      ∀ row, row ∈ rows ↔
        ∃ ns count, latencies.lookup ns = some count ∧ row = (ns.toNat, count.toNat)) ∧
    ∀ prices : List (UInt64 × UInt32), plotPrices (exportPrices prices) =
      some ((prices.filter fun x => x.2 ≠ 0).map fun x => (x.1.toNat, x.2.toNat)) := by
  refine ⟨fun hist bucketCount => ?_, fun latencies => ?_, fun prices => ?_⟩
  · refine ⟨buckets hist (List.range bucketCount), ?_, buckets_sorted bucketCount, fun i n => ?_⟩
    · rw [exportLatencyHistogram_eq, readCsv_text]
    · rw [mem_buckets, List.mem_range]
  · refine ⟨sortedData latencies, ?_, sortedData_sorted latencies, fun row => mem_sortedData⟩
    have hlines := foldl_lines id (sortedData latencies) latencyColumns
    rw [List.map_id] at hlines
    rw [exportLatencyDistribution, ← readCsv_text latencyColumns, ← hlines]
    rfl
  · have hzero : ∀ x : UInt64 × UInt32, x.2.toNat ≠ 0 ↔ x.2 ≠ 0 :=
      fun x => not_congr (@UInt32.toNat_inj x.2 0)
    rw [plotPrices, exportPrices, foldl_lines fun x : UInt64 × UInt32 => (x.1.toNat, x.2.toNat),
      readCsv_text, Option.map_some, List.filter_map]
    simp only [Function.comp_def, hzero]

end ItchIngestion.Telemetry
