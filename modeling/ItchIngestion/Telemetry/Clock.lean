import ItchIngestion.Book.Shared

/-! # Cycles and nanoseconds (`benchmark_utils`)

`calibrate_tsc` measures how many cycles the time stamp counter makes in a second, `cycles_to_ns`
converts a number of cycles with that frequency. Both are one division of 128-bit integers, rounded
to the nearest (`rounded_nearest`). The first rounding does not spoil the second: the interval of
the calibration is converted to itself (`calibrateTsc_inverts`).
-/
namespace ItchIngestion.Telemetry
open OB
set_option autoImplicit false

/-! ## The code -/

/-- A value of `__int128`; an overflow has no defined meaning. -/
def int128 (x : ℤ) : Except Fault ℤ :=
  if -2 ^ 127 ≤ x ∧ x < 2 ^ 127 then .ok x else .error .undefinedBehaviour

/-- The division of 128-bit integers, which rounds towards zero. -/
def divide (num den : ℤ) : Except Fault ℤ :=
  if den = 0 then .error .undefinedBehaviour else int128 (num.tdiv den)

/-- The conversion to `uint64_t`. -/
def toUint64 (x : ℤ) : UInt64 := UInt64.ofNat (x % 2 ^ 64).toNat

/-- The common body of the two functions. -/
def scaleDiv (amount den : UInt64) : Except Fault UInt64 := do
  let product ← int128 (amount.toNat * 1000000000)
  let num ← int128 (product + (den / 2).toNat)
  let quotient ← divide num den.toNat
  return toUint64 quotient

def cyclesToNs (cycles freq : UInt64) : Except Fault UInt64 := scaleDiv cycles freq

structure Timespec where
  tvSec : UInt64
  tvNsec : UInt64

/-- The time in nanoseconds. -/
def Timespec.ns (ts : Timespec) : UInt64 := ts.tvSec * 1000000000 + ts.tvNsec

/-- The readings of the two clocks before and after the sleep. -/
def calibrateTsc (ts0 ts1 : Timespec) (c0 c1 : UInt64) : Except Fault UInt64 :=
  scaleDiv (c1 - c0) (ts1.ns - ts0.ns)

/-! ## The division -/

theorem int128_eq {x : ℤ} (hlow : 0 ≤ x) (hhigh : x < 2 ^ 127) : int128 x = .ok x :=
  if_pos ⟨by omega, hhigh⟩

theorem toUint64_natCast (n : ℕ) : toUint64 n = UInt64.ofNat n := by
  have hmod : ((n : ℤ) % 2 ^ 64).toNat = n % 2 ^ 64 := by
    have hcast : (n : ℤ) % 2 ^ 64 = ((n % 2 ^ 64 : ℕ) : ℤ) := by push_cast; rfl
    rw [hcast, Int.toNat_natCast]
  rw [toUint64, hmod, ← UInt64.toNat_inj, UInt64.toNat_ofNat', UInt64.toNat_ofNat']
  exact Nat.mod_mod _ _

/-- The quotient before it is narrowed. -/
def rounded (amount den : ℕ) : ℕ := (amount * 1000000000 + den / 2) / den

/-- **Nothing overflows**: the product and the sum are below `2 ^ 95`. -/
theorem scaleDiv_eq {den : UInt64} (hden : den ≠ 0) (amount : UInt64) :
    scaleDiv amount den = .ok (UInt64.ofNat (rounded amount.toNat den.toNat)) := by
  have ha := amount.toNat_lt
  have hd := den.toNat_lt
  have hhalf : (den / 2).toNat = den.toNat / 2 := UInt64.toNat_div den 2
  have hzero : (den.toNat : ℤ) ≠ 0 := by
    intro h
    exact hden (UInt64.toNat_inj.mp (Int.natCast_eq_zero.mp h))
  have hquot : ((amount.toNat : ℤ) * 1000000000 + ((den.toNat / 2 : ℕ) : ℤ)).tdiv den.toNat =
      (rounded amount.toNat den.toNat : ℕ) := by
    rw [Int.tdiv_eq_ediv_of_nonneg (by positivity), rounded]
    push_cast
    rfl
  have hle : rounded amount.toNat den.toNat ≤ amount.toNat * 1000000000 + den.toNat / 2 :=
    Nat.div_le_self _ _
  rw [scaleDiv, int128_eq (by positivity) (by omega), ok_bind, hhalf,
    int128_eq (by positivity) (by omega), ok_bind, divide, if_neg hzero, hquot,
    int128_eq (by positivity) (by omega), ok_bind, toUint64_natCast]
  rfl

/-- **The quotient is the nearest integer.** -/
theorem rounded_nearest (amount : ℕ) {den : ℕ} (hden : 0 < den) :
    2 * |(rounded amount den * den : ℤ) - amount * 1000000000| ≤ den := by
  have hmod := Nat.div_add_mod (amount * 1000000000 + den / 2) den
  have hlt := Nat.mod_lt (amount * 1000000000 + den / 2) hden
  have hq : den * rounded amount den + (amount * 1000000000 + den / 2) % den =
      amount * 1000000000 + den / 2 := hmod
  rw [Nat.mul_comm] at hq
  generalize hprod : rounded amount den * den = product at hq
  have hcast : ((rounded amount den : ℤ) * den) = (product : ℤ) := by rw [← hprod]; push_cast; rfl
  rw [hcast]
  cases abs_cases ((product : ℤ) - amount * 1000000000) with
  | inl h => omega
  | inr h => omega

/-! ## Calibration -/

/-- Two nearest quotients undo each other if the second divisor is the greater one. -/
theorem rounded_rounded {cycles ns : ℕ} (hns : 0 < ns) (hfast : ns < rounded cycles ns) :
    rounded cycles (rounded cycles ns) = ns := by
  have hfreq := rounded_nearest cycles hns
  have hback := rounded_nearest cycles (Nat.zero_lt_of_lt hfast)
  generalize rounded cycles ns = freq at hfast hfreq hback ⊢
  generalize rounded cycles freq = back at hback ⊢
  have hdiff : |((back : ℤ) - ns) * freq| < freq := by
    have htri := abs_sub_le ((back : ℤ) * freq) (cycles * 1000000000) (freq * ns)
    rw [abs_sub_comm ((cycles : ℤ) * 1000000000)] at htri
    have heq : ((back : ℤ) - ns) * freq = back * freq - freq * ns := by ring
    rw [heq]
    omega
  rw [abs_mul, Nat.abs_cast] at hdiff
  have hpos : (0 : ℤ) < freq := by omega
  have hlt : |(back : ℤ) - ns| < 1 := by
    by_contra hge
    have hmul := mul_le_mul_of_nonneg_right (not_lt.mp hge) hpos.le
    omega
  have hzero := Int.abs_lt_one_iff.mp hlt
  omega

/-- **Calibration is exact on its own interval**: if the counter runs at more cycles a second than the
interval has nanoseconds, the cycles of the interval are converted to these nanoseconds. -/
theorem calibrateTsc_inverts {ts0 ts1 : Timespec} {c0 c1 freq : UInt64} (hne : ts1.ns ≠ ts0.ns)
    (hfreq : calibrateTsc ts0 ts1 c0 c1 = .ok freq)
    (hfits : (c1 - c0).toNat * 1000000000 + (ts1.ns - ts0.ns).toNat / 2 <
      (ts1.ns - ts0.ns).toNat * 2 ^ 64)
    (hfast : ts1.ns - ts0.ns < freq) : cyclesToNs (c1 - c0) freq = .ok (ts1.ns - ts0.ns) := by
  have hns : ts1.ns - ts0.ns ≠ 0 := sub_ne_zero.mpr hne
  rw [calibrateTsc] at hfreq
  generalize ts1.ns - ts0.ns = ns at hns hfits hfast hfreq ⊢
  generalize c1 - c0 = cycles at hfits hfreq ⊢
  have hpos : 0 < ns.toNat := UInt64.lt_iff_toNat_lt.mp (UInt64.pos_iff_ne_zero.mpr hns)
  rw [scaleDiv_eq hns] at hfreq
  have hfreq : UInt64.ofNat (rounded cycles.toNat ns.toNat) = freq := Except.ok.inj hfreq
  have hquot : rounded cycles.toNat ns.toNat < 2 ^ 64 :=
    Nat.div_lt_of_lt_mul hfits
  have hnat : freq.toNat = rounded cycles.toNat ns.toNat := by
    rw [← hfreq, UInt64.toNat_ofNat', Nat.mod_eq_of_lt hquot]
  have hlt : ns.toNat < rounded cycles.toNat ns.toNat := hnat ▸ UInt64.lt_iff_toNat_lt.mp hfast
  have hne : freq ≠ 0 := by
    rintro rfl
    exact Nat.not_lt_zero _ (UInt64.lt_iff_toNat_lt.mp hfast)
  rw [cyclesToNs, scaleDiv_eq hne, hnat, rounded_rounded hpos hlt, UInt64.ofNat_toNat]

/-- A second and a bit, on a counter of 3 GHz. -/
theorem calibrateTsc_inverts_sample :
    cyclesToNs (3000180011 - 11) 3000000000 = .ok 1000060000 := by
  have hns : Timespec.ns ⟨8, 50060000⟩ - Timespec.ns ⟨7, 50000000⟩ = 1000060000 := by decide
  have hfreq : calibrateTsc ⟨7, 50000000⟩ ⟨8, 50060000⟩ 11 3000180011 = .ok 3000000000 := by decide
  have h := calibrateTsc_inverts (by decide) hfreq (by decide) (by decide)
  rwa [hns] at h

end ItchIngestion.Telemetry
