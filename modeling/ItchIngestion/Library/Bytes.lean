import Mathlib

/-! # Bytes, big-endian numbers and readable memory

`bigEndian` is the number that a string of bytes spells, most significant byte first, and `toBigEndian`
spells a number in a given number of bytes. Programs compute such numbers with shifts and bitwise
or; `or_byte` and `or_shift_byte` turn one step of that into `value * 256 + byte`.

A `Mem` maps the addresses that can be read to their bytes. `Holds` says that a string of bytes
stands at an address; `restrict` forgets everything outside a range, so that a computation which
still succeeds has read inside the range only.
-/
namespace ItchIngestion.Library
set_option autoImplicit false

/-! ## Big-endian numbers -/

/-- The number that bytes spell. -/
def bigEndian (bs : List UInt8) : ℕ := bs.foldl (fun n b => n * 256 + b.toNat) 0

/-- The last `n` bytes of a number. -/
def toBigEndian : ℕ → ℕ → List UInt8
  | 0, _ => []
  | n + 1, v => toBigEndian n (v / 256) ++ [UInt8.ofNat v]

theorem bigEndian_concat (bs : List UInt8) (b : UInt8) :
    bigEndian (bs ++ [b]) = bigEndian bs * 256 + b.toNat := by
  rw [bigEndian, List.foldl_append]
  rfl

theorem length_toBigEndian (n v : ℕ) : (toBigEndian n v).length = n := by
  induction n generalizing v with
  | zero => rfl
  | succ n ih => rw [toBigEndian, List.length_append, ih, List.length_singleton]

theorem bigEndian_toBigEndian {n v : ℕ} (h : v < 256 ^ n) : bigEndian (toBigEndian n v) = v := by
  induction n generalizing v with
  | zero =>
    rw [pow_zero, Nat.lt_one_iff] at h
    rw [h]
    rfl
  | succ n ih =>
    have hdiv : v / 256 < 256 ^ n := Nat.div_lt_of_lt_mul (by rwa [pow_succ, Nat.mul_comm] at h)
    have hmod : (UInt8.ofNat v).toNat = v % 256 := UInt8.toNat_ofNat'
    rw [toBigEndian, bigEndian_concat, ih hdiv, hmod]
    omega

theorem bigEndian_injective {bs bs' : List UInt8} (hlen : bs.length = bs'.length)
    (h : bigEndian bs = bigEndian bs') : bs = bs' := by
  induction bs using List.reverseRecOn generalizing bs' with
  | nil => exact (List.length_eq_zero_iff.mp hlen.symm).symm
  | append_singleton bs b ih =>
    cases bs' using List.reverseRecOn with
    | nil => simp at hlen
    | append_singleton bs' b' =>
      have hlen : bs.length = bs'.length := by simpa using hlen
      rw [bigEndian_concat, bigEndian_concat] at h
      have hb := b.toNat_lt
      have hb' := b'.toNat_lt
      have hlow : b = b' := UInt8.toNat_inj.mp (by omega)
      rw [ih hlen (by omega), hlow]

theorem or_byte (n : ℕ) {b : ℕ} (hb : b < 2 ^ 8) : n <<< 8 ||| b = n * 256 + b := by
  rw [Nat.shiftLeft_eq, Nat.mul_comm, ← Nat.two_pow_add_eq_or_of_lt hb, Nat.mul_comm]

theorem or_shift_byte (n k : ℕ) {b : ℕ} (hb : b < 2 ^ 8) :
    n <<< (k + 8) ||| b <<< k = (n * 256 + b) <<< k := by
  rw [Nat.add_comm k 8, Nat.shiftLeft_add, ← Nat.shiftLeft_or_distrib, or_byte n hb]

theorem shiftLeft_byte_mod (b : UInt8) {k w : ℕ} (hk : k + 8 ≤ w) :
    b.toNat <<< k % 2 ^ w = b.toNat <<< k := by
  apply Nat.mod_eq_of_lt
  rw [Nat.shiftLeft_eq]
  calc b.toNat * 2 ^ k < 2 ^ 8 * 2 ^ k := Nat.mul_lt_mul_of_pos_right b.toNat_lt (by positivity)
    _ = 2 ^ (8 + k) := (pow_add 2 8 k).symm
    _ ≤ 2 ^ w := Nat.pow_le_pow_right (by decide) (by omega)

/-! ## Readable memory -/

/-- The bytes that can be read. -/
abbrev Mem := ℕ → Option UInt8

/-- A buffer at address 0. -/
def Mem.ofList (bs : List UInt8) : Mem := fun a => bs[a]?

/-- The bytes from `lo` up to `hi`. -/
def Mem.restrict (mem : Mem) (lo hi : ℕ) : Mem := fun a => if lo ≤ a ∧ a < hi then mem a else none

/-- The bytes `bs` are at `a`. -/
def Mem.Holds (mem : Mem) (a : ℕ) (bs : List UInt8) : Prop :=
  ∀ i b, bs[i]? = some b → mem (a + i) = some b

namespace Mem
variable {mem : Mem} {a : ℕ} {A B : List UInt8}

theorem holds_ofList (B : List UInt8) : (ofList B).Holds 0 B := by
  intro i b h
  rwa [Nat.zero_add]

theorem Holds.read (h : mem.Holds a B) {i : ℕ} (hi : i < B.length) :
    mem (a + i) = some B[i] := h i _ (List.getElem?_eq_getElem hi)

theorem Holds.left (h : mem.Holds a (A ++ B)) : mem.Holds a A := by
  intro i b hb
  exact h i b (by rw [List.getElem?_append_left (List.getElem?_eq_some_iff.mp hb).1, hb])

theorem Holds.right (h : mem.Holds a (A ++ B)) : mem.Holds (a + A.length) B := by
  intro i b hb
  rw [Nat.add_assoc]
  exact h _ b (by rw [List.getElem?_append_right (Nat.le_add_right _ _), Nat.add_sub_cancel_left, hb])

theorem Holds.tail {b : UInt8} (h : mem.Holds a (b :: B)) : mem.Holds (a + 1) B :=
  Holds.right (A := [b]) h

theorem Holds.drop (h : mem.Holds a B) (n : ℕ) : mem.Holds (a + n) (B.drop n) := by
  intro i b hb
  rw [List.getElem?_drop] at hb
  rw [Nat.add_assoc]
  exact h _ b hb

theorem Holds.take (h : mem.Holds a B) (n : ℕ) : mem.Holds a (B.take n) := by
  intro i b hb
  rw [List.getElem?_take] at hb
  split at hb
  · exact h i b hb
  · cases hb

theorem Holds.restrict (h : mem.Holds a B) {lo hi : ℕ} (hlo : lo ≤ a) (hhi : a + B.length ≤ hi) :
    (mem.restrict lo hi).Holds a B := by
  intro i b hb
  have hi := (List.getElem?_eq_some_iff.mp hb).1
  rw [Mem.restrict, if_pos ⟨by omega, by omega⟩]
  exact h i b hb

theorem exists_holds {n : ℕ} (h : ∀ i < n, (mem (a + i)).isSome) :
    ∃ B : List UInt8, B.length = n ∧ mem.Holds a B := by
  induction n with
  | zero => exact ⟨[], rfl, by simp [Holds]⟩
  | succ n ih =>
    obtain ⟨B, hlen, hB⟩ := ih fun i hi => h i (by omega)
    obtain ⟨b, hb⟩ := Option.isSome_iff_exists.mp (h n (Nat.lt_succ_self n))
    refine ⟨B ++ [b], by rw [List.length_append, hlen, List.length_singleton], fun i c hc => ?_⟩
    cases Nat.lt_or_ge i B.length with
    | inl hi =>
      rw [List.getElem?_append_left hi] at hc
      exact hB i c hc
    | inr hi =>
      rw [List.getElem?_append_right hi, List.getElem?_singleton] at hc
      split at hc
      · obtain rfl : i = n := by omega
        rwa [hb]
      · cases hc

end Mem

end ItchIngestion.Library
