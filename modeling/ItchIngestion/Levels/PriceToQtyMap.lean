import ItchIngestion.Book.Shared
import ItchIngestion.Library.Run
import ItchIngestion.Library.SlotTable

/-! # The custom hash map (`hash_map.hpp`)

The key zero marks a free entry, so the map is one of non-zero keys. `find` gives out a pointer to a
value in the table; a write through it goes to whatever key the entry has by then. `track` runs the
table beside the contents that the calls should have left, and `finite_map` says that the table acts
as these contents.
-/
namespace ItchIngestion.OB
open Library
set_option autoImplicit false

abbrev Entry := Slot UInt64 UInt64

/-- `128 / sizeof(Entry)` -/
def bucketSize : ℕ := 128 / 16
def tableSize : ℕ := 8192
def buckets : ℕ := tableSize / bucketSize

/-- The table, bucket by bucket; the key 0 marks a free entry. -/
structure PriceToQtyMap where
  table : Fin buckets → Fin bucketSize → Entry

namespace PriceToQtyMap

/-! ## The code -/

/-- `memset` to zero. -/
def init : PriceToQtyMap := ⟨fun _ _ => ⟨0, 0⟩⟩

/-- The finalizer of MurmurHash3. -/
def hash (x : UInt64) : UInt64 :=
  let x := x ^^^ (x >>> 33)
  let x := x * 0xff51afd7ed558ccd
  let x := x ^^^ (x >>> 33)
  let x := x * 0xc4ceb9fe1a85ec53
  x ^^^ (x >>> 33)

theorem masked_lt (x : UInt64) : (x &&& (UInt64.ofNat buckets - 1)).toNat < buckets := by
  rw [UInt64.toNat_and]
  exact Nat.and_lt_two_pow (n := 10) _ (by decide)

/-- The bucket of a key, by the low bits of its hash. -/
def bucketOf (key : UInt64) : Fin buckets := ⟨_, masked_lt (hash key)⟩

/-- The address of the value of an entry. -/
structure Pointer where
  bucket : Fin buckets
  slot : Fin bucketSize
deriving DecidableEq

/-- The entry that a pointer points to. -/
def entry (m : PriceToQtyMap) (p : Pointer) : Entry := m.table p.bucket p.slot

/-- The first free entry of the bucket is taken. -/
def insert (m : PriceToQtyMap) (key value : UInt64) : Except Fault PriceToQtyMap :=
  match scanUp fun i => (m.table (bucketOf key) i).key == 0 with
  | some i => .ok ⟨putSlot m.table (bucketOf key) i ⟨key, value⟩⟩
  | none => .error (.unexpected "Bucket full!")

/-- The last entry of the bucket with the key. -/
def find (m : PriceToQtyMap) (key : UInt64) : Option Pointer :=
  (scanDown fun i => (m.table (bucketOf key) i).key == key).map fun i => ⟨bucketOf key, i⟩

/-- `operator[]` -/
def index (m : PriceToQtyMap) (key : UInt64) : Except Fault UInt64 :=
  match scanUp fun i => (m.table (bucketOf key) i).key == key with
  | some i => .ok (m.table (bucketOf key) i).value
  | none => .error (.unexpected "Value not found for key")

/-- The value stays behind. -/
def erase (m : PriceToQtyMap) (key : UInt64) : Except Fault PriceToQtyMap :=
  match scanUp fun i => key == (m.table (bucketOf key) i).key with
  | some i => .ok ⟨putSlot m.table (bucketOf key) i ⟨0, (m.table (bucketOf key) i).value⟩⟩
  | none => .error (.unexpected "Unable to delete, key not found!")

/-- `*p` -/
def deref (m : PriceToQtyMap) (p : Pointer) : UInt64 := (m.entry p).value

/-- `*p = value` -/
def write (m : PriceToQtyMap) (p : Pointer) (value : UInt64) : PriceToQtyMap :=
  ⟨putSlot m.table p.bucket p.slot ⟨(m.entry p).key, value⟩⟩

/-! ## What the table stands for -/

/-- What the table is to hold. -/
abbrev Contents := Finmap fun _ : UInt64 => UInt64

/-- The table holds the contents. -/
def Stores (t : PriceToQtyMap) (m : Contents) : Prop := Files bucketOf 0 t.table fun k => m.lookup k

section Stores
variable {t t' : PriceToQtyMap} {m : Contents} {k : UInt64}

theorem init_stores : init.Stores ∅ := by
  have hempty : (fun k => (∅ : Contents).lookup k) = fun _ => none := funext fun _ => Finmap.lookup_empty _
  rw [Stores, hempty]
  exact files_empty fun _ _ => rfl

/-- The scans of `find`, `operator[]` and `erase` end at the same place. -/
theorem scans_eq (h : t.Stores m) (hk : k ≠ 0) :
    (scanUp fun i => (t.table (bucketOf k) i).key == k) =
      scanDown fun i => (t.table (bucketOf k) i).key == k := by
  refine (scanDown_eq_scanUp fun i j hi hj => ?_).symm
  exact Files.key_unique h hk (beq_iff_eq.mp hi) (beq_iff_eq.mp hj)

/-- What the three searches of the table say of a key. -/
inductive Lookup (t : PriceToQtyMap) (m : Contents) (k : UInt64) : Prop
  | absent (hfind : t.find k = none) (hnone : m.lookup k = none)
      (hindex : t.index k = .error (.unexpected "Value not found for key"))
      (herase : t.erase k = .error (.unexpected "Unable to delete, key not found!"))
  | present (p : Pointer) (hfind : t.find k = some p) (hkey : (t.entry p).key = k)
      (hsome : m.lookup k = some (t.deref p)) (hindex : t.index k = .ok (t.deref p))
      (herase : t.erase k = .ok ⟨putSlot t.table p.bucket p.slot ⟨0, t.deref p⟩⟩)

/-- **The three lookups agree**, and agree with the contents. -/
theorem lookup_cases (h : t.Stores m) (hk : k ≠ 0) : Lookup t m k := by
  have hup := scans_eq h hk
  have hcomm : (fun i => k == (t.table (bucketOf k) i).key) =
      fun i => (t.table (bucketOf k) i).key == k := by
    funext i
    exact Bool.beq_comm
  cases hdown : scanDown fun i => (t.table (bucketOf k) i).key == k with
  | none =>
    refine .absent ?_ ?_ ?_ ?_
    · rw [find, hdown]
      rfl
    · refine (Files.eq_none_iff h hk).mpr fun i => ?_
      exact beq_eq_false_iff_ne.mp (scanDown_eq_none.mp hdown i)
    · rw [index, hup, hdown]
    · rw [erase, hcomm, hup, hdown]
  | some i =>
    have hkey : (t.table (bucketOf k) i).key = k := beq_iff_eq.mp (scanDown_some hdown)
    refine .present ⟨bucketOf k, i⟩ ?_ hkey (Files.of_key h hk hkey) ?_ ?_
    · rw [find, hdown]
      rfl
    · rw [index, hup, hdown]
      rfl
    · rw [erase, hcomm, hup, hdown]
      rfl

/-- A pointer to the value of `k` is one to an entry with that key. -/
theorem find_eq_some_iff (h : t.Stores m) (hk : k ≠ 0) {p : Pointer} :
    t.find k = some p ↔ (t.entry p).key = k := by
  constructor
  · intro hp
    cases lookup_cases h hk with
    | absent hfind => rw [hp] at hfind; cases hfind
    | present p' hfind hkey =>
      rw [hp] at hfind
      cases hfind
      exact hkey
  · intro hkey
    have hb : bucketOf k = p.bucket := by
      rw [← hkey]
      exact h.homed p.bucket p.slot (by rwa [← entry, hkey])
    cases lookup_cases h hk with
    | absent hfind hnone =>
      refine absurd ?_ ((Files.eq_none_iff h hk).mp hnone p.slot)
      rw [hb]
      exact hkey
    | present p' hfind hkey' =>
      have hb' : bucketOf k = p'.bucket := by
        rw [← hkey']
        exact h.homed p'.bucket p'.slot (by rwa [← entry, hkey'])
      have hslot : p'.slot = p.slot := by
        refine Files.key_unique h hk ?_ ?_
        · rw [hb']
          exact hkey'
        · rw [hb]
          exact hkey
      rw [hfind]
      cases p
      cases p'
      cases hslot
      cases hb.symm.trans hb'
      rfl

theorem find_deref (h : t.Stores m) (hk : k ≠ 0) : (t.find k).map t.deref = m.lookup k := by
  cases lookup_cases h hk with
  | absent hfind hnone => rw [hfind, hnone]; rfl
  | present p hfind _ hsome => rw [hfind, hsome]; rfl

/-! ## What the operations do -/

theorem lookup_insert (m : Contents) (k v : UInt64) :
    (fun k' => (m.insert k v).lookup k') = Function.update (fun k' => m.lookup k') k (some v) := by
  funext k'
  by_cases hk : k' = k
  · subst hk
    rw [Finmap.lookup_insert, Function.update_self]
  · rw [Finmap.lookup_insert_of_ne _ hk, Function.update_of_ne hk]

theorem lookup_erase (m : Contents) (k : UInt64) :
    (fun k' => (m.erase k).lookup k') = Function.update (fun k' => m.lookup k') k none := by
  funext k'
  by_cases hk : k' = k
  · subst hk
    rw [Finmap.lookup_erase, Function.update_self]
  · rw [Finmap.lookup_erase_ne hk, Function.update_of_ne hk]

/-- The keys that live in the bucket of `k`. -/
def neighbours (m : Contents) (k : UInt64) : Finset UInt64 :=
  m.keys.filter fun k' => bucketOf k' = bucketOf k

theorem Stores.insert (h : t.Stores m) (hk : k ≠ 0) (hnone : t.find k = none)
    (hroom : (neighbours m k).card < bucketSize) (v : UInt64) :
    ∃ t', t.insert k v = .ok t' ∧ t'.Stores (m.insert k v) := by
  have habsent : m.lookup k = none := by
    rw [← find_deref h hk, hnone]
    rfl
  obtain ⟨i, hi⟩ := Files.exists_free h (b := bucketOf k) (neighbours m k) (fun k' hk' hb => by
    exact Finset.mem_filter.mpr ⟨Finmap.mem_keys.mpr (Finmap.lookup_isSome.mp hk'), hb⟩) hroom
  cases hscan : scanUp fun i => (t.table (bucketOf k) i).key == 0 with
  | none =>
    rw [scanUp_eq_none] at hscan
    exact absurd hi (beq_eq_false_iff_ne.mp (hscan i))
  | some j =>
    refine ⟨⟨putSlot t.table (bucketOf k) j ⟨k, v⟩⟩, ?_, ?_⟩
    · rw [PriceToQtyMap.insert, hscan]
    · rw [Stores, lookup_insert]
      exact Files.insert v h hk (beq_iff_eq.mp (scanUp_some hscan)) habsent

theorem Stores.write (h : t.Stores m) {p : Pointer} (hk : (t.entry p).key ≠ 0) (v : UInt64) :
    (t.write p v).Stores (m.insert (t.entry p).key v) := by
  rw [Stores, lookup_insert]
  exact Files.write v h hk

theorem Stores.write_free (h : t.Stores m) {p : Pointer} (hk : (t.entry p).key = 0) (v : UInt64) :
    (t.write p v).Stores m := by
  rw [Stores, PriceToQtyMap.write, hk]
  exact Files.write_free v h hk

theorem Stores.erase (h : t.Stores m) (hk : k ≠ 0) (herase : t.erase k = .ok t') :
    t'.Stores (m.erase k) := by
  cases lookup_cases h hk with
  | absent _ _ _ habort =>
    rw [herase] at habort
    cases habort
  | present p _ hkey _ _ hok =>
    rw [herase] at hok
    cases hok
    have hne : (t.entry p).key ≠ 0 := by rwa [hkey]
    have hfiles := Files.erase (t.deref p) h hne
    rw [Stores, lookup_erase, ← hkey]
    exact hfiles

end Stores

/-! ## Runs -/

/-- A call of the table, or a store through a pointer into it. -/
inductive MapCall
  | insert (key value : UInt64)
  | find (key : UInt64)
  | index (key : UInt64)
  | erase (key : UInt64)
  | write (p : Pointer) (value : UInt64)
deriving DecidableEq

def step (t : PriceToQtyMap) : MapCall → Except Fault PriceToQtyMap
  | .insert key value => t.insert key value
  | .find _ => .ok t
  | .index key => do
    let _ ← t.index key
    return t
  | .erase key => t.erase key
  | .write p value => .ok (t.write p value)

/-- What was last inserted or written for the keys that were not erased since. A write is for the
key whose entry the pointer points into; a free entry has none. -/
def record (t : PriceToQtyMap) (m : Contents) : MapCall → Contents
  | .insert key value => m.insert key value
  | .find _ | .index _ => m
  | .erase key => m.erase key
  | .write p value => if (t.entry p).key = 0 then m else m.insert (t.entry p).key value

/-- A call of the table, with what it is to hold afterwards. -/
def track (s : PriceToQtyMap × Contents) (call : MapCall) : Except Fault (PriceToQtyMap × Contents) := do
  let t ← s.1.step call
  return (t, record s.1 s.2 call)

/-- Keys are not zero, and a key is inserted where it is missing and its bucket has room for it. -/
def Allowed (s : PriceToQtyMap × Contents) : MapCall → Prop
  | .insert key _ => key ≠ 0 ∧ s.1.find key = none ∧ (neighbours s.2 key).card < bucketSize
  | .find key | .index key | .erase key => key ≠ 0
  | .write _ _ => True

section Run
variable {s : PriceToQtyMap × Contents} {t t' : PriceToQtyMap} {m m' : Contents} {call : MapCall}
  {calls : List MapCall}

theorem track_eq_ok : track (t, m) call = .ok (t', m') ↔ t.step call = .ok t' ∧ record t m call = m' := by
  rw [track, bind_eq_ok]
  constructor
  · rintro ⟨t'', hstep, he⟩
    cases he
    exact ⟨hstep, rfl⟩
  · rintro ⟨hstep, rfl⟩
    exact ⟨t', hstep, rfl⟩

theorem Stores.step (h : t.Stores m) (hcall : Allowed (t, m) call) (hstep : t.step call = .ok t') :
    t'.Stores (record t m call) := by
  cases call with
  | insert key value =>
    obtain ⟨hk, hnone, hroom⟩ := hcall
    obtain ⟨t'', hok, hstores⟩ := h.insert hk hnone hroom value
    rw [PriceToQtyMap.step, hok] at hstep
    cases hstep
    exact hstores
  | find key =>
    cases hstep
    exact h
  | index key =>
    obtain ⟨v, -, he⟩ := bind_eq_ok.mp hstep
    cases he
    exact h
  | erase key => exact h.erase hcall hstep
  | write p value =>
    cases hstep
    rw [record]
    split
    · rename_i hfree
      exact h.write_free hfree value
    · rename_i hne
      exact h.write hne value

theorem stores_run (hallowed : Along track Allowed (init, ∅) calls)
    (hrun : run track (init, ∅) calls = .ok (t, m)) : t.Stores m := by
  refine run_induction (Q := fun _ => True) (fun _ s => s.1.Stores s.2) init_stores ?_ hallowed
    (fun _ _ _ _ _ => trivial) hrun
  rintro _ ⟨t, m⟩ call ⟨t', m'⟩ h hcall - hstep
  obtain ⟨hstep', rfl⟩ := track_eq_ok.mp hstep
  exact h.step hcall hstep'

/-! ## Pointers -/

theorem entry_put (b : Fin buckets) (i : Fin bucketSize) (e : Entry) (p : Pointer) :
    entry ⟨putSlot t.table b i e⟩ p = if p.bucket = b ∧ p.slot = i then e else t.entry p :=
  putSlot_apply t.table b p.bucket i p.slot e

theorem key_step {p : Pointer} {k : UInt64} (hk : k ≠ 0) (hkey : (t.entry p).key = k)
    (hstep : t.step call = .ok t') (hcall : call ≠ .erase k) : (t'.entry p).key = k := by
  cases call with
  | insert key value =>
    rw [step, insert] at hstep
    cases hscan : scanUp fun i => (t.table (bucketOf key) i).key == 0 with
    | none =>
      rw [hscan] at hstep
      cases hstep
    | some i =>
      rw [hscan] at hstep
      cases hstep
      rw [entry_put]
      split
      · rename_i hp
        have hfree : (t.table (bucketOf key) i).key = 0 := beq_iff_eq.mp (scanUp_some hscan)
        rw [entry, hp.1, hp.2, hfree] at hkey
        exact absurd hkey.symm hk
      · exact hkey
  | find key =>
    cases hstep
    exact hkey
  | index key =>
    obtain ⟨v, -, he⟩ := bind_eq_ok.mp hstep
    cases he
    exact hkey
  | erase key =>
    rw [step, erase] at hstep
    cases hscan : scanUp fun i => key == (t.table (bucketOf key) i).key with
    | none =>
      rw [hscan] at hstep
      cases hstep
    | some i =>
      rw [hscan] at hstep
      cases hstep
      rw [entry_put]
      split
      · rename_i hp
        have herased : key = (t.table (bucketOf key) i).key := beq_iff_eq.mp (scanUp_some hscan)
        rw [entry, hp.1, hp.2, ← herased] at hkey
        rw [hkey] at hcall
        exact absurd rfl hcall
      · exact hkey
  | write q value =>
    cases hstep
    rw [write, entry_put]
    split
    · rename_i hp
      rw [← hkey, entry, entry, hp.1, hp.2]
    · exact hkey

theorem key_run {p : Pointer} {k : UInt64} (hk : k ≠ 0) (hkey : (t.entry p).key = k)
    (hrun : run track (t, m) calls = .ok (t', m')) (hcalls : .erase k ∉ calls) :
    (t'.entry p).key = k := by
  refine run_prefix_induction (fun _ s => (s.1.entry p).key = k) hkey ?_ hrun
  rintro pre call ⟨t, m⟩ ⟨t', m'⟩ hpre ih hstep
  refine key_step hk ih (track_eq_ok.mp hstep).1 ?_
  rintro rfl
  exact hcalls (hpre.subset (List.mem_append_right pre (List.mem_singleton_self _)))

/-! ## The finite map -/

/-- The table acts as a finite map with these contents. -/
structure ActsAs (t : PriceToQtyMap) (m : Contents) : Prop where
  find : ∀ k, k ≠ 0 → (t.find k).map t.deref = m.lookup k
  index : ∀ k, k ≠ 0 → (∀ p, t.find k = some p → t.index k = .ok (t.deref p)) ∧
    (t.find k = none → t.index k = .error (.unexpected "Value not found for key"))
  erase : ∀ k, k ≠ 0 →
    (∀ p, t.find k = some p → ∃ t', t.erase k = .ok t' ∧ t'.find k = none ∧
      ∀ k', k' ≠ 0 → k' ≠ k → (t'.find k').map t'.deref = (t.find k').map t.deref) ∧
    (t.find k = none → t.erase k = .error (.unexpected "Unable to delete, key not found!"))
  insert : ∀ k v, Allowed (t, m) (.insert k v) → ∃ t', t.insert k v = .ok t'

theorem Stores.actsAs (h : t.Stores m) : t.ActsAs m where
  find _ hk := find_deref h hk
  index k hk := by
    cases lookup_cases h hk with
    | absent hfind _ hindex =>
      refine ⟨fun p hp => ?_, fun _ => hindex⟩
      rw [hfind] at hp
      cases hp
    | present p hfind _ _ hindex =>
      refine ⟨fun p' hp => ?_, fun hnone => ?_⟩
      · rw [hfind] at hp
        cases hp
        exact hindex
      · rw [hfind] at hnone
        cases hnone
  erase k hk := by
    cases lookup_cases h hk with
    | absent hfind _ _ herase =>
      refine ⟨fun p hp => ?_, fun _ => herase⟩
      rw [hfind] at hp
      cases hp
    | present p hfind _ _ _ herase =>
      refine ⟨fun _ _ => ⟨_, herase, ?_⟩, fun hnone => ?_⟩
      · have h' := h.erase hk herase
        refine ⟨?_, fun k' hk' hne => ?_⟩
        · have hgone := find_deref h' hk
          rw [Finmap.lookup_erase] at hgone
          exact Option.map_eq_none_iff.mp hgone
        · rw [find_deref h' hk', find_deref h hk', Finmap.lookup_erase_ne hne]
      · rw [hfind] at hnone
        cases hnone
  insert k v hallowed := by
    obtain ⟨t', hok, -⟩ := h.insert hallowed.1 hallowed.2.1 hallowed.2.2 v
    exact ⟨t', hok⟩

/-- **The table is a finite map for non-zero keys.** A pointer that `find` gave out stays the pointer
to the value of its key until that key is erased. -/
theorem finite_map (hallowed : Along track Allowed (init, ∅) calls)
    (hrun : run track (init, ∅) calls = .ok (t, m)) :
    t.ActsAs m ∧
      ∀ pre post t₀ m₀ k p, calls = pre ++ post → run track (init, ∅) pre = .ok (t₀, m₀) → k ≠ 0 →
        t₀.find k = some p → .erase k ∉ post → t.find k = some p := by
  refine ⟨(stores_run hallowed hrun).actsAs, ?_⟩
  rintro pre post t₀ m₀ k p rfl hpre hk hp hpost
  have h₀ := stores_run hallowed.left hpre
  rw [find_eq_some_iff (stores_run hallowed hrun) hk]
  rw [run_append_of_ok hpre] at hrun
  exact key_run hk ((find_eq_some_iff h₀ hk).mp hp) hrun hpost

end Run

theorem finite_map_sample : ∃ t m,
    run track (init, ∅) [.insert 5 7, .find 5, .write ⟨bucketOf 5, ⟨0, by decide⟩⟩ 9] = .ok (t, m) ∧
      (t.find 5).map t.deref = some 9 ∧ t.find 6 = none := by
  have hallowed : Along track Allowed (init, ∅)
      [.insert 5 7, .find 5, .write ⟨bucketOf 5, ⟨0, by decide⟩⟩ 9] := by
    have hroom : (neighbours ∅ 5).card < bucketSize := by decide
    refine Along.cons rfl ⟨by decide, rfl, hroom⟩ (Along.cons rfl ?_ (Along.cons rfl trivial Along.nil))
    show (5 : UInt64) ≠ 0
    decide
  refine ⟨_, _, rfl, ?_, ?_⟩
  · obtain ⟨hacts, -⟩ := finite_map hallowed rfl
    rw [hacts.find 5 (by decide)]
    rfl
  · obtain ⟨hacts, -⟩ := finite_map hallowed rfl
    refine Option.map_eq_none_iff.mp ((hacts.find 6 (by decide)).trans ?_)
    rfl

end PriceToQtyMap

end ItchIngestion.OB
