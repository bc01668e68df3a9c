import ItchIngestion.Parser.Messages

/-! # Decoding a message body

`parseItch` loads the fields of a layout one by one into a message whose initial members are
indeterminate (`junk`). Every kind of field is loaded exactly but one: `loadBe48` takes its low half
from the first two bytes of the field instead of the last two. So a timestamp is right exactly if
its last two bytes repeat its first two (`fields_exact_iff`).
-/
namespace ItchIngestion.ITCH
open Library
set_option autoImplicit false

/-! ## The code -/

section Loaders
variable (mem : Mem) (p : ℕ)

/-- `load_be16` -/
def loadBe16 : Option UInt16 := do
  let b0 ← mem p
  let b1 ← mem (p + 1)
  return b0.toUInt16 <<< 8 ||| b1.toUInt16

/-- `load_be32` -/
def loadBe32 : Option UInt32 := do
  let b0 ← mem p
  let b1 ← mem (p + 1)
  let b2 ← mem (p + 2)
  let b3 ← mem (p + 3)
  return b0.toUInt32 <<< 24 ||| b1.toUInt32 <<< 16 ||| b2.toUInt32 <<< 8 ||| b3.toUInt32

/-- `load_be64` -/
def loadBe64 : Option UInt64 := do
  let b0 ← mem p
  let b1 ← mem (p + 1)
  let b2 ← mem (p + 2)
  let b3 ← mem (p + 3)
  let b4 ← mem (p + 4)
  let b5 ← mem (p + 5)
  let b6 ← mem (p + 6)
  let b7 ← mem (p + 7)
  return b0.toUInt64 <<< 56 ||| b1.toUInt64 <<< 48 ||| b2.toUInt64 <<< 40 ||| b3.toUInt64 <<< 32 |||
    b4.toUInt64 <<< 24 ||| b5.toUInt64 <<< 16 ||| b6.toUInt64 <<< 8 ||| b7.toUInt64

def loadBe48 : Option UInt64 := do
  let hi ← loadBe32 mem p
  let lo ← loadBe16 mem p
  return hi.toUInt64 <<< 16 ||| lo.toUInt64

/-- The `memcpy` of a `char[n]`. -/
def loadChars (n : ℕ) : Option (Vector UInt8 n) :=
  if h : ∀ i : Fin n, (mem (p + i)).isSome then some (Vector.ofFn fun i => (mem (p + i)).get (h i))
  else none

/-- The load of a member by its type. -/
def Kind.load : (kind : Kind) → Option kind.Value
  | char => mem p
  | chars n => loadChars mem p n
  | uint16 => loadBe16 mem p
  | uint32 => loadBe32 mem p
  | uint64 => loadBe64 mem p
  | be48 => loadBe48 mem p

end Loaders

section Layouts
variable {Msg : Type} (layout : Layout Msg)

/-- Where field number `i` of a layout starts. -/
def offsetAt : ℕ → ℕ
  | 0 => 0
  | i + 1 => offsetAt i + layout[i]?.elim 0 Field.size

/-- One member is loaded. -/
def loadInto (m : Msg) (mem : Mem) (p : ℕ) (f : Field Msg) : Option Msg := do
  let v ← f.kind.load mem p
  return f.set m v

/-- The members of a layout, in order. -/
def parseImpl (m : Msg) (mem : Mem) (src : ℕ) : Option Msg :=
  layout.zipIdx.foldlM (fun m fi => loadInto m mem (src + offsetAt layout fi.2) fi.1) m

/-- A message of the type, over what was in its bytes before. -/
def parseItch (junk : Msg) (mem : Mem) (src : ℕ) : Option Msg := parseImpl layout junk mem src

/-- The number of bytes of a layout. -/
def layoutSize : ℕ := offsetAt layout layout.length

end Layouts

/-! ## What the loaders compute -/

/-- A value of a field against the bytes of the field. -/
def Kind.Exact : (kind : Kind) → kind.Value → List UInt8 → Prop
  | char, v, bs => bs = [v]
  | chars _, v, bs => bs = v.toList
  | uint16, v, bs => v.toNat = bigEndian bs
  | uint32, v, bs => v.toNat = bigEndian bs
  | uint64, v, bs => v.toNat = bigEndian bs
  | be48, v, bs => v.toNat = bigEndian bs

/-- The last two of six bytes repeat the first two. -/
def Kind.Repeats : Kind → List UInt8 → Prop
  | be48, bs => bs[4]? = bs[0]? ∧ bs[5]? = bs[1]?
  | _, _ => True

theorem Kind.Exact.unique {kind : Kind} {v v' : kind.Value} {bs : List UInt8}
    (h : kind.Exact v bs) (h' : kind.Exact v' bs) : v = v' := by
  cases kind with
  | char => exact (List.singleton_inj.mp (h.symm.trans h'))
  | chars n => exact Vector.toList_inj.mp (h.symm.trans h')
  | uint16 => exact UInt16.toNat_inj.mp (h.trans h'.symm)
  | uint32 => exact UInt32.toNat_inj.mp (h.trans h'.symm)
  | uint64 => exact UInt64.toNat_inj.mp (h.trans h'.symm)
  | be48 => exact UInt64.toNat_inj.mp (h.trans h'.symm)

/-- The value of the kind whose load is exact on its bytes, or the first two bytes again. -/
theorem Kind.Exact.be48_iff {v : UInt64} {a b c d e f : UInt8}
    (hv : v.toNat = bigEndian [a, b, c, d, a, b]) :
    Kind.be48.Exact v [a, b, c, d, e, f] ↔ Kind.be48.Repeats [a, b, c, d, e, f] := by
  have hab : Kind.be48.Repeats [a, b, c, d, e, f] ↔ e.toNat = a.toNat ∧ f.toNat = b.toNat := by
    simp [Kind.Repeats, UInt8.toNat_inj]
  have := a.toNat_lt
  have := b.toNat_lt
  have := e.toNat_lt
  have := f.toNat_lt
  rw [hab, Kind.Exact, hv]
  simp only [bigEndian, List.foldl_cons, List.foldl_nil]
  omega

section Values
variable {mem : Mem} {p : ℕ} {a b c d e f g h : UInt8}

theorem loadBe16_spec (hmem : mem.Holds p [a, b]) :
    ∃ v, loadBe16 mem p = some v ∧ v.toNat = bigEndian [a, b] := by
  have ha : mem p = some a := hmem 0 a rfl
  have hb : mem (p + 1) = some b := hmem 1 b rfl
  refine ⟨_, by rw [loadBe16, ha, hb]; rfl, ?_⟩
  simp only [UInt16.toNat_or, UInt16.toNat_shiftLeft, UInt8.toNat_toUInt16, UInt16.reduceToNat,
    Nat.reduceMod, shiftLeft_byte_mod, Nat.reduceAdd, Nat.reduceLeDiff]
  rw [or_byte _ b.toNat_lt]
  simp [bigEndian]

theorem loadBe32_spec (hmem : mem.Holds p [a, b, c, d]) :
    ∃ v, loadBe32 mem p = some v ∧ v.toNat = bigEndian [a, b, c, d] := by
  have ha : mem p = some a := hmem 0 a rfl
  have hb : mem (p + 1) = some b := hmem 1 b rfl
  have hc : mem (p + 2) = some c := hmem 2 c rfl
  have hd : mem (p + 3) = some d := hmem 3 d rfl
  refine ⟨_, by rw [loadBe32, ha, hb, hc, hd]; rfl, ?_⟩
  simp only [UInt32.toNat_or, UInt32.toNat_shiftLeft, UInt8.toNat_toUInt32, UInt32.reduceToNat,
    Nat.reduceMod, shiftLeft_byte_mod, Nat.reduceAdd, Nat.reduceLeDiff]
  rw [or_shift_byte _ 16 b.toNat_lt, or_shift_byte _ 8 c.toNat_lt, or_byte _ d.toNat_lt]
  simp [bigEndian]

theorem loadBe64_spec (hmem : mem.Holds p [a, b, c, d, e, f, g, h]) :
    ∃ v, loadBe64 mem p = some v ∧ v.toNat = bigEndian [a, b, c, d, e, f, g, h] := by
  have ha : mem p = some a := hmem 0 a rfl
  have hb : mem (p + 1) = some b := hmem 1 b rfl
  have hc : mem (p + 2) = some c := hmem 2 c rfl
  have hd : mem (p + 3) = some d := hmem 3 d rfl
  have he : mem (p + 4) = some e := hmem 4 e rfl
  have hf : mem (p + 5) = some f := hmem 5 f rfl
  have hg : mem (p + 6) = some g := hmem 6 g rfl
  have hh : mem (p + 7) = some h := hmem 7 h rfl
  refine ⟨_, by rw [loadBe64, ha, hb, hc, hd, he, hf, hg, hh]; rfl, ?_⟩
  simp only [UInt64.toNat_or, UInt64.toNat_shiftLeft, UInt8.toNat_toUInt64, UInt64.reduceToNat,
    Nat.reduceMod, shiftLeft_byte_mod, Nat.reduceAdd, Nat.reduceLeDiff]
  rw [or_shift_byte _ 48 b.toNat_lt, or_shift_byte _ 40 c.toNat_lt, or_shift_byte _ 32 d.toNat_lt,
    or_shift_byte _ 24 e.toNat_lt, or_shift_byte _ 16 f.toNat_lt, or_shift_byte _ 8 g.toNat_lt,
    or_byte _ h.toNat_lt]
  simp [bigEndian]

theorem loadBe48_spec (hmem : mem.Holds p [a, b, c, d]) :
    ∃ v, loadBe48 mem p = some v ∧ v.toNat = bigEndian [a, b, c, d, a, b] := by
  obtain ⟨hi, hhi, hhiv⟩ := loadBe32_spec hmem
  obtain ⟨lo, hlo, hlov⟩ := loadBe16_spec (Mem.Holds.left (B := [c, d]) hmem)
  refine ⟨_, by rw [loadBe48, hhi, hlo]; rfl, ?_⟩
  have hlt : lo.toNat < 2 ^ 16 := lo.toNat_lt
  have hhi32 : hi.toNat < 2 ^ 32 := hi.toNat_lt
  have hshift : hi.toNat <<< 16 % 2 ^ 64 = 2 ^ 16 * hi.toNat := by
    rw [Nat.shiftLeft_eq]
    omega
  simp only [UInt64.toNat_or, UInt64.toNat_shiftLeft, UInt32.toNat_toUInt64, UInt16.toNat_toUInt64,
    UInt64.reduceToNat, Nat.reduceMod, hshift]
  rw [← Nat.two_pow_add_eq_or_of_lt hlt, hhiv, hlov]
  simp only [bigEndian, List.foldl_cons, List.foldl_nil]
  omega

end Values

theorem loadChars_spec {mem : Mem} {p : ℕ} {bs : List UInt8} {n : ℕ} (hmem : mem.Holds p bs)
    (hlen : bs.length = n) : ∃ v, loadChars mem p n = some v ∧ bs = v.toList := by
  subst hlen
  have hread : ∀ i : Fin bs.length, mem (p + i) = some (bs.get i) := fun i => hmem.read i.isLt
  have hsome : ∀ i : Fin bs.length, (mem (p + i)).isSome := by
    intro i
    rw [hread]
    rfl
  refine ⟨_, dif_pos hsome, ?_⟩
  have hget : (fun i : Fin bs.length => (mem (p + i)).get (hsome i)) = bs.get := by
    funext i
    exact Option.get_of_eq_some _ (hread i)
  rw [hget, Vector.toList_ofFn, List.ofFn_get]

/-- **Every kind is loaded exactly, except that a `be48` field repeats its first two bytes.** -/
theorem Kind.load_spec {mem : Mem} {p : ℕ} {bs : List UInt8} (kind : Kind) (hmem : mem.Holds p bs)
    (hlen : bs.length = kind.size) :
    ∃ v, kind.load mem p = some v ∧ (kind.Exact v bs ↔ kind.Repeats bs) := by
  cases kind with
  | char =>
    match bs, hlen with
    | [a], _ => exact ⟨a, hmem 0 a rfl, iff_of_true rfl trivial⟩
  | chars n =>
    obtain ⟨v, hv, hexact⟩ := loadChars_spec hmem hlen
    exact ⟨v, hv, iff_of_true hexact trivial⟩
  | uint16 =>
    match bs, hlen with
    | [a, b], _ =>
      obtain ⟨v, hv, hexact⟩ := loadBe16_spec hmem
      exact ⟨v, hv, iff_of_true hexact trivial⟩
  | uint32 =>
    match bs, hlen with
    | [a, b, c, d], _ =>
      obtain ⟨v, hv, hexact⟩ := loadBe32_spec hmem
      exact ⟨v, hv, iff_of_true hexact trivial⟩
  | uint64 =>
    match bs, hlen with
    | [a, b, c, d, e, f, g, h], _ =>
      obtain ⟨v, hv, hexact⟩ := loadBe64_spec hmem
      exact ⟨v, hv, iff_of_true hexact trivial⟩
  | be48 =>
    match bs, hlen with
    | [a, b, c, d, e, f], _ =>
      obtain ⟨v, hv, hvalue⟩ := loadBe48_spec (Mem.Holds.left (B := [e, f]) hmem)
      exact ⟨v, hv, Kind.Exact.be48_iff hvalue⟩

theorem Kind.load_congr {mem mem' : Mem} {p p' : ℕ} (kind : Kind)
    (h : ∀ i < kind.size, mem (p + i) = mem' (p' + i)) : kind.load mem p = kind.load mem' p' := by
  cases kind with
  | char => exact h 0 (by decide)
  | chars n =>
    have hall : ∀ i : Fin n, mem (p + i) = mem' (p' + i) := fun i => h i i.isLt
    simp only [load, loadChars, hall]
  | uint16 =>
    have h0 : mem p = mem' p' := h 0 (by decide)
    simp only [load, loadBe16, h0, h 1 (by decide)]
  | uint32 =>
    have h0 : mem p = mem' p' := h 0 (by decide)
    simp only [load, loadBe32, h0, h 1 (by decide), h 2 (by decide), h 3 (by decide)]
  | uint64 =>
    have h0 : mem p = mem' p' := h 0 (by decide)
    simp only [load, loadBe64, h0, h 1 (by decide), h 2 (by decide), h 3 (by decide),
      h 4 (by decide), h 5 (by decide), h 6 (by decide), h 7 (by decide)]
  | be48 =>
    have h0 : mem p = mem' p' := h 0 (by decide)
    simp only [load, loadBe48, loadBe32, loadBe16, h0, h 1 (by decide), h 2 (by decide),
      h 3 (by decide)]

/-! ## Layouts that cover their struct -/

/-- The fields of a layout are distinct members, and they are all there are. -/
structure Lawful {Msg : Type} (layout : Layout Msg) : Prop where
  get_set : ∀ f ∈ layout, ∀ m v, f.get (f.set m v) = v
  independent : layout.Pairwise fun f g => ∀ m v, f.get (g.set m v) = f.get m
  ext : ∀ m m', (∀ f ∈ layout, f.get m = f.get m') → m = m'

theorem MessageType.lawful (ty : MessageType) : Lawful ty.layout where
  get_set := by
    cases ty
    all_goals repeat' first
      | exact fun _ h => absurd h List.not_mem_nil
      | refine List.forall_mem_cons.mpr ⟨fun _ _ => rfl, ?_⟩
  independent := by
    cases ty
    all_goals repeat' first
      | exact List.Pairwise.nil
      | refine List.Pairwise.cons ?_ ?_
      | exact fun _ h => absurd h List.not_mem_nil
      | refine List.forall_mem_cons.mpr ⟨fun _ _ => rfl, ?_⟩
  ext := by
    cases ty
    all_goals
      intro m m' h
      cases m
      cases m'
      simp only [layout, addOrderNoMpidLayout, orderCancelLayout, orderDeleteLayout,
        orderReplaceLayout, systemEventLayout, stockDirectoryLayout, tradingActionLayout,
        regShoLayout, marketParticipantPosLayout, mwcbDeclineLevelLayout, mwcbStatusLayout,
        ipoQuotationPeriodUpdLayout, luldAuctionCollarLayout, operationalHaltLayout,
        addOrderMpidLayout, orderExecutedLayout, orderExecutedPriceLayout,
        tradeMessageNonCrossLayout, tradeMessageCrossLayout, brokenTradeLayout, noiiLayout,
        directListingCapitalRaiseLayout, List.forall_mem_cons] at h
      simp only [h]

section Offsets
variable {Msg : Type} {layout : Layout Msg} {i : ℕ} {f : Field Msg}

theorem offsetAt_succ (hf : layout[i]? = some f) :
    offsetAt layout (i + 1) = offsetAt layout i + f.size := by
  rw [offsetAt, hf, Option.elim]

theorem offsetAt_mono {j : ℕ} (h : i ≤ j) : offsetAt layout i ≤ offsetAt layout j := by
  induction h with
  | refl => exact le_refl _
  | step _ ih => exact ih.trans (Nat.le_add_right _ _)

theorem offset_add_size_le (hf : layout[i]? = some f) :
    offsetAt layout i + f.size ≤ layoutSize layout := by
  rw [← offsetAt_succ hf]
  exact offsetAt_mono (List.getElem?_eq_some_iff.mp hf).1

/-- The bytes of a field. -/
def ownBytes (layout : Layout Msg) (i : ℕ) (f : Field Msg) (body : List UInt8) : List UInt8 :=
  (body.drop (offsetAt layout i)).take f.size

theorem length_ownBytes (hf : layout[i]? = some f) {body : List UInt8}
    (hlen : layoutSize layout ≤ body.length) : (ownBytes layout i f body).length = f.size := by
  have := offset_add_size_le hf
  rw [ownBytes, List.length_take, List.length_drop]
  omega

end Offsets

section Parse
variable {Msg : Type} {layout : Layout Msg} {mem : Mem} {src : ℕ}

/-- Some bytes of memory are enough to load every field. -/
def Loads (layout : Layout Msg) (mem : Mem) (src : ℕ) : Prop :=
  ∀ (i : ℕ) (f : Field Msg), layout[i]? = some f →
    ∃ v, f.kind.load mem (src + offsetAt layout i) = some v

/-- The loop over the first fields of a layout leaves each of them as it was loaded. -/
theorem parseImpl_prefix (hlaw : Lawful layout) (hload : Loads layout mem src) (junk : Msg)
    (done : Layout Msg) (hpre : done <+: layout) :
    ∃ m, done.zipIdx.foldlM (fun m fi => loadInto m mem (src + offsetAt layout fi.2) fi.1) junk =
        some m ∧
      ∀ (i : ℕ) (f : Field Msg), done[i]? = some f →
        f.kind.load mem (src + offsetAt layout i) = some (f.get m) := by
  induction done using List.reverseRecOn with
  | nil => exact ⟨junk, rfl, by simp⟩
  | append_singleton done g ih =>
    obtain ⟨m, hm, hfields⟩ := ih ((List.prefix_append done [g]).trans hpre)
    have hg : layout[done.length]? = some g := by
      obtain ⟨rest, rfl⟩ := hpre
      simp
    obtain ⟨v, hv⟩ := hload _ _ hg
    have hget : g.get (g.set m v) = v := hlaw.get_set g (List.mem_of_getElem? hg) m v
    have hkeep : ∀ f ∈ done, f.get (g.set m v) = f.get m := by
      intro f hf
      have hpair := hlaw.independent.sublist hpre.sublist
      rw [List.pairwise_append] at hpair
      exact hpair.2.2 f hf g (List.mem_singleton_self g) m v
    refine ⟨g.set m v, ?_, fun i f hf => ?_⟩
    · rw [List.zipIdx_append, List.foldlM_append, hm]
      simp [loadInto, hv]
    · cases Nat.lt_or_ge i done.length with
      | inl hi =>
        rw [List.getElem?_append_left hi] at hf
        rw [hfields i f hf, hkeep f (List.mem_of_getElem? hf)]
      | inr hi =>
        obtain ⟨hlast, rfl⟩ : i = done.length ∧ g = f := by
          rw [List.getElem?_append_right hi, List.getElem?_singleton] at hf
          split at hf
          · exact ⟨by omega, Option.some.inj hf⟩
          · cases hf
        rw [hlast, hget, hv]

/-- **A parsed message has in every member what was loaded for it.** -/
theorem parseItch_spec (hlaw : Lawful layout) (hload : Loads layout mem src) (junk : Msg) :
    ∃ m, parseItch layout junk mem src = some m ∧
      ∀ (i : ℕ) (f : Field Msg), layout[i]? = some f →
        f.kind.load mem (src + offsetAt layout i) = some (f.get m) :=
  parseImpl_prefix hlaw hload junk layout (List.prefix_refl layout)

theorem parseItch_congr {mem' : Mem} {src' : ℕ} (junk : Msg)
    (h : ∀ a < layoutSize layout, mem (src + a) = mem' (src' + a)) :
    parseItch layout junk mem src = parseItch layout junk mem' src' := by
  have hpairs : ∀ fi ∈ layout.zipIdx, ∀ m, loadInto m mem (src + offsetAt layout fi.2) fi.1 =
      loadInto m mem' (src' + offsetAt layout fi.2) fi.1 := by
    intro fi hfi m
    have hend := offset_add_size_le (List.mem_zipIdx_iff_getElem?.mp hfi)
    unfold Field.size at hend
    have hload : fi.1.kind.load mem (src + offsetAt layout fi.2) =
        fi.1.kind.load mem' (src' + offsetAt layout fi.2) := by
      apply Kind.load_congr
      intro i hi
      rw [Nat.add_assoc, Nat.add_assoc]
      exact h _ (by omega)
    rw [loadInto, loadInto, hload]
  unfold parseItch parseImpl
  generalize layout.zipIdx = pairs at hpairs
  induction pairs generalizing junk with
  | nil => rfl
  | cons fi pairs ih =>
    rw [List.foldlM_cons, List.foldlM_cons, hpairs fi List.mem_cons_self]
    congr 1
    funext m
    exact ih m fun gi hgi => hpairs gi (List.mem_cons_of_mem fi hgi)

theorem loads_of_parseItch {junk m : Msg} (h : parseItch layout junk mem src = some m) :
    Loads layout mem src := by
  have hpairs : ∀ (pairs : List (Field Msg × ℕ)) (m₀ : Msg),
      pairs.foldlM (fun m fi => loadInto m mem (src + offsetAt layout fi.2) fi.1) m₀ = some m →
      ∀ fi ∈ pairs, ∃ v, fi.1.kind.load mem (src + offsetAt layout fi.2) = some v := by
    intro pairs
    induction pairs with
    | nil => simp
    | cons gi pairs ih =>
      intro m₀ hm fi hfi
      rw [List.foldlM_cons] at hm
      obtain ⟨m₁, hstep, hrest⟩ := Option.bind_eq_some_iff.mp hm
      cases List.mem_cons.mp hfi with
      | inl heq =>
        subst heq
        obtain ⟨v, hv, -⟩ := Option.bind_eq_some_iff.mp hstep
        exact ⟨v, hv⟩
      | inr hmem => exact ih m₁ hrest fi hmem
  intro i f hf
  exact hpairs layout.zipIdx junk h (f, i) (List.mem_zipIdx_iff_getElem?.mpr hf)

end Parse

section Body
variable {Msg : Type} {layout : Layout Msg} {mem : Mem} {src : ℕ} {body : List UInt8}
  (hbody : mem.Holds src body) (hlen : layoutSize layout ≤ body.length)
include hbody hlen

theorem load_ownBytes {i : ℕ} {f : Field Msg} (hf : layout[i]? = some f) :
    ∃ v, f.kind.load mem (src + offsetAt layout i) = some v ∧
      (f.kind.Exact v (ownBytes layout i f body) ↔ f.kind.Repeats (ownBytes layout i f body)) :=
  f.kind.load_spec ((hbody.drop _).take _) (length_ownBytes hf hlen)

theorem loads_of_body : Loads layout mem src := by
  intro i f hf
  obtain ⟨v, hv, -⟩ := load_ownBytes hbody hlen hf
  exact ⟨v, hv⟩

end Body

/-! ## Exactness -/

/-- Every member of the message is the value of its own bytes. -/
def Decodes (ty : MessageType) (m : ty.Msg) (body : List UInt8) : Prop :=
  ∀ (i : ℕ) (f : Field ty.Msg), ty.layout[i]? = some f →
    f.kind.Exact (f.get m) (ownBytes ty.layout i f body)

namespace MessageType

/-- The third field of every message is its timestamp, and no other field is stored in six bytes. -/
theorem kinds (ty : MessageType) : ∃ rest, ty.layout.map Field.kind =
    [Kind.uint16, Kind.uint16, Kind.be48] ++ rest ∧ Kind.be48 ∉ rest := by
  cases ty <;> exact ⟨_, rfl, by decide⟩

theorem be48_iff (ty : MessageType) {i : ℕ} {f : Field ty.Msg} (hf : ty.layout[i]? = some f) :
    f.kind = Kind.be48 ↔ i = 2 := by
  obtain ⟨rest, hkinds, hrest⟩ := ty.kinds
  have hkind : (ty.layout.map Field.kind)[i]? = some f.kind := by rw [List.getElem?_map, hf]; rfl
  rw [hkinds] at hkind
  match i, hkind with
  | 0, hkind => simp [← Option.some.inj hkind]
  | 1, hkind => simp [← Option.some.inj hkind]
  | 2, hkind => simp [← Option.some.inj hkind]
  | i + 3, hkind =>
    have hmem : f.kind ∈ rest := List.mem_of_getElem? (i := i) (by simpa using hkind)
    constructor
    · intro h
      exact absurd (h ▸ hmem) hrest
    · omega

theorem offset_timestamp (ty : MessageType) : offsetAt ty.layout 2 = 4 := by cases ty <;> rfl

theorem timestamp_field (ty : MessageType) :
    ∃ set, ty.layout[2]? = some ⟨Kind.be48, ty.timestamp, set⟩ := by
  cases ty <;> exact ⟨_, rfl⟩

end MessageType

theorem repeats_timestamp (ty : MessageType) {f : Field ty.Msg} (hf : ty.layout[2]? = some f)
    (body : List UInt8) : f.kind.Repeats (ownBytes ty.layout 2 f body) ↔
      body[8]? = body[4]? ∧ body[9]? = body[5]? := by
  rw [ownBytes, ty.offset_timestamp, Field.size, (ty.be48_iff hf).mpr rfl]
  simp [Kind.Repeats, Kind.size]

/-- Only the timestamp, in bytes 4 to 9 of the body, can go wrong. -/
theorem repeats_iff (ty : MessageType) (body : List UInt8) :
    (∀ (i : ℕ) (f : Field ty.Msg), ty.layout[i]? = some f →
      f.kind.Repeats (ownBytes ty.layout i f body)) ↔ body[8]? = body[4]? ∧ body[9]? = body[5]? := by
  constructor
  · intro h
    obtain ⟨set, hf⟩ := ty.timestamp_field
    exact (repeats_timestamp ty hf body).mp (h 2 _ hf)
  · intro h i f hf
    by_cases hkind : f.kind = Kind.be48
    · obtain rfl := (ty.be48_iff hf).mp hkind
      exact (repeats_timestamp ty hf body).mpr h
    · revert hkind
      generalize ownBytes ty.layout i f body = bs
      cases f.kind <;> simp [Kind.Repeats]

theorem decodes_iff (ty : MessageType) (junk : ty.Msg) {mem : Mem} {src : ℕ} {body : List UInt8}
    (hbody : mem.Holds src body) (hlen : layoutSize ty.layout ≤ body.length) :
    ∃ m, parseItch ty.layout junk mem src = some m ∧
      (Decodes ty m body ↔ body[8]? = body[4]? ∧ body[9]? = body[5]?) := by
  obtain ⟨m, hm, hfields⟩ := parseItch_spec ty.lawful (loads_of_body hbody hlen) junk
  refine ⟨m, hm, ?_⟩
  rw [← repeats_iff, Decodes]
  refine forall_congr' fun i => forall_congr' fun f => forall_congr' fun hf => ?_
  obtain ⟨v, hv, hiff⟩ := load_ownBytes hbody hlen hf
  rw [hfields i f hf] at hv
  cases hv
  exact hiff

/-! ## Round trip -/

/-- A value written in big-endian. -/
def Kind.store : (kind : Kind) → kind.Value → List UInt8
  | char, v => [v]
  | chars _, v => v.toList
  | uint16, v => toBigEndian 2 v.toNat
  | uint32, v => toBigEndian 4 v.toNat
  | uint64, v => toBigEndian 8 v.toNat
  | be48, v => toBigEndian 6 v.toNat

/-- The bytes of a message on the wire. -/
def encode {Msg : Type} (layout : Layout Msg) (m : Msg) : List UInt8 :=
  layout.flatMap fun f => f.kind.store (f.get m)

theorem Kind.length_store (kind : Kind) (v : kind.Value) : (kind.store v).length = kind.size := by
  cases kind with
  | char => rfl
  | chars n => exact v.length_toList
  | uint16 => exact length_toBigEndian 2 _
  | uint32 => exact length_toBigEndian 4 _
  | uint64 => exact length_toBigEndian 8 _
  | be48 => exact length_toBigEndian 6 _

/-- Six bytes hold a value below `2 ^ 48`. -/
def Kind.Fits : (kind : Kind) → kind.Value → Prop
  | be48, v => v.toNat < 2 ^ 48
  | _, _ => True

theorem Kind.fits_of_ne {kind : Kind} (h : kind ≠ be48) (v : kind.Value) : kind.Fits v := by
  cases kind with
  | be48 => exact absurd rfl h
  | char | chars | uint16 | uint32 | uint64 => trivial

theorem Kind.exact_store {kind : Kind} {v : kind.Value} (h : kind.Fits v) :
    kind.Exact v (kind.store v) := by
  cases kind with
  | char => rfl
  | chars n => rfl
  | uint16 => exact (bigEndian_toBigEndian (UInt16.toNat_lt v)).symm
  | uint32 => exact (bigEndian_toBigEndian (UInt32.toNat_lt v)).symm
  | uint64 => exact (bigEndian_toBigEndian (UInt64.toNat_lt v)).symm
  | be48 => exact (bigEndian_toBigEndian h).symm

section Encode
variable {Msg : Type} (layout : Layout Msg) (m : Msg)

theorem length_encode_take (i : ℕ) : (encode (layout.take i) m).length = offsetAt layout i := by
  induction i with
  | zero => rfl
  | succ i ih =>
    rw [List.take_add_one, encode, List.flatMap_append, List.length_append, ← encode, ih, offsetAt]
    cases hf : layout[i]? with
    | none => rfl
    | some f => simp [f.kind.length_store, Field.size]

theorem length_encode : (encode layout m).length = layoutSize layout := by
  have h := length_encode_take layout m layout.length
  rwa [List.take_length] at h

theorem ownBytes_encode {i : ℕ} {f : Field Msg} (hf : layout[i]? = some f) :
    ownBytes layout i f (encode layout m) = f.kind.store (f.get m) := by
  obtain ⟨hi, hfi⟩ := List.getElem?_eq_some_iff.mp hf
  have hsplit : encode layout m =
      encode (layout.take i) m ++ (f.kind.store (f.get m) ++ encode (layout.drop (i + 1)) m) := by
    have hlayout : layout = layout.take i ++ f :: layout.drop (i + 1) := by
      rw [← hfi, ← List.drop_eq_getElem_cons hi, List.take_append_drop]
    conv_lhs => rw [hlayout, encode, List.flatMap_append, List.flatMap_cons]
    rfl
  rw [ownBytes, hsplit, ← length_encode_take layout m i, List.drop_left, Field.size,
    ← f.kind.length_store (f.get m), List.take_left]

end Encode

theorem repeats_toBigEndian {n : ℕ} (hn : n < 2 ^ 48) :
    Kind.be48.Repeats (toBigEndian 6 n) ↔ n % 2 ^ 16 = n / 2 ^ 32 := by
  simp only [toBigEndian, List.nil_append, List.cons_append, Kind.Repeats, List.getElem?_cons_succ,
    List.getElem?_cons_zero, Option.some.injEq, ← UInt8.toNat_inj, UInt8.toNat_ofNat']
  have hhi : n / 256 / 256 / 256 / 256 = n / 2 ^ 32 := by omega
  have hlo : n / 256 % 2 ^ 8 = n % 2 ^ 16 / 256 := by omega
  have hlow : n % 2 ^ 8 = n % 2 ^ 16 % 256 := by omega
  rw [hhi, hlo, hlow]
  have hlt : n / 2 ^ 32 < 2 ^ 16 := by omega
  have hmod : n % 2 ^ 16 < 2 ^ 16 := Nat.mod_lt _ (by decide)
  generalize n / 2 ^ 32 = h at hlt ⊢
  generalize n % 2 ^ 16 = l at hmod ⊢
  omega

/-- **A written message is read back exactly if its timestamp repeats itself.** -/
theorem roundTrip_iff (ty : MessageType) (junk m : ty.Msg) (hts : (ty.timestamp m).toNat < 2 ^ 48)
    {mem : Mem} {src : ℕ} (hmem : mem.Holds src (encode ty.layout m)) :
    parseItch ty.layout junk mem src = some m ↔
      (ty.timestamp m).toNat % 2 ^ 16 = (ty.timestamp m).toNat / 2 ^ 32 := by
  have hlen := length_encode ty.layout m
  obtain ⟨m', hm', hiff⟩ := decodes_iff ty junk hmem (by omega)
  obtain ⟨set, htime⟩ := ty.timestamp_field
  have hself : Decodes ty m (encode ty.layout m) := by
    intro i f hf
    rw [ownBytes_encode ty.layout m hf]
    apply Kind.exact_store
    by_cases hi : i = 2
    · subst hi
      cases htime.symm.trans hf
      exact hts
    · exact Kind.fits_of_ne (mt (ty.be48_iff hf).mp hi) _
  have hsame : m' = m ↔ Decodes ty m' (encode ty.layout m) := by
    constructor
    · rintro rfl
      exact hself
    · intro h
      apply ty.lawful.ext
      intro f hf
      obtain ⟨i, hi⟩ := List.mem_iff_getElem?.mp hf
      exact (h i f hi).unique (hself i f hi)
  rw [hm', Option.some.injEq, hsame, hiff, ← repeats_timestamp ty htime, ownBytes_encode _ _ htime]
  exact repeats_toBigEndian hts

/-- **When decoding is exact**: for every layout, whatever follows the body in memory. -/
theorem fields_exact_iff (ty : MessageType) (junk : ty.Msg) (mem : Mem) (src : ℕ) :
    (∀ body, mem.Holds src body → layoutSize ty.layout ≤ body.length →
      ∃ m, parseItch ty.layout junk mem src = some m ∧
        (Decodes ty m body ↔ body[8]? = body[4]? ∧ body[9]? = body[5]?)) ∧
    ∀ m, (ty.timestamp m).toNat < 2 ^ 48 → mem.Holds src (encode ty.layout m) →
      (parseItch ty.layout junk mem src = some m ↔
        (ty.timestamp m).toNat % 2 ^ 16 = (ty.timestamp m).toNat / 2 ^ 32) :=
  ⟨fun _ hbody hlen => decodes_iff ty junk hbody hlen,
    fun m hts hmem => roundTrip_iff ty junk m hts hmem⟩

/-- A timestamp whose last two bytes are its first two. -/
theorem fields_exact_sample :
    ∃ m, parseItch systemEventLayout ⟨0, 0, 0, 0⟩ (Mem.ofList [0, 1, 0, 2, 0, 7, 3, 4, 0, 7, 79]) 0 =
      some m ∧ Decodes .systemEvent m [0, 1, 0, 2, 0, 7, 3, 4, 0, 7, 79] := by
  obtain ⟨m, hm, hiff⟩ := (fields_exact_iff .systemEvent ⟨0, 0, 0, 0⟩ _ 0).1
    [0, 1, 0, 2, 0, 7, 3, 4, 0, 7, 79] (Mem.holds_ofList _) (by decide)
  exact ⟨m, hm, hiff.mpr (by decide)⟩

/-- A system event one nanosecond after midnight is read as one at midnight. -/
theorem fields_not_exact :
    ¬ ∀ (ty : MessageType) (junk : ty.Msg) (body : List UInt8), layoutSize ty.layout ≤ body.length →
      ∃ m, parseItch ty.layout junk (Mem.ofList body) 0 = some m ∧ Decodes ty m body := by
  intro h
  obtain ⟨m, hm, hexact⟩ := h .systemEvent ⟨0, 0, 0, 0⟩ [0, 1, 0, 2, 0, 0, 0, 0, 0, 1, 79] (by decide)
  have hparsed : m = ⟨1, 2, 0, 79⟩ := (Option.some.inj hm).symm
  rw [hparsed] at hexact
  have hts : (0 : UInt64).toNat = bigEndian [0, 0, 0, 0, 0, 1] := hexact 2 _ rfl
  exact absurd hts (by decide)

end ItchIngestion.ITCH
