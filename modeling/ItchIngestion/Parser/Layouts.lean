import ItchIngestion.Parser.Decode

/-! # The fields of a layout are disjoint

The offsets of a layout are sums over its fields, so each field reads bytes of its own
(`offset_disjoint`), and each one writes a member of its own (`set_independent`). A change of the
bytes of one field shows in its member and nowhere else (`fields_disjoint`). It need not show in a
`be48` member: two of its six bytes are never read.
-/
namespace ItchIngestion.ITCH
open Library
set_option autoImplicit false

/-! ## Members -/

namespace MessageType

/-- A write of an earlier field leaves the later members alone, too. -/
theorem independent_of_earlier (ty : MessageType) :
    ty.layout.Pairwise fun f g => ∀ m v, g.get (f.set m v) = g.get m := by
  cases ty
  all_goals repeat' first
    | exact List.Pairwise.nil
    | refine List.Pairwise.cons ?_ ?_
    | exact fun _ h => absurd h List.not_mem_nil
    | refine List.forall_mem_cons.mpr ⟨fun _ _ => rfl, ?_⟩

variable {ty : MessageType} {i j : ℕ} {f g : Field ty.Msg}

theorem set_independent (hf : ty.layout[i]? = some f) (hg : ty.layout[j]? = some g) (hij : j ≠ i)
    (m : ty.Msg) (v : f.kind.Value) : g.get (f.set m v) = g.get m := by
  obtain ⟨hi, rfl⟩ := List.getElem?_eq_some_iff.mp hf
  obtain ⟨hj, rfl⟩ := List.getElem?_eq_some_iff.mp hg
  cases Nat.lt_or_gt_of_ne hij with
  | inl hlt => exact List.pairwise_iff_getElem.mp ty.lawful.independent j i hj hi hlt m v
  | inr hlt => exact List.pairwise_iff_getElem.mp ty.independent_of_earlier i j hi hj hlt m v

end MessageType

/-! ## Bytes -/

section Bytes
variable {Msg : Type} {layout : Layout Msg} {i j : ℕ} {f g : Field Msg}

theorem offset_disjoint (hf : layout[i]? = some f) (hg : layout[j]? = some g) (hij : j ≠ i) :
    offsetAt layout j + g.size ≤ offsetAt layout i ∨
      offsetAt layout i + f.size ≤ offsetAt layout j := by
  rw [← offsetAt_succ hf, ← offsetAt_succ hg]
  cases Nat.lt_or_gt_of_ne hij with
  | inl hlt => exact Or.inl (offsetAt_mono hlt)
  | inr hlt => exact Or.inr (offsetAt_mono hlt)

/-- Outside of the bytes of field `i` two bodies are the same. -/
def AgreeOutside (layout : Layout Msg) (i : ℕ) (f : Field Msg) (body body' : List UInt8) : Prop :=
  ∀ a < layoutSize layout, (a < offsetAt layout i ∨ offsetAt layout i + f.size ≤ a) →
    body[a]? = body'[a]?

variable {body body' : List UInt8}

theorem ownBytes_getElem? (a : ℕ) : (ownBytes layout i f body)[a]? =
    if a < f.size then body[offsetAt layout i + a]? else none := by
  rw [ownBytes, List.getElem?_take, List.getElem?_drop]

theorem AgreeOutside.ownBytes_eq (h : AgreeOutside layout i f body body')
    (hf : layout[i]? = some f) (hg : layout[j]? = some g) (hij : j ≠ i) :
    ownBytes layout j g body = ownBytes layout j g body' := by
  have hend := offset_add_size_le hg
  apply List.ext_getElem?
  intro a
  rw [ownBytes_getElem?, ownBytes_getElem?]
  split
  · apply h _ (by omega)
    cases offset_disjoint hf hg hij with
    | inl hbefore => exact Or.inl (by omega)
    | inr hbehind => exact Or.inr (by omega)
  · rfl

theorem ownBytes_ne {a : ℕ} (hlo : offsetAt layout i ≤ a) (hhi : a < offsetAt layout i + f.size)
    (hne : body[a]? ≠ body'[a]?) : ownBytes layout i f body ≠ ownBytes layout i f body' := by
  intro heq
  have hget : (ownBytes layout i f body)[a - offsetAt layout i]? =
      (ownBytes layout i f body')[a - offsetAt layout i]? := by rw [heq]
  rw [ownBytes_getElem?, ownBytes_getElem?, if_pos (by omega), if_pos (by omega),
    Nat.add_sub_cancel' hlo] at hget
  exact hne hget

end Bytes

/-! ## Values -/

namespace Kind

/-- A field with the same bytes is loaded to the same value, wherever it stands. -/
theorem load_of_holds {mem mem' : Mem} {p p' : ℕ} {bs : List UInt8} (kind : Kind)
    (hmem : mem.Holds p bs) (hmem' : mem'.Holds p' bs) (hlen : bs.length = kind.size) :
    kind.load mem p = kind.load mem' p' := by
  apply load_congr
  intro i hi
  rw [hmem.read (by omega), hmem'.read (by omega)]

theorem Exact.bytes_unique {kind : Kind} {v : kind.Value} {bs bs' : List UInt8}
    (h : kind.Exact v bs) (h' : kind.Exact v bs') (hlen : bs.length = bs'.length) : bs = bs' := by
  cases kind with
  | char => exact h.trans h'.symm
  | chars n => exact h.trans h'.symm
  | uint16 => exact bigEndian_injective hlen (h.symm.trans h')
  | uint32 => exact bigEndian_injective hlen (h.symm.trans h')
  | uint64 => exact bigEndian_injective hlen (h.symm.trans h')
  | be48 => exact bigEndian_injective hlen (h.symm.trans h')

theorem repeats_of_ne {kind : Kind} (h : kind ≠ be48) (bs : List UInt8) : kind.Repeats bs := by
  cases kind with
  | be48 => exact absurd rfl h
  | char | chars | uint16 | uint32 | uint64 => trivial

end Kind

/-! ## Two bodies -/

section Two
variable {ty : MessageType} {mem mem' : Mem} {src src' : ℕ} {body body' : List UInt8}
  {junk junk' m m' : ty.Msg} (hbody : mem.Holds src body) (hbody' : mem'.Holds src' body')
  (hlen : layoutSize ty.layout ≤ body.length) (hlen' : layoutSize ty.layout ≤ body'.length)
  (hm : ∀ (i : ℕ) (f : Field ty.Msg), ty.layout[i]? = some f →
    f.kind.load mem (src + offsetAt ty.layout i) = some (f.get m))
  (hm' : ∀ (i : ℕ) (f : Field ty.Msg), ty.layout[i]? = some f →
    f.kind.load mem' (src' + offsetAt ty.layout i) = some (f.get m'))
  {i : ℕ} {f : Field ty.Msg} (hf : ty.layout[i]? = some f)
include hbody hbody' hm hm' hf

include hlen in
theorem member_eq (heq : ownBytes ty.layout i f body = ownBytes ty.layout i f body') :
    f.get m = f.get m' := by
  have hown : mem.Holds (src + offsetAt ty.layout i) (ownBytes ty.layout i f body) :=
    (hbody.drop _).take _
  have hown' : mem'.Holds (src' + offsetAt ty.layout i) (ownBytes ty.layout i f body) :=
    heq ▸ (hbody'.drop _).take _
  have hload := f.kind.load_of_holds hown hown' (length_ownBytes hf hlen)
  rw [hm i f hf, hm' i f hf] at hload
  exact Option.some.inj hload

include hlen hlen' in
theorem member_ne (hkind : f.kind ≠ Kind.be48)
    (hne : ownBytes ty.layout i f body ≠ ownBytes ty.layout i f body') : f.get m ≠ f.get m' := by
  obtain ⟨v, hv, hexact⟩ := load_ownBytes hbody hlen hf
  obtain ⟨v', hv', hexact'⟩ := load_ownBytes hbody' hlen' hf
  rw [hm i f hf] at hv
  rw [hm' i f hf] at hv'
  cases hv
  cases hv'
  intro hvalue
  have h := hexact.mpr (Kind.repeats_of_ne hkind _)
  have h' := hexact'.mpr (Kind.repeats_of_ne hkind _)
  rw [← hvalue] at h'
  exact hne (h.bytes_unique h' ((length_ownBytes hf hlen).trans (length_ownBytes hf hlen').symm))

end Two

/-- **Fields are disjoint in every layout**, in the bytes they read and in the members they write. -/
theorem fields_disjoint (ty : MessageType) :
    (∀ (junk junk' : ty.Msg) (mem mem' : Mem) (src src' : ℕ) (body body' : List UInt8),
      mem.Holds src body → mem'.Holds src' body' → layoutSize ty.layout ≤ body.length →
      layoutSize ty.layout ≤ body'.length →
      ∃ m m', parseItch ty.layout junk mem src = some m ∧
        parseItch ty.layout junk' mem' src' = some m' ∧
        (∀ (i : ℕ) (f : Field ty.Msg), ty.layout[i]? = some f →
          AgreeOutside ty.layout i f body body' →
          (∀ (j : ℕ) (g : Field ty.Msg), ty.layout[j]? = some g → j ≠ i → g.get m = g.get m') ∧
          (f.kind ≠ Kind.be48 → ∀ a, offsetAt ty.layout i ≤ a →
            a < offsetAt ty.layout i + f.size → body[a]? ≠ body'[a]? → f.get m ≠ f.get m')) ∧
        ((∀ a < layoutSize ty.layout, body[a]? = body'[a]?) → m = m')) ∧
    (∀ (i : ℕ) (f : Field ty.Msg), ty.layout[i]? = some f → ∀ m v, f.get (f.set m v) = v ∧
      ∀ (j : ℕ) (g : Field ty.Msg), ty.layout[j]? = some g → j ≠ i → g.get (f.set m v) = g.get m) ∧
    ∀ m m' : ty.Msg, (∀ f ∈ ty.layout, f.get m = f.get m') → m = m' := by
  refine ⟨?_, ?_, ty.lawful.ext⟩
  · intro junk junk' mem mem' src src' body body' hbody hbody' hlen hlen'
    obtain ⟨m, hparse, hm⟩ := parseItch_spec ty.lawful (loads_of_body hbody hlen) junk
    obtain ⟨m', hparse', hm'⟩ := parseItch_spec ty.lawful (loads_of_body hbody' hlen') junk'
    refine ⟨m, m', hparse, hparse', ?_, ?_⟩
    · intro i f hf hagree
      constructor
      · intro j g hg hji
        exact member_eq hbody hbody' hlen hm hm' hg (hagree.ownBytes_eq hf hg hji)
      · intro hkind a hlo hhi hne
        exact member_ne hbody hbody' hlen hlen' hm hm' hf hkind (ownBytes_ne hlo hhi hne)
    · intro hsame
      apply ty.lawful.ext
      intro f hf
      obtain ⟨i, hi⟩ := List.mem_iff_getElem?.mp hf
      refine member_eq hbody hbody' hlen hm hm' hi (List.ext_getElem? fun a => ?_)
      have hend := offset_add_size_le hi
      rw [ownBytes_getElem?, ownBytes_getElem?]
      split
      · exact hsame _ (by omega)
      · rfl
  · intro i f hf m v
    exact ⟨ty.lawful.get_set f (List.mem_of_getElem? hf) m v,
      fun j g hg hji => MessageType.set_independent hf hg hji m v⟩

/-- Two system events that differ in the last byte of the tracking number. -/
theorem fields_disjoint_sample : ∃ m m' : SystemEvent,
    parseItch systemEventLayout ⟨0, 0, 0, 0⟩ (Mem.ofList [0, 1, 0, 2, 0, 0, 0, 0, 0, 7, 79]) 0 = some m ∧
    parseItch systemEventLayout ⟨9, 9, 9, 9⟩ (Mem.ofList [0, 1, 0, 3, 0, 0, 0, 0, 0, 7, 79]) 0 = some m' ∧
    m.stockLocate = m'.stockLocate ∧ m.trackingNumber ≠ m'.trackingNumber := by
  obtain ⟨m, m', hm, hm', hfields, -⟩ := (fields_disjoint .systemEvent).1 ⟨0, 0, 0, 0⟩ ⟨9, 9, 9, 9⟩ _ _
    0 0 [0, 1, 0, 2, 0, 0, 0, 0, 0, 7, 79] [0, 1, 0, 3, 0, 0, 0, 0, 0, 7, 79] (Mem.holds_ofList _)
    (Mem.holds_ofList _) (by decide) (by decide)
  have hagree : AgreeOutside systemEventLayout 1 ⟨Kind.uint16, SystemEvent.trackingNumber,
      fun m v => { m with trackingNumber := v }⟩ [0, 1, 0, 2, 0, 0, 0, 0, 0, 7, 79]
      [0, 1, 0, 3, 0, 0, 0, 0, 0, 7, 79] := by
    have hall : ∀ a < 11, (a < 2 ∨ 2 + 2 ≤ a) → ([0, 1, 0, 2, 0, 0, 0, 0, 0, 7, 79] : List UInt8)[a]? =
        ([0, 1, 0, 3, 0, 0, 0, 0, 0, 7, 79] : List UInt8)[a]? := by decide
    exact hall
  obtain ⟨hother, hown⟩ := hfields 1 _ rfl hagree
  exact ⟨m, m', hm, hm', hother 0 _ rfl (by decide), hown (by decide) 3 (by decide) (by decide) (by decide)⟩

end ItchIngestion.ITCH
