import ItchIngestion.Parser.Framing

/-! # Which reads stay inside their frame

The loop checks the declared size of a frame against the end of the buffer, and never against the
layout of the type. `ReadsInside` runs `parse_itch` on a memory that ends with the frame. That
succeeds exactly if the body is as long as the layout (`frame_reads_iff`), because the last field of
every layout is loaded to its end.
-/
namespace ItchIngestion.ITCH
open Library
set_option autoImplicit false

section Reads
variable {σ : Type} (h : SpecificHandler σ) (junk : (ty : MessageType) → ty.Msg) (mem : Mem)

/-- Whatever the frame at `src` makes `parse_itch` read lies in the payload of the frame. -/
def ReadsInside (src : ℕ) (size : UInt16) (rawType : UInt8) : Prop :=
  ∀ ty handle, (makeDispatch h)[charIndex rawType]? = some (.parseAndHandle ty handle) →
    (parseItch ty.layout (junk ty) (mem.restrict (src + 2) (src + 2 + size.toNat)) (src + 3)).isSome

theorem table_parseAndHandle {rawType : UInt8} {ty : MessageType} {handle : ty.Msg → σ → σ} :
    (makeDispatch h)[charIndex rawType]? = some (.parseAndHandle ty handle) ↔
      ty.raw = rawType ∧ h.handle ty = some handle := by
  constructor
  · intro htable
    by_cases hc : rawType < 128
    · rw [charIndex, if_pos hc, makeDispatch_getElem?, selected, Option.some.injEq] at htable
      split at htable
      · cases htable
      · rename_i ty' hty
        split at htable
        · cases htable
        · rename_i handle' hhandle
          cases htable
          exact ⟨MessageType.ofRaw_eq_some.mp hty, hhandle⟩
    · have hlen := length_makeDispatch h
      rw [charIndex, if_neg hc, List.getElem?_eq_none (by omega)] at htable
      cases htable
  · rintro ⟨rfl, hhandle⟩
    rw [charIndex, if_pos ty.raw_lt, makeDispatch_getElem?, selected,
      MessageType.ofRaw_eq_some.mpr rfl]
    dsimp only
    rw [hhandle]

end Reads

/-- A loaded field was read to its last byte, unless it is a `be48`. -/
theorem Kind.load_last {mem : Mem} {p : ℕ} {kind : Kind} {v : kind.Value}
    (hload : kind.load mem p = some v) (hkind : kind ≠ be48) (hsize : 0 < kind.size) :
    (mem (p + (kind.size - 1))).isSome := by
  cases kind with
  | be48 => exact absurd rfl hkind
  | char =>
    show (mem p).isSome
    rw [show mem p = some v from hload]
    rfl
  | chars n =>
    by_contra hnone
    have hno : ¬ ∀ i : Fin n, (mem (p + i)).isSome := fun hall => hnone (hall ⟨n - 1, by
      have : 0 < n := hsize
      omega⟩)
    rw [load, loadChars, dif_neg hno] at hload
    cases hload
  | uint16 =>
    by_contra hnone
    have h1 : mem (p + 1) = none := Option.not_isSome_iff_eq_none.mp hnone
    simp [load, loadBe16, h1] at hload
  | uint32 =>
    by_contra hnone
    have h3 : mem (p + 3) = none := Option.not_isSome_iff_eq_none.mp hnone
    simp [load, loadBe32, h3] at hload
  | uint64 =>
    by_contra hnone
    have h7 : mem (p + 7) = none := Option.not_isSome_iff_eq_none.mp hnone
    simp [load, loadBe64, h7] at hload

theorem MessageType.last_field (ty : MessageType) :
    ∃ n f, ty.layout.length = n + 1 ∧ ty.layout[n]? = some f ∧ f.kind ≠ Kind.be48 ∧
      0 < f.kind.size := by
  cases ty <;> exact ⟨_, _, rfl, rfl, by decide, by decide⟩

/-- **Parsing a layout needs exactly its bytes.** -/
theorem parseItch_restrict_iff (ty : MessageType) (junk : ty.Msg) {mem : Mem} {lo hi src : ℕ}
    (hlo : lo ≤ src) (hread : ∀ a, src ≤ a → a < hi → (mem a).isSome) (hsrc : src ≤ hi) :
    (parseItch ty.layout junk (mem.restrict lo hi) src).isSome ↔ layoutSize ty.layout ≤ hi - src := by
  constructor
  · intro hsome
    obtain ⟨m, hm⟩ := Option.isSome_iff_exists.mp hsome
    obtain ⟨n, f, hlen, hf, hkind, hsize⟩ := ty.last_field
    obtain ⟨v, hv⟩ := loads_of_parseItch hm n f hf
    have hlast := Kind.load_last hv hkind hsize
    have htotal : layoutSize ty.layout = offsetAt ty.layout n + f.kind.size := by
      rw [layoutSize, hlen, offsetAt_succ hf, Field.size]
    unfold Mem.restrict at hlast
    split at hlast
    · omega
    · cases hlast
  · intro hfit
    obtain ⟨body, hlen, hbody⟩ : ∃ B : List UInt8, B.length = layoutSize ty.layout ∧
        mem.Holds src B := Mem.exists_holds fun i hi => hread _ (by omega) (by omega)
    have hinside : (mem.restrict lo hi).Holds src body := hbody.restrict hlo (by omega)
    obtain ⟨m, hm, -⟩ := parseItch_spec ty.lawful (loads_of_body hinside (le_of_eq hlen.symm)) junk
    rw [hm]
    rfl

section Frame
variable {σ : Type} {h : SpecificHandler σ} {junk : (ty : MessageType) → ty.Msg} {mem : Mem}

theorem Reaches.le {e src₀ src : ℕ} {s₀ s : σ} (hreach : Reaches h junk mem e src₀ s₀ src s) :
    src₀ ≤ src := by
  induction hreach with
  | start => exact le_refl _
  | next _ _ _ ih => omega

/-- **When a frame is read inside its payload**: if the body holds the layout of its type. -/
theorem frame_reads_iff {src₀ len : ℕ} {s₀ : σ}
    (hbuffer : ∀ a, src₀ ≤ a → a < src₀ + len → (mem a).isSome) {src : ℕ} {s : σ}
    (hreach : Reaches h junk mem (src₀ + len) src₀ s₀ src s) {size : UInt16} {rawType : UInt8}
    (hframe : header mem (src₀ + len) src = .frame size rawType) (hsize : 1 ≤ size.toNat) :
    (src₀ ≤ src + 2 ∧ src + 2 + size.toNat ≤ src₀ + len) ∧
      (ReadsInside h junk mem src size rawType ↔
        ∀ ty : MessageType, ty.raw = rawType → (h.handle ty).isSome →
          layoutSize ty.layout ≤ size.toNat - 1) := by
  have hle := hreach.le
  have hend := (header_frame_le hframe).2
  have hiff : ∀ ty : MessageType, (parseItch ty.layout (junk ty)
      (mem.restrict (src + 2) (src + 2 + size.toNat)) (src + 3)).isSome ↔
      layoutSize ty.layout ≤ size.toNat - 1 := by
    intro ty
    rw [parseItch_restrict_iff ty (junk ty) (by omega)
      (fun a ha ha' => hbuffer a (by omega) (by omega)) (by omega)]
    omega
  refine ⟨⟨by omega, hend⟩, ?_⟩
  constructor
  · intro hreads ty hraw hsome
    obtain ⟨handle, hhandle⟩ := Option.isSome_iff_exists.mp hsome
    exact (hiff ty).mp (hreads ty handle ((table_parseAndHandle h).mpr ⟨hraw, hhandle⟩))
  · intro hfit ty handle htable
    obtain ⟨hraw, hhandle⟩ := (table_parseAndHandle h).mp htable
    exact (hiff ty).mpr (hfit ty hraw (by rw [hhandle]; rfl))

end Frame

/-- A system event of the right size. -/
theorem frame_reads_sample :
    ReadsInside (SpecificHandler.recorder (· = .systemEvent)) (fun _ => default)
      (Mem.ofList [0, 12, 83, 0, 1, 0, 2, 0, 0, 0, 0, 0, 0, 79]) 0 12 83 := by
  have hbuffer : ∀ a, 0 ≤ a → a < 0 + 14 →
      (Mem.ofList [0, 12, 83, 0, 1, 0, 2, 0, 0, 0, 0, 0, 0, 79] a).isSome := by
    intro a _ ha
    simpa [Mem.ofList] using ha
  have hiff := (@frame_reads_iff _ (SpecificHandler.recorder (· = .systemEvent)) (fun _ => default)
    _ 0 14 [] hbuffer 0 [] .start 12 83 rfl (by decide)).2
  refine hiff.mpr fun ty hraw _ => ?_
  obtain rfl : ty = .systemEvent := MessageType.raw_injective hraw
  decide

/-- A system event of size 1 is built from the bytes of the frame behind it. -/
theorem frame_reads_outside :
    ¬ ∀ (h : SpecificHandler (List Call)) (junk : (ty : MessageType) → ty.Msg) (mem : Mem)
      (src₀ len : ℕ) (s₀ : List Call), (∀ a, src₀ ≤ a → a < src₀ + len → (mem a).isSome) →
      ∀ (src : ℕ) (s : List Call) (size : UInt16) (rawType : UInt8),
        Reaches h junk mem (src₀ + len) src₀ s₀ src s →
        header mem (src₀ + len) src = .frame size rawType → 1 ≤ size.toNat →
        ReadsInside h junk mem src size rawType := by
  intro hall
  have hbuffer : ∀ a, 0 ≤ a → a < 0 + 17 →
      (Mem.ofList [0, 1, 83, 0, 12, 83, 0, 1, 0, 2, 0, 0, 0, 0, 0, 0, 79] a).isSome := by
    intro a _ ha
    simpa [Mem.ofList] using ha
  have hreads := hall (SpecificHandler.recorder (· = .systemEvent)) (fun _ => default) _ 0 17 []
    hbuffer 0 [] 1 83 .start rfl (by decide)
  have hread := hreads .systemEvent _ ((table_parseAndHandle _).mpr ⟨rfl, rfl⟩)
  exact absurd hread (by decide)

end ItchIngestion.ITCH
