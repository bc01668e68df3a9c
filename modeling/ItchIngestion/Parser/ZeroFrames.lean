import ItchIngestion.Parser.Framing

/-! # Zero-length frames

A declared size of zero announces neither a type byte nor a body. The loop takes the two bytes of
such a frame off the buffer all the same and goes on with what follows, since `size - 1` puts the
cursor back before the byte that it has read as a type. That byte is the first one of the next frame,
though, and the handler hears of it. Only at the end of the buffer, where fewer than three bytes are
left, is a zero-length frame inert (`zero_length_inert_iff`).

An `Item` is a frame or a zero-length frame between frames. The argument counts `handle_before`: one
for every frame, and one for every zero-length frame with an item behind it.
-/
namespace ItchIngestion.ITCH
open Library
set_option autoImplicit false

/-! ## Items -/

/-- A frame, or two bytes that declare a size of zero. -/
inductive Item
  | frame (f : Frame)
  | zeroLength

namespace Item

/-- An item on the wire. -/
def bytes : Item → List UInt8
  | frame f => f.bytes
  | zeroLength => toBigEndian 2 0

/-- The frame, if the item is one. -/
def frame? : Item → Option Frame
  | frame f => some f
  | zeroLength => none

/-- The item declares a size of zero. -/
def isZeroLength : Item → Bool
  | frame _ => false
  | zeroLength => true

/-- The frames, without the zero-length ones. -/
def frames (items : List Item) : List Frame := items.filterMap frame?

theorem frames_frame (f : Frame) (items : List Item) :
    frames (frame f :: items) = f :: frames items := rfl

theorem frames_zeroLength (items : List Item) : frames (zeroLength :: items) = frames items := rfl

theorem two_le_length_bytes (i : Item) : 2 ≤ i.bytes.length := by
  cases i with
  | frame f =>
    rw [bytes, f.length_bytes]
    omega
  | zeroLength => rfl

theorem flatMap_bytes_cons (i : Item) (items : List Item) :
    ∃ c rest, (i :: items).flatMap bytes = c :: rest := by
  have hpos : 2 ≤ ((i :: items).flatMap bytes).length := by
    rw [List.flatMap_cons, List.length_append]
    exact Nat.le_add_right_of_le i.two_le_length_bytes
  cases hsplit : (i :: items).flatMap bytes with
  | nil =>
    rw [hsplit] at hpos
    cases hpos
  | cons c rest => exact ⟨c, rest, rfl⟩

/-- The zero-length frames that have something behind them. -/
def innerZeros (items : List Item) : ℕ := items.dropLast.countP isZeroLength

theorem innerZeros_frame (f : Frame) (items : List Item) :
    innerZeros (frame f :: items) = innerZeros items := by
  cases items with
  | nil => rfl
  | cons j items =>
    rw [innerZeros, List.dropLast_cons_cons, List.countP_cons]
    rfl

theorem innerZeros_zeroLength (j : Item) (items : List Item) :
    innerZeros (zeroLength :: j :: items) = innerZeros (j :: items) + 1 := by
  rw [innerZeros, List.dropLast_cons_cons, List.countP_cons]
  rfl

theorem innerZeros_eq_zero_iff {items : List Item} :
    innerZeros items = 0 ↔ zeroLength ∉ items.dropLast := by
  rw [innerZeros, List.countP_eq_zero]
  constructor
  · intro hnone hmem
    exact hnone _ hmem rfl
  · intro hno i hi hzero
    cases i with
    | frame f => cases hzero
    | zeroLength => exact hno hi

/-- A buffer without inner zero-length frames is one of frames with a rest that is too short. -/
theorem bytes_eq_frames {items : List Item} (hno : zeroLength ∉ items.dropLast) :
    ∃ rest : List UInt8, rest.length < 3 ∧
      items.flatMap bytes = (frames items).flatMap Frame.bytes ++ rest := by
  induction items with
  | nil => exact ⟨[], by decide, rfl⟩
  | cons i items ih =>
    cases items with
    | nil =>
      cases i with
      | frame f => exact ⟨[], by decide, by simp [bytes, frames, frame?]⟩
      | zeroLength => exact ⟨toBigEndian 2 0, by decide, rfl⟩
    | cons j items =>
      rw [List.dropLast_cons_cons, List.mem_cons, not_or] at hno
      obtain ⟨rest, hshort, heq⟩ := ih hno.2
      cases i with
      | frame f =>
        refine ⟨rest, hshort, ?_⟩
        rw [List.flatMap_cons, heq, frames_frame, List.flatMap_cons, List.append_assoc]
        rfl
      | zeroLength => exact absurd rfl hno.1

end Item

/-! ## What the loop makes of a zero-length frame -/

section Zero
variable {σ : Type} {h : SpecificHandler σ} {junk : (ty : MessageType) → ty.Msg} {mem : Mem}
  {src e : ℕ}

theorem loop_end (he : e < src + 3) (s : σ) : loop h junk mem e src s = .returned s := by
  rw [loop_eq, header_end he]

theorem header_zeroLength {c : UInt8} (hmem : mem.Holds src (Item.zeroLength.bytes ++ [c]))
    (he : src + 3 ≤ e) : header mem e src = .frame 0 c := by
  have h0 : mem src = some 0 := hmem 0 0 rfl
  have h1 : mem (src + 1) = some 0 := hmem 1 0 rfl
  have h2 : mem (src + 2) = some c := hmem 2 c rfl
  have hload : loadBe16 mem src = some 0 := by
    rw [loadBe16, h0, h1]
    rfl
  have hsize : ¬ ((e : ℤ) - src < 2 + (0 : UInt16).toNat) := by
    rw [UInt16.toNat_zero]
    omega
  rw [header, if_pos (by omega), hload]
  dsimp only
  rw [if_neg hsize, h2]

theorem dispatch_returned {c : UInt8} {s s' : σ}
    (hcall : dispatch h junk mem c src s = .returned s') :
    s' = s ∨ ∃ ty m, (h.handle ty).isSome ∧ s' = h.exec s (.handle ty m) := by
  rw [dispatch_eq, selected] at hcall
  split at hcall
  · cases hty : MessageType.ofRaw c with
    | none =>
      rw [hty] at hcall
      dsimp only [ParseFn.call] at hcall
      split at hcall <;> cases hcall
    | some ty =>
      rw [hty] at hcall
      dsimp only at hcall
      cases hhandle : h.handle ty with
      | none =>
        rw [hhandle] at hcall
        cases hcall
        exact Or.inl rfl
      | some handle =>
        rw [hhandle] at hcall
        dsimp only [ParseFn.call] at hcall
        cases hparse : parseItch ty.layout (junk ty) mem src with
        | none =>
          rw [hparse] at hcall
          cases hcall
        | some m =>
          rw [hparse] at hcall
          cases hcall
          refine Or.inr ⟨ty, m, by rw [hhandle]; rfl, ?_⟩
          rw [SpecificHandler.exec, hhandle]
          rfl
  · cases hcall

end Zero

/-! ## Counting `handle_before` -/

/-- The call announces a message. -/
def Call.isHandleBefore : Call → Bool
  | handleBefore => true
  | _ => false

/-- How many messages are announced. -/
def announced (calls : List Call) : ℕ := calls.countP Call.isHandleBefore

theorem announced_append (calls calls' : List Call) :
    announced (calls ++ calls') = announced calls + announced calls' := List.countP_append

section Announced
variable {handles : MessageType → Bool} {junk : (ty : MessageType) → ty.Msg}

theorem announced_exec_handle (ty : MessageType) (m : ty.Msg) (s : List Call) :
    announced ((SpecificHandler.recorder handles).exec s (.handle ty m)) = announced s := by
  rw [SpecificHandler.exec, SpecificHandler.recorder]
  dsimp only
  split
  · rw [Option.elim_some, announced_append]
    rfl
  · rfl

theorem announced_calls {h : SpecificHandler (List Call)} (f : Frame) :
    announced (f.calls h junk) = 1 := by
  have hbody : announced (f.handleCalls h junk) = 0 := by
    refine List.countP_eq_zero.mpr fun c hc hbefore => ?_
    unfold Frame.handleCalls at hc
    split at hc
    · cases hc
    · split at hc
      · obtain ⟨m, -, rfl⟩ := List.mem_map.mp hc
        cases hbefore
      · cases hc
  rw [Frame.calls, List.cons_append, ← List.singleton_append, announced_append, announced_append,
    hbody]
  rfl

theorem announced_replay (f : Frame) (s : List Call) :
    announced ((SpecificHandler.recorder handles).replay s
      (f.calls (SpecificHandler.recorder handles) junk)) = announced s + 1 := by
  have hreplay := @replay_recorder junk handles [f] s
  rw [List.flatMap_singleton] at hreplay
  rw [hreplay, announced_append, announced_calls]

theorem announced_flatMap_calls {h : SpecificHandler (List Call)} (frames : List Frame) :
    announced (frames.flatMap (Frame.calls h junk)) = frames.length := by
  induction frames with
  | nil => rfl
  | cons f frames ih =>
    rw [List.flatMap_cons, announced_append, announced_calls, ih, List.length_cons, Nat.add_comm]

variable {mem : Mem} {src e : ℕ} {items : List Item}

/-- **A zero-length frame with a byte behind it**: if the run survives that byte, the handler has been
called once more. -/
theorem loop_zeroLength {c : UInt8} (hmem : mem.Holds src (Item.zeroLength.bytes ++ [c]))
    (he : src + 3 ≤ e) {s s' : List Call}
    (hrun : loop (SpecificHandler.recorder handles) junk mem e src s = .returned s') :
    ∃ s₁, announced s₁ = announced s + 1 ∧
      loop (SpecificHandler.recorder handles) junk mem e (src + 2) s₁ = .returned s' := by
  rw [loop_eq, header_zeroLength hmem he] at hrun
  dsimp only at hrun
  cases hcall : dispatch (SpecificHandler.recorder handles) junk mem c (src + 3)
      ((SpecificHandler.recorder handles).handleBefore s) with
  | threw what s₁ =>
    rw [hcall] at hrun
    cases hrun
  | undefinedBehaviour s₁ =>
    rw [hcall] at hrun
    cases hrun
  | returned s₁ =>
    rw [hcall] at hrun
    refine ⟨(SpecificHandler.recorder handles).handleAfter s₁, ?_, hrun⟩
    have hbefore : announced ((SpecificHandler.recorder handles).handleBefore s) =
        announced s + 1 := announced_append s [.handleBefore]
    have hafter : announced ((SpecificHandler.recorder handles).handleAfter s₁) = announced s₁ :=
      announced_append s₁ [.handleAfter]
    rw [hafter]
    cases dispatch_returned hcall with
    | inl hsame => rw [hsame, hbefore]
    | inr hhandled =>
      obtain ⟨ty, m, -, rfl⟩ := hhandled
      rw [announced_exec_handle, hbefore]

/-- A run that comes to the end announces the frames and the inner zero-length frames. -/
theorem announced_of_returned
    (hframes : ∀ f ∈ Item.frames items, f.Known ∧ f.Filled (SpecificHandler.recorder handles))
    (hmem : mem.Holds src (items.flatMap Item.bytes))
    (he : src + (items.flatMap Item.bytes).length = e) {s s' : List Call}
    (hrun : loop (SpecificHandler.recorder handles) junk mem e src s = .returned s') :
    announced s' = announced s + (Item.frames items).length + Item.innerZeros items := by
  induction items generalizing src s with
  | nil =>
    rw [List.flatMap_nil, List.length_nil] at he
    rw [loop_end (by omega)] at hrun
    cases hrun
    rfl
  | cons i items ih =>
    rw [List.flatMap_cons] at hmem he
    rw [List.length_append, ← Nat.add_assoc] at he
    cases i with
    | frame f =>
      rw [Item.frames_frame] at hframes ⊢
      have hf := hframes f List.mem_cons_self
      rw [loop_frame hf.1 hf.2 hmem.left (Nat.le_of_add_right_le (le_of_eq he))] at hrun
      have hrest := ih (fun g hg => hframes g (List.mem_cons_of_mem f hg)) hmem.right he hrun
      rw [hrest, announced_replay, Item.innerZeros_frame, List.length_cons]
      omega
    | zeroLength =>
      rw [Item.frames_zeroLength] at hframes ⊢
      have htwo : Item.zeroLength.bytes.length = 2 := rfl
      rw [htwo] at he
      cases items with
      | nil =>
        rw [List.flatMap_nil, List.length_nil] at he
        rw [loop_end (by omega)] at hrun
        cases hrun
        rfl
      | cons j items =>
        obtain ⟨c, rest, hbytes⟩ := Item.flatMap_bytes_cons j items
        have hhead : mem.Holds src (Item.zeroLength.bytes ++ [c]) := by
          rw [hbytes, ← List.singleton_append, ← List.append_assoc] at hmem
          exact hmem.left
        have he' : src + 3 ≤ e := by
          rw [hbytes, List.length_cons] at he
          omega
        obtain ⟨s₁, hone, hrest⟩ := loop_zeroLength hhead he' hrun
        rw [ih hframes hmem.right he hrest, hone, Item.innerZeros_zeroLength]
        omega

end Announced

/-! ## Inert zero-length frames -/

section Inert
variable {σ : Type} (h : SpecificHandler σ) (junk : (ty : MessageType) → ty.Msg)

/-- The buffer at `src` is parsed to the end, with the calls of the buffer at `src'`, which has the
same frames and no zero-length ones. -/
def Inert (mem mem' : Mem) (src src' : ℕ) (items : List Item) (s : σ) : Prop :=
  ∃ s', parse h junk mem src (items.flatMap Item.bytes).length s = .returned s' ∧
    parse h junk mem' src' ((Item.frames items).flatMap Frame.bytes).length s = .returned s'

variable {h junk} {mem mem' : Mem} {src src' : ℕ} {items : List Item}

theorem inert_of_last (hframes : ∀ f ∈ Item.frames items, f.Known ∧ f.Filled h)
    (hmem : mem.Holds src (items.flatMap Item.bytes))
    (hmem' : mem'.Holds src' ((Item.frames items).flatMap Frame.bytes))
    (hno : Item.zeroLength ∉ items.dropLast) (s : σ) : Inert h junk mem mem' src src' items s := by
  have hknown : ∀ f ∈ Item.frames items, f.Known := fun f hf => (hframes f hf).1
  have hfilled : ∀ f ∈ Item.frames items, f.Filled h := fun f hf => (hframes f hf).2
  obtain ⟨rest, hshort, heq⟩ := Item.bytes_eq_frames hno
  refine ⟨h.replay s ((Item.frames items).flatMap (Frame.calls h junk)), ?_,
    parse_only_frames hknown hfilled hmem' s⟩
  rw [heq] at hmem ⊢
  exact parse_frames hknown hfilled (Or.inl hshort) hmem s

end Inert

/-- **When zero-length frames are inert**: if there is none, or one that is the last item of the
buffer. -/
theorem zero_length_inert_iff {handles : MessageType → Bool} {junk : (ty : MessageType) → ty.Msg}
    {mem mem' : Mem} {src src' : ℕ} {items : List Item}
    (hframes : ∀ f ∈ Item.frames items, f.Known ∧ f.Filled (SpecificHandler.recorder handles))
    (hmem : mem.Holds src (items.flatMap Item.bytes))
    (hmem' : mem'.Holds src' ((Item.frames items).flatMap Frame.bytes)) (s : List Call) :
    Inert (SpecificHandler.recorder handles) junk mem mem' src src' items s ↔
      Item.zeroLength ∉ items.dropLast := by
  constructor
  · rintro ⟨s', hrun, hplain⟩
    have hall := announced_of_returned hframes hmem rfl hrun
    rw [parse_only_frames (fun f hf => (hframes f hf).1) (fun f hf => (hframes f hf).2) hmem',
      replay_recorder] at hplain
    cases hplain
    rw [announced_append, announced_flatMap_calls] at hall
    rw [← Item.innerZeros_eq_zero_iff]
    omega
  · intro hno
    exact inert_of_last hframes hmem hmem' hno s

/-- A system event `O`. -/
def startOfMessages : Frame := ⟨83, [0, 1, 0, 2, 0, 0, 0, 0, 0, 0, 79], by decide⟩

theorem startOfMessages_filled : startOfMessages.Known ∧
    startOfMessages.Filled (SpecificHandler.recorder (· = .systemEvent)) := by
  refine ⟨⟨.systemEvent, rfl⟩, fun ty hraw _ => ?_⟩
  obtain rfl : ty = .systemEvent := MessageType.raw_injective hraw
  decide

/-- A system event, and a zero-length frame at the end. -/
theorem zero_length_inert_sample :
    Inert (SpecificHandler.recorder (· = .systemEvent)) (fun _ => default)
      (Mem.ofList (startOfMessages.bytes ++ [0, 0])) (Mem.ofList startOfMessages.bytes) 0 0
      [.frame startOfMessages, .zeroLength] [] := by
  refine (@zero_length_inert_iff (· = .systemEvent) (fun _ => default)
    (Mem.ofList (startOfMessages.bytes ++ [0, 0])) (Mem.ofList startOfMessages.bytes) 0 0
    [.frame startOfMessages, .zeroLength] ?_ (Mem.holds_ofList _) (Mem.holds_ofList _) []).mpr
    (by simp)
  intro f hf
  obtain rfl := List.mem_singleton.mp hf
  exact startOfMessages_filled

/-- A zero-length frame before a system event: the first size byte of the event is no type. -/
theorem not_always_inert :
    ¬ ∀ (handles : MessageType → Bool) (junk : (ty : MessageType) → ty.Msg) (mem mem' : Mem)
      (src src' : ℕ) (items : List Item) (s : List Call),
      (∀ f ∈ Item.frames items, f.Known ∧ f.Filled (SpecificHandler.recorder handles)) →
      mem.Holds src (items.flatMap Item.bytes) →
      mem'.Holds src' ((Item.frames items).flatMap Frame.bytes) →
      Inert (SpecificHandler.recorder handles) junk mem mem' src src' items s := by
  intro hall
  have hframes : ∀ f ∈ Item.frames [.zeroLength, .frame startOfMessages],
      f.Known ∧ f.Filled (SpecificHandler.recorder (· = .systemEvent)) := by
    intro f hf
    obtain rfl := List.mem_singleton.mp hf
    exact startOfMessages_filled
  have hparse : parse (SpecificHandler.recorder (· = .systemEvent)) (fun _ => default)
      (Mem.ofList [0, 0, 0, 12, 83, 0, 1, 0, 2, 0, 0, 0, 0, 0, 0, 79]) 0 16 [] =
      .threw (unknownMessageType 12) [.handleBefore] := rfl
  obtain ⟨s', hrun, -⟩ := hall (· = .systemEvent) (fun _ => default)
    (Mem.ofList [0, 0, 0, 12, 83, 0, 1, 0, 2, 0, 0, 0, 0, 0, 0, 79])
    (Mem.ofList startOfMessages.bytes) 0 0 _ [] hframes (Mem.holds_ofList _) (Mem.holds_ofList _)
  exact absurd (hparse.symm.trans hrun) (by simp)

end ItchIngestion.ITCH
