import ItchIngestion.Parser.Parse

/-! # Framing

`Frame` is a frame as the feed writes it; `Frame.calls` are the calls that it stands for. On the
bytes of complete frames, with an incomplete rest behind them, the loop makes exactly those calls,
in order (`parse_frames`). The step is one frame at the head of the buffer (`loop_frame`), the
induction is on the list of frames.

A handler is known by what it does with a list of calls (`replay`), so a statement for every handler
says which calls are made; `recorder` is the handler that writes them down.
-/
namespace ItchIngestion.ITCH
open Library
set_option autoImplicit false

/-! ## Calls -/

/-- A call that the parser makes of its handler. -/
inductive Call
  | handleBefore
  | handle (ty : MessageType) (m : ty.Msg)
  | handleAfter

namespace SpecificHandler
variable {σ : Type} (h : SpecificHandler σ)

/-- The effect of a call. -/
def exec (s : σ) : Call → σ
  | .handleBefore => h.handleBefore s
  | .handle ty m => (h.handle ty).elim s fun handle => handle m s
  | .handleAfter => h.handleAfter s

/-- The effect of some calls. -/
def replay (s : σ) (calls : List Call) : σ := calls.foldl h.exec s

theorem replay_append (s : σ) (calls calls' : List Call) :
    h.replay s (calls ++ calls') = h.replay (h.replay s calls) calls' := List.foldl_append

/-- The handler that records its calls. -/
def recorder (handles : MessageType → Bool) : SpecificHandler (List Call) where
  handleBefore s := s ++ [.handleBefore]
  handle ty := if handles ty then some fun m s => s ++ [.handle ty m] else none
  handleAfter s := s ++ [.handleAfter]

theorem recorder_replay {handles : MessageType → Bool} (calls : List Call) (s : List Call)
    (hall : ∀ ty m, Call.handle ty m ∈ calls → handles ty) :
    (recorder handles).replay s calls = s ++ calls := by
  induction calls generalizing s with
  | nil => simp [replay]
  | cons c calls ih =>
    have hexec : (recorder handles).exec s c = s ++ [c] := by
      cases c with
      | handleBefore => rfl
      | handleAfter => rfl
      | handle ty m => simp [exec, recorder, hall ty m List.mem_cons_self]
    rw [replay, List.foldl_cons, hexec, ← replay,
      ih _ fun ty m hm => hall ty m (List.mem_cons_of_mem c hm), List.append_assoc]
    rfl

end SpecificHandler

/-! ## Frames -/

/-- A type byte and a body that together fit in a size of two bytes. -/
structure Frame where
  rawType : UInt8
  body : List UInt8
  size_lt : body.length + 1 < 2 ^ 16

namespace Frame

/-- The declared size, which counts the type byte. -/
def size (f : Frame) : ℕ := f.body.length + 1

/-- A frame on the wire. -/
def bytes (f : Frame) : List UInt8 := toBigEndian 2 f.size ++ f.rawType :: f.body

theorem length_bytes (f : Frame) : f.bytes.length = 2 + f.size := by
  rw [bytes, List.length_append, length_toBigEndian, List.length_cons, size]

/-- The type byte is that of a message type. -/
def Known (f : Frame) : Prop := ∃ ty : MessageType, ty.raw = f.rawType

section Handled
variable {σ : Type} (h : SpecificHandler σ) (junk : (ty : MessageType) → ty.Msg)

/-- The body of a frame that is going to be parsed is as long as the layout. -/
def Filled (f : Frame) : Prop :=
  ∀ ty : MessageType, ty.raw = f.rawType → (h.handle ty).isSome → layoutSize ty.layout ≤ f.body.length

/-- `handle(parse_itch(body))`, if there is an overload for the type. -/
def handleCalls (f : Frame) : List Call :=
  match MessageType.ofRaw f.rawType with
  | none => []
  | some ty =>
    if (h.handle ty).isSome then
      (parseItch ty.layout (junk ty) (Mem.ofList f.body) 0).toList.map (Call.handle ty)
    else []

/-- What the parser calls for a frame. -/
def calls (f : Frame) : List Call := .handleBefore :: f.handleCalls h junk ++ [.handleAfter]

variable {h junk} in
theorem isSome_of_mem_calls {f : Frame} {ty : MessageType} {m : ty.Msg}
    (hm : Call.handle ty m ∈ f.calls h junk) : (h.handle ty).isSome := by
  simp only [calls, handleCalls, List.cons_append, List.mem_cons, reduceCtorEq, List.mem_append,
    List.not_mem_nil, or_false, false_or] at hm
  split at hm
  · cases hm
  · split at hm
    · rename_i hsome
      obtain ⟨m', -, heq⟩ := List.mem_map.mp hm
      cases heq
      exact hsome
    · cases hm

end Handled

end Frame

/-- A rest that holds no complete frame. -/
def Incomplete (rest : List UInt8) : Prop :=
  rest.length < 3 ∨ ∃ a b body, rest = a :: b :: body ∧ body.length < bigEndian [a, b]

/-! ## One frame -/

section Frame
variable {mem : Mem} {src e : ℕ} {f : Frame}

theorem toBigEndian_two (n : ℕ) : toBigEndian 2 n = [UInt8.ofNat (n / 256), UInt8.ofNat n] := rfl

theorem header_frame (hmem : mem.Holds src f.bytes) (he : src + f.bytes.length ≤ e) :
    header mem e src = .frame (UInt16.ofNat f.size) f.rawType := by
  obtain ⟨size, hload, hsize⟩ := loadBe16_spec (hmem.left)
  have htype : mem (src + 2) = some f.rawType := hmem 2 _ rfl
  have hlt : f.size < 2 ^ 16 := f.size_lt
  have hvalue : size.toNat = f.size := by
    rw [hsize, ← toBigEndian_two, bigEndian_toBigEndian hlt]
  have hnat : size = UInt16.ofNat f.size := by
    rw [← hvalue, UInt16.ofNat_toNat]
  rw [f.length_bytes] at he
  have hpos : 1 ≤ f.size := Nat.le_add_left 1 _
  rw [header, if_pos (by omega), hload]
  dsimp only
  rw [if_neg (by omega), htype, hnat]

theorem header_incomplete {rest : List UInt8} (hrest : Incomplete rest)
    (hmem : mem.Holds src rest) : header mem (src + rest.length) src = .done := by
  cases hrest with
  | inl hshort => exact header_end (by omega)
  | inr hlong =>
    obtain ⟨a, b, body, rfl, hlen⟩ := hlong
    obtain ⟨size, hload, hsize⟩ := loadBe16_spec (Mem.Holds.left (A := [a, b]) hmem)
    unfold header
    split
    · rw [hload]
      dsimp only
      rw [if_pos]
      rw [hsize]
      simp only [List.length_cons]
      omega
    · rfl

end Frame

section Step
variable {σ : Type} {h : SpecificHandler σ} {junk : (ty : MessageType) → ty.Msg} {mem : Mem}
  {src : ℕ} {f : Frame}

theorem call_known (hknown : f.Known) (hfilled : f.Filled h) (hbody : mem.Holds src f.body) (s : σ) :
    dispatch h junk mem f.rawType src s = .returned (h.replay s (f.handleCalls h junk)) := by
  obtain ⟨ty, hraw⟩ := hknown
  have hty : MessageType.ofRaw f.rawType = some ty := MessageType.ofRaw_eq_some.mpr hraw
  rw [dispatch_eq, if_pos (hraw ▸ ty.raw_lt), selected, Frame.handleCalls, hty]
  dsimp only
  cases hhandle : h.handle ty with
  | none => rfl
  | some handle =>
    have hlen := hfilled ty hraw (by rw [hhandle]; rfl)
    have hsame : parseItch ty.layout (junk ty) mem src =
        parseItch ty.layout (junk ty) (Mem.ofList f.body) 0 := by
      apply parseItch_congr
      intro a ha
      rw [hbody.read (by omega), (Mem.holds_ofList f.body).read (by omega)]
    obtain ⟨m, hm, -⟩ :=
      parseItch_spec ty.lawful (loads_of_body (Mem.holds_ofList f.body) hlen) (junk ty)
    rw [ParseFn.call, hsame, hm]
    simp [SpecificHandler.replay, SpecificHandler.exec, hhandle]

/-- **One frame at the head of the buffer.** -/
theorem loop_frame (hknown : f.Known) (hfilled : f.Filled h) (hmem : mem.Holds src f.bytes) {e : ℕ}
    (he : src + f.bytes.length ≤ e) (s : σ) :
    loop h junk mem e src s =
      loop h junk mem e (src + f.bytes.length) (h.replay s (f.calls h junk)) := by
  have hbody : mem.Holds (src + 3) f.body := hmem.right.tail
  have hsize : (UInt16.ofNat f.size).toNat = f.size := UInt16.toNat_ofNat_of_lt' f.size_lt
  have hnext : src + 3 + f.size - 1 = src + f.bytes.length := by
    rw [f.length_bytes]
    omega
  rw [loop_eq, header_frame hmem he]
  dsimp only
  rw [call_known hknown hfilled hbody]
  dsimp only
  rw [hsize, hnext, Frame.calls, SpecificHandler.replay_append]
  rfl

theorem loop_frames {frames : List Frame} (hknown : ∀ f ∈ frames, f.Known)
    (hfilled : ∀ f ∈ frames, f.Filled h) (hmem : mem.Holds src (frames.flatMap Frame.bytes)) {e : ℕ}
    (he : src + (frames.flatMap Frame.bytes).length ≤ e) (s : σ) :
    loop h junk mem e src s = loop h junk mem e (src + (frames.flatMap Frame.bytes).length)
      (h.replay s (frames.flatMap (Frame.calls h junk))) := by
  induction frames generalizing src s with
  | nil => rfl
  | cons f frames ih =>
    rw [List.flatMap_cons] at hmem he
    rw [List.length_append] at he
    rw [loop_frame (hknown f List.mem_cons_self) (hfilled f List.mem_cons_self) hmem.left (by omega),
      ih (fun g hg => hknown g (List.mem_cons_of_mem f hg))
        (fun g hg => hfilled g (List.mem_cons_of_mem f hg)) hmem.right (by omega)]
    rw [List.flatMap_cons, List.flatMap_cons, List.length_append, SpecificHandler.replay_append,
      Nat.add_assoc]

end Step

/-! ## Whole buffers -/

/-- The next call, if this one returns. -/
def Outcome.andThen {σ : Type} (o : Outcome σ) (k : σ → Outcome σ) : Outcome σ :=
  match o with
  | .returned s => k s
  | stop => stop

section Buffers
variable {σ : Type} {h : SpecificHandler σ} {junk : (ty : MessageType) → ty.Msg} {mem : Mem}
  {src : ℕ} {frames : List Frame}

theorem parse_frames (hknown : ∀ f ∈ frames, f.Known) (hfilled : ∀ f ∈ frames, f.Filled h)
    {rest : List UInt8} (hrest : Incomplete rest)
    (hmem : mem.Holds src (frames.flatMap Frame.bytes ++ rest)) (s : σ) :
    parse h junk mem src (frames.flatMap Frame.bytes ++ rest).length s =
      .returned (h.replay s (frames.flatMap (Frame.calls h junk))) := by
  have hend : src + (frames.flatMap Frame.bytes ++ rest).length =
      src + (frames.flatMap Frame.bytes).length + rest.length := by
    rw [List.length_append, Nat.add_assoc]
  rw [parse, hend, loop_frames hknown hfilled hmem.left (Nat.le_add_right _ _), loop_eq,
    header_incomplete hrest hmem.right]

theorem parse_only_frames (hknown : ∀ f ∈ frames, f.Known) (hfilled : ∀ f ∈ frames, f.Filled h)
    (hmem : mem.Holds src (frames.flatMap Frame.bytes)) (s : σ) :
    parse h junk mem src (frames.flatMap Frame.bytes).length s =
      .returned (h.replay s (frames.flatMap (Frame.calls h junk))) := by
  have hmem' : mem.Holds src (frames.flatMap Frame.bytes ++ []) := by rwa [List.append_nil]
  have hall := @parse_frames σ h junk mem src frames hknown hfilled [] (Or.inl (by decide)) hmem' s
  rwa [List.append_nil] at hall

/-- What the recording handler is given is the list of calls itself. -/
theorem replay_recorder {handles : MessageType → Bool} (frames : List Frame) (s : List Call) :
    (SpecificHandler.recorder handles).replay s
      (frames.flatMap (Frame.calls (SpecificHandler.recorder handles) junk)) =
      s ++ frames.flatMap (Frame.calls (SpecificHandler.recorder handles) junk) := by
  apply SpecificHandler.recorder_replay
  intro ty m hm
  obtain ⟨f, -, hf⟩ := List.mem_flatMap.mp hm
  have hsome := Frame.isSome_of_mem_calls hf
  simpa [SpecificHandler.recorder] using hsome

end Buffers

/-- **Framing delivers exactly the framed messages, in order**, and a buffer may be cut between two
frames. -/
theorem framing_delivers {σ : Type} (h : SpecificHandler σ) (junk : (ty : MessageType) → ty.Msg)
    {frames : List Frame} (hframes : ∀ f ∈ frames, f.Known ∧ f.Filled h) :
    (∀ (rest : List UInt8) (mem : Mem) (src : ℕ) (s : σ), Incomplete rest →
      mem.Holds src (frames.flatMap Frame.bytes ++ rest) →
      parse h junk mem src (frames.flatMap Frame.bytes ++ rest).length s =
        .returned (h.replay s (frames.flatMap (Frame.calls h junk)))) ∧
    ∀ (frames' : List Frame) (mem mem₁ mem₂ : Mem) (src src₁ src₂ : ℕ) (s : σ),
      (∀ f ∈ frames', f.Known ∧ f.Filled h) →
      mem.Holds src (frames.flatMap Frame.bytes ++ frames'.flatMap Frame.bytes) →
      mem₁.Holds src₁ (frames.flatMap Frame.bytes) → mem₂.Holds src₂ (frames'.flatMap Frame.bytes) →
      parse h junk mem src (frames.flatMap Frame.bytes ++ frames'.flatMap Frame.bytes).length s =
        (parse h junk mem₁ src₁ (frames.flatMap Frame.bytes).length s).andThen fun s =>
          parse h junk mem₂ src₂ (frames'.flatMap Frame.bytes).length s := by
  have hknown : ∀ f ∈ frames, f.Known := fun f hf => (hframes f hf).1
  have hfilled : ∀ f ∈ frames, f.Filled h := fun f hf => (hframes f hf).2
  refine ⟨fun rest mem src s hrest hmem => parse_frames hknown hfilled hrest hmem s, ?_⟩
  intro frames' mem mem₁ mem₂ src src₁ src₂ s hframes' hmem hmem₁ hmem₂
  have hknown' : ∀ f ∈ frames', f.Known := fun f hf => (hframes' f hf).1
  have hfilled' : ∀ f ∈ frames', f.Filled h := fun f hf => (hframes' f hf).2
  rw [parse_only_frames hknown hfilled hmem₁, Outcome.andThen,
    parse_only_frames hknown' hfilled' hmem₂, ← SpecificHandler.replay_append, ← List.flatMap_append]
  rw [← List.flatMap_append] at hmem ⊢
  have hknown'' : ∀ f ∈ frames ++ frames', f.Known := by
    intro f hf
    exact (List.mem_append.mp hf).elim (hknown f) (hknown' f)
  have hfilled'' : ∀ f ∈ frames ++ frames', f.Filled h := by
    intro f hf
    exact (List.mem_append.mp hf).elim (hfilled f) (hfilled' f)
  exact parse_only_frames hknown'' hfilled'' hmem s

/-- A handled message with a byte to spare, an ignored one without a body, and half a frame. -/
theorem framing_delivers_sample :
    parse (SpecificHandler.recorder (· = .systemEvent)) (fun _ => default)
      (Mem.ofList [0, 13, 83, 0, 1, 0, 2, 0, 0, 0, 0, 0, 0, 79, 9, 0, 1, 68, 0, 9, 65]) 0 21 [] =
    .returned [.handleBefore, .handle .systemEvent ⟨1, 2, 0, 79⟩, .handleAfter,
      .handleBefore, .handleAfter] := by
  have hframes : ∀ f ∈ [(⟨83, [0, 1, 0, 2, 0, 0, 0, 0, 0, 0, 79, 9], by decide⟩ : Frame),
      ⟨68, [], by decide⟩], f.Known ∧ f.Filled (SpecificHandler.recorder (· = .systemEvent)) := by
    intro f hf
    rw [List.mem_cons, List.mem_singleton] at hf
    cases hf with
    | inl hf =>
      subst hf
      refine ⟨⟨.systemEvent, rfl⟩, fun ty hraw _ => ?_⟩
      obtain rfl : ty = .systemEvent := MessageType.raw_injective hraw
      decide
    | inr hf =>
      subst hf
      refine ⟨⟨.orderDelete, rfl⟩, fun ty hraw hhandle => ?_⟩
      obtain rfl : ty = .orderDelete := MessageType.raw_injective hraw
      cases hhandle
  exact (framing_delivers (SpecificHandler.recorder (· = .systemEvent)) (fun _ => default) hframes).1
    [0, 9, 65] (Mem.ofList [0, 13, 83, 0, 1, 0, 2, 0, 0, 0, 0, 0, 0, 79, 9, 0, 1, 68, 0, 9, 65]) 0 []
    (Or.inr ⟨0, 9, [65], rfl, by decide⟩) (Mem.holds_ofList _)

end ItchIngestion.ITCH
