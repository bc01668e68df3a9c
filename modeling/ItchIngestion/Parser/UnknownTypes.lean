import ItchIngestion.Parser.Framing

/-! # Unknown types

`Rejected` is what a reader of the parser expects of complete frames with any type bytes: the frames
before the first unknown type are delivered, that frame is announced by `handle_before`, and then
the parser throws. It does so only if the type byte is below 128, since the others index the table
out of its bounds, and if `bad_type` can read the byte behind the type byte, which it quotes in the
message (`rejected_iff`).
-/
namespace ItchIngestion.ITCH
open Library
set_option autoImplicit false

section Rejected
variable {σ : Type} (h : SpecificHandler σ) (junk : (ty : MessageType) → ty.Msg)

/-- The parser throws at the first unknown type, if there is one, and not before. -/
def Rejected (frames : List Frame) (s : σ) (o : Outcome σ) : Prop :=
  ((∀ f ∈ frames, f.Known) ∧ o = .returned (h.replay s (frames.flatMap (Frame.calls h junk)))) ∨
    ∃ pre f post c, frames = pre ++ f :: post ∧ (∀ g ∈ pre, g.Known) ∧ ¬ f.Known ∧
      o = .threw (unknownMessageType c)
        (h.handleBefore (h.replay s (pre.flatMap (Frame.calls h junk))))

end Rejected

theorem exists_first_unknown (frames : List Frame) : (∀ f ∈ frames, f.Known) ∨
    ∃ pre f post, frames = pre ++ f :: post ∧ (∀ g ∈ pre, g.Known) ∧ ¬ f.Known := by
  induction frames with
  | nil => exact Or.inl (by simp)
  | cons f frames ih =>
    by_cases hf : f.Known
    · cases ih with
      | inl hall => exact Or.inl (List.forall_mem_cons.mpr ⟨hf, hall⟩)
      | inr hfirst =>
        obtain ⟨pre, g, post, rfl, hpre, hg⟩ := hfirst
        exact Or.inr ⟨f :: pre, g, post, rfl, List.forall_mem_cons.mpr ⟨hf, hpre⟩, hg⟩
    · exact Or.inr ⟨[], f, frames, rfl, by simp, hf⟩

section Parse
variable {σ : Type} {h : SpecificHandler σ} {junk : (ty : MessageType) → ty.Msg} {mem : Mem}
  {src : ℕ}

theorem dispatch_unknown {f : Frame} (hf : ¬ f.Known) (p : ℕ) (s : σ) :
    (f.rawType < 128 ∧ ∃ c, mem p = some c ∧
      dispatch h junk mem f.rawType p s = .threw (unknownMessageType c) s) ∨
    (¬ (f.rawType < 128 ∧ (mem p).isSome) ∧
      dispatch h junk mem f.rawType p s = .undefinedBehaviour s) := by
  have hnone : MessageType.ofRaw f.rawType = none := by
    cases hty : MessageType.ofRaw f.rawType with
    | none => rfl
    | some ty => exact absurd ⟨ty, MessageType.ofRaw_eq_some.mp hty⟩ hf
  rw [dispatch_eq, selected, hnone]
  dsimp only [ParseFn.call]
  by_cases hc : f.rawType < 128
  · rw [if_pos hc]
    cases hbyte : mem p with
    | none => exact Or.inr ⟨by simp, rfl⟩
    | some c => exact Or.inl ⟨hc, c, rfl, rfl⟩
  · rw [if_neg hc]
    exact Or.inr ⟨fun hboth => hc hboth.1, rfl⟩

theorem parse_unknown {pre post : List Frame} {f : Frame} (hpre : ∀ g ∈ pre, g.Known)
    (hfilled : ∀ g ∈ pre, g.Filled h) (hf : ¬ f.Known)
    (hmem : mem.Holds src ((pre ++ f :: post).flatMap Frame.bytes)) (s : σ) :
    parse h junk mem src ((pre ++ f :: post).flatMap Frame.bytes).length s =
      dispatch h junk mem f.rawType (src + (pre.flatMap Frame.bytes).length + 3)
        (h.handleBefore (h.replay s (pre.flatMap (Frame.calls h junk)))) := by
  rw [List.flatMap_append, List.flatMap_cons] at hmem ⊢
  have hlen : (pre.flatMap Frame.bytes ++ (f.bytes ++ post.flatMap Frame.bytes)).length =
      (pre.flatMap Frame.bytes).length + f.bytes.length + (post.flatMap Frame.bytes).length := by
    rw [List.length_append, List.length_append, Nat.add_assoc]
  rw [parse, hlen, loop_frames hpre hfilled hmem.left (by omega), loop_eq,
    header_frame hmem.right.left (by omega)]
  dsimp only
  cases @dispatch_unknown σ h junk mem f hf (src + (pre.flatMap Frame.bytes).length + 3)
    (h.handleBefore (h.replay s (pre.flatMap (Frame.calls h junk)))) with
  | inl hthrew =>
    obtain ⟨-, c, -, hcall⟩ := hthrew
    rw [hcall]
  | inr hundefined => rw [hundefined.2]

/-- **When unknown types are rejected**: if the first of them is in the table and the byte behind it
can be read. -/
theorem rejected_iff {frames : List Frame} (hfilled : ∀ f ∈ frames, f.Filled h)
    (hmem : mem.Holds src (frames.flatMap Frame.bytes)) (s : σ) :
    Rejected h junk frames s (parse h junk mem src (frames.flatMap Frame.bytes).length s) ↔
      ∀ pre f post, frames = pre ++ f :: post → (∀ g ∈ pre, g.Known) → ¬ f.Known →
        f.rawType < 128 ∧ (mem (src + (pre.flatMap Frame.bytes).length + 3)).isSome := by
  constructor
  · rintro hrejected pre f post rfl hpre hf
    rw [parse_unknown hpre (fun g hg => hfilled g (List.mem_append_left _ hg)) hf hmem] at hrejected
    cases @dispatch_unknown σ h junk mem f hf (src + (pre.flatMap Frame.bytes).length + 3)
      (h.handleBefore (h.replay s (pre.flatMap (Frame.calls h junk)))) with
    | inl hthrew =>
      obtain ⟨hc, c, hbyte, -⟩ := hthrew
      exact ⟨hc, by rw [hbyte]; rfl⟩
    | inr hundefined =>
      rw [hundefined.2] at hrejected
      cases hrejected with
      | inl hall => cases hall.2
      | inr hfirst =>
        obtain ⟨_, _, _, _, -, -, -, ho⟩ := hfirst
        cases ho
  · intro hcond
    cases exists_first_unknown frames with
    | inl hall => exact Or.inl ⟨hall, parse_only_frames hall hfilled hmem s⟩
    | inr hfirst =>
      obtain ⟨pre, f, post, rfl, hpre, hf⟩ := hfirst
      rw [parse_unknown hpre (fun g hg => hfilled g (List.mem_append_left _ hg)) hf hmem]
      cases @dispatch_unknown σ h junk mem f hf (src + (pre.flatMap Frame.bytes).length + 3)
        (h.handleBefore (h.replay s (pre.flatMap (Frame.calls h junk)))) with
      | inl hthrew =>
        obtain ⟨-, c, -, hcall⟩ := hthrew
        exact Or.inr ⟨pre, f, post, c, rfl, hpre, hf, hcall⟩
      | inr hundefined => exact absurd (hcond pre f post rfl hpre hf) hundefined.1

end Parse

/-- A start of market hours, a frame of the unknown type 90, and an order deletion. -/
def mixedFrames : List Frame :=
  [⟨83, [0, 1, 0, 2, 0, 0, 0, 0, 0, 0, 81], by decide⟩, ⟨90, [1], by decide⟩, ⟨68, [], by decide⟩]

/-- The parser throws at the second frame, and the third one is not announced. -/
theorem rejected_sample :
    Rejected (SpecificHandler.recorder (· = .systemEvent)) (fun _ => default) mixedFrames []
      (parse (SpecificHandler.recorder (· = .systemEvent)) (fun _ => default)
        (Mem.ofList (mixedFrames.flatMap Frame.bytes)) 0 (mixedFrames.flatMap Frame.bytes).length []) := by
  refine (@rejected_iff _ (SpecificHandler.recorder (· = .systemEvent)) (fun _ => default)
    (Mem.ofList (mixedFrames.flatMap Frame.bytes)) 0 mixedFrames ?_ (Mem.holds_ofList _) []).mpr ?_
  · intro f hf ty hraw hhandle
    simp only [mixedFrames, List.mem_cons, List.not_mem_nil, or_false] at hf
    rcases hf with rfl | rfl | rfl
    · obtain rfl : ty = .systemEvent := MessageType.raw_injective hraw
      decide
    · revert hraw
      cases ty <;> decide
    · obtain rfl : ty = .orderDelete := MessageType.raw_injective hraw
      cases hhandle
  · intro pre f post hsplit hpre hf
    match pre, hpre, hsplit with
    | [], _, hsplit =>
      cases hsplit
      exact absurd ⟨.systemEvent, rfl⟩ hf
    | [_], _, hsplit =>
      cases hsplit
      exact ⟨by decide, by decide⟩
    | _ :: g :: _, hpre, hsplit =>
      obtain rfl : (⟨90, [1], by decide⟩ : Frame) = g := (List.cons.inj (List.cons.inj hsplit).2).1
      obtain ⟨ty, hraw⟩ := hpre _ (List.mem_cons_of_mem _ List.mem_cons_self)
      exfalso
      revert hraw
      cases ty <;> decide

/-- A type byte of 200 is no index of the table. -/
theorem not_always_rejected :
    ¬ ∀ (h : SpecificHandler (List Call)) (junk : (ty : MessageType) → ty.Msg) (mem : Mem)
      (src : ℕ) (frames : List Frame) (s : List Call), (∀ f ∈ frames, f.Filled h) →
      mem.Holds src (frames.flatMap Frame.bytes) →
      Rejected h junk frames s (parse h junk mem src (frames.flatMap Frame.bytes).length s) := by
  intro hall
  have hfilled : ∀ f ∈ [(⟨200, [1], by decide⟩ : Frame)],
      f.Filled (SpecificHandler.recorder (· = .systemEvent)) := by
    intro f hf ty hraw _
    obtain rfl := List.mem_singleton.mp hf
    revert hraw
    cases ty <;> decide
  have hparse : parse (SpecificHandler.recorder (· = .systemEvent)) (fun _ => default)
      (Mem.ofList [0, 2, 200, 1]) 0 4 [] = .undefinedBehaviour [.handleBefore] := rfl
  have hrejected := hall (SpecificHandler.recorder (· = .systemEvent)) (fun _ => default)
    (Mem.ofList [0, 2, 200, 1]) 0 [⟨200, [1], by decide⟩] [] hfilled (Mem.holds_ofList _)
  cases hrejected with
  | inl hreturned => exact absurd (hparse.symm.trans hreturned.2) (by simp)
  | inr hfirst =>
    obtain ⟨_, _, _, _, -, -, -, hthrew⟩ := hfirst
    exact absurd (hparse.symm.trans hthrew) (by simp)

end ItchIngestion.ITCH
