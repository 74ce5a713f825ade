import DeflateHeader.Proofs.CoherentCodecs
import DeflateHeader.Proofs.StreamPairs

/-!
# A codec that is used again

A codec keeps its storage from one use to the next, and with it lengths, tables and a code book that are
never cleared. All the same it behaves like a new one (`Codec.sameRun_new`). There are two parts to this.
A run does not depend on what was there before, so it returns, writes and reads the same and ends with
the same lengths; this is what the lemmas on two runs say. And the tables that it ends with may differ
in what they hold beyond these lengths, but they answer alike, since a coherent codec answers by its
lengths and nothing else (`Coherent.sameAnswers`).

Building the fixed tables is the one operation that looks at what is loaded. If it is the fixed code, the
codec holds it already.
-/

namespace DeflateHeader

universe u

/-- Two runs that cannot be told apart: they have the same outcome, both end in states that show the
same, and a success leaves related states. -/
structure SameRun {ε σ α τ : Type u} (shown : σ → τ) (R : σ → σ → Prop)
    (x y : EStateM.Result ε σ α) : Prop where
  outcome_eq : outcome y = outcome x
  shown_eq : shown (finalState y) = shown (finalState x)
  related : ∀ a, outcome x = .ok a → R (finalState x) (finalState y)

theorem EndAlike.sameRun {ε σ α τ : Type u} {excused : ε → Prop} {Q : α → σ → σ → Prop}
    {E R : σ → σ → Prop} {shown : σ → τ} {x y : EStateM.Result ε σ α}
    (h : EndAlike excused Q E x y) (hnone : ∀ e, ¬ excused e)
    (hQ : ∀ a s t, Q a s t → shown t = shown s ∧ R s t) (hE : ∀ s t, E s t → shown t = shown s) :
    SameRun shown R x y := by
  cases h with
  | ok h => exact ⟨rfl, (hQ _ _ _ h).1, fun _ _ => (hQ _ _ _ h).2⟩
  | error h => exact ⟨rfl, hE _ _ h, fun _ hok => by cases hok⟩
  | excuse h => exact absurd h (hnone _)

namespace Codec

variable {c d : Codec}

/-- Two codecs with the same tables loaded, the same lengths, and the same answers to everything that
can be asked of loaded tables. -/
structure SameAnswers (c d : Codec) : Prop where
  loaded_eq : d.loaded = c.loaded
  litLen_eq : d.litLen.lens = c.litLen.lens
  distance_eq : d.distance.lens = c.distance.lens
  litLenSymbol_eq : d.litLenSymbol = c.litLenSymbol
  distanceSymbol_eq : d.distanceSymbol = c.distanceSymbol
  litLenCode_eq : d.litLenCode = c.litLenCode
  distanceCode_eq : d.distanceCode = c.distanceCode
  maxBits_eq : ∀ set, c.loaded = some set → set.serves .decode = true →
    d.litLen.lookup.maxBits = c.litLen.lookup.maxBits ∧
      d.distance.lookup.maxBits = c.distance.lookup.maxBits

/-- Two codecs that also have the same code-length alphabet, so that all lengths of a dynamic header are
the same. -/
structure SameHeader (c d : Codec) : Prop extends SameAnswers c d where
  codeLength_eq : d.codeLength.lens = c.codeLength.lens

/-! ## Answers -/

section Guarded

variable {α β : Type} {direction : Direction} {f g : β → Except Error α}

/-- Accessors that agree where tables are loaded agree everywhere. -/
theorem guarded_congr (hloaded : d.loaded = c.loaded)
    (h : ∀ set, c.loaded = some set → set.serves direction = true → g = f) :
    (fun b => d.guarded direction (g b)) = fun b => c.guarded direction (f b) := by
  funext b
  unfold guarded
  rw [hloaded]
  cases hload : c.loaded with
  | none => rfl
  | some set =>
    by_cases hserves : set.serves direction = true
    · rw [h set hload hserves]
    · dsimp only
      rw [if_neg hserves, if_neg hserves]

end Guarded

/-- What is loaded, and for which lengths, determines every answer. -/
theorem Coherent.sameAnswers (hc : c.Coherent) (hd : d.Coherent) (hloaded : d.loaded = c.loaded)
    (hlit : d.litLen.lens = c.litLen.lens) (hdist : d.distance.lens = c.distance.lens) :
    c.SameAnswers d where
  loaded_eq := hloaded
  litLen_eq := hlit
  distance_eq := hdist
  litLenSymbol_eq := guarded_congr hloaded fun set hset hserves =>
    Alphabet.symbolAt_congr (hc.decodes set hset hserves).1
      (hd.decodes set (hloaded.trans hset) hserves).1 hlit
  distanceSymbol_eq := guarded_congr hloaded fun set hset hserves =>
    Alphabet.symbolAt_congr (hc.decodes set hset hserves).2
      (hd.decodes set (hloaded.trans hset) hserves).2 hdist
  litLenCode_eq := guarded_congr hloaded fun set hset hserves =>
    Alphabet.codeOf_congr (hc.encodes set hset hserves).1
      (hd.encodes set (hloaded.trans hset) hserves).1 hlit
      ((hd.ready set (hloaded.trans hset)).litLen.size.trans (hc.ready set hset).litLen.size.symm)
  distanceCode_eq := guarded_congr hloaded fun set hset hserves =>
    Alphabet.codeOf_congr (hc.encodes set hset hserves).2
      (hd.encodes set (hloaded.trans hset) hserves).2 hdist
      ((hd.ready set (hloaded.trans hset)).distance.size.trans
        (hc.ready set hset).distance.size.symm)
  maxBits_eq := by
    intro set hset hserves
    obtain ⟨hl, hr⟩ := hc.decodes set hset hserves
    obtain ⟨hl', hr'⟩ := hd.decodes set (hloaded.trans hset) hserves
    rw [hl.maxBits_eq, hr.maxBits_eq, hl'.maxBits_eq, hr'.maxBits_eq, hlit, hdist]
    exact ⟨rfl, rfl⟩

theorem LoadedAlike.sameHeader {set : TableSet} (h : LoadedAlike set c d) (hc : c.Coherent)
    (hd : d.Coherent) : c.SameHeader d := by
  obtain ⟨hcode, hlit, hdist⟩ := allLens_inj h.allLens_eq
  have hloaded : d.loaded = c.loaded := h.right.loaded_eq.trans h.left.loaded_eq.symm
  exact ⟨hc.sameAnswers hd hloaded hlit hdist, hcode⟩

/-! ## Operations -/

/-- Two runs of an operation on codecs alone, which end coherent. -/
theorem sameRun_of_endAlike {α : Type} {set : TableSet} {excused : Error → Prop}
    {x y : EStateM.Result Error Codec α}
    (h : EndAlike excused (fun _ => LoadedAlike set) (fun _ _ => True) x y)
    (hnone : ∀ e, ¬ excused e) (hx : (finalState x).Coherent) (hy : (finalState y).Coherent) :
    SameRun (fun _ => ()) SameHeader x y := by
  refine (h.keeping hx hy).sameRun hnone ?_ ?_
  · exact fun _ _ _ ⟨hloaded, hc, hd⟩ => ⟨rfl, hloaded.sameHeader hc hd⟩
  · exact fun _ _ _ => rfl

section Reused

variable (hc : c.Reachable) (hd : d.Reachable)

include hc hd

theorem decodeHeader_sameRun (r : BitReader) (k : ByteSink) :
    SameRun (fun s => (s.reader, s.sink)) (fun s t => s.codec.SameHeader t.codec)
      (Decoding.decodeHeader ⟨c, r, k⟩) (Decoding.decodeHeader ⟨d, r, k⟩) := by
  have hpair := Decoding.decodeHeader_lockstep ⟨c, r, k⟩ ⟨d, r, k⟩
    ⟨⟨hc.sized, hd.sized⟩, (BitReader.extend_nil r).symm, rfl⟩
  have hkeeping := hpair.keeping (R := fun s => s.codec.Coherent) (hc.decodeHeader r k).coherent
    (hd.decodeHeader r k).coherent
  refine hkeeping.sameRun not_cutShort_nil ?_ ?_
  · rintro n s t ⟨⟨hloaded, hreader, hsink⟩, hs, ht⟩
    rw [BitReader.extend_nil] at hreader
    exact ⟨Prod.ext hreader hsink, hloaded.sameHeader hs ht⟩
  · rintro s t ⟨⟨-, hreader, hsink⟩, -, -⟩
    rw [BitReader.extend_nil] at hreader
    exact Prod.ext hreader hsink

theorem encodeHeader_sameRun (puff : List UInt8) (w : BitWriter) :
    SameRun Encoding.writer (fun s t => s.codec.SameHeader t.codec)
      (Encoding.encodeHeader puff ⟨c, w⟩) (Encoding.encodeHeader puff ⟨d, w⟩) := by
  have hpair : EndAlike (fun _ => False) _ _ (Encoding.encodeHeader puff ⟨c, w⟩) _ :=
    Encoding.encodeHeader_lockstep puff ⟨c, w⟩ ⟨d, w⟩ ⟨⟨hc.sized, hd.sized⟩, rfl⟩
  have hkeeping := hpair.keeping (R := fun s => s.codec.Coherent) (hc.encodeHeader puff w).coherent
    (hd.encodeHeader puff w).coherent
  refine hkeeping.sameRun (fun _ => id) ?_ ?_
  · exact fun _ _ _ ⟨h, hs, ht⟩ => ⟨h.writer_eq, h.codec.sameHeader hs ht⟩
  · exact fun _ _ ⟨h, _, _⟩ => h.writer_eq

theorem buildFixed_sameRun : SameRun (fun _ => ()) SameAnswers (buildFixed c) (buildFixed d) := by
  obtain ⟨c', hrun, hcoherent, hload⟩ := buildFixed_run hc.sound
  obtain ⟨d', hrun', hcoherent', hload'⟩ := buildFixed_run hd.sound
  obtain ⟨hlit, hdist⟩ := hcoherent.fixed hload
  obtain ⟨hlit', hdist'⟩ := hcoherent'.fixed hload'
  rw [hrun, hrun']
  refine ⟨rfl, rfl, fun _ _ => ?_⟩
  exact hcoherent.sameAnswers hcoherent' (hload'.trans hload.symm) (hlit'.trans hlit.symm)
    (hdist'.trans hdist.symm)

theorem puff_sameRun (data : List UInt8) (container : Container) :
    SameRun (fun _ => ()) SameHeader (puff data container c) (puff data container d) := by
  have hpair : EndAlike (CutShort []) _ _ _ (puff (data ++ []) container d) :=
    puff_alike hc.sized hd.sized data container
  rw [List.append_nil] at hpair
  exact sameRun_of_endAlike hpair not_cutShort_nil (hc.puff data container).coherent
    (hd.puff data container).coherent

theorem huff_sameRun (puff : List UInt8) (isFinal : Bool) :
    SameRun (fun _ => ()) SameHeader (huff puff isFinal c) (huff puff isFinal d) := by
  have hpair : EndAlike (fun _ => False) _ _ (huff puff isFinal c) _ :=
    huff_lockstep puff isFinal c d ⟨hc.sized, hd.sized⟩
  exact sameRun_of_endAlike hpair (fun _ => id) (hc.huff puff isFinal).coherent
    (hd.huff puff isFinal).coherent

theorem verify_sameRun (data : List UInt8) (container : Container) :
    SameRun (fun _ => ()) SameHeader (verify data container c) (verify data container d) := by
  have hpair : EndAlike (CutShort []) _ _ _ (verify (data ++ []) container d) :=
    verify_alike hc.sized hd.sized data container
  rw [List.append_nil] at hpair
  exact sameRun_of_endAlike hpair not_cutShort_nil (hc.verify data container).coherent
    (hd.verify data container).coherent

end Reused

/-- Whatever was done with a codec before, no operation shows it: each returns the same as on a new
codec, writes the same, and leaves its reader or writer at the same place. After a success the codec
has the same tables loaded as a new one would have, for the same lengths, and gives the same answers. -/
theorem sameRun_new (h : c.Reachable) :
    (∀ r k, SameRun (fun s => (s.reader, s.sink)) (fun s t => s.codec.SameHeader t.codec)
      (Decoding.decodeHeader ⟨c, r, k⟩) (Decoding.decodeHeader ⟨new, r, k⟩)) ∧
    (∀ puff w, SameRun Encoding.writer (fun s t => s.codec.SameHeader t.codec)
      (Encoding.encodeHeader puff ⟨c, w⟩) (Encoding.encodeHeader puff ⟨new, w⟩)) ∧
    SameRun (fun _ => ()) SameAnswers (buildFixed c) (buildFixed new) ∧
    (∀ data container, SameRun (fun _ => ()) SameHeader (puff data container c)
      (puff data container new)) ∧
    (∀ puff isFinal, SameRun (fun _ => ()) SameHeader (huff puff isFinal c) (huff puff isFinal new)) ∧
    ∀ data container, SameRun (fun _ => ()) SameHeader (verify data container c)
      (verify data container new) :=
  ⟨decodeHeader_sameRun h .new, encodeHeader_sameRun h .new, buildFixed_sameRun h .new,
    puff_sameRun h .new, huff_sameRun h .new, verify_sameRun h .new⟩

/-- A codec that has the fixed tables loaded takes the header from the plain stream like a new one. -/
theorem sameRun_new_plainStream :
    outcome (puff plainStream .raw (finalState (buildFixed new))) =
      .ok (Header.plain.puffed true 0) ∧
    SameHeader (finalState (puff plainStream .raw (finalState (buildFixed new))))
      (finalState (puff plainStream .raw new)) := by
  have hrun := (sameRun_new Reachable.new.buildFixed).2.2.2.1 plainStream .raw
  obtain ⟨c', hnew⟩ := puff_plainStream sized_new
  have hok : outcome (puff plainStream .raw (finalState (buildFixed new))) =
      .ok (Header.plain.puffed true 0) := by
    rw [← hrun.outcome_eq, hnew]
    rfl
  exact ⟨hok, hrun.related _ hok⟩

end Codec
end DeflateHeader
