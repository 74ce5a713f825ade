import DeflateHeader.Proofs.CodecPairs
import DeflateHeader.Proofs.MoreInput
import DeflateHeader.Transcode

/-!
# Two runs over one header

Two codecs, whatever they have been used for, do the same with a header: they decode or encode it with
the same result, stand at the same place afterwards, and if they succeed they have loaded tables for the
same lengths. When decoding, the second one may be given more input than the first
(`Decoding.decodeHeader_lockstep`, `Encoding.encodeHeader_lockstep`).

The proofs follow the programs. Each step of a codec is one of those that preserve `Codec.Agree`, each
step of a reader does the same on a reader with more input, and sinks and writers are equal all the
time. `Decoding.Paired` and `Encoding.Paired` put these relations together.
-/

namespace DeflateHeader

variable {more : List UInt8} {α : Type}

open Codec

/-! ## Decoding -/

namespace Decoding

/-- The second decoder has `more` input, the same sink, and a codec related to that of the first. -/
structure Paired (more : List UInt8) (R : Codec → Codec → Prop) (s t : Decoding) : Prop where
  codec : R s.codec t.codec
  reader_eq : t.reader = s.reader.extend more
  sink_eq : t.sink = s.sink

section Steps

variable {β : Type} {view : Codec → β}

theorem Paired.forget {s t : Decoding} (h : Paired more (Agree view) s t) :
    Paired more BothBegun s t :=
  ⟨h.codec.forget, h.reader_eq, h.sink_eq⟩

theorem onCodec_lockstep {act : EStateM Error Codec α} {R : Codec → Codec → Prop}
    {S : α → Codec → Codec → Prop} (h : Lockstep (CutShort more) R act S BothBegun) :
    Lockstep (CutShort more) (Paired more R) (onCodec act) (fun a => Paired more (S a))
      (Paired more BothBegun) := by
  refine lockstep_focus (fun _ _ hst => hst.codec) h ?_ ?_
  · exact fun _ _ _ _ _ hst hS => ⟨hS, hst.reader_eq, hst.sink_eq⟩
  · exact fun _ _ _ _ hst hE => ⟨hE, hst.reader_eq, hst.sink_eq⟩

/-- A step of the reader leaves the codecs as they are. -/
theorem onReader_lockstep_of {R E : Codec → Codec → Prop} {act : EStateM Error BitReader α}
    (hE : ∀ c d, R c d → E c d) (h : BitReader.Extends more act) :
    Lockstep (CutShort more) (Paired more R) (onReader act) (fun _ => Paired more R)
      (Paired more E) := by
  refine lockstep_focus (fun _ _ hst => hst.reader_eq) h ?_ ?_
  · exact fun _ _ _ _ _ hst hr => ⟨hst.codec, hr, hst.sink_eq⟩
  · exact fun _ _ _ _ hst hr => ⟨hE _ _ hst.codec, hr, hst.sink_eq⟩

theorem onReader_lockstep {act : EStateM Error BitReader α} (h : BitReader.Extends more act) :
    Lockstep (CutShort more) (Paired more (Agree view)) (onReader act)
      (fun _ => Paired more (Agree view)) (Paired more BothBegun) :=
  onReader_lockstep_of (fun _ _ => Agree.forget) h

theorem onSink_lockstep (act : EStateM Error ByteSink α) :
    Lockstep (CutShort more) (Paired more (Agree view)) (onSink act)
      (fun _ => Paired more (Agree view)) (Paired more BothBegun) := by
  refine lockstep_focus (fun _ _ hst => hst.sink_eq.symm) (lockstep_refl act) ?_ ?_
  · exact fun _ _ _ _ _ hst hk => ⟨hst.codec, hst.reader_eq, hk.symm⟩
  · exact fun _ _ _ _ hst hk => ⟨hst.codec.forget, hst.reader_eq, hk.symm⟩

theorem needRoom_lockstep (n : Nat) :
    Lockstep (CutShort more) (Paired more (Agree view)) (needRoom n)
      (fun _ => Paired more (Agree view)) (Paired more BothBegun) := by
  intro s t hst
  apply EndAlike.get_bind
  rw [hst.sink_eq]
  by_cases hlt : s.sink.room < n
  · rw [if_pos hlt]
    exact .error hst.forget
  · rw [if_neg hlt]
    exact .ok hst

theorem field_lockstep (width : Nat) :
    Lockstep (CutShort more) (Paired more (Agree view)) (field width)
      (fun _ => Paired more (Agree view)) (Paired more BothBegun) := by
  refine lockstep_bind (onReader_lockstep (BitReader.peek_extends width)) fun value => ?_
  refine lockstep_bind (onReader_lockstep (BitReader.drop_extends width)) fun _ => ?_
  exact lockstep_pure fun _ _ h => h

theorem readSizes_lockstep :
    Lockstep (CutShort more) (Paired more (Agree view)) readSizes
      (fun _ => Paired more (Agree view)) (Paired more BothBegun) := by
  refine lockstep_bind (onReader_lockstep (BitReader.ensure_extends 14)) fun _ => ?_
  refine lockstep_bind (field_lockstep 5) fun hlit => ?_
  refine lockstep_bind (field_lockstep 5) fun hdist => ?_
  refine lockstep_bind (field_lockstep 4) fun hclen => ?_
  refine lockstep_bind (onSink_lockstep _) fun _ => ?_
  refine lockstep_bind (onSink_lockstep _) fun _ => ?_
  refine lockstep_bind (onSink_lockstep _) fun _ => ?_
  cases AlphabetSizes.ofFields hlit hdist hclen with
  | ok sizes => exact lockstep_pure fun _ _ h => h
  | error e => exact lockstep_throw fun _ _ h => h.forget

/-- By induction on the symbols. -/
theorem readCodeLengths_lockstep (low : Bool) (symbols : List Nat) :
    Lockstep (CutShort more) (Paired more (Agree codeLens)) (readCodeLengths low symbols)
      (fun _ => Paired more (Agree codeLens)) (Paired more BothBegun) := by
  induction symbols generalizing low with
  | nil => exact lockstep_pure fun _ _ h => h
  | cons symbol symbols ih =>
    refine lockstep_bind (onReader_lockstep (BitReader.take_extends 3)) fun len => ?_
    refine lockstep_bind (onCodec_lockstep (setCodeLength_lockstep symbol _)) fun _ => ?_
    refine lockstep_ite ?_ ?_
    · exact lockstep_bind (onSink_lockstep _) fun _ => ih _
    · exact lockstep_bind (onSink_lockstep _) fun _ => ih _

theorem onLengths_lockstep (table : LookupTable) (lens : Lengths) (target : Nat) :
    Lockstep (CutShort more) (Paired more (Agree (codeWith Alphabet.lookup)))
      (onLengths (LengthReading.readLengths table lens target))
      (fun _ => Paired more (Agree joinedLens)) (Paired more BothBegun) := by
  refine lockstep_focus (fun _ _ hst => ⟨hst.reader_eq, hst.sink_eq⟩)
    (LengthReading.readLengths_extends table lens target) ?_ ?_
  · rintro a s t u v hst rfl
    have hlens := (Prod.mk.inj hst.codec.view_eq).1
    exact ⟨⟨hst.codec.left.withLitLen _, hst.codec.right.withLitLen _, Prod.ext hlens rfl⟩, rfl, rfl⟩
  · rintro s t u v hst rfl
    exact ⟨⟨hst.codec.left.withLitLen _, hst.codec.right.withLitLen _, rfl⟩, rfl, rfl⟩

end Steps

theorem decodeHeader_lockstep :
    Lockstep (CutShort more) (Paired more fun c d => c.Sized ∧ d.Sized) decodeHeader
      (fun _ => Paired more (LoadedAlike .dynamicDecode)) (Paired more BothBegun) := by
  refine lockstep_bind (onCodec_lockstep begin_lockstep) fun _ => ?_
  refine lockstep_bind (needRoom_lockstep 3) fun _ => ?_
  refine lockstep_bind readSizes_lockstep fun sizes => ?_
  refine lockstep_bind (onCodec_lockstep (remark_lockstep _ fun _ _ => rfl)) fun _ => ?_
  refine lockstep_bind (needRoom_lockstep _) fun _ => ?_
  refine lockstep_bind (onCodec_lockstep clearCodeLengths_lockstep) fun _ => ?_
  refine lockstep_bind (readCodeLengths_lockstep false _) fun _ => ?_
  refine lockstep_bind (lockstep_discard (onCodec_lockstep
    (onCodeLength_lockstep Alphabet.buildLookup_rebuilds))) fun _ => ?_
  intro s t hst
  apply EndAlike.get_bind
  obtain ⟨hlens, htable⟩ : t.codec.codeLength.lens = s.codec.codeLength.lens ∧
      t.codec.codeLength.lookup = s.codec.codeLength.lookup := Prod.mk.inj hst.codec.view_eq
  dsimp only
  rw [hlens, htable]
  refine (onLengths_lockstep _ _ _ s t hst).bind fun tokens => ?_
  refine lockstep_bind (onCodec_lockstep (splitLengths_lockstep _)) fun _ => ?_
  refine lockstep_bind (onCodec_lockstep (onLitLen_lockstep Alphabet.buildLookup_rebuilds))
    fun litLenBits => ?_
  refine lockstep_bind (onCodec_lockstep (onDistance_lockstep Alphabet.buildLookup_rebuilds))
    fun distanceBits => ?_
  refine lockstep_bind (onCodec_lockstep (remark_lockstep _ fun _ _ => rfl)) fun _ => ?_
  refine lockstep_bind (onCodec_lockstep (finish_lockstep _)) fun _ => ?_
  exact lockstep_pure fun _ _ h => h

/-- A header that is not decoded loads no tables. -/
theorem loaded_of_decodeHeader {s s' : Decoding} {e : Error} (hc : s.codec.Sized)
    (h : decodeHeader s = .error e s') : s'.codec.loaded = none := by
  have hpair := decodeHeader_lockstep s s ⟨⟨hc, hc⟩, (BitReader.extend_nil _).symm, rfl⟩
  rw [h] at hpair
  obtain ⟨_, -, he⟩ := hpair.error_inv (not_cutShort_nil e)
  exact he.codec.left.loaded_eq

/-- Two runs over one block, the second with more input. Whichever way they end, they stand at the
same place and have written the same. -/
theorem decodeBlock_lockstep :
    Lockstep (CutShort more) (Paired more fun c d => c.Sized ∧ d.Sized) decodeBlock
      (fun _ => Paired more (LoadedAlike .dynamicDecode)) (Paired more fun _ _ => True) := by
  have hdecode : Lockstep (CutShort more) (Paired more fun c d => c.Sized ∧ d.Sized) decodeHeader
      (fun _ => Paired more (LoadedAlike .dynamicDecode)) (Paired more fun _ _ => True) :=
    lockstep_mono decodeHeader_lockstep (fun _ _ _ h => h)
      fun _ _ h => ⟨trivial, h.reader_eq, h.sink_eq⟩
  refine lockstep_bind (onReader_lockstep_of (fun _ _ _ => trivial) BlockHeader.read_extends)
    fun block => ?_
  refine lockstep_ite ?_ ?_
  · intro s t hst
    exact .error ⟨trivial, hst.reader_eq, hst.sink_eq⟩
  · exact lockstep_bind hdecode fun size => lockstep_pure fun _ _ h => h

end Decoding

/-! ## Encoding -/

namespace LengthWriting

/-- The writer does not show which codec it is for, and neither do the lengths. -/
theorem writeLengths_lockstep {excused : Error → Prop} (table : CodeTable) (codeLens : Lengths)
    (tokens : List UInt8) (target : Nat) :
    Lockstep excused (fun s t => t.writer = s.writer) (writeLengths table codeLens tokens target)
      (fun _ => Eq) Eq := by
  rintro ⟨w, lens⟩ ⟨w', lens'⟩ hw
  obtain rfl : w' = w := hw
  exact lockstep_refl (writeTokens table codeLens target tokens) _ _ rfl

end LengthWriting

namespace Encoding

/-- Two encoders with the same writer and codecs that are related. -/
structure Paired (R : Codec → Codec → Prop) (s t : Encoding) : Prop where
  codec : R s.codec t.codec
  writer_eq : t.writer = s.writer

section Steps

variable {β : Type} {view : Codec → β} {excused : Error → Prop}

theorem Paired.forget {s t : Encoding} (h : Paired (Agree view) s t) : Paired BothBegun s t :=
  ⟨h.codec.forget, h.writer_eq⟩

theorem onCodec_lockstep {act : EStateM Error Codec α} {R : Codec → Codec → Prop}
    {S : α → Codec → Codec → Prop} (h : Lockstep excused R act S BothBegun) :
    Lockstep excused (Paired R) (onCodec act) (fun a => Paired (S a)) (Paired BothBegun) := by
  refine lockstep_focus (fun _ _ hst => hst.codec) h ?_ ?_
  · exact fun _ _ _ _ _ hst hS => ⟨hS, hst.writer_eq⟩
  · exact fun _ _ _ _ hst hE => ⟨hE, hst.writer_eq⟩

/-- A step of the writer leaves the codecs as they are. -/
theorem onWriter_lockstep_of {R E : Codec → Codec → Prop} (hE : ∀ c d, R c d → E c d)
    (act : EStateM Error BitWriter α) :
    Lockstep excused (Paired R) (onWriter act) (fun _ => Paired R) (Paired E) := by
  refine lockstep_focus (fun _ _ hst => hst.writer_eq.symm) (lockstep_refl act) ?_ ?_
  · exact fun _ _ _ _ _ hst hw => ⟨hst.codec, hw.symm⟩
  · exact fun _ _ _ _ hst hw => ⟨hE _ _ hst.codec, hw.symm⟩

theorem onWriter_lockstep (act : EStateM Error BitWriter α) :
    Lockstep excused (Paired (Agree view)) (onWriter act) (fun _ => Paired (Agree view))
      (Paired BothBegun) :=
  onWriter_lockstep_of (fun _ _ => Agree.forget) act

theorem onLengths_lockstep (table : CodeTable) (lens : Lengths) (tokens : List UInt8) (target : Nat) :
    Lockstep excused (Paired (Agree (codeWith Alphabet.codes)))
      (onLengths (LengthWriting.writeLengths table lens tokens target))
      (fun _ => Paired (Agree joinedLens)) (Paired BothBegun) := by
  refine lockstep_focus (fun _ _ hst => hst.writer_eq)
    (LengthWriting.writeLengths_lockstep table lens tokens target) ?_ ?_
  · rintro a s t u v hst rfl
    have hlens := (Prod.mk.inj hst.codec.view_eq).1
    exact ⟨⟨hst.codec.left.withLitLen _, hst.codec.right.withLitLen _, Prod.ext hlens rfl⟩, rfl⟩
  · rintro s t u v hst rfl
    exact ⟨⟨hst.codec.left.withLitLen _, hst.codec.right.withLitLen _, rfl⟩, rfl⟩

/-- By induction on the pairs. -/
theorem setCodeLengths_lockstep (pairs : List (Nat × UInt8)) :
    Lockstep excused (Paired (Agree codeLens)) (setCodeLengths pairs)
      (fun _ => Paired (Agree codeLens)) (Paired BothBegun) := by
  induction pairs with
  | nil => exact lockstep_pure fun _ _ h => h
  | cons pair pairs ih =>
    obtain ⟨symbol, len⟩ := pair
    refine lockstep_ite ?_ ?_
    · intro s t hst
      exact .error hst.forget
    · exact lockstep_bind (onCodec_lockstep (setCodeLength_lockstep symbol len)) fun _ => ih

theorem checkPadding_lockstep (sizes : AlphabetSizes) (packed : List UInt8) :
    Lockstep excused (Paired (Agree view)) (checkPadding sizes packed)
      (fun _ => Paired (Agree view)) (Paired BothBegun) := by
  refine lockstep_ite ?_ (lockstep_pure fun _ _ h => h)
  cases packed.getLast? with
  | none => exact lockstep_throw fun _ _ h => h.forget
  | some last =>
    exact lockstep_ite (lockstep_throw fun _ _ h => h.forget) (lockstep_pure fun _ _ h => h)

theorem writeCodeLengths_lockstep (symbols : List Nat) :
    Lockstep excused (Paired (Agree (codeWith Alphabet.codes))) (writeCodeLengths symbols)
      (fun _ => Paired (Agree (codeWith Alphabet.codes))) (Paired BothBegun) := by
  induction symbols with
  | nil => exact lockstep_pure fun _ _ h => h
  | cons symbol symbols ih =>
    intro s t hst
    apply EndAlike.get_bind
    have hlens : t.codec.codeLength.lens = s.codec.codeLength.lens :=
      (Prod.mk.inj hst.codec.view_eq).1
    rw [hlens]
    cases s.codec.codeLength.lens[symbol]? with
    | none => exact .error hst.forget
    | some len => exact lockstep_bind (onWriter_lockstep _) (fun _ => ih) s t hst

end Steps

variable {excused : Error → Prop}

theorem encodeBody_lockstep (fields : Nat × Nat × Nat) (sizes : AlphabetSizes) (size : Nat)
    (body : List UInt8) :
    Lockstep excused (Paired BothBegun) (encodeBody fields sizes size body)
      (fun _ => Paired (LoadedAlike .dynamicEncode)) (Paired BothBegun) := by
  obtain ⟨hlit, hdist, hclen⟩ := fields
  unfold encodeBody
  refine lockstep_ite (fun s t hst => .error hst) ?_
  refine lockstep_bind (onCodec_lockstep clearCodeLengths_lockstep) fun _ => ?_
  refine lockstep_bind (setCodeLengths_lockstep _) fun _ => ?_
  refine lockstep_bind (checkPadding_lockstep _ _) fun _ => ?_
  refine lockstep_bind (lockstep_discard (onCodec_lockstep
    (onCodeLength_lockstep Alphabet.buildCodes_rebuilds))) fun _ => ?_
  refine lockstep_bind (onCodec_lockstep (remark_lockstep _ fun _ _ => rfl)) fun _ => ?_
  refine lockstep_bind (onWriter_lockstep _) fun _ => ?_
  refine lockstep_bind (onWriter_lockstep _) fun _ => ?_
  refine lockstep_bind (onWriter_lockstep _) fun _ => ?_
  refine lockstep_bind (writeCodeLengths_lockstep _) fun _ => ?_
  intro s t hst
  apply EndAlike.get_bind
  obtain ⟨hlens, htable⟩ : t.codec.codeLength.lens = s.codec.codeLength.lens ∧
      t.codec.codeLength.codes = s.codec.codeLength.codes := Prod.mk.inj hst.codec.view_eq
  dsimp only
  rw [hlens, htable]
  refine (onLengths_lockstep _ _ _ _ s t hst).bind fun tokens => ?_
  refine lockstep_bind (onCodec_lockstep (splitLengths_lockstep _)) fun _ => ?_
  refine lockstep_bind (lockstep_discard (onCodec_lockstep
    (onLitLen_lockstep Alphabet.buildCodes_rebuilds))) fun _ => ?_
  refine lockstep_bind (lockstep_discard (onCodec_lockstep
    (onDistance_lockstep Alphabet.buildCodes_rebuilds))) fun _ => ?_
  refine lockstep_ite (fun s t hst => .error hst.forget) ?_
  intro s t hst
  apply EndAlike.get_bind
  rw [hst.writer_eq]
  refine lockstep_bind (onCodec_lockstep (remark_lockstep _ fun _ _ => rfl)) (fun _ => ?_) s t hst
  exact onCodec_lockstep (finish_lockstep _)

theorem encodeHeader_lockstep (puff : List UInt8) :
    Lockstep excused (Paired fun c d => c.Sized ∧ d.Sized) (encodeHeader puff)
      (fun _ => Paired (LoadedAlike .dynamicEncode)) (Paired BothBegun) := by
  refine lockstep_bind (onCodec_lockstep begin_lockstep) fun _ => ?_
  split
  · split
    · exact lockstep_throw fun _ _ h => h
    · exact encodeBody_lockstep _ _ _ _
  · exact lockstep_throw fun _ _ h => h

/-- A header that is not encoded loads no tables. -/
theorem loaded_of_encodeHeader {puff : List UInt8} {s s' : Encoding} {e : Error} (hc : s.codec.Sized)
    (h : encodeHeader puff s = .error e s') : s'.codec.loaded = none := by
  have hpair : EndAlike (fun _ => False) _ _ (encodeHeader puff s) (encodeHeader puff s) :=
    encodeHeader_lockstep puff s s ⟨⟨hc, hc⟩, rfl⟩
  rw [h] at hpair
  obtain ⟨_, -, he⟩ := hpair.error_inv id
  exact he.codec.left.loaded_eq

/-- Two runs over one block end alike, and have written the same. -/
theorem encodeBlock_lockstep (puff : List UInt8) (isFinal : Bool) :
    Lockstep excused (Paired fun c d => c.Sized ∧ d.Sized) (encodeBlock puff isFinal)
      (fun _ => Paired (LoadedAlike .dynamicEncode)) (Paired fun _ _ => True) := by
  have hencode : Lockstep excused (Paired fun c d => c.Sized ∧ d.Sized) (encodeHeader puff)
      (fun _ => Paired (LoadedAlike .dynamicEncode)) (Paired fun _ _ => True) :=
    lockstep_mono (encodeHeader_lockstep puff) (fun _ _ _ h => h) fun _ _ h => ⟨trivial, h.writer_eq⟩
  refine lockstep_bind (onWriter_lockstep_of (fun _ _ _ => trivial) _) fun _ => ?_
  refine lockstep_bind hencode fun _ => ?_
  intro s t hst
  apply EndAlike.get_bind
  rw [hst.writer_eq]
  refine lockstep_bind (onWriter_lockstep_of (fun _ _ _ => trivial) _) (fun bytes => ?_) s t hst
  exact lockstep_pure fun _ _ h => h

end Encoding
end DeflateHeader
