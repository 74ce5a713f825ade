import DeflateHeader.Proofs.HeaderReading
import DeflateHeader.Proofs.HeaderWriting
import DeflateHeader.Transcode

/-!
# Every state of a codec

`Codec.Reachable` are the states that any sequence of operations leads to, with any inputs and
whether they succeed or fail on the way. In all of them the tables have either no storage or that of
their alphabet (`Codec.Reachable.sized`), which is all that the next operation relies on.
-/

namespace DeflateHeader

variable {α : Type}

/-! ## Decoding -/

namespace Decoding

/-- The codec of a decoder has proper storage. -/
def Sized (s : Decoding) : Prop := s.codec.Sized

theorem keeps_onCodec {act : EStateM Error Codec α} (h : Keeps Codec.Sized act) :
    Keeps Sized (onCodec act) :=
  keeps_focus (fun _ hs => hs) h fun _ _ _ hc => hc

theorem keeps_onReader {P : Codec → Prop} (act : EStateM Error BitReader α) :
    Keeps (fun s => P s.codec) (onReader act) :=
  keeps_focus (Q := fun _ => True) (fun _ _ => trivial) (fun _ _ => trivial) fun _ _ hs _ => hs

theorem keeps_onSink (act : EStateM Error ByteSink α) : Keeps Sized (onSink act) :=
  keeps_focus (Q := fun _ => True) (fun _ _ => trivial) (fun _ _ => trivial) fun _ _ hs _ => hs

theorem keeps_onLengths (act : EStateM Error LengthReading α) : Keeps Sized (onLengths act) :=
  keeps_focus (Q := fun _ => True) (fun _ _ => trivial) (fun _ _ => trivial) fun _ _ hs _ =>
    hs.withLitLen _

theorem keeps_needRoom (n : Nat) : Keeps Sized (needRoom n) :=
  keeps_bind keeps_get fun _ => keeps_ite keeps_throw keeps_pure

theorem keeps_field (width : Nat) : Keeps Sized (field width) :=
  keeps_bind (keeps_onReader _) fun _ => keeps_bind (keeps_onReader _) fun _ => keeps_pure

theorem keeps_readSizes : Keeps Sized readSizes := by
  refine keeps_bind (keeps_onReader _) fun _ => ?_
  refine keeps_bind (keeps_field 5) fun hlit => keeps_bind (keeps_field 5) fun hdist =>
    keeps_bind (keeps_field 4) fun hclen => ?_
  refine keeps_bind (keeps_onSink _) fun _ => keeps_bind (keeps_onSink _) fun _ =>
    keeps_bind (keeps_onSink _) fun _ => ?_
  cases AlphabetSizes.ofFields hlit hdist hclen with
  | ok sizes => exact keeps_pure
  | error e => exact keeps_throw

theorem keeps_readCodeLengths (low : Bool) (symbols : List Nat) :
    Keeps Sized (readCodeLengths low symbols) := by
  induction symbols generalizing low with
  | nil => exact keeps_pure
  | cons symbol symbols ih =>
    refine keeps_bind (keeps_onReader _) fun len => ?_
    refine keeps_bind (keeps_onCodec (Codec.keeps_setCodeLength Codec.sized_ofStorage _ _)) fun _ => ?_
    exact keeps_ite (keeps_bind (keeps_onSink _) fun _ => ih _)
      (keeps_bind (keeps_onSink _) fun _ => ih _)

theorem keeps_readOpening : Keeps Sized readOpening := by
  refine keeps_bind (keeps_onCodec Codec.keeps_begin) fun _ => ?_
  refine keeps_bind (keeps_needRoom 3) fun _ => keeps_bind keeps_readSizes fun sizes => ?_
  refine keeps_bind (keeps_onCodec (Codec.keeps_remark Codec.sized_ofStorage _)) fun _ => ?_
  refine keeps_bind (keeps_needRoom _) fun _ => ?_
  refine keeps_bind (keeps_onCodec (Codec.keeps_clearCodeLengths Codec.sized_ofStorage)) fun _ => ?_
  refine keeps_bind (keeps_readCodeLengths _ _) fun _ => ?_
  refine keeps_bind (keeps_discard (keeps_onCodec ?_)) fun _ => keeps_pure
  exact Codec.keeps_onCodeLength Codec.sized_ofStorage Alphabet.keeps_buildLookup

theorem keeps_loadTables (sizes : AlphabetSizes) (tokens : Nat) :
    Keeps Sized (loadTables sizes tokens) := by
  refine keeps_bind (keeps_onCodec (Codec.keeps_splitLengths Codec.sized_ofStorage _)) fun _ => ?_
  refine keeps_bind (keeps_onCodec (Codec.keeps_onLitLen Codec.sized_ofStorage Alphabet.keeps_buildLookup)) fun _ => ?_
  refine keeps_bind (keeps_onCodec (Codec.keeps_onDistance Codec.sized_ofStorage Alphabet.keeps_buildLookup)) fun _ => ?_
  refine keeps_bind (keeps_onCodec (Codec.keeps_remark Codec.sized_ofStorage _)) fun _ => ?_
  exact keeps_bind (keeps_onCodec (Codec.keeps_finish _)) fun _ => keeps_pure

theorem keeps_decodeHeader : Keeps Sized decodeHeader := by
  rw [decodeHeader_eq]
  refine keeps_bind keeps_readOpening fun sizes => keeps_bind keeps_get fun s => ?_
  exact keeps_bind (keeps_onLengths _) fun tokens => keeps_loadTables sizes tokens

theorem keeps_decodeBlock {P : Codec → Prop} (h : Keeps (fun s => P s.codec) decodeHeader) :
    Keeps (fun s => P s.codec) decodeBlock := by
  refine keeps_bind (keeps_onReader _) fun block => ?_
  refine keeps_ite (keeps_bind keeps_throw fun _ => ?_) ?_
  · exact keeps_bind h fun _ => keeps_pure
  · exact keeps_bind h fun _ => keeps_pure

end Decoding

/-! ## Encoding -/

namespace Encoding

/-- The codec of an encoder has proper storage. -/
def Sized (s : Encoding) : Prop := s.codec.Sized

theorem keeps_onCodec {act : EStateM Error Codec α} (h : Keeps Codec.Sized act) :
    Keeps Sized (onCodec act) :=
  keeps_focus (fun _ hs => hs) h fun _ _ _ hc => hc

theorem keeps_onWriter {P : Codec → Prop} (act : EStateM Error BitWriter α) :
    Keeps (fun s => P s.codec) (onWriter act) :=
  keeps_focus (Q := fun _ => True) (fun _ _ => trivial) (fun _ _ => trivial) fun _ _ hs _ => hs

theorem keeps_onLengths (act : EStateM Error LengthWriting α) : Keeps Sized (onLengths act) :=
  keeps_focus (Q := fun _ => True) (fun _ _ => trivial) (fun _ _ => trivial) fun _ _ hs _ =>
    hs.withLitLen _

theorem keeps_setCodeLengths (pairs : List (Nat × UInt8)) : Keeps Sized (setCodeLengths pairs) := by
  induction pairs with
  | nil => exact keeps_pure
  | cons pair pairs ih =>
    have hrest : Keeps Sized (onCodec (Codec.setCodeLength pair.1 pair.2) >>= fun _ =>
        setCodeLengths pairs) :=
      keeps_bind (keeps_onCodec (Codec.keeps_setCodeLength Codec.sized_ofStorage _ _)) fun _ => ih
    exact keeps_ite (keeps_bind keeps_throw fun _ => hrest) hrest

theorem keeps_checkPadding (sizes : AlphabetSizes) (packed : List UInt8) :
    Keeps Sized (checkPadding sizes packed) := by
  refine keeps_ite ?_ keeps_pure
  cases packed.getLast? with
  | none => exact keeps_throw
  | some last => exact keeps_ite keeps_throw keeps_pure

theorem keeps_writeCodeLengths (symbols : List Nat) : Keeps Sized (writeCodeLengths symbols) := by
  induction symbols with
  | nil => exact keeps_pure
  | cons symbol symbols ih =>
    refine keeps_get_bind fun s hs => ?_
    cases s.codec.codeLength.lens[symbol]? with
    | none => exact keeps_bind keeps_throw (fun _ => ih) s hs
    | some len => exact keeps_bind (keeps_onWriter _) (fun _ => ih) s hs

theorem keeps_prepareCode (sizes : AlphabetSizes) (packed : List UInt8) :
    Keeps Sized (prepareCode sizes packed) := by
  refine keeps_bind (keeps_onCodec (Codec.keeps_clearCodeLengths Codec.sized_ofStorage)) fun _ => ?_
  refine keeps_bind (keeps_setCodeLengths _) fun _ => keeps_bind (keeps_checkPadding _ _) fun _ => ?_
  refine keeps_bind (keeps_discard (keeps_onCodec ?_)) fun _ => keeps_onCodec (Codec.keeps_remark Codec.sized_ofStorage _)
  exact Codec.keeps_onCodeLength Codec.sized_ofStorage Alphabet.keeps_buildCodes

theorem keeps_writeOpening (fields : Nat × Nat × Nat) (sizes : AlphabetSizes) :
    Keeps Sized (writeOpening fields sizes) :=
  keeps_bind (keeps_onWriter _) fun _ => keeps_bind (keeps_onWriter _) fun _ =>
    keeps_bind (keeps_onWriter _) fun _ => keeps_writeCodeLengths _

theorem keeps_loadTables (sizes : AlphabetSizes) (size tokens : Nat) :
    Keeps Sized (loadTables sizes size tokens) := by
  refine keeps_bind (keeps_onCodec (Codec.keeps_splitLengths Codec.sized_ofStorage _)) fun _ => ?_
  refine keeps_bind (keeps_discard (keeps_onCodec
    (Codec.keeps_onLitLen Codec.sized_ofStorage Alphabet.keeps_buildCodes))) fun _ => ?_
  refine keeps_bind (keeps_discard (keeps_onCodec
    (Codec.keeps_onDistance Codec.sized_ofStorage Alphabet.keeps_buildCodes))) fun _ => ?_
  have hrest : Keeps Sized (get >>= fun s : Encoding =>
      onCodec (Codec.remark (.encoded s.writer.bitCount)) >>= fun _ =>
        onCodec (Codec.finish .dynamicEncode)) :=
    keeps_bind keeps_get fun s => keeps_bind (keeps_onCodec (Codec.keeps_remark Codec.sized_ofStorage _)) fun _ =>
      keeps_onCodec (Codec.keeps_finish _)
  exact keeps_ite (keeps_bind keeps_throw fun _ => hrest) hrest

theorem keeps_encodeBody (fields : Nat × Nat × Nat) (sizes : AlphabetSizes) (size : Nat)
    (body : List UInt8) : Keeps Sized (encodeBody fields sizes size body) := by
  by_cases hle : sizes.packedSize ≤ body.length
  · rw [encodeBody_eq hle]
    refine keeps_bind (keeps_prepareCode _ _) fun _ => keeps_bind (keeps_writeOpening _ _) fun _ => ?_
    refine keeps_bind keeps_get fun s => keeps_bind (keeps_onLengths _) fun tokens => ?_
    exact keeps_loadTables _ _ _
  · intro s hs
    rw [encodeBody_short (Nat.lt_of_not_le hle)]
    exact hs

theorem keeps_encodeHeader (puff : List UInt8) : Keeps Sized (encodeHeader puff) := by
  refine keeps_bind (keeps_onCodec Codec.keeps_begin) fun _ => ?_
  split
  · split
    · exact keeps_throw
    · exact keeps_encodeBody _ _ _ _
  · exact keeps_throw

theorem keeps_encodeBlock {P : Codec → Prop} {puff : List UInt8}
    (h : Keeps (fun s => P s.codec) (encodeHeader puff)) (isFinal : Bool) :
    Keeps (fun s => P s.codec) (encodeBlock puff isFinal) := by
  refine keeps_bind (keeps_onWriter _) fun _ => keeps_bind h fun _ => ?_
  exact keeps_bind keeps_get fun s => keeps_bind (keeps_onWriter _) fun bytes => keeps_pure

end Encoding

/-! ## Whole streams -/

namespace Codec

section Runs

variable {c : Codec} {stream : List UInt8} {room : Nat} {a : α} {e : Error}

theorem decoding_ok {act : EStateM Error Decoding α} {s : Decoding}
    (h : act ⟨c, BitReader.ofBytes stream, ByteSink.ofBuffer (List.replicate room 0)⟩ = .ok a s) :
    decoding stream room act c = .ok (a, s) s.codec := by
  simp only [decoding, h]

theorem decoding_error {act : EStateM Error Decoding α} {s : Decoding}
    (h : act ⟨c, BitReader.ofBytes stream, ByteSink.ofBuffer (List.replicate room 0)⟩ = .error e s) :
    decoding stream room act c = .error e s.codec := by
  simp only [decoding, h]

theorem encoding_ok {act : EStateM Error Encoding α} {s : Encoding}
    (h : act ⟨c, BitWriter.ofBuffer (List.replicate room 0)⟩ = .ok a s) :
    encoding room act c = .ok a s.codec := by
  simp only [encoding, h]

theorem encoding_error {act : EStateM Error Encoding α} {s : Encoding}
    (h : act ⟨c, BitWriter.ofBuffer (List.replicate room 0)⟩ = .error e s) :
    encoding room act c = .error e s.codec := by
  simp only [encoding, h]

end Runs

section Keeps

variable {P : Codec → Prop}

theorem keeps_decoding (stream : List UInt8) (room : Nat) {act : EStateM Error Decoding α}
    (h : Keeps (fun s => P s.codec) act) : Keeps P (decoding stream room act) := by
  intro c hc
  have := h ⟨c, BitReader.ofBytes stream, ByteSink.ofBuffer (List.replicate room 0)⟩ hc
  cases hrun : act ⟨c, BitReader.ofBytes stream, ByteSink.ofBuffer (List.replicate room 0)⟩ with
  | ok a s =>
    rw [hrun] at this
    rw [decoding_ok hrun]
    exact this
  | error e s =>
    rw [hrun] at this
    rw [decoding_error hrun]
    exact this

theorem keeps_encoding (room : Nat) {act : EStateM Error Encoding α}
    (h : Keeps (fun s => P s.codec) act) : Keeps P (encoding room act) := by
  intro c hc
  have := h ⟨c, BitWriter.ofBuffer (List.replicate room 0)⟩ hc
  cases hrun : act ⟨c, BitWriter.ofBuffer (List.replicate room 0)⟩ with
  | ok a s =>
    rw [hrun] at this
    rw [encoding_ok hrun]
    exact this
  | error e s =>
    rw [hrun] at this
    rw [encoding_error hrun]
    exact this

/-- A property that a remark and the two operations on headers keep. -/
structure Lasting (P : Codec → Prop) : Prop where
  remark : ∀ note, Keeps P (remark note)
  decodeHeader : Keeps (fun s => P s.codec) Decoding.decodeHeader
  encodeHeader : ∀ puff, Keeps (fun s => P s.codec) (Encoding.encodeHeader puff)

theorem keeps_puff (h : Lasting P) (data : List UInt8) (container : Container) :
    Keeps P (puff data container) := by
  rw [puff]
  split
  · exact keeps_throw
  · exact keeps_bind (keeps_decoding _ _ (Decoding.keeps_decodeBlock h.decodeHeader)) fun _ =>
      keeps_bind (h.remark _) fun _ => keeps_pure

theorem keeps_huff (h : Lasting P) (puff : List UInt8) (isFinal : Bool) :
    Keeps P (huff puff isFinal) :=
  keeps_bind (keeps_encoding _ (Encoding.keeps_encodeBlock (h.encodeHeader puff) _)) fun _ =>
    keeps_bind (h.remark _) fun _ => keeps_pure

theorem keeps_verify (h : Lasting P) (data : List UInt8) (container : Container) :
    Keeps P (verify data container) := by
  refine keeps_bind (keeps_puff h _ _) fun header => keeps_bind (keeps_huff h _ _) fun huffed => ?_
  exact keeps_ite keeps_pure (keeps_bind (h.remark _) fun _ => keeps_pure)

end Keeps

theorem sized_lasting : Lasting Sized where
  remark := keeps_remark sized_ofStorage
  decodeHeader := Decoding.keeps_decodeHeader
  encodeHeader := Encoding.keeps_encodeHeader

/-- The states that a codec can be brought into, by operations that succeed or fail. -/
inductive Reachable : Codec → Prop
  | new : Reachable new
  | reserve {c : Codec} (h : Reachable c) : Reachable c.reserve
  | reset {c : Codec} (h : Reachable c) : Reachable c.reset
  | buildFixed {c : Codec} (h : Reachable c) : Reachable (finalState (buildFixed c))
  | decodeHeader {c : Codec} (h : Reachable c) (reader : BitReader) (sink : ByteSink) :
      Reachable (finalState (Decoding.decodeHeader ⟨c, reader, sink⟩)).codec
  | encodeHeader {c : Codec} (h : Reachable c) (puff : List UInt8) (writer : BitWriter) :
      Reachable (finalState (Encoding.encodeHeader puff ⟨c, writer⟩)).codec
  | puff {c : Codec} (h : Reachable c) (data : List UInt8) (container : Container) :
      Reachable (finalState (Codec.puff data container c))
  | huff {c : Codec} (h : Reachable c) (puff : List UInt8) (isFinal : Bool) :
      Reachable (finalState (Codec.huff puff isFinal c))
  | verify {c : Codec} (h : Reachable c) (data : List UInt8) (container : Container) :
      Reachable (finalState (Codec.verify data container c))

/-- A property that a new codec has and every operation keeps holds in every reachable state. -/
theorem Reachable.of_lasting {P : Codec → Prop} {c : Codec} (h : c.Reachable) (hP : Lasting P)
    (hnew : P Codec.new) (hreserve : ∀ c, P c → P c.reserve) (hreset : ∀ c, P c → P c.reset)
    (hfixed : Keeps P Codec.buildFixed) : P c := by
  induction h with
  | new => exact hnew
  | reserve _ ih => exact hreserve _ ih
  | reset _ ih => exact hreset _ ih
  | buildFixed _ ih => exact hfixed _ ih
  | decodeHeader _ reader sink ih => exact hP.decodeHeader ⟨_, reader, sink⟩ ih
  | encodeHeader _ puff writer ih => exact hP.encodeHeader puff ⟨_, writer⟩ ih
  | puff _ data container ih => exact keeps_puff hP data container _ ih
  | huff _ puff isFinal ih => exact keeps_huff hP puff isFinal _ ih
  | verify _ data container ih => exact keeps_verify hP data container _ ih

/-- No operation leaves a table with storage that is not that of its alphabet. -/
theorem Reachable.sized {c : Codec} (h : c.Reachable) : c.Sized :=
  h.of_lasting sized_lasting sized_new (fun _ hc => hc.reserve.sized) (fun c _ => Sized.reset c)
    keeps_buildFixed

end Codec
end DeflateHeader
