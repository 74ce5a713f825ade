import DeflateHeader.Proofs.HeaderPairs
import DeflateHeader.Proofs.RoundTrip

/-!
# Two runs over one stream

What a container and the decoder say of a stream does not change when more bytes follow, unless they
lacked input (`Container.stable_strip`, `Codec.puff_alike`). Neither does it depend on the codec. So
`puff` and `verify` can only ask for more input, and whatever else they answer is their last word
(`Codec.outcome_append`).
-/

namespace DeflateHeader

theorem Container.Stable.error {drop : List UInt8 → Except Error (List UInt8)} (h : Stable drop)
    {bytes more : List UInt8} {e : Error} (hdrop : drop bytes = .error e) (he : ¬ CutShort more e) :
    drop (bytes ++ more) = .error e := by
  by_cases hnil : more = []
  · rw [hnil, List.append_nil, hdrop]
  · have hmore := h bytes more
    rw [hdrop] at hmore
    refine hmore fun heq => he ⟨hnil, ?_⟩
    injection heq

/-! ## Whole operations -/

namespace Codec

variable {c d : Codec} {set : TableSet} {more : List UInt8}

/-- Remarks do not count. -/
theorem LoadedAlike.with_notes (h : LoadedAlike set c d) (notes notes' : List Note) :
    LoadedAlike set { c with notes } { d with notes := notes' } :=
  ⟨⟨h.left.ready.with_notes _, h.left.loaded_eq⟩, ⟨h.right.ready.with_notes _, h.right.loaded_eq⟩,
    h.allLens_eq⟩

section Puff

variable {data : List UInt8} {container : Container}

theorem puff_of_strip_error {e : Error} (h : container.strip data = .error e) (c : Codec) :
    puff data container c = .error e c := by
  unfold puff
  rw [h]
  rfl

/-- What `puff` makes of the decoder's result. -/
theorem puff_of_strip {stream : List UInt8} (h : container.strip data = .ok stream) (c : Codec) :
    puff data container c =
      match Decoding.decodeBlock ⟨c, .ofBytes stream, .ofBuffer (List.replicate maxPuffSize 0)⟩ with
      | .ok (block, size) s =>
        .ok ⟨block, s.sink.buffer.take size, s.reader.consumed, data.length - stream.length⟩
          { s.codec with notes := s.codec.notes ++ [.puffed s.reader.consumed size] }
      | .error e s => .error e s.codec := by
  unfold puff
  rw [h]
  dsimp only
  rw [run_bind, decoding]
  cases Decoding.decodeBlock ⟨c, .ofBytes stream, .ofBuffer (List.replicate maxPuffSize 0)⟩ <;> rfl

/-- Two codecs take the same header from a stream, also if the second is given more input. -/
theorem puff_alike (hc : c.Sized) (hd : d.Sized) (data : List UInt8) (container : Container) :
    EndAlike (CutShort more) (fun _ => LoadedAlike .dynamicDecode) (fun _ _ => True)
      (puff data container c) (puff (data ++ more) container d) := by
  have hstable := container.stable_strip
  cases hstrip : container.strip data with
  | error e =>
    rw [puff_of_strip_error hstrip]
    by_cases hcut : CutShort more e
    · exact .excuse hcut
    · rw [puff_of_strip_error (hstable.error hstrip hcut)]
      exact .error trivial
  | ok stream =>
    have hsize : (data ++ more).length - (stream ++ more).length = data.length - stream.length := by
      rw [List.length_append, List.length_append, Nat.add_sub_add_right]
    have hpair := Decoding.decodeBlock_lockstep
      ⟨c, .ofBytes stream, .ofBuffer (List.replicate maxPuffSize 0)⟩
      ⟨d, .ofBytes (stream ++ more), .ofBuffer (List.replicate maxPuffSize 0)⟩
      ⟨⟨hc, hd⟩, (BitReader.extend_ofBytes stream).symm, rfl⟩
    rw [puff_of_strip hstrip, puff_of_strip (hstable.ok hstrip more), hsize]
    generalize Decoding.decodeBlock _ = x at hpair
    generalize Decoding.decodeBlock _ = y at hpair
    cases hpair with
    | ok h =>
      dsimp only
      rw [h.reader_eq, h.sink_eq, BitReader.consumed_extend]
      exact .ok (h.codec.with_notes _ _)
    | error h => exact .error trivial
    | excuse h => exact .excuse h

end Puff

section Huff

variable {excused : Error → Prop} {α : Type}

/-- An encoder with a buffer of its own. -/
theorem encoding_lockstep {R E : Codec → Codec → Prop} {S : α → Codec → Codec → Prop} (room : Nat)
    {act : EStateM Error Encoding α}
    (h : Lockstep excused (Encoding.Paired R) act (fun a => Encoding.Paired (S a))
      (Encoding.Paired E)) : Lockstep excused R (encoding room act) S E := by
  intro c d hcd
  have hpair := h ⟨c, .ofBuffer (List.replicate room 0)⟩ ⟨d, .ofBuffer (List.replicate room 0)⟩
    ⟨hcd, rfl⟩
  unfold encoding
  generalize act _ = x at hpair
  generalize act _ = y at hpair
  cases hpair with
  | ok h => exact .ok h.codec
  | error h => exact .error h.codec
  | excuse h => exact .excuse h

/-- Two codecs write the same header for a puff buffer. -/
theorem huff_lockstep (puff : List UInt8) (isFinal : Bool) :
    Lockstep excused (fun c d => c.Sized ∧ d.Sized) (huff puff isFinal)
      (fun _ => LoadedAlike .dynamicEncode) (fun _ _ => True) := by
  refine lockstep_bind (encoding_lockstep _ (Encoding.encodeBlock_lockstep puff isFinal))
    fun written => ?_
  refine lockstep_bind (M := fun _ => LoadedAlike .dynamicEncode) ?_ fun _ => ?_
  · exact lockstep_modify fun _ _ h => h.with_notes _ _
  · exact lockstep_pure fun _ _ h => h

end Huff

/-- Two codecs verify a header alike, also if the second is given more input. -/
theorem verify_alike (hc : c.Sized) (hd : d.Sized) (data : List UInt8) (container : Container) :
    EndAlike (CutShort more) (fun _ => LoadedAlike .dynamicEncode) (fun _ _ => True)
      (verify data container c) (verify (data ++ more) container d) := by
  have hpair : EndAlike (CutShort more) _ _ _ (puff (data ++ more) container d) :=
    puff_alike hc hd data container
  cases hpuff : puff data container c with
  | error e c' =>
    have hverify : verify data container c = .error e c' := run_bind_error hpuff
    rw [hverify]
    rw [hpuff] at hpair
    by_cases hcut : CutShort more e
    · exact .excuse hcut
    · obtain ⟨d', hpuff', -⟩ := hpair.error_inv hcut
      have hverify' : verify (data ++ more) container d = .error e d' := run_bind_error hpuff'
      rw [hverify']
      exact .error trivial
  | ok p c' =>
    rw [hpuff] at hpair
    obtain ⟨d', hpuff', -⟩ := hpair.ok_inv
    obtain ⟨x, c'', hhuff, hverify⟩ := huff_of_puff hc hpuff
    obtain ⟨x', d'', hhuff', hverify'⟩ := huff_of_puff hd hpuff'
    rw [hverify, hverify']
    have hpair' : EndAlike (CutShort more) _ _ _ (huff p.puff p.block.isFinal d') :=
      huff_lockstep p.puff p.block.isFinal c' d' ⟨hc.of_puff hpuff, hd.of_puff hpuff'⟩
    rw [hhuff, hhuff'] at hpair'
    obtain ⟨_, heq, hloaded⟩ := hpair'.ok_inv
    cases heq
    exact .ok hloaded

/-! ## Verdicts -/

/-- If only a lack of input can be made good by more input, a beginning of an accepted input is lacking or
accepted alike. -/
theorem outcome_take {β : Type} {f g : List UInt8 → Except Error β}
    (h : ∀ data more, f data = .error .insufficientInput ∨ g (data ++ more) = f data)
    {data : List UInt8} {b : β} (hok : g data = .ok b) (n : Nat) :
    f (data.take n) = .ok b ∨ f (data.take n) = .error .insufficientInput := by
  rcases h (data.take n) (data.drop n) with hlacking | heq
  · exact .inr hlacking
  · rw [List.take_append_drop, hok] at heq
    exact .inl heq.symm

/-- What `puff` and `verify` say of a stream, other than that it lacks input, they say with any codec and
of every stream that begins with it. So of a beginning of a stream that they accept they say the same,
or ask for more input. -/
theorem outcome_append (hc : c.Reachable) (hd : d.Reachable) (data : List UInt8)
    (container : Container) :
    (∀ more, outcome (puff data container c) ≠ .error .insufficientInput →
      outcome (puff (data ++ more) container d) = outcome (puff data container c)) ∧
    (∀ more, outcome (verify data container c) ≠ .error .insufficientInput →
      outcome (verify (data ++ more) container d) = outcome (verify data container c)) ∧
    (∀ p n, outcome (puff data container c) = .ok p →
      outcome (puff (data.take n) container d) = .ok p ∨
        outcome (puff (data.take n) container d) = .error .insufficientInput) ∧
    ∀ v n, outcome (verify data container c) = .ok v →
      outcome (verify (data.take n) container d) = .ok v ∨
        outcome (verify (data.take n) container d) = .error .insufficientInput := by
  refine ⟨fun more h => ?_, fun more h => ?_, fun p n h => ?_, fun v n h => ?_⟩
  · exact (puff_alike hc.sized hd.sized data container).unless_lacking.resolve_left h
  · exact (verify_alike hc.sized hd.sized data container).unless_lacking.resolve_left h
  · exact outcome_take (f := fun data => outcome (puff data container d))
      (g := fun data => outcome (puff data container c))
      (fun data _ => (puff_alike hd.sized hc.sized data container).unless_lacking) h n
  · exact outcome_take (f := fun data => outcome (verify data container d))
      (g := fun data => outcome (verify data container c))
      (fun data _ => (verify_alike hd.sized hc.sized data container).unless_lacking) h n

/-- A byte after the plain stream does not change what is made of it. -/
theorem outcome_append_plainStream :
    outcome (puff (plainStream ++ [255]) .raw new) = .ok (Header.plain.puffed true 0) := by
  obtain ⟨c', hrun⟩ := puff_plainStream sized_new
  have happend := (outcome_append .new .new plainStream .raw).1 [255]
  rw [hrun] at happend
  exact happend (by simp)

end Codec
end DeflateHeader
