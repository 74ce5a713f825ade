import DeflateHeader.Code.Fixed
import DeflateHeader.Proofs.TokenReading
import DeflateHeader.Proofs.TokenWriting

/-!
# Code lengths read and written

Reading and writing code lengths meet at a sequence of tokens: `ReadsTokens` and `WritesTokens` describe
both runs by the bits and the bytes of the same tokens, and each of them fixes the tokens. So what
was written is read back (`readLengths_of_writeLengths`), if the longest code less one bit follows it,
and what was read is written back (`writeLengths_of_readLengths`). The tables may be those of
any code of 19 symbols or more; the tokens then use the first 19.
-/

namespace DeflateHeader

variable {dec : LookupTable} {enc : CodeTable} {code : Lengths} {target k : Nat}

open LengthReading LengthWriting

/-- What was written is read again, if all but one bit of the longest code follow it. -/
theorem readLengths_of_writeLengths (hd : dec.Decodes code) (he : enc.Encodes code)
    (hsize : codeLengthCount ≤ enc.size) (hlen : codeLengthCount ≤ code.length) (hf : code.Feasible)
    {tokens : List UInt8} {s s' : LengthWriting} (hs : s.writer.WellFormed)
    (h : writeLengths enc code tokens target s = .ok k s') :
    ∃ bits, s.writer.Appends bits s'.writer ∧ k ≤ tokens.length ∧
      Completes target (tokens.take k) s'.lens ∧ (code.maxLength = 0 → k = 0) ∧
      ∀ (r : LengthReading) (more : List Bool), r.reader.WellFormed → r.reader.bits = bits ++ more →
        code.maxLength - 1 ≤ more.length → k ≤ r.sink.room →
        ∃ r', readLengths dec code target r = .ok k r' ∧ r.sink.Gets (tokens.take k) r'.sink ∧
          r'.lens = s'.lens ∧ r.reader.Moves bits.length r'.reader := by
  rw [run_writeLengths] at h
  obtain ⟨ts, rest, hcov, rfl, rfl, hall⟩ :=
    writeTokens_ok (s := { s with lens := [] }) he hsize hlen hf hs h
  have htake : (ts.map Token.toByte ++ rest).take ts.length = ts.map Token.toByte := by
    rw [List.take_append_of_le_length (by simp), List.take_of_length_le (by simp)]
  rw [htake]
  refine ⟨_, hall.writer, by simp, hcov.completes hall.lens, fun hzero => ?_,
    fun r more hr hbits hmore hroom => ?_⟩
  · -- Without a code there is no token that could be written.
    refine List.length_eq_zero_iff.mpr (List.eq_nil_iff_forall_not_mem.mpr fun t ht => ?_)
    have := hall.coded t ht
    have := Lengths.lengthOf_le_maxLength code t.symbol
    omega
  · have hrest : r.reader.remaining - (tokenBits code ts).length = more.length := by
      rw [← BitReader.length_bits, hbits, List.length_append, Nat.add_sub_cancel_left]
    rcases readTokens_run (s := { r with lens := [] }) hd hf hr hcov hall.coded ⟨more, hbits.symm⟩
        hall.lens hroom with ⟨-, r', hok, hreads⟩ | ⟨hnot, -⟩
    · exact ⟨r', hok, hreads.sink, Option.some.inj (hreads.lens.symm.trans hall.lens), hreads.reader⟩
    · refine absurd (lookahead_of_le_succ hall.coded ?_) hnot
      dsimp only
      omega

/-- What was read is written again as the same bits, if there is room for them. -/
theorem writeLengths_of_readLengths (hd : dec.Decodes code) (he : enc.Encodes code)
    (hsize : codeLengthCount ≤ enc.size) (hlen : codeLengthCount ≤ code.length) (hf : code.Feasible)
    {r r' : LengthReading} (hr : r.reader.WellFormed)
    (h : readLengths dec code target r = .ok k r') :
    ∃ bits tokens, bits <+: r.reader.bits ∧ r.reader.Moves bits.length r'.reader ∧
      tokens.length = k ∧ r.sink.Gets tokens r'.sink ∧ Completes target tokens r'.lens ∧
      ∀ s : LengthWriting, s.writer.WellFormed → bits.length ≤ s.writer.room →
        ∃ s', writeLengths enc code tokens target s = .ok k s' ∧ s.writer.Appends bits s'.writer ∧
          s'.lens = r'.lens := by
  rw [run_readLengths] at h
  obtain ⟨ts, hcov, rfl, hall⟩ := readTokens_ok (s := { r with lens := [] }) hd hf hr h
  refine ⟨_, _, hall.bits, hall.reader, List.length_map Token.toByte, hall.sink,
    hcov.completes hall.lens, fun s hs hroom => ?_⟩
  rcases writeTokens_run (s := { s with lens := [] }) he hsize hlen hf [] hs hcov hall.coded
      hall.lens with ⟨-, s', hok, hwrites⟩ | ⟨hlt, -⟩
  · rw [List.append_nil] at hok
    exact ⟨s', hok, hwrites.writer, Option.some.inj (hwrites.lens.symm.trans hall.lens)⟩
  · exact absurd hroom (Nat.not_le.mpr hlt)

/-- For every code that is accepted, of 19 symbols or more, reading and writing code lengths undo each
other. What was written is read back by every reader at bits that begin with it, if the longest code less
one bit follows and there is room for the tokens; what was read is written back if there is room for
its bits. Either way the tokens are as many as the lengths need and no more, so the lengths go
beyond the target by less than a longest run. -/
theorem lengths_read_written {codeLens : Lengths} {t dec : LookupTable} {u enc : CodeTable}
    {book book' sorted sorted' : CodeBook} {n m : Nat} (hlen : codeLengthCount ≤ codeLens.length)
    (hmax : codeLens.length ≤ slotSymbols) (hsize : codeLengthCount ≤ u.size)
    (hdec : LookupTable.build codeLens (t, book) = .ok n (dec, sorted))
    (henc : CodeTable.build codeLens (u, book') = .ok m (enc, sorted')) (target : Nat) :
    (∀ buffer w, BitWriter.Reachable buffer w → ∀ tokens lens k s',
      writeLengths enc codeLens tokens target ⟨w, lens⟩ = .ok k s' →
      ∃ bits, w.Appends bits s'.writer ∧ k ≤ tokens.length ∧
        Completes target (tokens.take k) s'.lens ∧ (n = 0 → k = 0) ∧
        ∀ bytes r, BitReader.Reachable bytes r → ∀ more sink lens,
          (Bits.ofBytes bytes).drop r.consumed = bits ++ more → n - 1 ≤ more.length → k ≤ sink.room →
          ∃ r', readLengths dec codeLens target ⟨r, sink, lens⟩ = .ok k r' ∧
            sink.Gets (tokens.take k) r'.sink ∧ r'.lens = s'.lens ∧
            r'.reader.bits = more ∧ r'.reader.consumed = r.consumed + bits.length) ∧
    ∀ bytes r, BitReader.Reachable bytes r → ∀ sink lens k r',
      readLengths dec codeLens target ⟨r, sink, lens⟩ = .ok k r' →
      ∃ bits tokens, (Bits.ofBytes bytes).drop r.consumed = bits ++ r'.reader.bits ∧
        r'.reader.consumed = r.consumed + bits.length ∧ tokens.length = k ∧
        sink.Gets tokens r'.sink ∧ Completes target tokens r'.lens ∧
        ∀ buffer w, BitWriter.Reachable buffer w → ∀ lens, bits.length ≤ w.room →
          ∃ s', writeLengths enc codeLens tokens target ⟨w, lens⟩ = .ok k s' ∧
            w.Appends bits s'.writer ∧ s'.lens = r'.lens := by
  obtain ⟨hf, rfl, hd⟩ := LookupTable.decodes_of_build hmax hdec
  obtain ⟨-, he, hkeeps⟩ := CodeTable.encodes_of_build (Nat.le_trans hmax (by decide)) henc
  rw [← hkeeps] at hsize
  constructor
  · intro buffer w hw tokens lens k s' h
    obtain ⟨bits, happ, hk, hcompletes, hzero, hreads⟩ :=
      readLengths_of_writeLengths hd he hsize hlen hf hw.wellFormed h
    refine ⟨bits, happ, hk, hcompletes, hzero, fun bytes r hr more sink lens hbits hmore hroom => ?_⟩
    rw [← hr.bits_eq] at hbits
    obtain ⟨r', hok, hsink, hlens, hmoves⟩ :=
      hreads ⟨r, sink, lens⟩ more hr.wellFormed hbits hmore hroom
    exact ⟨r', hok, hsink, hlens, hmoves.bits_of_append hbits rfl, hmoves.consumed_eq⟩
  · intro bytes r hr sink lens k r' h
    obtain ⟨bits, tokens, ⟨rest, hrest⟩, hmoves, hk, hsink, hcompletes, hwrites⟩ :=
      writeLengths_of_readLengths hd he hsize hlen hf hr.wellFormed h
    have hbits := hmoves.bits_of_append hrest.symm rfl
    refine ⟨bits, tokens, ?_, hmoves.consumed_eq, hk, hsink, hcompletes,
      fun buffer w hw lens hroom => hwrites ⟨w, lens⟩ hw.wellFormed hroom⟩
    rw [← hr.bits_eq, hbits]
    exact hrest.symm

/-- A code of 20 symbols, of which 1, 16 and 19 have codes. -/
def twentyLengths : Lengths := [0, 1, 0, 0, 0, 0, 0, 0, 0, 0, 0, 0, 0, 0, 0, 0, 2, 0, 0, 2]

/-- The tokens for a 1 and four repetitions of it go two lengths beyond the target 3. They are written as five
bits, and read back with other bits after them. -/
theorem lengths_read_written_twenty : ∃ dec sorted enc sorted' s' r',
    LookupTable.build twentyLengths (.withCapacity 2, []) = .ok 2 (dec, sorted) ∧
    CodeTable.build twentyLengths (.withSize 19, []) = .ok 2 (enc, sorted') ∧
    writeLengths enc twentyLengths [1, 17] 3 ⟨.ofBuffer [0], [9]⟩ = .ok 2 s' ∧
    readLengths dec twentyLengths 3 ⟨.ofBytes [0b11101010], .ofBuffer [0, 0], [9]⟩ = .ok 2 r' ∧
    s'.lens = [1, 1, 1, 1, 1] ∧ r'.lens = [1, 1, 1, 1, 1] ∧ r'.reader.consumed = 5 := by
  have hdec : LookupTable.build twentyLengths (.withCapacity 2, []) = .ok 2 (_, _) := rfl
  have henc : CodeTable.build twentyLengths (.withSize 19, []) = .ok 2 (_, _) := rfl
  have hboth := lengths_read_written (by decide) (by decide) (by decide) hdec henc 3
  obtain ⟨bits, happ, -, -, -, hread⟩ := hboth.1 [0] _ .start [1, 17] [9] 2
    ⟨⟨#[], [0], 0b01010, 5⟩, [1, 1, 1, 1, 1]⟩ rfl
  obtain rfl : bits = [false, true, false, true, false] := happ.bits_eq.symm.trans (by decide)
  obtain ⟨r', hok, -, hlens, -, hconsumed⟩ := hread [0b11101010] _ .start [true, true, true]
    (.ofBuffer [0, 0]) [9] (by decide) (by decide) (by decide)
  exact ⟨_, _, _, _, _, r', hdec, henc, rfl, hok, rfl, hlens, hconsumed⟩

end DeflateHeader
