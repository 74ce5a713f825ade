import DeflateHeader.Container
import DeflateHeader.Proofs.Outcomes
import Mathlib.Computability.Language
import Mathlib.Data.Nat.Bitwise

/-!
# What the readers of containers take

`gzipMember` is the language of gzip member headers, put together from the languages of its parts: ten
fixed bytes, and after them the fields that the flags announce. `Strips` says that a reader takes just
the words of a language off the front of its input, and `ReadsField` that it also fails for nothing but
lack of input. Both are closed under what the reader of a member header is made of, so that one strips
`gzipMember` (`strips_stripGzip`).

More input does not change the verdict of a reader unless it lacked input (`Stable`); for the reader of a
field this follows from what it takes. So a header is told by its first bytes (`stable_strip`), and a
beginning of a word is never invalid (`Strips.insufficientInput`).
-/

namespace DeflateHeader.Container

/-! ## Languages -/

/-- A field of `n` bytes. -/
def fixedField (n : Nat) : Language UInt8 := {h : List UInt8 | h.length = n}

/-- A length in two bytes, the low one first, and so many bytes. -/
def countedField : Language UInt8 :=
  {h : List UInt8 | ∃ low high body, h = low :: high :: body ∧
    body.length = low.toNat + 256 * high.toNat}

/-- Bytes other than zero, and a zero. -/
def textField : Language UInt8 := {h : List UInt8 | ∃ text, 0 ∉ text ∧ h = text ++ [0]}

/-- A field that is there if its flag is set. -/
def optionalField (flag : Bool) (field : Language UInt8) : Language UInt8 := if flag then field else 1

/-- The optional fields that the bits of the flags announce: bit 2 the extra field, bit 3 the name,
bit 4 the comment and bit 1 the checksum. -/
def gzipFields (flags : UInt8) : Language UInt8 :=
  optionalField (flags.toNat.testBit 2) countedField *
    (optionalField (flags.toNat.testBit 3) textField *
      (optionalField (flags.toNat.testBit 4) textField *
        optionalField (flags.toNat.testBit 1) (fixedField 2)))

/-- Two magic bytes, the method, flags without a reserved bit, the time, two more bytes, and the
optional fields. -/
def gzipMember : Language UInt8 :=
  {h : List UInt8 | ∃ flags fixed fields, flags &&& 0xE0 = 0 ∧ fixed ∈ fixedField 6 ∧
    fields ∈ gzipFields flags ∧ h = 0x1F :: 0x8B :: 0x08 :: flags :: (fixed ++ fields)}

/-! ## Readers -/

variable {L M : Language UInt8} {f g : List UInt8 → Except Error (List UInt8)}
  {bytes stream : List UInt8}

/-- `drop` takes the words of a language off the front of its input, and nothing else. -/
def Strips (language : Language UInt8) (drop : List UInt8 → Except Error (List UInt8)) : Prop :=
  ∀ data rest, drop data = .ok rest ↔ ∃ h ∈ language, data = h ++ rest

/-- More input at the end does not change what a reader of containers says, unless it lacked input. -/
def Stable (drop : List UInt8 → Except Error (List UInt8)) : Prop :=
  ∀ bytes more, drop bytes ≠ .error .insufficientInput →
    drop (bytes ++ more) = (drop bytes).map (· ++ more)

theorem Stable.ok {drop : List UInt8 → Except Error (List UInt8)} (h : Stable drop)
    {bytes rest : List UInt8} (hdrop : drop bytes = .ok rest) (more : List UInt8) :
    drop (bytes ++ more) = .ok (rest ++ more) := by
  have hmore := h bytes more
  rw [hdrop] at hmore
  exact hmore (by simp)

namespace Strips

/-- What two readers strip one after the other. -/
theorem bind (hf : Strips L f) (hg : Strips M g) :
    Strips (L * M) fun bytes => f bytes >>= g := by
  intro data rest
  dsimp only
  constructor
  · intro hrun
    obtain ⟨middle, hfirst, hsecond⟩ := ok_of_bind_except hrun
    obtain ⟨h, hh, rfl⟩ := (hf _ _).mp hfirst
    obtain ⟨h', hh', rfl⟩ := (hg _ _).mp hsecond
    exact ⟨h ++ h', Language.append_mem_mul hh hh', (List.append_assoc ..).symm⟩
  · rintro ⟨_, hmem, rfl⟩
    obtain ⟨h, hh, h', hh', rfl⟩ := Language.mem_mul.mp hmem
    have hfirst := (hf (h ++ h' ++ rest) (h' ++ rest)).mpr ⟨h, hh, List.append_assoc ..⟩
    have hsecond := (hg (h' ++ rest) rest).mpr ⟨h', hh', rfl⟩
    rw [hfirst]
    exact hsecond

theorem dropIf (hf : Strips L f) (flag : Bool) : Strips (optionalField flag L) (dropIf flag f) := by
  cases flag with
  | false =>
    intro data rest
    show Except.ok data = .ok rest ↔ ∃ h ∈ (1 : Language UInt8), data = h ++ rest
    simp [Language.mem_one]
  | true => exact hf

theorem isSuffix (hf : Strips L f) (h : f bytes = .ok stream) : stream <:+ bytes := by
  obtain ⟨word, -, rfl⟩ := (hf bytes stream).mp h
  exact List.suffix_append word stream

/-- The word at the front of an input is unique. -/
theorem unique (hf : Strips L f) {h h' rest rest' : List UInt8} (hh : h ∈ L) (hh' : h' ∈ L)
    (heq : h ++ rest = h' ++ rest') : h = h' := by
  have hrun := (hf (h ++ rest) rest).mpr ⟨h, hh, rfl⟩
  have hrun' := (hf (h' ++ rest') rest').mpr ⟨h', hh', rfl⟩
  rw [heq, hrun'] at hrun
  cases hrun
  exact List.append_cancel_right heq

/-- A word without its end is no invalid input: what it lacks may follow. -/
theorem insufficientInput (hf : Strips L f) (hs : Stable f) {h beginning : List UInt8} (hh : h ∈ L)
    (hpre : beginning <+: h) (hne : beginning ≠ h) : f beginning = .error .insufficientInput := by
  obtain ⟨more, rfl⟩ := hpre
  by_contra hother
  have hmore := hs beginning more hother
  rw [(hf _ []).mpr ⟨_, hh, (List.append_nil _).symm⟩] at hmore
  cases hrun : f beginning with
  | error e =>
    rw [hrun] at hmore
    cases hmore
  | ok rest =>
    rw [hrun] at hmore
    have hnil : [] = rest ++ more := Except.ok.inj hmore
    obtain ⟨-, rfl⟩ := List.append_eq_nil_iff.mp hnil.symm
    exact hne (List.append_nil _).symm

end Strips

/-- `drop` takes a word of the field, and fails only if there is not enough input for one. -/
structure ReadsField (field : Language UInt8) (drop : List UInt8 → Except Error (List UInt8)) : Prop where
  strips : Strips field drop
  lacking : ∀ {bytes e}, drop bytes = .error e → e = .insufficientInput

namespace ReadsField

theorem bind (hf : ReadsField L f) (hg : ReadsField M g) :
    ReadsField (L * M) fun bytes => f bytes >>= g where
  strips := hf.strips.bind hg.strips
  lacking {bytes e} h := by
    cases hfirst : f bytes with
    | ok middle =>
      rw [hfirst] at h
      exact hg.lacking h
    | error e' =>
      rw [hfirst] at h
      cases h
      exact hf.lacking hfirst

theorem dropIf (hf : ReadsField L f) (flag : Bool) :
    ReadsField (optionalField flag L) (dropIf flag f) where
  strips := hf.strips.dropIf flag
  lacking {bytes e} h := by
    cases flag with
    | false => cases h
    | true => exact hf.lacking h

/-- A field that is there is there whatever follows. -/
theorem stable (hf : ReadsField L f) : Stable f := by
  intro bytes more h
  cases hrun : f bytes with
  | ok rest =>
    obtain ⟨word, hword, rfl⟩ := (hf.strips bytes rest).mp hrun
    exact (hf.strips _ _).mpr ⟨word, hword, List.append_assoc ..⟩
  | error e =>
    cases hf.lacking hrun
    exact absurd hrun h

end ReadsField

/-! ## The fields of a member header -/

theorem readsField_dropExactly (n : Nat) : ReadsField (fixedField n) (dropExactly n) where
  strips := by
    intro data rest
    unfold dropExactly
    constructor
    · intro hrun
      split at hrun
      · next hn =>
        cases hrun
        exact ⟨data.take n, List.length_take_of_le hn, (List.take_append_drop n data).symm⟩
      · cases hrun
    · rintro ⟨h, rfl, rfl⟩
      rw [if_pos (by simp), List.drop_left]
  lacking h := by
    unfold dropExactly at h
    split at h <;> cases h
    rfl

theorem readsField_dropCounted : ReadsField countedField dropCounted where
  strips := by
    intro data rest
    constructor
    · intro hrun
      match data, hrun with
      | low :: high :: tail, hrun =>
        obtain ⟨body, hbody, rfl⟩ := ((readsField_dropExactly _).strips tail rest).mp hrun
        exact ⟨low :: high :: body, ⟨low, high, body, rfl, hbody⟩, rfl⟩
    · rintro ⟨_, ⟨low, high, body, rfl, hbody⟩, rfl⟩
      exact ((readsField_dropExactly _).strips _ rest).mpr ⟨body, hbody, rfl⟩
  lacking h := by
    unfold dropCounted at h
    split at h
    · exact (readsField_dropExactly _).lacking h
    · cases h
      rfl

/-- By induction on the bytes up to the zero. -/
theorem strips_dropText : Strips textField dropText := by
  intro data rest
  constructor
  · intro hrun
    induction data with
    | nil => cases hrun
    | cons byte data ih =>
      rw [dropText] at hrun
      split at hrun
      · next hzero =>
        cases hrun
        exact ⟨[0], ⟨[], List.not_mem_nil, rfl⟩, by rw [hzero]; rfl⟩
      · next hbyte =>
        obtain ⟨_, ⟨text, htext, rfl⟩, rfl⟩ := ih hrun
        refine ⟨byte :: text ++ [0], ⟨byte :: text, ?_, rfl⟩, rfl⟩
        rw [List.mem_cons, not_or]
        exact ⟨Ne.symm hbyte, htext⟩
  · rintro ⟨_, ⟨text, htext, rfl⟩, rfl⟩
    induction text with
    | nil => rfl
    | cons byte text ih =>
      rw [List.mem_cons, not_or] at htext
      rw [List.cons_append, List.cons_append, dropText, if_neg (Ne.symm htext.1)]
      exact ih htext.2

theorem readsField_dropText : ReadsField textField dropText where
  strips := strips_dropText
  lacking {bytes e} h := by
    induction bytes with
    | nil =>
      cases h
      rfl
    | cons byte rest ih =>
      rw [dropText] at h
      split at h
      · cases h
      · exact ih h

/-- A flag that is a single bit. -/
private theorem flag_eq_testBit (flags mask : UInt8) (i : Nat) (hmask : mask.toNat = 2 ^ i) :
    (flags &&& mask != 0) = flags.toNat.testBit i := by
  rw [Bool.eq_iff_iff, bne_iff_ne, ne_eq, ← UInt8.toNat_inj, UInt8.toNat_and, hmask, Nat.and_two_pow]
  cases flags.toNat.testBit i <;> simp

theorem readsField_dropGzipFields (flags : UInt8) :
    ReadsField (gzipFields flags) (dropGzipFields flags) := by
  unfold gzipFields dropGzipFields
  rw [← flag_eq_testBit flags 0x04 2 rfl, ← flag_eq_testBit flags 0x08 3 rfl,
    ← flag_eq_testBit flags 0x10 4 rfl, ← flag_eq_testBit flags 0x02 1 rfl]
  refine (readsField_dropCounted.dropIf _).bind ?_
  refine (readsField_dropText.dropIf _).bind ?_
  exact (readsField_dropText.dropIf _).bind ((readsField_dropExactly 2).dropIf _)

/-! ## Headers -/

theorem stable_stripZlib : Stable stripZlib := by
  intro bytes more
  fun_cases stripZlib bytes with
  | case1 cmf flg rest hcheck => exact fun _ => if_pos hcheck
  | case2 cmf flg rest hcheck hmethod => exact fun _ => (if_neg hcheck).trans (if_pos hmethod)
  | case3 cmf flg rest hcheck hmethod hdict =>
    exact fun _ => (if_neg hcheck).trans ((if_neg hmethod).trans (if_pos hdict))
  | case4 cmf flg rest hcheck hmethod hdict =>
    exact fun _ => (if_neg hcheck).trans ((if_neg hmethod).trans (if_neg hdict))
  | case5 => exact fun h => absurd rfl h

theorem stable_stripGzip : Stable stripGzip := by
  intro bytes more
  fun_cases stripGzip bytes with
  | case1 _ _ _ _ _ _ _ _ _ _ rest hmagic => exact fun _ => if_pos hmagic
  | case2 _ _ _ _ _ _ _ _ _ _ rest hmagic hmethod =>
    exact fun _ => (if_neg hmagic).trans (if_pos hmethod)
  | case3 _ _ _ _ _ _ _ _ _ _ rest hmagic hmethod hreserved =>
    exact fun _ => (if_neg hmagic).trans ((if_neg hmethod).trans (if_pos hreserved))
  | case4 _ _ _ flags _ _ _ _ _ _ rest hmagic hmethod hreserved =>
    intro h
    refine ((if_neg hmagic).trans ((if_neg hmethod).trans (if_neg hreserved))).trans ?_
    exact (readsField_dropGzipFields flags).stable rest more h
  | case5 => exact fun h => absurd rfl h

/-- Every container is told by its first bytes. -/
theorem stable_strip (container : Container) : Stable container.strip := by
  cases container with
  | raw => exact fun _ _ _ => rfl
  | zlib => exact stable_stripZlib
  | gzip => exact stable_stripGzip

/-- Ten bytes are enough to refuse what no member begins with, whatever comes after them. -/
theorem stripGzip_of_six (id₁ id₂ method flags : UInt8) {rest : List UInt8} (hlen : 6 ≤ rest.length) :
    stripGzip (id₁ :: id₂ :: method :: flags :: rest) =
      if id₁ ≠ 0x1F ∨ id₂ ≠ 0x8B then .error (.invalid (.invalidContainer .gzipMagic))
      else if method ≠ deflateMethod then .error (.invalid (.invalidContainer .gzipMethod))
      else if flags &&& 0xE0 ≠ 0 then .error (.invalid (.invalidContainer .gzipReserved))
      else dropGzipFields flags (rest.drop 6) := by
  match rest, hlen with
  | _ :: _ :: _ :: _ :: _ :: _ :: _, _ => rfl

theorem strips_stripGzip : Strips gzipMember stripGzip := by
  intro data rest
  constructor
  · intro hrun
    match data, hrun with
    | id₁ :: id₂ :: method :: flags :: b₁ :: b₂ :: b₃ :: b₄ :: b₅ :: b₆ :: tail, hrun =>
      rw [stripGzip] at hrun
      split_ifs at hrun with hmagic hmethod hreserved
      obtain ⟨rfl, rfl⟩ : id₁ = 0x1F ∧ id₂ = 0x8B := by simpa using hmagic
      obtain rfl : method = deflateMethod := not_not.mp hmethod
      obtain ⟨fields, hfields, rfl⟩ := ((readsField_dropGzipFields flags).strips tail rest).mp hrun
      have hmember : 0x1F :: 0x8B :: 0x08 :: flags :: ([b₁, b₂, b₃, b₄, b₅, b₆] ++ fields) ∈ gzipMember :=
        ⟨flags, _, fields, not_not.mp hreserved, rfl, hfields, rfl⟩
      exact ⟨_, hmember, rfl⟩
  · rintro ⟨_, ⟨flags, fixed, fields, hreserved, hfixed, hfields, rfl⟩, rfl⟩
    have hsix : fixed.length = 6 := hfixed
    have hlen : 6 ≤ (fixed ++ fields ++ rest).length := by
      simp only [List.length_append]
      omega
    have hdrop : (fixed ++ fields ++ rest).drop 6 = fields ++ rest := by
      rw [← hsix, List.append_assoc, List.drop_left]
    refine (stripGzip_of_six _ _ _ _ hlen).trans ?_
    rw [if_neg (by decide), if_neg (by decide), if_neg (not_not.mpr hreserved), hdrop]
    exact ((readsField_dropGzipFields flags).strips _ rest).mpr ⟨fields, hfields, rfl⟩

/-- A container only takes bytes away from the front. -/
theorem strip_isSuffix {container : Container} (h : container.strip bytes = .ok stream) :
    stream <:+ bytes := by
  cases container with
  | raw =>
    cases h
    exact List.suffix_refl bytes
  | zlib =>
    change stripZlib bytes = _ at h
    unfold stripZlib at h
    split at h
    · split_ifs at h
      cases h
      exact ⟨[_, _], rfl⟩
    · cases h
  | gzip => exact strips_stripGzip.isSuffix h

theorem drop_of_strip {container : Container} (h : container.strip bytes = .ok stream) :
    bytes.drop (bytes.length - stream.length) = stream := by
  obtain ⟨front, rfl⟩ := strip_isSuffix h
  rw [List.length_append, Nat.add_sub_cancel, List.drop_left]

/-- A gzip header is stripped just when a member header of the grammar stands at the front, which is
then the only one that does. Each beginning of a member header lacks input. Ten bytes or more that begin
with a wrong magic number, another method or a reserved flag are invalid, and the first of the three that
is wrong is reported. -/
theorem strip_gzip_grammar :
    (∀ data rest, gzip.strip data = .ok rest ↔ ∃ h ∈ gzipMember, data = h ++ rest) ∧
    (∀ h ∈ gzipMember, ∀ h' ∈ gzipMember, ∀ rest rest', h ++ rest = h' ++ rest' → h = h') ∧
    (∀ h ∈ gzipMember, ∀ beginning, beginning <+: h → beginning ≠ h →
      gzip.strip beginning = .error .insufficientInput) ∧
    (∀ id₁ id₂ method flags rest, 6 ≤ rest.length →
      let data := id₁ :: id₂ :: method :: flags :: rest
      ((id₁, id₂) ≠ (0x1F, 0x8B) →
        gzip.strip data = .error (.invalid (.invalidContainer .gzipMagic))) ∧
      ((id₁, id₂) = (0x1F, 0x8B) → method ≠ 0x08 →
        gzip.strip data = .error (.invalid (.invalidContainer .gzipMethod))) ∧
      ((id₁, id₂, method) = (0x1F, 0x8B, 0x08) → flags &&& 0xE0 ≠ 0 →
        gzip.strip data = .error (.invalid (.invalidContainer .gzipReserved)))) := by
  refine ⟨strips_stripGzip, ?_, ?_, ?_⟩
  · exact fun h hh h' hh' rest rest' heq => strips_stripGzip.unique hh hh' heq
  · exact fun h hh beginning => strips_stripGzip.insufficientInput stable_stripGzip hh
  · intro id₁ id₂ method flags rest hlen
    have hverdict := stripGzip_of_six id₁ id₂ method flags hlen
    refine ⟨fun hmagic => ?_, fun hmagic hmethod => ?_, fun hmagic hreserved => ?_⟩
    · refine hverdict.trans (if_pos ?_)
      rwa [← not_and_or, ← Prod.mk.injEq]
    · cases hmagic
      exact hverdict.trans (if_pos hmethod)
    · cases hmagic
      exact hverdict.trans (if_pos hreserved)

/-- A member header with all four optional fields, and what is left when it or its last byte is cut
off. -/
theorem strip_gzip_grammar_all_fields :
    let member : List UInt8 := [0x1F, 0x8B, 0x08, 0x1E, 0, 0, 0, 0, 0, 0xFF, 1, 0, 0x61, 0x62, 0, 0, 7, 7]
    member ∈ gzipMember ∧ gzip.strip (member ++ [0x4B]) = .ok [0x4B] ∧
      gzip.strip member.dropLast = .error .insufficientInput := by
  intro member
  have hmember : member ∈ gzipMember :=
    have hfields : [1, 0, 0x61] ++ ([0x62, 0] ++ ([0] ++ [7, 7])) ∈ gzipFields 0x1E :=
      Language.append_mem_mul ⟨1, 0, [0x61], rfl, rfl⟩
        (Language.append_mem_mul ⟨[0x62], by decide, rfl⟩
          (Language.append_mem_mul ⟨[], by decide, rfl⟩ rfl))
    ⟨0x1E, [0, 0, 0, 0, 0, 0xFF], _, by decide, rfl, hfields, rfl⟩
  obtain ⟨hstrip, -, hprefix, -⟩ := strip_gzip_grammar
  exact ⟨hmember, (hstrip _ _).mpr ⟨member, hmember, rfl⟩,
    hprefix member hmember _ (List.dropLast_prefix member) (by decide)⟩

end DeflateHeader.Container
