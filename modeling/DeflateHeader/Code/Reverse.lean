import DeflateHeader.Bits

/-!
# Reversal of a bit field

Huffman codes are packed from their most significant bit on, all other fields from the least
significant one. Codes are therefore kept with their bits reversed, as they stand in the stream.
-/

namespace DeflateHeader

/-- The `width` low bits of `value` in reverse order; higher bits are dropped. -/
def bitReverse (value width : Nat) : Nat := Bits.toNat (Bits.ofNat width value).reverse

end DeflateHeader
