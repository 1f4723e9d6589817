import Linewise.Proofs.Display.Glyphs
/-!
Texts that are the UTF-8 encoding of Unicode scalar values. The marker bits of a lead byte tell how
many bytes its character takes, those of the other bytes that they belong to one, and the rest of the
bits are the code; so each encoding is read as the value that it encodes, whatever follows it.
-/
namespace Linewise

namespace Glyph

end Glyph

namespace Bytes

end Bytes
end Linewise
