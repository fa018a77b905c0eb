import Fon9.Base.Base64

/-! Base64 over any text: blanks do not count, what is decoded is as long as it is said to be beforehand,
and nothing is written past the room for it. -/

namespace Fon9

variable {dstSize tails value count : ℕ} {out src res : Bytes}

/-- The text "QQ==" with blanks in it is a byte again. -/
example : base64Decode 1 [ch 'Q', ch ' ', ch 'Q', ch '=', ch '\n', ch '='] = .ok [ch 'A'] := by decide

end Fon9
