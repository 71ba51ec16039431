import Libzorpll.CharSetReturns

/-! Character sets written as lists of items, and which of them z_charset_parse
reads as they are written. -/

namespace Libzorpll.CharSetItems

open CString Rounds CharSet CharSetRounds CharSetReturns

inductive Item
  | byte (b : UInt8) (hb : 1 ≤ b ∧ b ≤ 254)
  | range (lo hi : UInt8) (hlo : 1 ≤ lo) (hle : lo ≤ hi) (hhi : hi ≤ 254)

namespace Item

end Item

variable {items : List Item} {b lo hi x : UInt8} {s : List UInt8}

end Libzorpll.CharSetItems
