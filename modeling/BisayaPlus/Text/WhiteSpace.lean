import BisayaPlus.Text.Intervals

/-!
The characters with the property White_Space, and texts without them at their ends.
-/

namespace BisayaPlus.Text

/-- The code points of White_Space. The zero width space and the byte order mark are not among
them. -/
def whiteSpace : Intervals :=
  [(0x9, 0xD), (0x20, 0x20), (0x85, 0x85), (0xA0, 0xA0), (0x1680, 0x1680), (0x2000, 0x200A),
   (0x2028, 0x2029), (0x202F, 0x202F), (0x205F, 0x205F), (0x3000, 0x3000)]

def isWhiteSpace (c : Char) : Bool :=
  whiteSpace.contains c

def trimEnd (cs : List Char) : List Char :=
  (cs.reverse.dropWhile isWhiteSpace).reverse

def trim (cs : List Char) : List Char :=
  trimEnd (cs.dropWhile isWhiteSpace)

end BisayaPlus.Text
