/-!
Texts as bytes.
-/

namespace BisayaPlus.Text

def decode? (bytes : List UInt8) : Option String :=
  String.fromUTF8? ⟨bytes.toArray⟩

end BisayaPlus.Text
