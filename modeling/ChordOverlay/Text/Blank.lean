import ChordOverlay.Text.CharRange

/-!
White space as Unicode defines it, and cutting it off the ends of a text.
-/

namespace ChordOverlay.Text

/-- The characters with the White_Space property. -/
def blanks : List CharRange :=
  [⟨0x9, 0xd⟩, ⟨0x20, 0x20⟩, ⟨0x85, 0x85⟩, ⟨0xa0, 0xa0⟩, ⟨0x1680, 0x1680⟩, ⟨0x2000, 0x200a⟩,
   ⟨0x2028, 0x2029⟩, ⟨0x202f, 0x202f⟩, ⟨0x205f, 0x205f⟩, ⟨0x3000, 0x3000⟩]

/-- Whether a character is white space. -/
def isBlank (c : Char) : Bool := blanks.any fun range => range.contains c

/-- The text behind the white space at its front. -/
def trimStart (text : List Char) : List Char := text.dropWhile isBlank

/-- The text before the white space at its end. -/
def trimEnd (text : List Char) : List Char := (text.reverse.dropWhile isBlank).reverse

/-- The text without the white space around it. -/
def trim (text : List Char) : List Char := trimEnd (trimStart text)

end ChordOverlay.Text
