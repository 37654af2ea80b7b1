/-!
# Blank characters

The characters with the property White_Space: the blanks that may surround a
setting and stand between the parts of a timestamp.
-/

namespace WarmFeed
namespace Text

/-- The blanks beyond those of `Char.isWhitespace`. -/
def otherBlanks : List Nat :=
  [0x0b, 0x0c, 0x85, 0xa0, 0x1680, 0x2000, 0x2001, 0x2002, 0x2003, 0x2004, 0x2005, 0x2006,
    0x2007, 0x2008, 0x2009, 0x200a, 0x2028, 0x2029, 0x202f, 0x205f, 0x3000]

def isBlank (c : Char) : Bool := c.isWhitespace || otherBlanks.contains c.toNat

def trimStart (cs : List Char) : List Char := cs.dropWhile isBlank

def trim (cs : List Char) : List Char := (trimStart (trimStart cs).reverse).reverse

end Text
end WarmFeed
