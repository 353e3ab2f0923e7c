/-!
Blank characters, and the cutting of text at them. The set is that of Unicode white space, with the
four ASCII information separators.
-/

namespace Ember.Text

/-- Ranges of blank code points, ends included. -/
def blankRanges : List (Nat × Nat) :=
  [(0x09, 0x0d), (0x1c, 0x20), (0x85, 0x85), (0xa0, 0xa0), (0x1680, 0x1680), (0x2000, 0x200a),
   (0x2028, 0x2029), (0x202f, 0x202f), (0x205f, 0x205f), (0x3000, 0x3000)]

def isBlank (c : Char) : Bool :=
  blankRanges.any fun (low, high) => low ≤ c.toNat && c.toNat ≤ high

/-- Drops the characters of a class from both ends. -/
def trimBy (p : Char → Bool) (cs : List Char) : List Char :=
  ((cs.dropWhile p).reverse.dropWhile p).reverse

/-- The text without blanks at its ends. -/
def strip (s : String) : String :=
  String.ofList (trimBy isBlank s.toList)

/-- The first word of a text that starts with none, and what follows the blanks after it. -/
def splitWord (s : String) : String × String :=
  (String.ofList (s.toList.takeWhile (!isBlank ·)),
    String.ofList ((s.toList.dropWhile (!isBlank ·)).dropWhile isBlank))

end Ember.Text
