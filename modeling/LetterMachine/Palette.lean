/-!
# Terminal palette

Listings and traces mark the parts of a line with the escape sequences of a palette.  The plain
palette has no sequences, so text is laid out once for both.
-/

namespace LetterMachine

/-- The escape sequence that starts each kind of text, and the one that ends it. -/
structure Palette where
  heading : String := ""
  register : String := ""
  target : String := ""
  faint : String := ""
  reset : String := ""
  deriving DecidableEq, Repr

namespace Palette

def plain : Palette := {}

def coloured : Palette where
  heading := "\x1b[1m"
  register := "\x1b[34m"
  target := "\x1b[32m"
  faint := "\x1b[2m"
  reset := "\x1b[0m"

def choose (colour : Bool) : Palette :=
  if colour then coloured else plain

end Palette

end LetterMachine
