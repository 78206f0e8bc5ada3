import GraphInterval.Text.LetterPair
import GraphInterval.Text.Mark

/-!
# Upper and lower case

The upper and the lower form of a character and of a word.  A form may be
longer than the character, and the lower form of a capital sigma depends on its
place: at the end of a word it is `ς`.  Characters that are ignorable for case,
such as marks and apostrophes, do not count as the end of a word.
-/

namespace GraphInterval

namespace LetterCase

/-- The form of a character by a list of exceptions and a partner in the runs. -/
def form (exceptions : List (Nat × List Nat)) (partner? : PairRun → Nat → Option Nat)
    (c : Char) : List Char :=
  match exceptions.lookup c.toNat with
  | some codes => codes.map Char.ofNat
  | none =>
      match pairRuns.findSome? (partner? · c.toNat) with
      | some partner => [Char.ofNat partner]
      | none => [c]

def upper (c : Char) : List Char := form upperExceptions PairRun.upper? c

/-- The lower form of a character that stands by itself. -/
def lower (c : Char) : List Char := form lowerExceptions PairRun.lower? c

/-- Whether a character is a letter with a case. -/
def isCased (c : Char) : Bool := upper c != [c] || lower c != [c] || unpaired.contains c

/-- Characters other than marks that are passed over in search of the end of a word.  The ranges
may run over marks. -/
def ignorable : CharSet :=
  ⟨[(0x27, 0x27), (0x2E, 0x2E), (0x3A, 0x3A), (0x5E, 0x5E), (0x60, 0x60), (0xA8, 0xA8),
    (0xAD, 0xAD), (0xAF, 0xAF), (0xB4, 0xB4), (0xB7, 0xB8), (0x2B0, 0x2FF), (0x374, 0x375),
    (0x37A, 0x37A), (0x384, 0x385), (0x387, 0x387), (0x559, 0x559), (0x55F, 0x55F), (0x5F4, 0x5F4),
    (0x600, 0x605), (0x61C, 0x61C), (0x640, 0x640), (0x6DD, 0x6DD), (0x6E5, 0x6E6), (0x70F, 0x70F),
    (0x7F4, 0x7F5), (0x7FA, 0x7FA), (0x81A, 0x828), (0x888, 0x888), (0x890, 0x891), (0x8C9, 0x8E2),
    (0x971, 0x971), (0xE46, 0xE46), (0xEC6, 0xEC6), (0x10FC, 0x10FC), (0x17D7, 0x17D7),
    (0x180E, 0x180E), (0x1843, 0x1843), (0x1AA7, 0x1AA7), (0x1C78, 0x1C7D), (0x1D2C, 0x1D6A),
    (0x1D78, 0x1D78), (0x1D9B, 0x1DBF), (0x1FBD, 0x1FBD), (0x1FBF, 0x1FC1), (0x1FCD, 0x1FCF),
    (0x1FDD, 0x1FDF), (0x1FED, 0x1FEF), (0x1FFD, 0x1FFE), (0x200B, 0x200F), (0x2018, 0x2019),
    (0x2024, 0x2024), (0x2027, 0x2027), (0x202A, 0x202E), (0x2060, 0x2064), (0x2066, 0x206F),
    (0x2071, 0x2071), (0x207F, 0x207F), (0x2090, 0x209C), (0x2C7C, 0x2C7D), (0x2D6F, 0x2D6F),
    (0x2E2F, 0x2E2F), (0x3005, 0x3005), (0x3031, 0x3035), (0x303B, 0x303B), (0x309B, 0x309E),
    (0x30FC, 0x30FE), (0xA015, 0xA015), (0xA4F8, 0xA4FD), (0xA60C, 0xA60C), (0xA67F, 0xA67F),
    (0xA69C, 0xA69D), (0xA700, 0xA721), (0xA770, 0xA770), (0xA788, 0xA78A), (0xA7F1, 0xA7F4),
    (0xA7F8, 0xA7F9), (0xA9CF, 0xA9CF), (0xA9E6, 0xA9E6), (0xAA70, 0xAA70), (0xAADD, 0xAADD),
    (0xAAF3, 0xAAF4), (0xAB5B, 0xAB5F), (0xAB69, 0xAB6B), (0xFBB2, 0xFBC2), (0xFE13, 0xFE13),
    (0xFE52, 0xFE52), (0xFE55, 0xFE55), (0xFEFF, 0xFEFF), (0xFF07, 0xFF07), (0xFF0E, 0xFF0E),
    (0xFF1A, 0xFF1A), (0xFF3E, 0xFF3E), (0xFF40, 0xFF40), (0xFF70, 0xFF70), (0xFF9E, 0xFF9F),
    (0xFFE3, 0xFFE3), (0xFFF9, 0xFFFB), (0x10780, 0x10785), (0x10787, 0x107B0), (0x107B2, 0x107BA),
    (0x10D4E, 0x10D4E), (0x10D6F, 0x10D6F), (0x10EC5, 0x10EC5), (0x110BD, 0x110BD),
    (0x110CD, 0x110CD), (0x11DD9, 0x11DD9), (0x13430, 0x1343F), (0x16B40, 0x16B43),
    (0x16D40, 0x16D42), (0x16D6B, 0x16D6C), (0x16F93, 0x16F9F), (0x16FE0, 0x16FE1),
    (0x16FE3, 0x16FE3), (0x16FF2, 0x16FF3), (0x1AFF0, 0x1AFF3), (0x1AFF5, 0x1AFFB),
    (0x1AFFD, 0x1AFFE), (0x1BCA0, 0x1BCA3), (0x1D173, 0x1D17A), (0x1E030, 0x1E06D),
    (0x1E137, 0x1E13D), (0x1E4EB, 0x1E4EB), (0x1E6FF, 0x1E6FF), (0x1E94B, 0x1E94B),
    (0x1F3FB, 0x1F3FF), (0xE0001, 0xE0001), (0xE0020, 0xE007F)]⟩

/-- Whether a character is passed over in search of the end of a word. -/
def isIgnorable (c : Char) : Bool := CharSet.marks.contains c || ignorable.contains c

def capitalSigma : Char := 'Σ'

def finalSigma : Char := 'ς'

def upperWord (word : List Char) : List Char := word.flatMap upper

/-- Whether the word goes on with a letter. -/
def goesOn (rest : List Char) : Bool := (rest.dropWhile isIgnorable).head?.any isCased

/-- The lower form of the rest of a text, with or without a letter of the same word before it. -/
def lowerFrom (afterLetter : Bool) : List Char → List Char
  | [] => []
  | c :: rest =>
      let isFinal := c == capitalSigma && afterLetter && !goesOn rest
      (if isFinal then [finalSigma] else lower c) ++
        lowerFrom (if isIgnorable c then afterLetter else isCased c) rest

def lowerWord (word : List Char) : List Char := lowerFrom false word

/-- Whether a cluster is in upper case. -/
def isUpper (cluster : List Char) : Bool :=
  upperWord cluster != lowerWord cluster && cluster == upperWord cluster

/-- Whether a cluster is in lower case. -/
def isLower (cluster : List Char) : Bool :=
  upperWord cluster != lowerWord cluster && cluster == lowerWord cluster

/-- Whether a cluster is a digit from `0` to `9`. -/
def isDigit (cluster : List Char) : Bool := cluster.all Char.isDigit

end LetterCase

end GraphInterval
