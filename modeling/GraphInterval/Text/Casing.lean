import GraphInterval.Text.Cluster.Basic
import GraphInterval.Text.LetterCase

/-!
# Casings of names

A name is split into words, and the words are put together again in the manner
of a casing.  Words end at an underscore, a hyphen or a space, between a lower
and an upper letter, between letters and digits, and before the last letter of
an acronym that a lower letter follows.
-/

namespace GraphInterval

inductive Casing where
  | camel
  | pascal
  | snake
  | upperSnake
  | kebab
  | cobol
  | train
  | title
  | flat
  | upperFlat
  | upper
  | lower
  deriving DecidableEq, Repr, Inhabited

namespace Casing

def ofName? : String → Option Casing
  | "Camel" => some camel
  | "Pascal" => some pascal
  | "Snake" => some snake
  | "UpperSnake" => some upperSnake
  | "Kebab" => some kebab
  | "Cobol" => some cobol
  | "Train" => some train
  | "Title" => some title
  | "Flat" => some flat
  | "UpperFlat" => some upperFlat
  | "Upper" => some upper
  | "Lower" => some lower
  | _ => none

def isSeparator (c : Cluster) : Bool := c == ['_'] || c == ['-'] || c == [' ']

open LetterCase in
/-- Whether a word ends between two clusters. -/
def endsBetween (a b : Cluster) : Bool :=
  (isLower a && isUpper b) || (isUpper a && isDigit b) || (isDigit a && isUpper b) ||
    (isDigit a && isLower b) || (isLower a && isDigit b)

open LetterCase in
/-- Whether an acronym ends before the second of three clusters. -/
def endsAcronym (a b : Cluster) (next : Option Cluster) : Bool :=
  isUpper a && isUpper b && next.any isLower

/-- The words of the rest of a name, after the cluster `previous` and the part `word` of the
current word, in reverse. -/
def wordsFrom (previous : Option Cluster) (word : List Cluster) : List Cluster → List (List Cluster)
  | [] => [word.reverse]
  | c :: rest =>
      if isSeparator c then word.reverse :: wordsFrom (some c) [] rest
      else if previous.any fun a => endsBetween a c || endsAcronym a c rest.head? then
        word.reverse :: wordsFrom (some c) [c] rest
      else wordsFrom (some c) (c :: word) rest

/-- The words of a name. -/
def words (name : String) : List (List Char) :=
  ((wordsFrom none [] (Cluster.ofText name.toList)).map List.flatten).filter (!·.isEmpty)

open LetterCase in
/-- A word with its first character in upper case and the rest, read by itself, in lower case. -/
def capitalised : List Char → List Char
  | [] => []
  | first :: rest => LetterCase.upper first ++ lowerWord rest

/-- The text between two words. -/
def separator : Casing → String
  | snake | upperSnake => "_"
  | kebab | cobol | train => "-"
  | title | upper | lower => " "
  | camel | pascal | flat | upperFlat => ""

open LetterCase in
/-- The form of a word, where the first one may have a form of its own. -/
def word (casing : Casing) (isFirst : Bool) (w : List Char) : List Char :=
  match casing with
  | camel => if isFirst then lowerWord w else capitalised w
  | pascal | train | title => capitalised w
  | upperSnake | cobol | upperFlat | Casing.upper => upperWord w
  | snake | kebab | flat | Casing.lower => lowerWord w

/-- A name in the manner of a casing. -/
def apply (casing : Casing) (name : String) : String :=
  let formed := (words name).zipIdx.map fun (w, i) => String.ofList (casing.word (i == 0) w)
  casing.separator.intercalate formed

end Casing

end GraphInterval
