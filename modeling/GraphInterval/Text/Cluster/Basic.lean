import GraphInterval.Text.Cluster.Role

/-!
# Clusters

A cluster is what a reader takes for one letter: a character together with the
signs that lean on it, a syllable or conjunct spelt in parts, a joined picture
or a flag.  A text is cut into clusters from its start, and whether a cluster
takes up the next character depends on that cluster alone.
-/

namespace GraphInterval

/-- The characters of one letter. -/
abbrev Cluster := List Char

namespace Cluster

/-- Whether a sign may stand between two consonants of a conjunct. -/
def isConjunctSign (c : Char) : Bool :=
  Role.ofChar c == .joiner || (Role.ofChar c == .mark && c != Role.nonJoinerSign)

/-- Whether a cluster, read from its end, ends in a consonant with a linker among its signs. -/
def endsLinked (reversed : List Char) : Bool :=
  (reversed.takeWhile isConjunctSign).any CharSet.linkers.contains &&
    (reversed.dropWhile isConjunctSign).head?.any (Role.ofChar · == .consonant)

/-- Whether a cluster, read from its end, ends in a picture with its marks and then a joiner. -/
def endsJoinedPicture : List Char → Bool
  | [] => false
  | last :: earlier =>
      Role.ofChar last == .joiner &&
        (earlier.dropWhile (Role.ofChar · == .mark)).head?.any (Role.ofChar · == .picture)

/-- Whether a cluster, read from its end, ends in half of a flag. -/
def endsHalfFlag (reversed : List Char) : Bool :=
  (reversed.takeWhile (Role.ofChar · == .flag)).length % 2 == 1

/-- Whether a cluster, read from its end, takes up the character after it. -/
def takesUp : List Char → Char → Bool
  | [], _ => true
  | last :: earlier, c =>
      (last == '\r' && c == '\n') || (Role.ofChar last).holdsTo (Role.ofChar c) ||
        match Role.ofChar c with
        | .consonant => endsLinked (last :: earlier)
        | .picture => endsJoinedPicture (last :: earlier)
        | .flag => endsHalfFlag (last :: earlier)
        | _ => false

/-- The clusters of the rest of a text, after the part `reversed` of the current cluster. -/
def clustersFrom (reversed : List Char) : List Char → List Cluster
  | [] => [reversed.reverse]
  | c :: rest =>
      if takesUp reversed c then clustersFrom (c :: reversed) rest
      else reversed.reverse :: clustersFrom [c] rest

/-- The clusters of a text. -/
def ofText : List Char → List Cluster
  | [] => []
  | c :: rest => clustersFrom [c] rest

end Cluster

end GraphInterval
