import GraphInterval.Text.Conjunct
import GraphInterval.Text.Mark
import GraphInterval.Text.Picture

/-!
# Roles of characters

What a character does to its neighbours when a text is cut into the signs that
a reader takes for one letter: whether it leans on the character before it or
after it, stands by itself, or waits for a partner, as the parts of Korean
syllables, consonants, pictures and the halves of flags do.  The data are those
of the property `Grapheme_Cluster_Break` of Unicode 17.
-/

namespace GraphInterval

namespace Cluster

/-- What a character does to its neighbours. -/
inductive Role where
  /-- Stands for no sign, and stays by itself. -/
  | control
  /-- Is set on the character before it. -/
  | mark
  /-- Is set on the character before it, and joins two pictures. -/
  | joiner
  /-- Belongs to the character before it, and takes up room of its own. -/
  | spacing
  /-- Belongs to the character after it. -/
  | leading
  /-- A consonant at the start of a syllable. -/
  | initial
  /-- A vowel of a syllable. -/
  | vowel
  /-- A consonant at the end of a syllable. -/
  | final
  /-- A syllable that ends in a vowel. -/
  | openSyllable
  /-- A syllable that ends in a consonant. -/
  | closedSyllable
  /-- A consonant that may be linked to another. -/
  | consonant
  /-- A picture, which may be joined to another. -/
  | picture
  /-- One of the two halves of a flag. -/
  | flag
  | other
  deriving DecidableEq, Repr, Inhabited

namespace Role

/-- Characters that are set on the character before them without being marks by category. -/
def extenders : CharSet :=
  ⟨[(0x9BE, 0x9BE), (0x9D7, 0x9D7), (0xB3E, 0xB3E), (0xB57, 0xB57), (0xBBE, 0xBBE), (0xBD7, 0xBD7),
    (0xCC0, 0xCC0), (0xCC2, 0xCC2), (0xCC7, 0xCC8), (0xCCA, 0xCCB), (0xCD5, 0xCD6), (0xD3E, 0xD3E),
    (0xD57, 0xD57), (0xDCF, 0xDCF), (0xDDF, 0xDDF), (0x1715, 0x1715), (0x1734, 0x1734),
    (0x1B35, 0x1B3D), (0x1B43, 0x1B44), (0x1BAA, 0x1BAA), (0x1BF2, 0x1BF3), (0x200C, 0x200C),
    (0x302E, 0x302F), (0xA953, 0xA953), (0xA9C0, 0xA9C0), (0xFF9E, 0xFF9F), (0x111C0, 0x111C0),
    (0x11235, 0x11235), (0x1133E, 0x1133E), (0x1134D, 0x1134D), (0x11357, 0x11357),
    (0x113B8, 0x113B8), (0x113C2, 0x113C2), (0x113C5, 0x113C5), (0x113C7, 0x113C9),
    (0x113CF, 0x113CF), (0x114B0, 0x114B0), (0x114BD, 0x114BD), (0x115AF, 0x115AF),
    (0x116B6, 0x116B6), (0x11930, 0x11930), (0x1193D, 0x1193D), (0x11F41, 0x11F41),
    (0x16FF0, 0x16FF1), (0x1D165, 0x1D166), (0x1D16D, 0x1D172), (0x1F3FB, 0x1F3FF),
    (0xE0020, 0xE007F)]⟩

/-- The zero width joiner. -/
def joinerSign : Char := '\u200d'

/-- The zero width non-joiner, which is set on a character and lets no consonant link over it. -/
def nonJoinerSign : Char := '\u200c'

/-- Vowel signs and the like that take up room.  The ranges may run over marks and extenders. -/
def spacingSigns : CharSet :=
  ⟨[(0x903, 0x903), (0x93B, 0x93B), (0x93E, 0x94F), (0x982, 0x983), (0x9BF, 0x9C0), (0x9C7, 0x9C8),
    (0x9CB, 0x9CC), (0xA03, 0xA03), (0xA3E, 0xA40), (0xA83, 0xA83), (0xABE, 0xAC0), (0xAC9, 0xAC9),
    (0xACB, 0xACC), (0xB02, 0xB03), (0xB40, 0xB40), (0xB47, 0xB48), (0xB4B, 0xB4C), (0xBBF, 0xBC2),
    (0xBC6, 0xBC8), (0xBCA, 0xBCC), (0xC01, 0xC03), (0xC41, 0xC44), (0xC82, 0xC83), (0xCBE, 0xCC4),
    (0xCF3, 0xCF3), (0xD02, 0xD03), (0xD3F, 0xD40), (0xD46, 0xD48), (0xD4A, 0xD4C), (0xD82, 0xD83),
    (0xDD0, 0xDD1), (0xDD8, 0xDDE), (0xDF2, 0xDF3), (0xE33, 0xE33), (0xEB3, 0xEB3), (0xF3E, 0xF3F),
    (0xF7F, 0xF7F), (0x1031, 0x1031), (0x103B, 0x103C), (0x1056, 0x1057), (0x1084, 0x1084),
    (0x17B6, 0x17C8), (0x1923, 0x192B), (0x1930, 0x1938), (0x1A19, 0x1A1A), (0x1A55, 0x1A57),
    (0x1A6D, 0x1A72), (0x1B04, 0x1B04), (0x1B3E, 0x1B41), (0x1B82, 0x1B82), (0x1BA1, 0x1BA7),
    (0x1BE7, 0x1BEE), (0x1C24, 0x1C35), (0x1CE1, 0x1CE1), (0x1CF7, 0x1CF7), (0xA823, 0xA827),
    (0xA880, 0xA881), (0xA8B4, 0xA8C3), (0xA952, 0xA952), (0xA983, 0xA983), (0xA9B4, 0xA9BF),
    (0xAA2F, 0xAA34), (0xAA4D, 0xAA4D), (0xAAEB, 0xAAEF), (0xAAF5, 0xAAF5), (0xABE3, 0xABEA),
    (0xABEC, 0xABEC), (0x11000, 0x11002), (0x11082, 0x11082), (0x110B0, 0x110B8),
    (0x1112C, 0x1112C), (0x11145, 0x11146), (0x11182, 0x11182), (0x111B3, 0x111BF),
    (0x111CE, 0x111CE), (0x1122C, 0x11233), (0x112E0, 0x112E2), (0x11302, 0x11303),
    (0x1133F, 0x11344), (0x11347, 0x11348), (0x1134B, 0x1134C), (0x11362, 0x11363),
    (0x113B9, 0x113BA), (0x113CA, 0x113CA), (0x113CC, 0x113CD), (0x11435, 0x11445),
    (0x114B1, 0x114C1), (0x115B0, 0x115B1), (0x115B8, 0x115BE), (0x11630, 0x1163E),
    (0x116AC, 0x116AF), (0x1171E, 0x1171E), (0x11726, 0x11726), (0x1182C, 0x11838),
    (0x11931, 0x11935), (0x11937, 0x11938), (0x11940, 0x11940), (0x11942, 0x11942),
    (0x119D1, 0x119D3), (0x119DC, 0x119DF), (0x119E4, 0x119E4), (0x11A39, 0x11A39),
    (0x11A57, 0x11A58), (0x11A97, 0x11A97), (0x11B61, 0x11B67), (0x11C2F, 0x11C2F),
    (0x11C3E, 0x11C3E), (0x11CA9, 0x11CB4), (0x11D8A, 0x11D8E), (0x11D93, 0x11D96),
    (0x11EF5, 0x11EF6), (0x11F03, 0x11F03), (0x11F34, 0x11F35), (0x11F3E, 0x11F3F),
    (0x1612A, 0x1612C), (0x16F51, 0x16F87)]⟩

/-- Signs that belong to the character after them. -/
def leadingSigns : CharSet :=
  ⟨[(0x600, 0x605), (0x6DD, 0x6DD), (0x70F, 0x70F), (0x890, 0x891), (0x8E2, 0x8E2), (0xD4E, 0xD4E),
    (0x110BD, 0x110BD), (0x110CD, 0x110CD), (0x111C2, 0x111C3), (0x113D1, 0x113D1),
    (0x1193F, 0x1193F), (0x11941, 0x11941), (0x11A84, 0x11A89), (0x11D46, 0x11D46),
    (0x11F02, 0x11F02)]⟩

def controls : CharSet :=
  ⟨[(0x0, 0x1F), (0x7F, 0x9F), (0xAD, 0xAD), (0x61C, 0x61C), (0x180E, 0x180E), (0x200B, 0x200B),
    (0x200E, 0x200F), (0x2028, 0x202E), (0x2060, 0x206F), (0xFEFF, 0xFEFF), (0xFFF0, 0xFFFB),
    (0x13430, 0x1343F), (0x1BCA0, 0x1BCA3), (0x1D173, 0x1D17A), (0xE0000, 0xE001F),
    (0xE0080, 0xE00FF), (0xE01F0, 0xE0FFF)]⟩

def initials : CharSet := ⟨[(0x1100, 0x115F), (0xA960, 0xA97C)]⟩

def vowels : CharSet :=
  ⟨[(0x1160, 0x11A7), (0xD7B0, 0xD7C6), (0x16D63, 0x16D63), (0x16D67, 0x16D6A)]⟩

def finals : CharSet := ⟨[(0x11A8, 0x11FF), (0xD7CB, 0xD7FB)]⟩

/-- The Korean syllables that are one character, in blocks of one open and 27 closed ones. -/
def syllables : CharSet := ⟨[(0xAC00, 0xD7A3)]⟩

/-- The letters that flags are spelt with, in pairs. -/
def flagHalves : CharSet := ⟨[(0x1F1E6, 0x1F1FF)]⟩

/-- The role of a character.  A set that may run over another one is asked after it. -/
def ofChar (c : Char) : Role :=
  if controls.contains c then control
  else if c == joinerSign then joiner
  else if CharSet.marks.contains c || extenders.contains c then mark
  else if spacingSigns.contains c then spacing
  else if leadingSigns.contains c then leading
  else if initials.contains c then initial
  else if vowels.contains c then vowel
  else if finals.contains c then final
  else if syllables.contains c then
    if (c.toNat - 0xAC00) % 28 = 0 then openSyllable else closedSyllable
  else if CharSet.conjunctConsonants.contains c then consonant
  else if CharSet.pictures.contains c then picture
  else if flagHalves.contains c then flag
  else other

/-- Whether characters of these roles hold together wherever they are neighbours. -/
def holdsTo : Role → Role → Bool
  | control, _ | _, control => false
  | initial, initial | initial, vowel | initial, openSyllable | initial, closedSyllable => true
  | openSyllable, vowel | openSyllable, final | vowel, vowel | vowel, final => true
  | closedSyllable, final | final, final => true
  | _, mark | _, joiner | _, spacing | leading, _ => true
  | _, _ => false

end Role

end Cluster

end GraphInterval
