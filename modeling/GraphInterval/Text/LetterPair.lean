import GraphInterval.Text.CharSet

/-!
# Pairs of letters

Most letters with a case come in pairs of one upper and one lower letter.  The
pairs are listed by runs; what does not fit into a pair is listed by itself, as
are the letters of one case that have no partner.  The data are those of
Unicode 17.
-/

namespace GraphInterval

namespace LetterCase

/-- A run of letter pairs. -/
inductive PairRun where
  /-- As many consecutive upper letters as lower ones. -/
  | shifted (upper lower count : Nat)
  /-- Upper and lower letters in turn, from an upper one to a lower one. -/
  | alternating (first last : Nat)
  deriving DecidableEq, Repr

/-- The lower partner of an upper letter in a run. -/
def PairRun.lower? : PairRun → Nat → Option Nat
  | shifted upper lower count, code =>
      if upper ≤ code ∧ code < upper + count then some (lower + (code - upper)) else none
  | alternating first last, code =>
      if first ≤ code ∧ code ≤ last ∧ (code - first) % 2 = 0 then some (code + 1) else none

/-- The upper partner of a lower letter in a run. -/
def PairRun.upper? : PairRun → Nat → Option Nat
  | shifted upper lower count, code =>
      if lower ≤ code ∧ code < lower + count then some (upper + (code - lower)) else none
  | alternating first last, code =>
      if first ≤ code ∧ code ≤ last ∧ (code - first) % 2 = 1 then some (code - 1) else none

/-- The pairs of upper and lower letters. -/
def pairRuns : List PairRun :=
  [.shifted 0x41 0x61 26, .shifted 0xC0 0xE0 23, .shifted 0xD8 0xF8 7, .alternating 0x100 0x12F,
    .alternating 0x132 0x137, .alternating 0x139 0x148, .alternating 0x14A 0x177,
    .shifted 0x178 0xFF 1, .alternating 0x179 0x17E, .shifted 0x181 0x253 1,
    .alternating 0x182 0x185, .shifted 0x186 0x254 1, .alternating 0x187 0x188,
    .shifted 0x189 0x256 2, .alternating 0x18B 0x18C, .shifted 0x18E 0x1DD 1,
    .shifted 0x18F 0x259 1, .shifted 0x190 0x25B 1, .alternating 0x191 0x192,
    .shifted 0x193 0x260 1, .shifted 0x194 0x263 1, .shifted 0x196 0x269 1, .shifted 0x197 0x268 1,
    .alternating 0x198 0x199, .shifted 0x19C 0x26F 1, .shifted 0x19D 0x272 1,
    .shifted 0x19F 0x275 1, .alternating 0x1A0 0x1A5, .shifted 0x1A6 0x280 1,
    .alternating 0x1A7 0x1A8, .shifted 0x1A9 0x283 1, .alternating 0x1AC 0x1AD,
    .shifted 0x1AE 0x288 1, .alternating 0x1AF 0x1B0, .shifted 0x1B1 0x28A 2,
    .alternating 0x1B3 0x1B6, .shifted 0x1B7 0x292 1, .alternating 0x1B8 0x1B9,
    .alternating 0x1BC 0x1BD, .shifted 0x1C4 0x1C6 1, .shifted 0x1C7 0x1C9 1,
    .shifted 0x1CA 0x1CC 1, .alternating 0x1CD 0x1DC, .alternating 0x1DE 0x1EF,
    .shifted 0x1F1 0x1F3 1, .alternating 0x1F4 0x1F5, .shifted 0x1F6 0x195 1,
    .shifted 0x1F7 0x1BF 1, .alternating 0x1F8 0x21F, .shifted 0x220 0x19E 1,
    .alternating 0x222 0x233, .shifted 0x23A 0x2C65 1, .alternating 0x23B 0x23C,
    .shifted 0x23D 0x19A 1, .shifted 0x23E 0x2C66 1, .alternating 0x241 0x242,
    .shifted 0x243 0x180 1, .shifted 0x244 0x289 1, .shifted 0x245 0x28C 1,
    .alternating 0x246 0x24F, .alternating 0x370 0x373, .alternating 0x376 0x377,
    .shifted 0x37F 0x3F3 1, .shifted 0x386 0x3AC 1, .shifted 0x388 0x3AD 3, .shifted 0x38C 0x3CC 1,
    .shifted 0x38E 0x3CD 2, .shifted 0x391 0x3B1 17, .shifted 0x3A3 0x3C3 9, .shifted 0x3CF 0x3D7 1,
    .alternating 0x3D8 0x3EF, .alternating 0x3F7 0x3F8, .shifted 0x3F9 0x3F2 1,
    .alternating 0x3FA 0x3FB, .shifted 0x3FD 0x37B 3, .shifted 0x400 0x450 16,
    .shifted 0x410 0x430 32, .alternating 0x460 0x481, .alternating 0x48A 0x4BF,
    .shifted 0x4C0 0x4CF 1, .alternating 0x4C1 0x4CE, .alternating 0x4D0 0x52F,
    .shifted 0x531 0x561 38, .shifted 0x10A0 0x2D00 38, .shifted 0x10C7 0x2D27 1,
    .shifted 0x10CD 0x2D2D 1, .shifted 0x13A0 0xAB70 80, .shifted 0x13F0 0x13F8 6,
    .alternating 0x1C89 0x1C8A, .shifted 0x1C90 0x10D0 43, .shifted 0x1CBD 0x10FD 3,
    .alternating 0x1E00 0x1E95, .alternating 0x1EA0 0x1EFF, .shifted 0x1F08 0x1F00 8,
    .shifted 0x1F18 0x1F10 6, .shifted 0x1F28 0x1F20 8, .shifted 0x1F38 0x1F30 8,
    .shifted 0x1F48 0x1F40 6, .shifted 0x1F59 0x1F51 1, .shifted 0x1F5B 0x1F53 1,
    .shifted 0x1F5D 0x1F55 1, .shifted 0x1F5F 0x1F57 1, .shifted 0x1F68 0x1F60 8,
    .shifted 0x1FB8 0x1FB0 2, .shifted 0x1FBA 0x1F70 2, .shifted 0x1FC8 0x1F72 4,
    .shifted 0x1FD8 0x1FD0 2, .shifted 0x1FDA 0x1F76 2, .shifted 0x1FE8 0x1FE0 2,
    .shifted 0x1FEA 0x1F7A 2, .shifted 0x1FEC 0x1FE5 1, .shifted 0x1FF8 0x1F78 2,
    .shifted 0x1FFA 0x1F7C 2, .shifted 0x2132 0x214E 1, .shifted 0x2160 0x2170 16,
    .alternating 0x2183 0x2184, .shifted 0x24B6 0x24D0 26, .shifted 0x2C00 0x2C30 48,
    .alternating 0x2C60 0x2C61, .shifted 0x2C62 0x26B 1, .shifted 0x2C63 0x1D7D 1,
    .shifted 0x2C64 0x27D 1, .alternating 0x2C67 0x2C6C, .shifted 0x2C6D 0x251 1,
    .shifted 0x2C6E 0x271 1, .shifted 0x2C6F 0x250 1, .shifted 0x2C70 0x252 1,
    .alternating 0x2C72 0x2C73, .alternating 0x2C75 0x2C76, .shifted 0x2C7E 0x23F 2,
    .alternating 0x2C80 0x2CE3, .alternating 0x2CEB 0x2CEE, .alternating 0x2CF2 0x2CF3,
    .alternating 0xA640 0xA66D, .alternating 0xA680 0xA69B, .alternating 0xA722 0xA72F,
    .alternating 0xA732 0xA76F, .alternating 0xA779 0xA77C, .shifted 0xA77D 0x1D79 1,
    .alternating 0xA77E 0xA787, .alternating 0xA78B 0xA78C, .shifted 0xA78D 0x265 1,
    .alternating 0xA790 0xA793, .alternating 0xA796 0xA7A9, .shifted 0xA7AA 0x266 1,
    .shifted 0xA7AB 0x25C 1, .shifted 0xA7AC 0x261 1, .shifted 0xA7AD 0x26C 1,
    .shifted 0xA7AE 0x26A 1, .shifted 0xA7B0 0x29E 1, .shifted 0xA7B1 0x287 1,
    .shifted 0xA7B2 0x29D 1, .shifted 0xA7B3 0xAB53 1, .alternating 0xA7B4 0xA7C3,
    .shifted 0xA7C4 0xA794 1, .shifted 0xA7C5 0x282 1, .shifted 0xA7C6 0x1D8E 1,
    .alternating 0xA7C7 0xA7CA, .shifted 0xA7CB 0x264 1, .alternating 0xA7CC 0xA7DB,
    .shifted 0xA7DC 0x19B 1, .alternating 0xA7F5 0xA7F6, .shifted 0xFF21 0xFF41 26,
    .shifted 0x10400 0x10428 40, .shifted 0x104B0 0x104D8 36, .shifted 0x10570 0x10597 11,
    .shifted 0x1057C 0x105A3 15, .shifted 0x1058C 0x105B3 7, .shifted 0x10594 0x105BB 2,
    .shifted 0x10C80 0x10CC0 51, .shifted 0x10D50 0x10D70 22, .shifted 0x118A0 0x118C0 32,
    .shifted 0x16E40 0x16E60 32, .shifted 0x16EA0 0x16EBB 25, .shifted 0x1E900 0x1E922 34]

/-- The characters whose upper form is not a partner of theirs. -/
def upperExceptions : List (Nat × List Nat) :=
  [(0xB5, [0x39C]), (0xDF, [0x53, 0x53]), (0x131, [0x49]), (0x149, [0x2BC, 0x4E]), (0x17F, [0x53]),
    (0x1C5, [0x1C4]), (0x1C8, [0x1C7]), (0x1CB, [0x1CA]), (0x1F0, [0x4A, 0x30C]), (0x1F2, [0x1F1]),
    (0x345, [0x399]), (0x390, [0x399, 0x308, 0x301]), (0x3B0, [0x3A5, 0x308, 0x301]),
    (0x3C2, [0x3A3]), (0x3D0, [0x392]), (0x3D1, [0x398]), (0x3D5, [0x3A6]), (0x3D6, [0x3A0]),
    (0x3F0, [0x39A]), (0x3F1, [0x3A1]), (0x3F5, [0x395]), (0x587, [0x535, 0x552]),
    (0x1C80, [0x412]), (0x1C81, [0x414]), (0x1C82, [0x41E]), (0x1C83, [0x421]), (0x1C84, [0x422]),
    (0x1C85, [0x422]), (0x1C86, [0x42A]), (0x1C87, [0x462]), (0x1C88, [0xA64A]),
    (0x1E96, [0x48, 0x331]), (0x1E97, [0x54, 0x308]), (0x1E98, [0x57, 0x30A]),
    (0x1E99, [0x59, 0x30A]), (0x1E9A, [0x41, 0x2BE]), (0x1E9B, [0x1E60]), (0x1F50, [0x3A5, 0x313]),
    (0x1F52, [0x3A5, 0x313, 0x300]), (0x1F54, [0x3A5, 0x313, 0x301]),
    (0x1F56, [0x3A5, 0x313, 0x342]), (0x1F80, [0x1F08, 0x399]), (0x1F81, [0x1F09, 0x399]),
    (0x1F82, [0x1F0A, 0x399]), (0x1F83, [0x1F0B, 0x399]), (0x1F84, [0x1F0C, 0x399]),
    (0x1F85, [0x1F0D, 0x399]), (0x1F86, [0x1F0E, 0x399]), (0x1F87, [0x1F0F, 0x399]),
    (0x1F88, [0x1F08, 0x399]), (0x1F89, [0x1F09, 0x399]), (0x1F8A, [0x1F0A, 0x399]),
    (0x1F8B, [0x1F0B, 0x399]), (0x1F8C, [0x1F0C, 0x399]), (0x1F8D, [0x1F0D, 0x399]),
    (0x1F8E, [0x1F0E, 0x399]), (0x1F8F, [0x1F0F, 0x399]), (0x1F90, [0x1F28, 0x399]),
    (0x1F91, [0x1F29, 0x399]), (0x1F92, [0x1F2A, 0x399]), (0x1F93, [0x1F2B, 0x399]),
    (0x1F94, [0x1F2C, 0x399]), (0x1F95, [0x1F2D, 0x399]), (0x1F96, [0x1F2E, 0x399]),
    (0x1F97, [0x1F2F, 0x399]), (0x1F98, [0x1F28, 0x399]), (0x1F99, [0x1F29, 0x399]),
    (0x1F9A, [0x1F2A, 0x399]), (0x1F9B, [0x1F2B, 0x399]), (0x1F9C, [0x1F2C, 0x399]),
    (0x1F9D, [0x1F2D, 0x399]), (0x1F9E, [0x1F2E, 0x399]), (0x1F9F, [0x1F2F, 0x399]),
    (0x1FA0, [0x1F68, 0x399]), (0x1FA1, [0x1F69, 0x399]), (0x1FA2, [0x1F6A, 0x399]),
    (0x1FA3, [0x1F6B, 0x399]), (0x1FA4, [0x1F6C, 0x399]), (0x1FA5, [0x1F6D, 0x399]),
    (0x1FA6, [0x1F6E, 0x399]), (0x1FA7, [0x1F6F, 0x399]), (0x1FA8, [0x1F68, 0x399]),
    (0x1FA9, [0x1F69, 0x399]), (0x1FAA, [0x1F6A, 0x399]), (0x1FAB, [0x1F6B, 0x399]),
    (0x1FAC, [0x1F6C, 0x399]), (0x1FAD, [0x1F6D, 0x399]), (0x1FAE, [0x1F6E, 0x399]),
    (0x1FAF, [0x1F6F, 0x399]), (0x1FB2, [0x1FBA, 0x399]), (0x1FB3, [0x391, 0x399]),
    (0x1FB4, [0x386, 0x399]), (0x1FB6, [0x391, 0x342]), (0x1FB7, [0x391, 0x342, 0x399]),
    (0x1FBC, [0x391, 0x399]), (0x1FBE, [0x399]), (0x1FC2, [0x1FCA, 0x399]),
    (0x1FC3, [0x397, 0x399]), (0x1FC4, [0x389, 0x399]), (0x1FC6, [0x397, 0x342]),
    (0x1FC7, [0x397, 0x342, 0x399]), (0x1FCC, [0x397, 0x399]), (0x1FD2, [0x399, 0x308, 0x300]),
    (0x1FD3, [0x399, 0x308, 0x301]), (0x1FD6, [0x399, 0x342]), (0x1FD7, [0x399, 0x308, 0x342]),
    (0x1FE2, [0x3A5, 0x308, 0x300]), (0x1FE3, [0x3A5, 0x308, 0x301]), (0x1FE4, [0x3A1, 0x313]),
    (0x1FE6, [0x3A5, 0x342]), (0x1FE7, [0x3A5, 0x308, 0x342]), (0x1FF2, [0x1FFA, 0x399]),
    (0x1FF3, [0x3A9, 0x399]), (0x1FF4, [0x38F, 0x399]), (0x1FF6, [0x3A9, 0x342]),
    (0x1FF7, [0x3A9, 0x342, 0x399]), (0x1FFC, [0x3A9, 0x399]), (0xFB00, [0x46, 0x46]),
    (0xFB01, [0x46, 0x49]), (0xFB02, [0x46, 0x4C]), (0xFB03, [0x46, 0x46, 0x49]),
    (0xFB04, [0x46, 0x46, 0x4C]), (0xFB05, [0x53, 0x54]), (0xFB06, [0x53, 0x54]),
    (0xFB13, [0x544, 0x546]), (0xFB14, [0x544, 0x535]), (0xFB15, [0x544, 0x53B]),
    (0xFB16, [0x54E, 0x546]), (0xFB17, [0x544, 0x53D])]

/-- The characters whose lower form is not a partner of theirs. -/
def lowerExceptions : List (Nat × List Nat) :=
  [(0x130, [0x69, 0x307]), (0x1C5, [0x1C6]), (0x1C8, [0x1C9]), (0x1CB, [0x1CC]), (0x1F2, [0x1F3]),
    (0x3F4, [0x3B8]), (0x1E9E, [0xDF]), (0x1F88, [0x1F80]), (0x1F89, [0x1F81]), (0x1F8A, [0x1F82]),
    (0x1F8B, [0x1F83]), (0x1F8C, [0x1F84]), (0x1F8D, [0x1F85]), (0x1F8E, [0x1F86]),
    (0x1F8F, [0x1F87]), (0x1F98, [0x1F90]), (0x1F99, [0x1F91]), (0x1F9A, [0x1F92]),
    (0x1F9B, [0x1F93]), (0x1F9C, [0x1F94]), (0x1F9D, [0x1F95]), (0x1F9E, [0x1F96]),
    (0x1F9F, [0x1F97]), (0x1FA8, [0x1FA0]), (0x1FA9, [0x1FA1]), (0x1FAA, [0x1FA2]),
    (0x1FAB, [0x1FA3]), (0x1FAC, [0x1FA4]), (0x1FAD, [0x1FA5]), (0x1FAE, [0x1FA6]),
    (0x1FAF, [0x1FA7]), (0x1FBC, [0x1FB3]), (0x1FCC, [0x1FC3]), (0x1FFC, [0x1FF3]),
    (0x2126, [0x3C9]), (0x212A, [0x6B]), (0x212B, [0xE5])]

/-- The letters that have a case and no other form.  The ranges may run over paired letters. -/
def unpaired : CharSet :=
  ⟨[(0xAA, 0xAA), (0xBA, 0xBA), (0x138, 0x1BA), (0x1BE, 0x1BE), (0x221, 0x293), (0x296, 0x2B8),
    (0x2C0, 0x2C1), (0x2E0, 0x2E4), (0x37A, 0x37A), (0x3D2, 0x3D4), (0x3FC, 0x3FC), (0x560, 0x588),
    (0x10FC, 0x10FC), (0x1D00, 0x1DBF), (0x1E9C, 0x1E9F), (0x2071, 0x2071), (0x207F, 0x207F),
    (0x2090, 0x209C), (0x2102, 0x2102), (0x2107, 0x2107), (0x210A, 0x2113), (0x2115, 0x2115),
    (0x2119, 0x211D), (0x2124, 0x2124), (0x2128, 0x2128), (0x212C, 0x212D), (0x212F, 0x2134),
    (0x2139, 0x2139), (0x213C, 0x213F), (0x2145, 0x2149), (0x2C71, 0x2CE4), (0xA69C, 0xA69D),
    (0xA730, 0xA778), (0xA78E, 0xA78E), (0xA795, 0xA7AF), (0xA7F1, 0xA7F4), (0xA7F8, 0xA7FA),
    (0xAB30, 0xAB5A), (0xAB5C, 0xAB69), (0x10780, 0x10780), (0x10783, 0x10785), (0x10787, 0x107B0),
    (0x107B2, 0x107BA), (0x1D400, 0x1D454), (0x1D456, 0x1D49C), (0x1D49E, 0x1D49F),
    (0x1D4A2, 0x1D4A2), (0x1D4A5, 0x1D4A6), (0x1D4A9, 0x1D4AC), (0x1D4AE, 0x1D4B9),
    (0x1D4BB, 0x1D4BB), (0x1D4BD, 0x1D4C3), (0x1D4C5, 0x1D505), (0x1D507, 0x1D50A),
    (0x1D50D, 0x1D514), (0x1D516, 0x1D51C), (0x1D51E, 0x1D539), (0x1D53B, 0x1D53E),
    (0x1D540, 0x1D544), (0x1D546, 0x1D546), (0x1D54A, 0x1D550), (0x1D552, 0x1D6A5),
    (0x1D6A8, 0x1D6C0), (0x1D6C2, 0x1D6DA), (0x1D6DC, 0x1D6FA), (0x1D6FC, 0x1D714),
    (0x1D716, 0x1D734), (0x1D736, 0x1D74E), (0x1D750, 0x1D76E), (0x1D770, 0x1D788),
    (0x1D78A, 0x1D7A8), (0x1D7AA, 0x1D7C2), (0x1D7C4, 0x1D7CB), (0x1DF00, 0x1DF09),
    (0x1DF0B, 0x1DF1E), (0x1DF25, 0x1DF2A), (0x1E030, 0x1E06D), (0x1F130, 0x1F149),
    (0x1F150, 0x1F169), (0x1F170, 0x1F189)]⟩

end LetterCase

end GraphInterval
