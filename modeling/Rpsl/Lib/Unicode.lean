import Mathlib.Data.List.Basic
import Mathlib.Tactic.Ring

/-!
# Letter case and digits in UTF-8 texts

A text is a list of bytes, each written as the character of that code. Its runes are read as Go
ranges over a string, a byte that begins no rune as U+FFFD, and letters change case rune by rune
by the simple mappings of Unicode 15.
-/

namespace Lib

/-! ## Runes -/

/-- `k` continuation bytes, six bits each, after the bits `r`. -/
def contBytes : Nat → Nat → List Char → Option Nat
  | 0, r, _ => some r
  | _ + 1, _, [] => none
  | k + 1, r, c :: s =>
    if 128 ≤ c.toNat ∧ c.toNat < 192 then contBytes k (r * 64 + (c.toNat - 128)) s else none

/-- A rune of `k` more bytes, of which `least` is the first, and its length. -/
def decodeLong (k least r : Nat) (s : List Char) : Nat × Nat :=
  match (contBytes k r s).filter fun r =>
      least ≤ r ∧ r < 0x110000 ∧ ¬ (0xD800 ≤ r ∧ r < 0xE000) with
  | some r => (r, k + 1)
  | none => (0xFFFD, 1)

/-- `utf8.DecodeRuneInString`: the first rune of a text and its length. -/
def decodeRune (a : Char) (s : List Char) : Nat × Nat :=
  if a.toNat < 128 then (a.toNat, 1)
  else if a.toNat < 192 then (0xFFFD, 1)
  else if a.toNat < 224 then decodeLong 1 0x80 (a.toNat - 192) s
  else if a.toNat < 240 then decodeLong 2 0x800 (a.toNat - 224) s
  else decodeLong 3 0x10000 (a.toNat - 240) s

/-- The runes of a text, when `skip` bytes of one are left to pass over. -/
def runesFrom : Nat → List Char → List Nat
  | _, [] => []
  | skip + 1, _ :: s => runesFrom skip s
  | 0, a :: s => (decodeRune a s).1 :: runesFrom ((decodeRune a s).2 - 1) s

def runes (s : List Char) : List Nat := runesFrom 0 s

/-- The last `k` bytes of a rune. -/
def contOf : Nat → Nat → List Char
  | 0, _ => []
  | k + 1, r => Char.ofNat (128 + r / 64 ^ k % 64) :: contOf k r

/-- `utf8.AppendRune`. -/
def encodeRune (r : Nat) : List Char :=
  if r < 0x80 then [Char.ofNat r]
  else if r < 0x800 then Char.ofNat (192 + r / 64) :: contOf 1 r
  else if r < 0x10000 then Char.ofNat (224 + r / 64 ^ 2) :: contOf 2 r
  else if r < 0x110000 then Char.ofNat (240 + r / 64 ^ 3) :: contOf 3 r
  else ['\xef', '\xbf', '\xbd']

/-! ## Tables -/

/-- Lower-case runes outside ASCII, from and to, in steps of one or two, and the upper case of the
first. Each is the lower case of its upper case. -/
def caseRanges : List (Nat × Nat × Nat × Nat) :=
  [(224, 246, 1, 192), (248, 254, 1, 216), (257, 303, 2, 256), (307, 311, 2, 306),
   (314, 328, 2, 313), (331, 375, 2, 330), (378, 382, 2, 377), (387, 389, 2, 386),
   (417, 421, 2, 416), (436, 438, 2, 435), (462, 476, 2, 461), (479, 495, 2, 478),
   (505, 543, 2, 504), (547, 563, 2, 546), (575, 576, 1, 11390), (583, 591, 2, 582),
   (598, 599, 1, 393), (650, 651, 1, 433), (881, 883, 2, 880), (891, 893, 1, 1021),
   (941, 943, 1, 904), (945, 961, 1, 913), (963, 971, 1, 931), (973, 974, 1, 910),
   (985, 1007, 2, 984), (1072, 1103, 1, 1040), (1104, 1119, 1, 1024), (1121, 1153, 2, 1120),
   (1163, 1215, 2, 1162), (1218, 1230, 2, 1217), (1233, 1327, 2, 1232), (1377, 1414, 1, 1329),
   (4304, 4346, 1, 7312), (4349, 4351, 1, 7357), (5112, 5117, 1, 5104), (7681, 7829, 2, 7680),
   (7841, 7935, 2, 7840), (7936, 7943, 1, 7944), (7952, 7957, 1, 7960), (7968, 7975, 1, 7976),
   (7984, 7991, 1, 7992), (8000, 8005, 1, 8008), (8017, 8023, 2, 8025), (8032, 8039, 1, 8040),
   (8048, 8049, 1, 8122), (8050, 8053, 1, 8136), (8054, 8055, 1, 8154), (8056, 8057, 1, 8184),
   (8058, 8059, 1, 8170), (8060, 8061, 1, 8186), (8064, 8071, 1, 8072), (8080, 8087, 1, 8088),
   (8096, 8103, 1, 8104), (8112, 8113, 1, 8120), (8144, 8145, 1, 8152), (8160, 8161, 1, 8168),
   (8560, 8575, 1, 8544), (9424, 9449, 1, 9398), (11312, 11359, 1, 11264),
   (11368, 11372, 2, 11367), (11393, 11491, 2, 11392), (11500, 11502, 2, 11499),
   (11520, 11557, 1, 4256), (42561, 42605, 2, 42560), (42625, 42651, 2, 42624),
   (42787, 42799, 2, 42786), (42803, 42863, 2, 42802), (42874, 42876, 2, 42873),
   (42879, 42887, 2, 42878), (42897, 42899, 2, 42896), (42903, 42921, 2, 42902),
   (42933, 42947, 2, 42932), (42952, 42954, 2, 42951), (42967, 42969, 2, 42966),
   (43888, 43967, 1, 5024), (65345, 65370, 1, 65313), (66600, 66639, 1, 66560),
   (66776, 66811, 1, 66736), (66967, 66977, 1, 66928), (66979, 66993, 1, 66940),
   (66995, 67001, 1, 66956), (67003, 67004, 1, 66964), (68800, 68850, 1, 68736),
   (71872, 71903, 1, 71840), (93792, 93823, 1, 93760), (125218, 125251, 1, 125184)]

/-- Single runes and their upper case. -/
def casePairs : List (Nat × Nat) :=
  [(255, 376), (384, 579), (392, 391), (396, 395), (402, 401), (405, 502), (409, 408), (410, 573),
   (414, 544), (424, 423), (429, 428), (432, 431), (441, 440), (445, 444), (447, 503), (454, 452),
   (457, 455), (460, 458), (477, 398), (499, 497), (501, 500), (572, 571), (578, 577),
   (592, 11375), (593, 11373), (594, 11376), (595, 385), (596, 390), (601, 399), (603, 400),
   (604, 42923), (608, 403), (609, 42924), (611, 404), (613, 42893), (614, 42922), (616, 407),
   (617, 406), (618, 42926), (619, 11362), (620, 42925), (623, 412), (625, 11374), (626, 413),
   (629, 415), (637, 11364), (640, 422), (642, 42949), (643, 425), (647, 42929), (648, 430),
   (649, 580), (652, 581), (658, 439), (669, 42930), (670, 42928), (887, 886), (940, 902),
   (972, 908), (983, 975), (1010, 1017), (1011, 895), (1016, 1015), (1019, 1018), (1231, 1216),
   (7545, 42877), (7549, 11363), (7566, 42950), (8115, 8124), (8131, 8140), (8165, 8172),
   (8179, 8188), (8526, 8498), (8580, 8579), (11361, 11360), (11365, 570), (11366, 574),
   (11379, 11378), (11382, 11381), (11507, 11506), (11559, 4295), (11565, 4301), (42892, 42891),
   (42900, 42948), (42961, 42960), (42998, 42997), (43859, 42931)]

/-- Runes with an upper case whose lower case is another rune. -/
def upperOnly : List (Nat × Nat) :=
  [(181, 924), (305, 73), (383, 83), (453, 452), (456, 455), (459, 458), (498, 497), (837, 921),
   (962, 931), (976, 914), (977, 920), (981, 934), (982, 928), (1008, 922), (1009, 929),
   (1013, 917), (7296, 1042), (7297, 1044), (7298, 1054), (7299, 1057), (7300, 1058),
   (7301, 1058), (7302, 1066), (7303, 1122), (7304, 42570), (7835, 7776), (8126, 921)]

/-- Runes with a lower case whose upper case is another rune. -/
def lowerOnly : List (Nat × Nat) :=
  [(304, 105), (453, 454), (456, 457), (459, 460), (498, 499), (1012, 952), (7838, 223),
   (8486, 969), (8490, 107), (8491, 229)]

/-- The zeros of the decimal digits (Nd), ten in a row. -/
def digitRuns : List Nat :=
  [48, 1632, 1776, 1984, 2406, 2534, 2662, 2790, 2918, 3046, 3174, 3302, 3430, 3558, 3664, 3792,
   3872, 4160, 4240, 6112, 6160, 6470, 6608, 6784, 6800, 6992, 7088, 7232, 7248, 42528, 43216,
   43264, 43472, 43504, 43600, 44016, 65296, 66720, 68912, 69734, 69872, 69942, 70096, 70384,
   70736, 70864, 71248, 71360, 71472, 71904, 72016, 72784, 73040, 73120, 73552, 92768, 92864,
   93008, 120782, 120792, 120802, 120812, 120822, 123200, 123632, 124144, 125264, 130032]

/-- White space, from and to. -/
def spaceRuns : List (Nat × Nat) :=
  [(9, 13), (32, 32), (133, 133), (160, 160), (5760, 5760), (8192, 8202), (8232, 8233),
   (8239, 8239), (8287, 8287), (12288, 12288)]

/-! ## Case -/

/-- `unicode.ToUpper`. -/
def upperRune (r : Nat) : Nat :=
  if r < 128 then (Char.ofNat r).toUpper.toNat
  else
    (upperOnly.lookup r <|> casePairs.lookup r <|> caseRanges.findSome? fun (lo, hi, step, up) =>
      if lo ≤ r ∧ r ≤ hi ∧ (r - lo) % step = 0 then some (up + (r - lo)) else none).getD r

/-- `unicode.ToLower`. -/
def lowerRune (r : Nat) : Nat :=
  if r < 128 then (Char.ofNat r).toLower.toNat
  else
    (lowerOnly.lookup r <|> (casePairs.find? (·.2 = r)).map Prod.fst <|>
      caseRanges.findSome? fun (lo, hi, step, up) =>
        if up ≤ r ∧ r ≤ up + (hi - lo) ∧ (r - up) % step = 0 then some (lo + (r - up))
        else none).getD r

/-- The rune that stands for those `unicode.SimpleFold` goes through: the dotted I and the dotless i
fold to themselves alone. -/
def foldRune (r : Nat) : Nat := if r = 0x130 ∨ r = 0x131 then r else lowerRune (upperRune r)

/-- `strings.ToUpper`. -/
def toUpper (s : List Char) : List Char := (runes s).flatMap fun r => encodeRune (upperRune r)

/-- `strings.ToLower`. -/
def toLower (s : List Char) : List Char := (runes s).flatMap fun r => encodeRune (lowerRune r)

/-- `strings.EqualFold`. -/
def equalFold (s t : List Char) : Bool := (runes s).map foldRune = (runes t).map foldRune

/-! ## Digits and white space -/

/-- The value of a decimal digit of any script. -/
def digitValue (r : Nat) : Option Nat :=
  (digitRuns.find? fun z => z ≤ r ∧ r < z + 10).map (r - ·)

/-- `unicode.IsSpace`. -/
def isSpaceRune (r : Nat) : Bool := spaceRuns.any fun (lo, hi) => lo ≤ r ∧ r ≤ hi

end Lib
