import LazyLisp.CharSet.Derived
import LazyLisp.CharSet.Emoji
import LazyLisp.CharSet.Script

/-!
The classes of code points by which text is cut into graphemes, words and sentences.
-/

namespace LazyLisp.CharSet
set_option autoImplicit false

/-- Signs that stay with the code point behind them. -/
def prepend : CharSet :=
  prependedConcatenationMark.union
    (ofText ["D4E 111C2-111C3 113D1 1193F 11941 11A3A 11A84-11A89 11D46 11F02"])

/-- Hangul syllables without a final consonant. -/
def hangulOpen : CharSet := (List.range 399).map fun k => (0xAC00 + 28 * k, 0xAC00 + 28 * k)

def graphemeClassExtend : CharSet := graphemeExtend.union emojiModifier

/-- Controls, separators and invisible unassigned code points. -/
def graphemeControl : CharSet :=
  ((category ["Zl", "Zp", "Cc", "Cf"]).union (unassigned.inter defaultIgnorable)).diff
    ((graphemeClassExtend.union prepend).union (ofText ["A D 200C-200D"]))

/-- Spacing marks, but for those that start a syllable of their own. -/
def spacingMark : CharSet :=
  ((category ["Mc"]).union (ofText ["E33 EB3"])).diff (graphemeClassExtend.union (ofText
    ["102B-102C 1038 1062-1064 1067-106D 1083 1087-108C 108F 109A-109C 1A61 1A63-1A64 AA7B AA7D",
     "11720-11721"]))

/-- The classes for graphemes, by their spellings. -/
def graphemeClasses : List (List String × CharSet) :=
  [(["CN", "Control"], graphemeControl),
   (["CR"], ofText ["D"]),
   (["EX", "Extend"], graphemeClassExtend),
   (["L"], ofText ["1100-115F A960-A97C"]),
   (["LF"], ofText ["A"]),
   (["LV"], hangulOpen),
   (["LVT"], (ofText ["AC00-D7A3"]).diff hangulOpen),
   (["PP", "Prepend"], prepend),
   (["RI", "Regional_Indicator"], regionalIndicator),
   (["SM", "SpacingMark"], spacingMark),
   (["T"], ofText ["11A8-11FF D7CB-D7FB"]),
   (["V"], ofText ["1160-11A7 D7B0-D7C6 16D63 16D67-16D6A"]),
   (["ZWJ"], ofText ["200D"])]

/-- Signs in front of a number, read as part of it. -/
def numberSign : CharSet := prependedConcatenationMark.diff (ofText ["70F"])

def wordExtend : CharSet := graphemeClassExtend.union (category ["Mc"])

def wordKatakana : CharSet :=
  ((script "Kana").union (ofText ["3031-3035 309B-309C 30A0 30FC FF70"])).diff wordExtend

def wordHebrew : CharSet := (script "Hebr").inter (category ["Lo"])

/-- The scripts that are written without spaces between words. -/
def unspaced : CharSet :=
  normal (["Thai", "Laoo", "Mymr", "Khmr", "Tale", "Talu", "Lana", "Tavt", "Ahom"].flatMap script)

def wordLetter : CharSet :=
  (alphabetic.union (ofText
    ["2C2-2C5 2D2-2D7 2DE-2DF 2E5-2EB 2ED 2EF-2FF 55A-55C 55E 58A 5F3 70F A708-A716 A720-A721",
     "A789-A78A AB5B"])).diff
    (normal (ideographic ++ wordKatakana ++ unspaced ++ script "Hira" ++ wordExtend ++ wordHebrew))

/-- The classes for words, by their spellings. -/
def wordClasses : List (List String × CharSet) :=
  [(["LE", "ALetter"], wordLetter),
   (["CR"], ofText ["D"]),
   (["DQ", "Double_Quote"], ofText ["22"]),
   (["Extend"], wordExtend),
   (["EX", "ExtendNumLet"], (category ["Pc"]).union (ofText ["202F"])),
   (["FO", "Format"],
    (category ["Cf"]).diff
      ((wordExtend.union prependedConcatenationMark).union (ofText ["200B-200D"]))),
   (["HL", "Hebrew_Letter"], wordHebrew),
   (["KA", "Katakana"], wordKatakana),
   (["LF"], ofText ["A"]),
   (["ML", "MidLetter"], ofText ["3A B7 387 55F 5F4 2027 FE13 FE55 FF1A"]),
   (["MN", "MidNum"],
    ofText ["2C 3B 37E 589 60C-60D 66C 7F8 2044 FE10 FE14 FE50 FE54 FF0C FF1B"]),
   (["MB", "MidNumLet"], ofText ["2E 2018-2019 2024 FE52 FF07 FF0E"]),
   (["NL", "Newline"], ofText ["B-C 85 2028-2029"]),
   (["NU", "Numeric"], (digit.union numberSign).union (ofText ["66B"])),
   (["RI", "Regional_Indicator"], regionalIndicator),
   (["SQ", "Single_Quote"], ofText ["27"]),
   (["WSegSpace"], ofText ["20 1680 2000-2006 2008-200A 205F 3000"]),
   (["ZWJ"], ofText ["200D"])]

def sentenceExtend : CharSet :=
  (graphemeExtend.union (category ["Mc"])).union (ofText ["200D"])

def sentenceLower : CharSet :=
  lowercase.diff (graphemeExtend.union (ofText ["10D0-10FA 10FD-10FF"]))

def sentenceUpper : CharSet :=
  (titlecase.union uppercase).diff (ofText ["1C90-1CBA 1CBD-1CBF"])

/-- Full stops, which may also end an abbreviation. -/
def fullStop : CharSet := ofText ["2E 2024 FE52 FF0E"]

/-- The classes for sentences, by their spellings. -/
def sentenceClasses : List (List String × CharSet) :=
  [(["AT", "ATerm"], fullStop),
   (["CL", "Close"],
    ((category ["Ps", "Pe", "Pi", "Pf"]).union (ofText
      ["22 27 275B-2760 2E00-2E01 2E06-2E08 2E0B 1F676-1F678"])).diff sentenceTerminal),
   (["CR"], ofText ["D"]),
   (["EX", "Extend"], sentenceExtend),
   (["FO", "Format"],
    (category ["Cf"]).diff ((sentenceExtend.union numberSign).union (ofText ["200C-200D"]))),
   (["LF"], ofText ["A"]),
   (["LO", "Lower"], sentenceLower),
   (["NU", "Numeric"], (digit.union numberSign).union (ofText ["66B-66C"])),
   (["LE", "OLetter"],
    (alphabetic.union (ofText ["5F3"])).diff
      (normal (sentenceLower ++ sentenceUpper ++ sentenceExtend))),
   (["SC", "SContinue"],
    ofText
      ["2C-2D 3A-3B 37E 55D 60C-60D 7F8 1802 1808 2013-2014 3001 FE10-FE11 FE13-FE14 FE31-FE32",
       "FE50-FE51 FE54-FE55 FE58 FE63 FF0C-FF0D FF1A-FF1B FF64"]),
   (["SE", "Sep"], ofText ["85 2028-2029"]),
   (["SP", "Sp"], whiteSpace.diff (ofText ["A D 85 2028-2029"])),
   (["ST", "STerm"], sentenceTerminal.diff fullStop),
   (["UP", "Upper"], sentenceUpper)]

end LazyLisp.CharSet
