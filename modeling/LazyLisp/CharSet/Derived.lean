import LazyLisp.CharSet.CaseFold
import LazyLisp.CharSet.Category
import LazyLisp.CharSet.Listed

/-!
The properties of code points that follow from categories, lists and case folding.
-/

namespace LazyLisp.CharSet
set_option autoImplicit false

def alphabetic : CharSet := (letter.union (category ["Nl"])).union otherAlphabetic

def lowercase : CharSet := (category ["Ll"]).union otherLowercase

def uppercase : CharSet := (category ["Lu"]).union otherUppercase

def titlecase : CharSet := category ["Lt"]

def cased : CharSet := (lowercase.union uppercase).union titlecase

def caseIgnorable : CharSet :=
  (category ["Mn", "Me", "Cf", "Lm", "Sk"]).union
    (ofText ["27 2E 3A B7 387 55F 5F4 2018-2019 2024 2027 FE13 FE52 FE55 FF07 FF0E FF1A"])

def math : CharSet := (category ["Sm"]).union otherMath

def defaultIgnorable : CharSet :=
  ((otherDefaultIgnorable.union (category ["Cf"])).union variationSelector).diff
    (prependedConcatenationMark.union (ofText ["FFF9-FFFB 13430-13440"]))

def ideographic : CharSet :=
  unifiedIdeograph.union (ofText
    ["3006-3007 3021-3029 3038-303A F900-FA0D FA10 FA12 FA15-FA1E FA20 FA22 FA25-FA26",
     "FA2A-FA6D FA70-FAD9 16FE4 17000-187F7 18800-18CD5 18CFF-18D08 1B170-1B2FB 2F800-2FA1D"])

def noncharacter : CharSet :=
  (0xFDD0, 0xFDEF) :: (List.range 17).map fun plane => (plane * 65536 + 65534, plane * 65536 + 65535)

def patternReserved : CharSet := patternSyntax.union patternWhiteSpace

def idStart : CharSet :=
  ((letter.union (category ["Nl"])).union otherIdStart).diff patternReserved

def idContinue : CharSet :=
  (idStart.union ((category ["Mn", "Mc", "Nd", "Pc"]).union otherIdContinue)).diff patternReserved

def unstable : CharSet :=
  ofText ["37A 309B-309C FC5E-FC63 FDFA-FDFB FE70 FE72 FE74 FE76 FE78 FE7A FE7C FE7E"]

def xidStart : CharSet := idStart.diff (unstable.union (ofText ["E33 EB3 FF9E-FF9F"]))

def xidContinue : CharSet := idContinue.diff unstable

def idCompatMathStart : CharSet :=
  ofText
    ["2202 2207 221E 1D6C1 1D6DB 1D6FB 1D715 1D735 1D74F 1D76F 1D789 1D7A9 1D7C3"]

def idCompatMathContinue : CharSet :=
  idCompatMathStart.union (ofText ["B2-B3 B9 2070 2074-207E 2080-208E"])

def graphemeExtend : CharSet := (category ["Mn", "Me"]).union otherGraphemeExtend

def graphemeBase : CharSet :=
  (category ["Cc", "Cf", "Cs", "Co", "Cn", "Zl", "Zp"]).complement.diff graphemeExtend

def changesWhenLowercased : CharSet :=
  (partnered.inter (uppercase.union titlecase)).union (single 0x130)

def changesWhenUppercased : CharSet :=
  ((partnered.diff changesWhenLowercased).union titlecase).union (ofText
    ["131 149 1F0 587 1E96-1E9A 1F50 1F52 1F54 1F56 1FB2 1FB4 1FB6-1FB7 1FC2 1FC4 1FC6-1FC7",
     "1FD2 1FD6-1FD7 1FE2 1FE4 1FE6-1FE7 1FF2 1FF4 1FF6-1FF7 FB00-FB04 FB13-FB17"])

def changesWhenTitlecased : CharSet :=
  (changesWhenUppercased.diff (titlecase.union (ofText ["10D0-10FA 10FD-10FF"]))).union
    (ofText ["1C4 1C7 1CA 1F1"])

def changesWhenCasefolded : CharSet :=
  (changesWhenLowercased.diff (ofText ["13A0-13F5"])).union (ofText
    ["B5 DF 149 17F 345 3C2 3D0-3D1 3D5-3D6 3F0-3F1 3F5 587 13F8-13FD 1C80-1C88 1E9A-1E9B",
     "1F80-1F87 1F90-1F97 1FA0-1FA7 1FB2-1FB4 1FB7 1FC2-1FC4 1FC7 1FF2-1FF4 1FF7 AB70-ABBF",
     "FB00-FB06 FB13-FB17"])

def changesWhenCasemapped : CharSet :=
  (changesWhenLowercased.union changesWhenUppercased).union changesWhenTitlecased

def word : CharSet :=
  (alphabetic.union mark).union ((category ["Nd", "Pc"]).union joinControl)

def numeric : CharSet := category ["Nd", "Nl", "No"]

end LazyLisp.CharSet
