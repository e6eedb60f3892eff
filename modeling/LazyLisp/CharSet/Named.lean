import LazyLisp.CharSet.Age
import LazyLisp.CharSet.ScriptExtension
import LazyLisp.CharSet.Segment

/-!
Sets of characters by the names of their properties. A property that holds or does not hold is
named alone; a category or a script may be named alone too; every other property is named with
one of its values.
-/

namespace LazyLisp.CharSet
set_option autoImplicit false

/-- The properties that hold or do not hold, by their spellings. -/
def binaryProperties : List (List String × CharSet) :=
  [(["AHex", "ASCII_Hex_Digit"], asciiHexDigit),
   (["Alpha", "Alphabetic"], alphabetic),
   (["Bidi_C", "Bidi_Control"], bidiControl),
   (["Bidi_M", "Bidi_Mirrored"], bidiMirrored),
   (["CI", "Case_Ignorable"], caseIgnorable),
   (["Cased"], cased),
   (["CWCF", "Changes_When_Casefolded"], changesWhenCasefolded),
   (["CWCM", "Changes_When_Casemapped"], changesWhenCasemapped),
   (["CWL", "Changes_When_Lowercased"], changesWhenLowercased),
   (["CWT", "Changes_When_Titlecased"], changesWhenTitlecased),
   (["CWU", "Changes_When_Uppercased"], changesWhenUppercased),
   (["Dash"], dash),
   (["DI", "Default_Ignorable_Code_Point"], defaultIgnorable),
   (["Dep", "Deprecated"], deprecated),
   (["Dia", "Diacritic"], diacritic),
   (["Emoji"], emoji),
   (["EComp", "Emoji_Component"], emojiComponent),
   (["EMod", "Emoji_Modifier"], emojiModifier),
   (["EBase", "Emoji_Modifier_Base"], emojiModifierBase),
   (["EPres", "Emoji_Presentation"], emojiPresentation),
   (["ExtPict", "Extended_Pictographic"], extendedPictographic),
   (["Ext", "Extender"], extender),
   (["Gr_Base", "Grapheme_Base"], graphemeBase),
   (["Gr_Ext", "Grapheme_Extend"], graphemeExtend),
   (["Gr_Link", "Grapheme_Link"], graphemeLink),
   (["Hex", "Hex_Digit"], hexDigit),
   (["Hyphen"], hyphen),
   (["IDSB", "IDS_Binary_Operator"], idsBinaryOperator),
   (["IDST", "IDS_Trinary_Operator"], idsTrinaryOperator),
   (["IDSU", "IDS_Unary_Operator"], idsUnaryOperator),
   (["ID_Compat_Math_Continue"], idCompatMathContinue),
   (["ID_Compat_Math_Start"], idCompatMathStart),
   (["IDC", "ID_Continue"], idContinue),
   (["IDS", "ID_Start"], idStart),
   (["Ideo", "Ideographic"], ideographic),
   (["Join_C", "Join_Control"], joinControl),
   (["LOE", "Logical_Order_Exception"], logicalOrderException),
   (["Lower", "Lowercase"], lowercase),
   (["Math"], math),
   (["MCM", "Modifier_Combining_Mark"], modifierCombiningMark),
   (["NChar", "Noncharacter_Code_Point"], noncharacter),
   (["OAlpha", "Other_Alphabetic"], otherAlphabetic),
   (["ODI", "Other_Default_Ignorable_Code_Point"], otherDefaultIgnorable),
   (["OGr_Ext", "Other_Grapheme_Extend"], otherGraphemeExtend),
   (["OIDC", "Other_ID_Continue"], otherIdContinue),
   (["OIDS", "Other_ID_Start"], otherIdStart),
   (["OLower", "Other_Lowercase"], otherLowercase),
   (["OMath", "Other_Math"], otherMath),
   (["OUpper", "Other_Uppercase"], otherUppercase),
   (["Pat_Syn", "Pattern_Syntax"], patternSyntax),
   (["Pat_WS", "Pattern_White_Space"], patternWhiteSpace),
   (["PCM", "Prepended_Concatenation_Mark"], prependedConcatenationMark),
   (["QMark", "Quotation_Mark"], quotationMark),
   (["Radical"], radical),
   (["RI", "Regional_Indicator"], regionalIndicator),
   (["STerm", "Sentence_Terminal"], sentenceTerminal),
   (["SD", "Soft_Dotted"], softDotted),
   (["Term", "Terminal_Punctuation"], terminalPunctuation),
   (["UIdeo", "Unified_Ideograph"], unifiedIdeograph),
   (["Upper", "Uppercase"], uppercase),
   (["VS", "Variation_Selector"], variationSelector),
   (["WSpace", "White_Space", "space"], whiteSpace),
   (["XIDC", "XID_Continue"], xidContinue),
   (["XIDS", "XID_Start"], xidStart)]

/-- A name without the blanks, underscores and hyphens in it, in lower case. Characters outside
ASCII are left out as well, and so is `is` in front. The name `isc` alone is kept, because it
is no spelling of `c`. -/
def looseName (name : String) : String :=
  let loosen (cs : List Char) : String :=
    String.ofList ((cs.filter fun c =>
      c.toNat < 128 && c != ' ' && c != '_' && c != '-').map Char.toLower)
  match name.toList with
  | a :: b :: rest =>
    if a.toLower == 'i' && b.toLower == 's' then
      let short := loosen rest
      if short == "c" then "isc" else short
    else loosen (a :: b :: rest)
  | cs => loosen cs

/-- The entry of a table under a name that has been loosened. -/
def lookUp? {α : Type} (table : List (List String × α)) (name : String) : Option α :=
  (table.find? fun e => e.1.any fun spelling => looseName spelling == name).map (·.2)

def category? (name : String) : Option CharSet :=
  match name with
  | "any" => some full
  | "assigned" => some unassigned.complement
  | "ascii" => some [(0, 127)]
  | _ => (lookUp? categoryNames name).map category

/-- The code of a script. -/
def scriptCode? (name : String) : Option String :=
  (scripts.find? fun s => s.1.any fun spelling => looseName spelling == name).bind (·.1.head?)

/-- The version that a name such as `9.0` or `v90` stands for. -/
def version? (name : String) : Option String :=
  (ages.map (·.1)).find? fun v =>
    v == name || "v" ++ String.ofList (v.toList.filter (· != '.')) == name

/-- The set of a property, a category or a script named alone. -/
def named? (name : String) : Option CharSet :=
  let name := looseName name
  (lookUp? binaryProperties name).or
    ((category? name).or ((scriptCode? name).map script))

/-- The set of the code points for which a property has a value. -/
def valued? (property value : String) : Option CharSet :=
  let value := looseName value
  match looseName property with
  | "gc" | "generalcategory" => category? value
  | "sc" | "script" => (scriptCode? value).map script
  | "scx" | "scriptextensions" => (scriptCode? value).map scriptExtension
  | "age" => (version? value).bind age?
  | "gcb" | "graphemeclusterbreak" => lookUp? graphemeClasses value
  | "wb" | "wordbreak" => lookUp? wordClasses value
  | "sb" | "sentencebreak" => lookUp? sentenceClasses value
  | _ => none

end LazyLisp.CharSet
