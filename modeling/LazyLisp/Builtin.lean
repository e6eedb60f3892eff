import LazyLisp.Arity

/-!
The built-in functions: their names and how many arguments each takes. The order of `all` is
the order in which their names enter the store of names.
-/

namespace LazyLisp
set_option autoImplicit false

inductive Builtin
  | add | subtract | multiply | divide | quot | rem | mod | inc | dec | max | min | numEqual
  | less | lessEqual | greater | greaterEqual | equal | isNil | isBoolean | isNumber | isInt
  | isFloat | isString | isChar | isSymbol | isKeyword | isFn | isMacro | isSeq | isVector
  | isMap | isVar | isNamespace | list | vector | vec | hashMap | cons | first | rest | next
  | seq | concat | nth | get | count | assoc | dissoc | conj | keys | vals | contains | lazySeq
  | reduce | str | subs | print | println | pr | prn | symbol | keyword | name | gensym | int
  | double | readString | eval | deref | nsSet | nsRefer | nsRemove | nsUnmap | nsName
  | rePattern | reFind | reMatches
deriving DecidableEq, Repr

namespace Builtin

def all : List Builtin :=
  [.add, .subtract, .multiply, .divide, .quot, .rem, .mod, .inc, .dec, .max, .min, .numEqual,
   .less, .lessEqual, .greater, .greaterEqual, .equal, .isNil, .isBoolean, .isNumber, .isInt,
   .isFloat, .isString, .isChar, .isSymbol, .isKeyword, .isFn, .isMacro, .isSeq, .isVector,
   .isMap, .isVar, .isNamespace, .list, .vector, .vec, .hashMap, .cons, .first, .rest, .next,
   .seq, .concat, .nth, .get, .count, .assoc, .dissoc, .conj, .keys, .vals, .contains,
   .lazySeq, .reduce, .str, .subs, .print, .println, .pr, .prn, .symbol, .keyword, .name,
   .gensym, .int, .double, .readString, .eval, .deref, .nsSet, .nsRefer, .nsRemove, .nsUnmap,
   .nsName, .rePattern, .reFind, .reMatches]

theorem mem_all (b : Builtin) : b ∈ all := by cases b <;> decide

def text : Builtin → String
  | add => "+"
  | subtract => "-"
  | multiply => "*"
  | divide => "/"
  | quot => "quot"
  | rem => "rem"
  | mod => "mod"
  | inc => "inc"
  | dec => "dec"
  | max => "max"
  | min => "min"
  | numEqual => "=="
  | less => "<"
  | lessEqual => "<="
  | greater => ">"
  | greaterEqual => ">="
  | equal => "="
  | isNil => "nil?"
  | isBoolean => "boolean?"
  | isNumber => "number?"
  | isInt => "int?"
  | isFloat => "float?"
  | isString => "string?"
  | isChar => "char?"
  | isSymbol => "symbol?"
  | isKeyword => "keyword?"
  | isFn => "fn?"
  | isMacro => "macro?"
  | isSeq => "seq?"
  | isVector => "vector?"
  | isMap => "map?"
  | isVar => "var?"
  | isNamespace => "namespace?"
  | list => "list"
  | vector => "vector"
  | vec => "vec"
  | hashMap => "hash-map"
  | cons => "cons"
  | first => "first"
  | rest => "rest"
  | next => "next"
  | seq => "seq"
  | concat => "concat"
  | nth => "nth"
  | get => "get"
  | count => "count"
  | assoc => "assoc"
  | dissoc => "dissoc"
  | conj => "conj"
  | keys => "keys"
  | vals => "vals"
  | contains => "contains?"
  | lazySeq => "lazy-seq*"
  | reduce => "reduce"
  | str => "str"
  | subs => "subs"
  | print => "print"
  | println => "println"
  | pr => "pr"
  | prn => "prn"
  | symbol => "symbol"
  | keyword => "keyword"
  | name => "name"
  | gensym => "gensym"
  | int => "int"
  | double => "double"
  | readString => "read-string"
  | eval => "eval"
  | deref => "deref"
  | nsSet => "ns-set"
  | nsRefer => "ns-refer"
  | nsRemove => "ns-remove"
  | nsUnmap => "ns-unmap"
  | nsName => "ns-name"
  | rePattern => "re-pattern"
  | reFind => "re-find"
  | reMatches => "re-matches"

def arity : Builtin → Arity
  | add | multiply | list | vector | hashMap | concat | str | print | println | pr | prn => .atLeast 0
  | subtract | divide | max | min | numEqual | less | lessEqual | greater | greaterEqual
  | equal | dissoc | conj => .atLeast 1
  | quot | rem | mod | cons | contains | nsUnmap | reFind | reMatches => .exactly 2
  | nth | get | reduce | subs => .between 2 3
  | assoc => .atLeast 3
  | symbol | keyword => .between 1 2
  | gensym => .between 0 1
  | _ => .exactly 1

/-- The function that a name denotes in the initial namespace. -/
def ofName? (name : String) : Option Builtin := all.find? fun b => b.text == name

end Builtin

end LazyLisp
