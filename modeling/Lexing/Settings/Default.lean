import Lexing.Settings

namespace Lexing.Settings

def letters : CharSet := (CharSet.range 'a' 'z').withRange 'A' 'Z'

def digits : CharSet := .range '0' '9'

def standard : Settings where
  rules := [
    { name := "comment"
      shapes := [
        .bounded "block-comment" "/*" "*/" none,
        .bounded "line-comment" "//" "\n" none] },
    { name := "string"
      shapes := [
        .bounded "string" "\"" "\"" (some '\\'),
        .bounded "char" "'" "'" (some '\\')] },
    { name := "block", compound := true, shapes := [.bounded "block" "\x7b" "\x7d" none] },
    { name := "group", compound := true, shapes := [.bounded "group" "(" ")" none] },
    { name := "index", compound := true, shapes := [.bounded "index" "[" "]" none] },
    { name := "identifier"
      shapes := [
        .identifier "identifier" (letters.withChars ['_'])
          ((letters.withRange '0' '9').withChars ['_']) '.'] },
    { name := "number"
      shapes := [
        .run "number"
          (((digits.withRange 'a' 'f').withRange 'A' 'F').withChars ['x', 'X', '.', '_'])
          (some digits)] },
    { name := "operator"
      shapes := [
        .words "operator"
          ["==", "!=", "<=", ">=", "&&", "||", "->", "::", "+=", "-=", "*=", "/="]] },
    { name := "punctuation"
      shapes := [.chars "punctuation" (.ofList "=<>+-*/%!&|^~?:;,".toList)] }]

end Lexing.Settings
