import Lexing.Json.Path
import Lexing.Json.Reader
import Lexing.Settings.Default
import Lexing.Settings.Document

namespace Lexing.Settings

def parseOver (base : Json) (text : String) : Except Error Settings :=
  match (do ofJson? (Json.overlay (← (← Json.parse? text).object?) base) : Option Settings) with
  | some s => .ok s
  | none => .error .settings

def parse (text : String) : Except Error Settings := parseOver (.object []) text

def extension (file : String) : List Char :=
  let name := (file.toList.reverse.takeWhile (· ≠ '/'))
  let suffix := name.takeWhile (· ≠ '.')
  if suffix.length + 1 < name.length then suffix.reverse else []

/-- Loads a file, given its name and what it contains, if it is there, over the settings that are
used otherwise: rules that it gives replace all of them, and paths lead to single ones. Only names
ending in json are understood. A mark of the byte order in front is no part of the document. -/
def load (file : String) (content : Option String) : Except Error (Settings × Event) := do
  match content with
  | none => .error .settings
  | some text =>
    if extension file ≠ "json".toList then .error .settings
    else
      let text := match text.toList with
        | '\uFEFF' :: rest => String.ofList rest
        | _ => text
      let s ← parseOver standard.toJson text
      return (s, .settingsLoaded s.rules.length file)

end Lexing.Settings
