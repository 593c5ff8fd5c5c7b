import RangeQuery.Settings.Document
import RangeQuery.Text.Blank

/-!
Settings from the surroundings of the program: variables that override switches, and the place of
the settings document.
-/

namespace RangeQuery

/-- The variables that override settings, as far as they are set. -/
structure Overrides where
  trace : Option String
  /-- The passes to switch off, between commas. -/
  disable : Option String
deriving DecidableEq, Inhabited

/-- The variables that say where the settings document is, as far as they are set. -/
structure Places where
  /-- The document itself. -/
  document : Option String
  /-- The directory of configuration documents. -/
  configDir : Option String
  /-- The directory of the user. -/
  home : Option String
deriving DecidableEq, Inhabited

namespace Settings

/-- Whether a variable asks for a trace. -/
def asksTrace (value : String) : Bool := ["1", "true", "yes"].contains (Text.trim value)

/-- Switch off the passes with some names; a name of no such pass counts for nothing. -/
def disableAll (s : Settings) (names : List String) : Settings :=
  names.foldl (fun s name => (s.disable? name).getD s) s

/-- Let the variables that are set override the settings. -/
def override (s : Settings) (overrides : Overrides) : Settings :=
  let s := match overrides.trace with
    | some value => { s with trace := asksTrace value }
    | none => s
  match overrides.disable with
  | some names => s.disableAll (Text.commaList names)
  | none => s

/-- The settings of a document, or the defaults where it holds none, under the overrides. -/
def load (document : Option String) (overrides : Overrides) : Settings :=
  let s := match ofDocument document with
    | .ok s => s
    | .error _ => defaults
  s.override overrides

end Settings

namespace Places

/-- A path below a directory. -/
def below (directory name : String) : String :=
  if directory.isEmpty || directory.endsWith "/" then directory ++ name
  else directory ++ "/" ++ name

/-- The directory of configuration documents: the one that is set, if its path starts at the root,
else the standard one of the user. -/
def configDirectory? (p : Places) : Option String :=
  match p.configDir.filter fun directory => directory.startsWith "/" with
  | some directory => some directory
  | none => p.home.map fun home => below home ".config"

/-- Where the settings document is: the place that is set, unless it is empty, else a document
below the directory of configuration documents. -/
def settingsPath? (p : Places) : Option String :=
  match p.document.filter fun path => !path.isEmpty with
  | some path => some path
  | none => p.configDirectory?.map fun directory =>
      below (below directory "objectquel") "optimizer.json"

end Places

end RangeQuery
