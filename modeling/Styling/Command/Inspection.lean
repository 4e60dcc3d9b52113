import Styling.Cascade.Settings.Reader
import Styling.Command
import Styling.Command.Report
import Styling.Json.Encoding
import Styling.Token.Lexer

/-! # Inspecting style sheets

What each command reports. Files are read one after the other, and what was reported before a
file that cannot be read stays reported.
-/
namespace Styling.Inspection
open Terminal

def readFile (read : TextReader) (file : String) : Except CommandError String :=
  match read (Utf8.encode file.toList) with
  | .ok text => .ok text
  | .error why => .error (.unreadable file why)

/-! ## Tokens -/

def tokenLine (t : Token) : String :=
  dimmed (flushRight 4 (toString t.line)) ++ ":" ++ dimmed (flushLeft 6 (toString t.start)) ++
    " " ++ t.kind.label

def tokens (text : String) (json : Bool) : Report :=
  let ts := tokenize text
  if json then .line (Json.list (ts.map Token.toJson)).text else .lines (ts.map tokenLine)

/-! ## Faults and contents -/

def errorMark : String := bold (red "error")
def warningMark : String := bold (yellow "warning")
def successMark : String := bold (green "ok")

def faultLine (file : String) (f : Fault) : String :=
  errorMark ++ ": " ++ file ++ ":" ++ toString f.line ++ ": " ++ f.cause.message ++ " (offset " ++
    toString f.offset ++ ")"

def faultReport (file : String) (faults : List Fault) : Report :=
  (Report.errorLines (faults.map (faultLine file))).withStatus (if faults.isEmpty then 0 else 1)

def checkSheet (file : String) (sheet : ParsedSheet) : Report :=
  if sheet.faults.isEmpty then
    .line (successMark ++ " " ++ file ++ " (" ++ toString sheet.stylesheet.rulesets.length ++
      " rulesets)")
  else faultReport file sheet.faults

/-- Checks files up to one that cannot be read. -/
def check (read : TextReader) : List String → Report
  | [] => .empty
  | file :: files =>
    match readFile read file with
    | .error e => e.report
    | .ok text => (checkSheet file (.ofText text)).append (check read files)

def dumpSheet (file : String) (sheet : ParsedSheet) (json : Bool) : Report :=
  (faultReport file sheet.faults).append
    (if json then .line sheet.stylesheet.toJson.text else .write sheet.stylesheet.text)

/-! ## Styles of an element -/

def readSettings (read : TextReader) : Option String → Except CommandError Settings
  | none => .ok .default
  | some file =>
    match readFile read file with
    | .error e => .error e
    | .ok text =>
      match Settings.read text with
      | .ok settings => .ok settings
      | .error why => .error (.badSettings file why)

def failureLine (f : Origin × Source × LoadError) : String :=
  errorMark ++ ": [" ++ f.1.name ++ "] " ++ f.2.2.message

def warningLines (f : Origin × Source × List Fault) : List String :=
  f.2.2.map fun fault => warningMark ++ ": " ++ f.2.1.display ++ ": " ++ fault.text

def manager (read : TextReader) (settings : Settings) (userAgent author : List String) :
    Manager :=
  let add (o : Origin) (m : Manager) (file : String) : Manager :=
    m.addStylesheet read o none file
  author.foldl (add .author) (userAgent.foldl (add .userAgent) (.new settings))

/-- Sheets that cannot be read and faults in sheets; they stop nothing. -/
def sheetReport (m : Manager) : Report :=
  .errorLines (m.failures.map failureLine ++ m.faults.flatMap warningLines)

def stylesJson (matched : List MatchedRuleset) (styles : AppliedStyles) : Json :=
  (Json.record [("matched", .list (matched.map MatchedRuleset.toJson)),
    ("applied", styles.toJson)]).sorted

def rulesetLine (m : MatchedRuleset) : String :=
  dimmed ("[" ++ m.origin.name ++ "]") ++ " " ++ bold (SelectorGroup.text m.ruleset.selectors) ++
    " " ++ dimmed ("(" ++ m.source.display ++ ")")

def winnerLine (entry : String × AppliedDeclaration) : String :=
  let d := entry.2.declaration
  bold entry.1 ++ ": " ++ d.valueText ++ (if d.important then " !important" else "") ++ " " ++
    dimmed ("(" ++ entry.2.origin.name ++ ")")

def stylesLines (matched : List MatchedRuleset) (styles : AppliedStyles) : List String :=
  matched.map rulesetLine ++ (if matched.isEmpty then [] else [""]) ++
    (if styles.entries.isEmpty then [dimmed "no declarations apply"] else []) ++
    styles.entries.map winnerLine

def styles (read : TextReader) (settings : Option String) (element : String)
    (userAgent author : List String) (rules json : Bool) : Except CommandError Report :=
  match readSettings read settings with
  | .error e => .error e
  | .ok settings =>
    match ElementPath.build element with
    | .error e => .error (.badPath e)
    | .ok target =>
      let m := manager read settings userAgent author
      let model := target.document.model
      let matched := if rules then m.matching model target.overrides target.target else []
      let styles := m.apply model target.overrides target.target
      .ok ((sheetReport m).append
        (if json then .line (stylesJson matched styles).text
        else .lines (stylesLines matched styles)))

/-! ## Commands -/

def onFile (read : TextReader) (file : String) (report : String → Report) : Report :=
  match readFile read file with
  | .error e => e.report
  | .ok text => report text

def run (read : TextReader) (i : Invocation) : Report :=
  match i.command with
  | .tokens file json => onFile read file fun text => tokens text json
  | .check files => check read files
  | .dump file json => onFile read file fun text => dumpSheet file (.ofText text) json
  | .styles element userAgent author rules json =>
    .ofResult (styles read i.settings element userAgent author rules json)

end Styling.Inspection
