import Styling.Command

/-! # Arguments of a command line

Options may stand anywhere and may hold their value or be followed by it; after `--` there are no
options. The first argument that is no option names the command, the others are files.
-/
namespace Styling

structure OptionForm where
  name : String
  letter : Option Char
  /-- Whether a value belongs to the option. -/
  valued : Bool

/-- Options with their values, empty where there is none, and the other arguments. -/
structure Arguments where
  options : List (String × String)
  plain : List String
  deriving DecidableEq, Repr

inductive Argument
  | plain
  | endOfOptions
  | complete (name value : String)
  | awaitsValue (name : String)
  | unknown

namespace Argument

def isDash (c : Char) : Bool := c == '-'

def ofLong (forms : List OptionForm) (body : List Char) : Argument :=
  let name := String.ofList (body.takeWhile (· != '='))
  match forms.find? (·.name == name), body.dropWhile (· != '=') with
  | none, _ => unknown
  | some form, [] => if form.valued then awaitsValue name else complete name ""
  | some form, _ :: value => if form.valued then complete name (String.ofList value) else unknown

def ofShort (forms : List OptionForm) (letter : Char) (body : List Char) : Argument :=
  match forms.find? (·.letter == some letter) with
  | none => unknown
  | some form =>
    if !form.valued then unknown
    else
      match body with
      | [] => awaitsValue form.name
      | '=' :: value => complete form.name (String.ofList value)
      | value => complete form.name (String.ofList value)

def ofChars (forms : List OptionForm) (cs : List Char) : Argument :=
  match cs with
  | [] => plain
  | [_] => plain
  | a :: b :: rest =>
    if !isDash a then plain
    else if !isDash b then ofShort forms b rest
    else if rest.isEmpty then endOfOptions
    else ofLong forms rest

def looksLikeOption (text : String) : Bool := 1 < text.length && text.toList.head?.any isDash

end Argument
namespace Arguments

def addPlain (text : String) (a : Arguments) : Arguments := { a with plain := text :: a.plain }

def addOption (name value : String) (a : Arguments) : Arguments :=
  { a with options := (name, value) :: a.options }

def read? (forms : List OptionForm) : List String → Option Arguments
  | [] => some ⟨[], []⟩
  | text :: rest =>
    match Argument.ofChars forms text.toList with
    | .plain => (read? forms rest).map (addPlain text)
    | .endOfOptions => some ⟨[], rest⟩
    | .complete name value => (read? forms rest).map (addOption name value)
    | .awaitsValue name =>
      match rest with
      | [] => none
      | value :: rest =>
        if Argument.looksLikeOption value then none
        else (read? forms rest).map (addOption name value)
    | .unknown => none

def values (a : Arguments) (name : String) : List String :=
  (a.options.filter (·.1 == name)).map Prod.snd

def has (a : Arguments) (name : String) : Bool := !(a.values name).isEmpty

def fit (a : Arguments) (once repeatable : List String) : Bool :=
  a.options.all (fun o => once.contains o.1 || repeatable.contains o.1) &&
    once.all fun name => (a.values name).length ≤ 1

end Arguments
namespace Invocation

def settingsOption : String := "config"
def jsonOption : String := "json"
def elementOption : String := "element"
def userAgentOption : String := "user-agent"
def rulesOption : String := "rules"

def forms : List OptionForm :=
  [⟨settingsOption, none, true⟩, ⟨jsonOption, none, false⟩, ⟨elementOption, some 'e', true⟩,
    ⟨userAgentOption, none, true⟩, ⟨rulesOption, none, false⟩]

def command? (a : Arguments) : Option Command :=
  let fit (once : List String) (c : Command) : Option Command :=
    if a.fit once [settingsOption, userAgentOption] then some c else none
  match a.plain with
  | [] => none
  | name :: files =>
    if name == "match" then
      match a.values elementOption with
      | [element] =>
        fit [elementOption, rulesOption, jsonOption]
          (.styles element (a.values userAgentOption) files (a.has rulesOption)
            (a.has jsonOption))
      | _ => none
    else if a.has userAgentOption then none
    else
      match name, files with
      | "tokens", [file] => fit [jsonOption] (.tokens file (a.has jsonOption))
      | "dump", [file] => fit [jsonOption] (.dump file (a.has jsonOption))
      | "check", _ :: _ => fit [] (.check files)
      | _, _ => none

/-- The invocation that arguments describe. File names are not empty; of several files of
settings the last counts. -/
def read? (args : List String) : Option Invocation :=
  match Arguments.read? forms args with
  | none => none
  | some a =>
    let files := a.plain ++ a.values settingsOption ++ a.values userAgentOption
    if files.any String.isEmpty then none
    else (command? a).map fun c => ⟨(a.values settingsOption).getLast?, c⟩

end Invocation
end Styling
