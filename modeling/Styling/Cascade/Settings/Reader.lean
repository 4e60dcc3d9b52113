import Styling.Cascade.Settings
import Styling.Json.Scan

/-! # Settings as JSON text

Settings are a record, each of whose fields may be absent or `null` and none may be repeated, or
a list of the fields' values in order. A field that is absent has its default.
-/
namespace Styling.Settings
open Json

structure Draft where
  workers : Option (Option Nat)
  styleAttribute : Option (Option String)
  deriving DecidableEq, Repr

namespace Draft

def empty : Draft := ⟨none, none⟩

def settings (d : Draft) : Settings :=
  ⟨d.workers.getD default.workers, d.styleAttribute.getD default.styleAttribute⟩

end Draft

def workersName : String := "worker_threads"
def styleAttributeName : String := "style_attribute"
def fieldNames : List String := [workersName, styleAttributeName]

def readWorkers : List Char → Scan (Option Nat) := optional (natural "usize")

def readStyleAttribute : List Char → Scan (Option String) := optional (quotedString "a string")

/-- A name that may not stand here. The end of the record counts as read if it follows. -/
def nameStop (problem : Problem) (cs : List Char) : Stop :=
  match dropBlanks cs with
  | '\x7d' :: rest => .before problem rest
  | rest => .before problem rest

def readValue {α : Type} (read : List Char → Scan α) (cs : List Char) : Scan α :=
  match colon cs with
  | .error s => .error s
  | .ok rest => read rest

def readField (d : Draft) (cs : List Char) : Scan Draft :=
  match stringAfterQuote cs with
  | .error s => .error s
  | .ok (name, rest) =>
    if name = workersName then
      if d.workers.isSome then .error (nameStop (.repeatedField name) rest)
      else
        match readValue readWorkers rest with
        | .error s => .error s
        | .ok (value, rest) => .ok ({ d with workers := some value }, rest)
    else if name = styleAttributeName then
      if d.styleAttribute.isSome then .error (nameStop (.repeatedField name) rest)
      else
        match readValue readStyleAttribute rest with
        | .error s => .error s
        | .ok (value, rest) => .ok ({ d with styleAttribute := some value }, rest)
    else .error (nameStop (.unknownField name fieldNames) rest)

/-- Reads fields up to the end of the record, at most as many as there are names. -/
def readFields : Nat → Bool → Draft → List Char → Scan Draft
  | 0, _, d, cs => .ok (d, cs)
  | fuel + 1, first, d, cs =>
    match nextField? first cs with
    | .error s => .error s
    | .ok none => .ok (d, (dropBlanks cs).drop 1)
    | .ok (some rest) =>
      match readField d rest with
      | .error s => .error s
      | .ok (d, rest) => readFields fuel false d rest

def readItem {α : Type} (read : List Char → Scan α) (first : Bool) (cs : List Char) :
    Scan (Option α) :=
  match nextItem? first cs with
  | .error s => .error s
  | .ok none => .ok (none, cs)
  | .ok (some rest) =>
    match read rest with
    | .error s => .error s
    | .ok (value, rest) => .ok (some value, rest)

def readItems (cs : List Char) : Scan Draft :=
  match readItem readWorkers true cs with
  | .error s => .error s
  | .ok (workers, rest) =>
    match readItem readStyleAttribute false rest with
    | .error s => .error s
    | .ok (styleAttribute, rest) =>
      match listEnd rest with
      | .error s => .error s
      | .ok rest => .ok (⟨workers, styleAttribute⟩, rest)

def readDraft (cs : List Char) : Scan Draft :=
  match dropBlanks cs with
  | [] => .error (.before .unfinishedValue [])
  | '[' :: rest => readItems rest
  | '\x7b' :: rest => readFields (fieldNames.length + 1) true .empty rest
  | rest => .error (mismatch "struct StyleManagerConfig" rest)

def readAll (cs : List Char) : Except Stop Settings :=
  match readDraft cs with
  | .error s => .error s
  | .ok (d, rest) =>
    match dropBlanks rest with
    | [] => .ok d.settings
    | rest => .error (.past .trailingText rest)

def read (text : String) : Except Json.Fault Settings :=
  match readAll text.toList with
  | .ok settings => .ok settings
  | .error s => .error (.ofStop text.toList s)

end Styling.Settings
