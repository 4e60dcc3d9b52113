/-! # Emphasis on a terminal

Text between the control sequences that turn a style on and off.
-/
namespace Styling.Terminal

def sequence (code : String) : String := "\x1b[" ++ code ++ "m"

def styled (on off text : String) : String := sequence on ++ text ++ sequence off

def dimmed : String → String := styled "2" "0"
def bold : String → String := styled "1" "0"
def red : String → String := styled "31" "39"
def green : String → String := styled "32" "39"
def yellow : String → String := styled "33" "39"

def blanks (n : Nat) : String := String.ofList (List.replicate n ' ')

def flushRight (width : Nat) (text : String) : String := blanks (width - text.length) ++ text

def flushLeft (width : Nat) (text : String) : String := text ++ blanks (width - text.length)

end Styling.Terminal
