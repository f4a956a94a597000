import LazyDecl.Decimal.Text
import LazyDecl.Text.Escaped
import LazyDecl.Value.Basic

/-! The two texts of a value. The plain one shows a string as it is, and is what
a value adds to a string; the inspected one quotes strings and marks what is not
a value proper. -/

namespace LazyDecl.Value

/-- Parts with a comma between them. -/
def commaJoined (parts : List String) : String := ", ".intercalate parts

mutual

def text : Value → String
  | boolean b => if b then "true" else "false"
  | integer n => toString n
  | decimal d => d.text
  | string s => s
  | list items => "[" ++ commaJoined (itemTexts items) ++ "]"
  | table entries => "[" ++ commaJoined (entryTexts entries) ++ "]"
  | pair key value => text key ++ ": " ++ text value
  | reference name => name
  | builder kind => kind ++ " \x7b .. \x7d"

def itemTexts : List Value → List String
  | [] => []
  | v :: vs => text v :: itemTexts vs

def entryTexts : List (Value × Value) → List String
  | [] => []
  | (key, value) :: rest => (text key ++ ": " ++ text value) :: entryTexts rest

end

mutual

def inspect : Value → String
  | boolean b => if b then "true" else "false"
  | integer n => toString n
  | decimal d => d.text
  | string s => Escaped.quote s
  | list items => "[" ++ commaJoined (itemInspects items) ++ "]"
  | table entries => "\x7b" ++ commaJoined (entryInspects entries) ++ "\x7d"
  | pair key value => inspect key ++ ": " ++ inspect value
  | reference name => "<ref " ++ name ++ ">"
  | builder kind => "<builder " ++ kind ++ ">"

def itemInspects : List Value → List String
  | [] => []
  | v :: vs => inspect v :: itemInspects vs

def entryInspects : List (Value × Value) → List String
  | [] => []
  | (key, value) :: rest => (inspect key ++ ": " ++ inspect value) :: entryInspects rest

end

end LazyDecl.Value
