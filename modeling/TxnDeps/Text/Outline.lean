import TxnDeps.Text.Printable

namespace TxnDeps

class Outline (α : Type) where
  outline : α → String

export Outline (outline)

namespace Outline

def commaSeparated (parts : List String) : String := ", ".intercalate parts

def fields (name : String) (parts : List (String × String)) : String :=
  name ++ " \x7b " ++ commaSeparated (parts.map fun part => part.1 ++ ": " ++ part.2) ++ " \x7d"

def tagged (name inner : String) : String := name ++ "(" ++ inner ++ ")"

def hexDigits (n : Nat) : String := String.ofList (Nat.toDigits 16 n)

def escaped (c : Char) : String :=
  if c = '"' then "\\\""
  else if c = '\\' then "\\\\"
  else if c = '\n' then "\\n"
  else if c = '\r' then "\\r"
  else if c = '\t' then "\\t"
  else if c = Char.ofNat 0 then "\\0"
  else if Text.isPrintable c then String.singleton c
  else "\\u\x7b" ++ hexDigits c.toNat ++ "\x7d"

def quoted (s : String) : String :=
  "\"" ++ String.join (s.toList.map escaped) ++ "\""

instance : Outline Nat := ⟨toString⟩
instance : Outline UInt8 := ⟨toString⟩
instance : Outline UInt16 := ⟨toString⟩
instance : Outline UInt32 := ⟨toString⟩
instance : Outline UInt64 := ⟨toString⟩
instance : Outline Int64 := ⟨toString⟩
instance : Outline String := ⟨quoted⟩

instance {α : Type} [Outline α] : Outline (Option α) where
  outline
    | none => "None"
    | some a => tagged "Some" (outline a)

instance {α : Type} [Outline α] : Outline (List α) where
  outline xs := "[" ++ commaSeparated (xs.map outline) ++ "]"

end Outline

end TxnDeps
