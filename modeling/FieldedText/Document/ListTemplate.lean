/-
FieldedText/Document/ListTemplate.lean

List templates: the names of placeholders that stand for the entries of a list.

A name with an asterisk among its parts stands for one name in each entry of
the list at the path of the parts before it, its *prefix*.  All such names of a
template have one prefix, and none has two asterisks.
-/
import FieldedText.Error

namespace FieldedText

namespace ListTemplate

/-- The part of a name that stands for the ordinals of a list. -/
def marker : Name := ['*']

/-- The path of the list that a name with an asterisk belongs to, if it has one. With the asterisk
first the path is empty, and the list is the whole data. -/
def prefixOf (line : Nat) (name : Name) : Except Error (Option Text) :=
  let parts := Text.splitOn '.' name
  match parts.count marker with
  | 0 => .ok none
  | 1 => .ok (some (Text.join ['.'] (parts.takeWhile (· ≠ marker))))
  | _ => .error (.grammar line .nestedLists (some name))

/-- The path of the list that some names belong to, if one of them does; the names before them
belong to the list at `known`, if to any. A name without an asterisk belongs to no list and
changes nothing. -/
def prefixFrom (line : Nat) (known : Option Text) : List Name → Except Error (Option Text)
  | [] => .ok known
  | name :: names => do
    match known, ← prefixOf line name with
    | known, none => prefixFrom line known names
    | none, some found => prefixFrom line (some found) names
    | some first, some found =>
      if first = found then prefixFrom line (some found) names
      else .error (.grammar line (.differentLists first found) (some name))

/-- The path of the list that the names of a template belong to, if one of them does. -/
def listPath (line : Nat) (names : List Name) : Except Error (Option Text) :=
  prefixFrom line none names

/-- The name that a name stands for in the entry of an ordinal: the ordinal in the asterisk's
place. A name without an asterisk is the same for every entry. -/
def entryName (ordinal : Name) (name : Name) : Name :=
  Text.join ['.'] ((Text.splitOn '.' name).map fun part => if part = marker then ordinal else part)

end ListTemplate

end FieldedText
