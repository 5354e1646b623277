/-!
# Vocabularies

A vocabulary is a finite type whose members are listed in order and carry a name and a label. A
vocabulary with codes also gives every member a number, the one the hardware uses.
-/

namespace Microcomputer

/-- The name of a member tells it in full, the label is the short form that is shown and read. -/
class Vocabulary (α : Type) where
  members : List α
  name : α → String
  label : α → String := fun a => (name a).map Char.toLower

/-- A vocabulary whose members have numbers. -/
class Coded (α : Type) extends Vocabulary α where
  code : α → Nat

namespace Vocabulary

variable {α : Type} [Vocabulary α]

/-- The member with a label. -/
def ofLabel? (text : String) : Option α :=
  members.find? fun a => label a == text

/-- The member with a name. -/
def ofName? (text : String) : Option α :=
  members.find? fun a => name a == text

theorem label_of_ofLabel? {text : String} {a : α} (h : ofLabel? text = some a) : label a = text := by
  simpa using List.find?_some h

theorem name_of_ofName? {text : String} {a : α} (h : ofName? text = some a) : name a = text := by
  simpa using List.find?_some h

end Vocabulary

/-- The member with a number. -/
def Coded.ofCode? {α : Type} [Coded α] (n : Nat) : Option α :=
  (Vocabulary.members : List α).find? fun a => Coded.code a == n

theorem Coded.code_of_ofCode? {α : Type} [Coded α] {n : Nat} {a : α} (h : Coded.ofCode? n = some a) :
    Coded.code a = n := by
  simpa using List.find?_some h

end Microcomputer
