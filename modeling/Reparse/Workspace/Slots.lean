/-!
# Slots

Values under names.  Storing under a name that is taken replaces the value.
-/

namespace Reparse

/-- Values under names; no name occurs twice. -/
structure Slots (α : Type) where
  entries : List (String × α)

namespace Slots

variable {α : Type}

def empty : Slots α := ⟨[]⟩

def get? (slots : Slots α) (name : String) : Option α :=
  slots.entries.lookup name

def has (slots : Slots α) (name : String) : Bool := (slots.get? name).isSome

def erase (slots : Slots α) (name : String) : Slots α :=
  ⟨slots.entries.filter fun entry => entry.1 != name⟩

def put (slots : Slots α) (name : String) (value : α) : Slots α :=
  ⟨(name, value) :: (slots.erase name).entries⟩

def put? (slots : Slots α) (name : Option String) (value : α) : Slots α :=
  match name with
  | some name => slots.put name value
  | none => slots

def any (slots : Slots α) (holds : α → Bool) : Bool :=
  slots.entries.any fun entry => holds entry.2

end Slots

end Reparse
