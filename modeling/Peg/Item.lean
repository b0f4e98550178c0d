import Peg.Text.Display

/-!
What rules are applied to. An input is a sequence of items; single-item rules look
at the key of an item, which they compare, order, and quote in messages.
-/

namespace Peg

/-- The keys that literal and range rules name. -/
class Key (κ : Type) where
  /-- How a literal compares keys, which need not be by equality. -/
  [beq : BEq κ]
  /-- The order in which a range takes its keys. -/
  le : κ → κ → Bool
  /-- The key as messages show it. -/
  quote : κ → String

-- Characters and texts are compared by instances of their own, which are to be found first.
instance (priority := low) {κ : Type} [Key κ] : BEq κ :=
  Key.beq

/-- The items of an input, each with its key. -/
class Item (α : Type) (κ : outParam Type) where
  key : α → κ

/-- Characters are ordered by code point. -/
instance : Key Char where
  le a b := a ≤ b
  quote := Text.quoteChar

/-- Texts are ordered as words in a dictionary, character by character. -/
instance : Key String where
  le a b := a ≤ b
  quote := Text.quoteText

instance : Item Char Char where
  key := id

end Peg
