import BalancedMove.Proofs.Arena.Fields

/-! Heights in any field. A field may refuse what it has no room for, so an operation on trees that
ends alike in all fields with the room of a byte has put no larger height into one: the reduction to a
byte has never lost anything. -/
namespace BalancedMove

namespace HeightField

def Roomy (field : HeightField) : Prop := ∀ height, height < Width.w8.limit → field height = .ok height

theorem roomy_byte : Roomy byte := fun _ low => congrArg Except.ok (Nat.mod_eq_of_lt low)

theorem roomy_fit : Roomy Width.w8.fit := fun _ => Width.fit_of_lt

end HeightField

/-- A computation has this result in every field with the room of a byte. -/
def Uncut {α : Type} (run : HeightField → Checked α) (result : α) : Prop :=
  ∀ field, HeightField.Roomy field → run field = .ok result

theorem Uncut.byte {α : Type} {run : HeightField → Checked α} {result : α} (uncut : Uncut run result) :
    run HeightField.byte = .ok result := uncut _ HeightField.roomy_byte

end BalancedMove
