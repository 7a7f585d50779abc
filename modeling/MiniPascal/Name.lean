namespace MiniPascal

/-- A name as it was written. -/
structure Name where
  spelling : String
  deriving Repr

namespace Name

/-- The spelling with its ASCII letters in lower case. -/
def canonical (n : Name) : String := String.ofList (n.spelling.toList.map Char.toLower)

/-- Names are compared by their canonical form. -/
instance : BEq Name := ⟨fun m n => m.canonical == n.canonical⟩

theorem beq_iff (m n : Name) : (m == n) = true ↔ m.canonical = n.canonical := by
  simp [BEq.beq]

instance : EquivBEq Name where
  rfl := by simp [beq_iff]
  symm := by simp only [beq_iff]; exact Eq.symm
  trans := by simp only [beq_iff]; exact Eq.trans

end Name

end MiniPascal
