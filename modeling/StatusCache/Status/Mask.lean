/-
# Change masks

`ChangeMask`, section 3 of the svncache specification.

Nine independent flags that qualify a status. They are persisted as one number, a bit for each.
-/

namespace StatusCache

/-- Flags on top of a status. -/
structure Mask where
  textModified : Bool := false
  propModified : Bool := false
  copied : Bool := false
  switched : Bool := false
  locked : Bool := false
  /-- Mounted by an external definition. -/
  external : Bool := false
  /-- Below a node whose subtree must not be looked into. -/
  forbidden : Bool := false
  symlink : Bool := false
  /-- In a tree conflict, and of a kind nobody knows. -/
  unknownKind : Bool := false
deriving DecidableEq, Repr, Inhabited

namespace Mask

/-- The flags with their bit numbers, lowest first. -/
def flags (m : Mask) : List Bool :=
  [m.textModified, m.propModified, m.copied, m.switched, m.locked, m.external, m.forbidden,
    m.symlink, m.unknownKind]

/-- The number whose bits are the flags. -/
def bits (m : Mask) : Nat := m.flags.foldr (fun flag rest => flag.toNat + 2 * rest) 0

/-- The flags in a number; other bits are dropped. -/
def ofBits (n : Nat) : Mask where
  textModified := n.testBit 0
  propModified := n.testBit 1
  copied := n.testBit 2
  switched := n.testBit 3
  locked := n.testBit 4
  external := n.testBit 5
  forbidden := n.testBit 6
  symlink := n.testBit 7
  unknownKind := n.testBit 8

/-- Flags are found again by their bits. -/
theorem ofBits_bits (m : Mask) : ofBits m.bits = m := by
  obtain ⟨a, b, c, d, e, f, g, h, i⟩ := m
  cases a <;> cases b <;> cases c <;> cases d <;> cases e <;> cases f <;> cases g <;> cases h <;>
    cases i <;> decide

/-- There are nine flags. -/
theorem bits_lt (m : Mask) : m.bits < 512 := by
  have bit : ∀ (flag : Bool) {rest k : Nat}, rest < k → flag.toNat + 2 * rest < 2 * k := by
    intro flag rest k h
    have := flag.toNat_le
    omega
  exact bit _ (bit _ (bit _ (bit _ (bit _ (bit _ (bit _ (bit _ (bit _ Nat.one_pos))))))))

/-- Whether the subtree of a node so flagged must not be looked into. -/
def isOpaque (m : Mask) : Bool := m.symlink || m.forbidden

end Mask
end StatusCache
