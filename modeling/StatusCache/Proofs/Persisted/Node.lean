/-
# Persisted nodes read back

The record of a repository node reads as that node, with the identifier in place of its location
(`readNode_writeNode`): the flag, the URL and both revisions come back, whatever kind of revision
they are. A record cannot hold the number that stands for an unknown revision, since that is what an
absent value reads as, nor an identifier with a separator in it.
-/

import StatusCache.Persisted.Node
import StatusCache.Proofs.Persisted.Field

namespace StatusCache

open Text.Number (Fits64)

/-- What a record can hold of a revision: numbers and dates of 64 bits, and no unknown number. -/
def Revision.Persistable : Revision → Prop
  | .number n => Fits64 n ∧ n ≠ unknownRevision
  | .date ms => Fits64 ms
  | _ => True

namespace Persisted

/-- The kind of a revision is read back from its number. -/
theorem readRevisionKind_ofNat (k : Revision.Kind) (value : Int) :
    readRevisionKind (Text.Number.ofNat k.id) value = k := by
  rw [readRevisionKind, Text.Number.int32?_ofNat (by have := k.id_lt; omega), Option.bind_some,
    Revision.Kind.ofId?_id]

/-- **Kind and value tell a revision.** -/
theorem toRevision?_write {r : Revision} (h : r.Persistable) :
    toRevision? (readRevisionKind (Text.Number.ofNat r.kind.id)
        (readInt unknownRevision (writeRevisionValue r)))
      (readInt unknownRevision (writeRevisionValue r)) = some r := by
  rw [readRevisionKind_ofNat]
  cases r with
  | number n =>
    rw [writeRevisionValue, readInt_ofInt h.1]
    exact if_neg h.2
  | date ms =>
    rw [writeRevisionValue, readInt_ofInt h]
    rfl
  | _ => rfl

/-- The value of a revision does not hold the separator. -/
theorem not_mem_writeRevisionValue (r : Revision) : ';' ∉ (writeRevisionValue r).toList := by
  cases r with
  | number n => exact not_mem_ofInt n
  | date ms => exact not_mem_ofInt ms
  | _ => decide

/-- No field of a node holds the separator, if its location's name does not. -/
theorem not_mem_of_mem_nodeFields {n : RepoNode} (hid : ';' ∉ n.location.id.toList) :
    ∀ f ∈ [writeText (if n.isContainer then "true" else "false"), n.location.id, writeText n.url,
      Text.Number.ofNat n.selected.kind.id, writeRevisionValue n.selected,
      Text.Number.ofNat RootKind.repositoryRoot.id, Text.Number.ofNat n.peg.kind.id,
      writeRevisionValue n.peg], ';' ∉ f.toList := by
  simp only [List.forall_mem_cons, List.not_mem_nil, false_implies, implies_true, and_true]
  exact ⟨not_mem_writeText _, hid, not_mem_writeText _, not_mem_ofNat _,
    not_mem_writeRevisionValue _, not_mem_ofNat _, not_mem_ofNat _, not_mem_writeRevisionValue _⟩

/-- A flag in its present form is not one of the words of the old form. -/
theorem readFlag_writeText (flag : Bool) :
    readFlag (writeText (if flag then "true" else "false")) = .ok (flag, true) := by
  cases flag <;> rfl

/-- **The record of a node reads as the node**, with the identifier in place of its location. -/
theorem readNode_writeNode {n : RepoNode} (hid : ';' ∉ n.location.id.toList)
    (hselected : n.selected.Persistable) (hpeg : n.peg.Persistable) :
    readNode (writeNode n) = .ok
      { isFolder := n.isContainer
        locationId := n.location.id
        url := n.url
        root := .repositoryRoot
        selected := n.selected
        peg := some n.peg } := by
  have hroot : (Text.Number.int32? (Text.Number.ofNat RootKind.repositoryRoot.id)).bind
      RootKind.ofId? = some .repositoryRoot := by
    rw [Text.Number.int32?_ofNat (by decide)]
    rfl
  unfold readNode writeNode
  rw [readFields_writeFields (by simp) (not_mem_of_mem_nodeFields hid)]
  simp only [Except.bind, bind, List.length_cons, List.length_nil, List.getD_cons_zero,
    List.getD_cons_succ, readFlag_writeText, readText_writeText, hroot, toRevision?_write hselected,
    toRevision?_write hpeg]
  rfl

end Persisted
end StatusCache
