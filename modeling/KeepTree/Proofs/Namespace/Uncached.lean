import KeepTree.Proofs.Namespace.Outlines

/-!
# Namespaces without caching

`uncached` is the namespace with every definition dynamic: nothing that is computed is kept. How
long values are kept is nothing that a walk through the namespace asks for:

* `outline_uncached` -- **the outlines are the same**, and so names mean the same in both.
-/

namespace KeepTree

/-- The definition, with its values computed at every use. -/
def Definition.uncached (d : Definition) : Definition := { d with durability := .dynamic }

namespace Namespace

/-- The namespace with every value computed at every use. -/
def uncached (ns : Namespace) : Namespace :=
  { ns with definitions := ns.definitions.map Definition.uncached }

variable (ns : Namespace)

theorem get?_uncached (id : DefId) : ns.uncached.get? id = (ns.get? id).map Definition.uncached :=
  Array.getElem?_map

theorem outline_uncached : ns.uncached.outline = ns.outline := by
  simp only [outline, uncached, Array.map_map]
  rfl

variable {ns}

theorem get?_of_uncached {id : DefId} {d : Definition} (h : ns.uncached.get? id = some d) :
    ∃ original, ns.get? id = some original ∧ d = original.uncached := by
  rw [get?_uncached] at h
  obtain ⟨original, horiginal, rfl⟩ := Option.map_eq_some_iff.mp h
  exact ⟨original, horiginal, rfl⟩

end Namespace

end KeepTree
