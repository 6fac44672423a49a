import BlockTree.Shelf

/-! The trees of a store as one byte string, in which a store outlives a run. -/

namespace BlockTree.Trees

def ofTree (t : Tree) : Bytes :=
  Record.ofList (fun entry => Record.ofBytes entry.1 ++ Record.ofBytes entry.2) t.toList

def tree : Record.Reader Tree := do
  let entries ← Record.list do
    let key ← Record.bytes
    let value ← Record.bytes
    return (key, value)
  return .ofList entries

def image (t : Trees) : Bytes :=
  ofTree t.links ++ ofTree t.children ++ ofTree t.orphans ++ ofTree t.pointers

def ofImage? (bs : Bytes) : Option Trees :=
  let trees : Record.Reader Trees := return ⟨← tree, ← tree, ← tree, ← tree⟩
  match trees bs with
  | some (trees, []) => some trees
  | _ => none

end BlockTree.Trees
