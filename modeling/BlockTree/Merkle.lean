import BlockTree.Transaction

/-! The Merkle root of a list of transactions. Neighbours are hashed together
level by level, and a node without a neighbour is hashed alone, so the root of
one transaction is the digest of its hash. -/

namespace BlockTree.Merkle

def fold : List Bytes → List Bytes
  | left :: right :: rest => sha256 (left ++ right) :: fold rest
  | [single] => [sha256 single]
  | [] => []

theorem length_fold (level : List Bytes) : (fold level).length = (level.length + 1) / 2 := by
  fun_induction fold level with
  | case1 left right rest ih => simp [ih]; omega
  | case2 single => simp
  | case3 => simp

/-- Folds until one node is left, and at least once. Each fold halves a level,
so there are no more folds than nodes. -/
def climb : Nat → List Bytes → Bytes
  | 0, level => level.headD []
  | n + 1, level =>
    match fold level with
    | [root] => root
    | next => climb n next

def root (txs : List Transaction) : Hash :=
  match txs with
  | [] => Hash.zero
  | _ => Hash.ofBytes (climb txs.length (txs.map fun tx => tx.hash.bytes))

end BlockTree.Merkle
