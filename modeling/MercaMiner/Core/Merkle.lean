import MercaMiner.Basis.HashTree
import MercaMiner.Core.Sha256

/-!
# Merkle Roots

The Merkle root of a list of hashes, from `merkle.cpp`.

The source replaces its vector level by level while more than one hash is
left, and notes on the way whether two siblings were equal before padding.
`merkleLoop` is that loop with the number of hashes as its bound, which
`merkleLoop_length` shows is never what stops it. The tree itself is
`HashTree` over `combine`, the double hash of two concatenated nodes.

## Main definitions

* `computeMerkleRoot`: The root with the mutation flag.
* `combine`: The node over two nodes.
* `merkleInputs`: Every byte string hashed for a root.

## Theorems

* `merkleLoop_eq`: The loop climbs the hash tree.
* `computeMerkleRoot_binding`: Equal roots over equally many leaves reveal
  equal leaves or a collision of the hash.
-/

namespace MercaMiner

structure MerkleResult where
  root : UInt256
  mutated : Bool
  deriving DecidableEq

/-- The hash of two nodes side by side. -/
def combine (left right : UInt256) : UInt256 :=
  doubleSha256 (left.bytes ++ right.bytes)

/-- The first inner loop: some two siblings are equal. -/
def siblingsEqual : List UInt256 → Bool
  | a :: b :: rest => a == b || siblingsEqual rest
  | _ => false

/-- An odd level receives its last hash a second time. -/
def padLevel (hashes : List UInt256) : List UInt256 :=
  if hashes.length % 2 ≠ 0 then hashes ++ hashes.getLast?.toList else hashes

/-- The second inner loop: the hashes of the next level. -/
def hashPairs : List UInt256 → List UInt256
  | a :: b :: rest => combine a b :: hashPairs rest
  | _ => []

/-- The outer loop. The first argument bounds the number of levels. -/
def merkleLoop : Nat → List UInt256 → Bool → List UInt256 × Bool
  | 0, hashes, mutated => (hashes, mutated)
  | levels + 1, hashes, mutated =>
      if hashes.length > 1 then
        merkleLoop levels (hashPairs (padLevel hashes)) (mutated || siblingsEqual hashes)
      else (hashes, mutated)

def computeMerkleRoot (hashes : List UInt256) : MerkleResult :=
  match merkleLoop hashes.length hashes false with
  | ([], mutated) => ⟨UInt256.zero, mutated⟩
  | (front :: _, mutated) => ⟨front, mutated⟩

/-- Every byte string hashed while computing a root. -/
def merkleInputs (hashes : List UInt256) : List Bytes :=
  (HashTree.hashed combine hashes.length hashes).map fun p => p.1.bytes ++ p.2.bytes

theorem hashPairs_eq (hashes : List UInt256) :
    hashPairs hashes = (HashTree.couples hashes).map fun p => combine p.1 p.2 := by
  induction hashes using hashPairs.induct with
  | case1 a b rest ih => simp only [hashPairs, HashTree.couples, List.map_cons, ih]
  | case2 hashes hshort =>
      rcases hashes with _ | ⟨a, _ | ⟨b, rest⟩⟩
      · rfl
      · rfl
      · exact absurd rfl (hshort a b rest)

theorem merkleLoop_eq (levels : Nat) (hashes : List UInt256) (mutated : Bool) :
    (merkleLoop levels hashes mutated).1 = HashTree.climb combine levels hashes := by
  induction levels generalizing hashes mutated with
  | zero => rfl
  | succ k ih =>
      have hlevel : hashPairs (padLevel hashes) = HashTree.level combine hashes :=
        hashPairs_eq (padLevel hashes)
      rw [merkleLoop, HashTree.climb]
      by_cases hmore : 1 < hashes.length
      · rw [if_pos hmore, if_pos hmore, ih, hlevel]
      · rw [if_neg hmore, if_neg hmore]

/-- The loop ends because one hash is left, never because its bound is
    reached. -/
theorem merkleLoop_length (hashes : List UInt256) (mutated : Bool) (hne : hashes ≠ []) :
    (merkleLoop hashes.length hashes mutated).1.length = 1 := by
  rw [merkleLoop_eq]
  exact HashTree.length_climb combine _ _ (by omega) (List.length_pos_iff.mpr hne)

theorem computeMerkleRoot_root (hashes : List UInt256) (hne : hashes ≠ []) :
    [(computeMerkleRoot hashes).root] = HashTree.climb combine hashes.length hashes := by
  have hlen := merkleLoop_length hashes false hne
  rw [computeMerkleRoot, ← merkleLoop_eq _ _ false]
  rcases hloop : merkleLoop hashes.length hashes false with ⟨final, mutated⟩
  rw [hloop] at hlen
  rcases final with _ | ⟨front, _ | ⟨_, _⟩⟩
  · simp only [List.length_nil, Nat.zero_ne_one] at hlen
  · rfl
  · simp only [List.length_cons] at hlen
    omega

/-- Different pairs of 32-byte nodes are different 64-byte strings. -/
theorem pair_inj (p q : UInt256 × UInt256) (h : p.1.bytes ++ p.2.bytes = q.1.bytes ++ q.2.bytes) :
    p = q := by
  rcases List.append_inj h (p.1.size_eq.trans q.1.size_eq.symm) with ⟨h1, h2⟩
  refine Prod.ext (UInt256.value_inj _ _ ?_) (UInt256.value_inj _ _ ?_)
  · rw [UInt256.value, h1, UInt256.value]
  · rw [UInt256.value, h2, UInt256.value]

/-- Equal roots over equally many leaves reveal equal leaves, or two different
    byte strings hashed to one node. -/
theorem computeMerkleRoot_binding (hashes others : List UInt256)
    (hlen : hashes.length = others.length) (hne : hashes ≠ [])
    (h : (computeMerkleRoot hashes).root = (computeMerkleRoot others).root) :
    hashes = others ∨ ∃ x ∈ merkleInputs hashes, ∃ y ∈ merkleInputs others,
      x ≠ y ∧ doubleSha256 x = doubleSha256 y := by
  have hne' : others ≠ [] := by
    rintro rfl
    exact hne (List.length_eq_zero_iff.mp hlen)
  have hclimb : HashTree.climb combine hashes.length hashes
      = HashTree.climb combine hashes.length others := by
    rw [← computeMerkleRoot_root hashes hne, h, computeMerkleRoot_root others hne', hlen]
  rcases HashTree.climb_binding combine _ _ _ hlen hclimb with heq | ⟨p, hp, q, hq, hpq, hcoll⟩
  · exact Or.inl heq
  · exact Or.inr ⟨_, List.mem_map_of_mem hp, _, List.mem_map_of_mem (hlen ▸ hq),
      fun hsame => hpq (pair_inj p q hsame), hcoll⟩

end MercaMiner
