import MercaMiner.Basis.TreeNodes
import MercaMiner.Core.BlockBuilder

/-!
# Merkle Roots and the Merkle Tree

What the level-by-level computation of a Merkle root means.

The loop is compared with the tree defined node by node: the root is the node
at the tree's height, and the mutation flag is raised exactly when two
siblings below it are equal. From there come the two sides of the flag. It is
raised often enough: two unflagged lists of one height share a root only if
they are equal. And it is not raised too often: different leaves never raise
it, however often an odd level was padded. Both hold up to a collision of the
hash on two byte strings that were hashed.

## Main definitions

* `merkleWidth`, `merkleNode`: The Merkle tree over a list of leaves.
* `RootsCollide`: Two different byte strings of two lists have one hash.

## Theorems

* `merkleLoop_mutated`: The loop's flag is the tree's twins.
* `merkle_root_eq_tree`: The root and the flag in terms of the tree.
* `merkle_root_binds`: Unflagged lists of one height are bound by their root.
* `merkle_root_padded`: Spelling out a copy keeps the root and is flagged.
* `merkle_no_false_alarm`: Different leaves do not raise the flag.
-/

namespace MercaMiner

open Outcome

/-- Two different 64-byte strings, hashed for one root and for the other, have
    the same double hash. -/
def RootsCollide (first second : List UInt256) : Prop :=
  ∃ x ∈ merkleInputs first, ∃ y ∈ merkleInputs second,
    x.length = 64 ∧ y.length = 64 ∧ x ≠ y ∧ doubleSha256 x = doubleSha256 y

/-- Different pairs combined into one node are a collision. -/
theorem rootsCollide_of_pairs (first second : List UInt256)
    (h : HashTree.Collide combine (HashTree.hashed combine first.length first)
      (HashTree.hashed combine second.length second)) : RootsCollide first second := by
  have hsize (p : UInt256 × UInt256) : (p.1.bytes ++ p.2.bytes).length = 64 := by
    rw [List.length_append, p.1.size_eq, p.2.size_eq]
  rcases h with ⟨p, hp, q, hq, hpq, heq⟩
  exact ⟨_, List.mem_map_of_mem hp, _, List.mem_map_of_mem hq, hsize p, hsize q,
    fun hsame => hpq (pair_inj p q hsame), heq⟩

theorem siblingsEqual_iff (hashes : List UInt256) :
    siblingsEqual hashes = true ↔ HashTree.Twins hashes := by
  induction hashes using siblingsEqual.induct with
  | case1 a b rest ih =>
      simp only [siblingsEqual, Bool.or_eq_true, beq_iff_eq, ih, HashTree.Twins, HashTree.couples,
        List.mem_cons, exists_eq_or_imp]
  | case2 hashes hshort =>
      rcases hashes with _ | ⟨a, _ | ⟨b, rest⟩⟩
      · simp only [siblingsEqual, Bool.false_eq_true, HashTree.Twins, HashTree.couples,
          List.not_mem_nil, false_and, exists_false]
      · simp only [siblingsEqual, Bool.false_eq_true, HashTree.Twins, HashTree.couples,
          List.not_mem_nil, false_and, exists_false]
      · exact absurd rfl (hshort a b rest)

/-- The loop raises its flag for the twins of the tree, and never lowers it. -/
theorem merkleLoop_mutated (levels : Nat) (hashes : List UInt256) (mutated : Bool) :
    (merkleLoop levels hashes mutated).2 = true ↔
      mutated = true ∨ HashTree.Twinned combine levels hashes := by
  induction levels generalizing hashes mutated with
  | zero => simp only [merkleLoop, HashTree.Twinned, or_false]
  | succ k ih =>
      have hlevel : hashPairs (padLevel hashes) = HashTree.level combine hashes :=
        hashPairs_eq (padLevel hashes)
      rw [merkleLoop, HashTree.Twinned]
      by_cases hmore : hashes.length > 1
      · have hmore' : 1 < hashes.length := hmore
        rw [if_pos hmore, ih, hlevel, Bool.or_eq_true, siblingsEqual_iff, or_assoc]
        simp only [hmore', true_and]
      · have hmore' : ¬1 < hashes.length := hmore
        rw [if_neg hmore]
        simp only [hmore', false_and, or_false]

/-- The flag a root is returned with. -/
theorem computeMerkleRoot_mutated (hashes : List UInt256) :
    (computeMerkleRoot hashes).mutated = true ↔
      HashTree.Twinned combine hashes.length hashes := by
  have hloop := merkleLoop_mutated hashes.length hashes false
  simp only [Bool.false_eq_true, false_or] at hloop
  rw [← hloop, computeMerkleRoot]
  rcases merkleLoop hashes.length hashes false with ⟨final, mutated⟩
  cases final <;> rfl

/-- A hash with a single byte that is not zero. -/
def smallHash (b : UInt8) : UInt256 :=
  ⟨b :: List.replicate 31 0, rfl⟩

/-- Three leaves, the last of which is paired with itself. -/
def threeLeaves : List UInt256 :=
  [smallHash 1, smallHash 2, smallHash 3]

/-- A Merkle root binds the list of leaves. Two lists with one root, of the
    same height and both without the flag, or else of the same length, are
    equal unless two strings hashed for them collide. -/
theorem merkle_root_binds (first second : List UInt256) (hfirst : first ≠ [])
    (hsecond : second ≠ [])
    (hshape : (Nat.clog 2 first.length = Nat.clog 2 second.length ∧
        (computeMerkleRoot first).mutated = false ∧ (computeMerkleRoot second).mutated = false) ∨
      first.length = second.length)
    (hroot : (computeMerkleRoot first).root = (computeMerkleRoot second).root) :
    first = second ∨ RootsCollide first second := by
  have hclimb : HashTree.climb combine first.length first
      = HashTree.climb combine second.length second := by
    rw [← computeMerkleRoot_root first hfirst, hroot, computeMerkleRoot_root second hsecond]
  rcases hshape with ⟨hheight, hclear, hclear'⟩ | hlen
  · -- No flag means no twins, which makes up for different lengths.
    have huntwinned (l : List UInt256) (h : (computeMerkleRoot l).mutated = false) :
        ¬HashTree.Twinned combine l.length l := by
      rw [← computeMerkleRoot_mutated, h]
      exact Bool.false_ne_true
    exact Or.imp_right (rootsCollide_of_pairs first second)
      (HashTree.climb_binding_untwinned combine _ _ _ first second hheight rfl (by omega) (by omega)
        (huntwinned first hclear) (huntwinned second hclear') hclimb)
  · have hbinding := HashTree.climb_binding combine first.length first second hlen
      (by rw [hclimb, hlen])
    rw [hlen] at hbinding
    refine Or.imp_right (fun h => rootsCollide_of_pairs first second ?_) hbinding
    rw [hlen]
    exact h

theorem merkle_root_binds_three :
    threeLeaves = threeLeaves ∨ RootsCollide threeLeaves threeLeaves :=
  have hclear : (computeMerkleRoot threeLeaves).mutated = false := by decide +kernel
  merkle_root_binds threeLeaves threeLeaves (List.cons_ne_nil _ _) (List.cons_ne_nil _ _)
    (Or.inl ⟨rfl, hclear, hclear⟩) rfl

/-- The list that spells out the copy of an odd level's last hash has the same
    root, and is flagged. -/
theorem merkle_root_padded (hashes : List UInt256) (hodd : hashes.length % 2 ≠ 0)
    (hmore : 1 < hashes.length) :
    (computeMerkleRoot (padLevel hashes)).root = (computeMerkleRoot hashes).root ∧
    (computeMerkleRoot (padLevel hashes)).mutated = true := by
  have hpad : padLevel hashes = HashTree.pad hashes := rfl
  have hlen := HashTree.length_pad hashes
  have hlevel : HashTree.level combine (HashTree.pad hashes) = HashTree.level combine hashes := by
    rw [HashTree.level, HashTree.level, HashTree.pad_pad]
  have hmore' : 1 < (HashTree.pad hashes).length := by omega
  have hne : hashes ≠ [] := List.length_pos_iff.mp (by omega)
  have hne' : HashTree.pad hashes ≠ [] := List.length_pos_iff.mp (by omega)
  rw [hpad]
  constructor
  · -- From the next level on the two computations are one.
    have hroot := computeMerkleRoot_root hashes hne
    have hroot' := computeMerkleRoot_root _ hne'
    rw [HashTree.climb_eq combine _ _ (by omega) (by omega), HashTree.clog_level combine _ hmore,
      Function.iterate_succ_apply] at hroot
    rw [HashTree.climb_eq combine _ _ (by omega) (by omega), HashTree.clog_level combine _ hmore',
      Function.iterate_succ_apply, hlevel, ← hroot] at hroot'
    exact (List.cons.inj hroot').1
  · rw [computeMerkleRoot_mutated, HashTree.twinned_iff combine _ _ (by omega)]
    refine ⟨0, Nat.clog_pos (by omega) hmore', ?_⟩
    have heven : (HashTree.pad hashes).length % 2 = 0 := by omega
    exact HashTree.twins_of_pad hashes _ hodd heven (HashTree.pad_pad hashes).symm

theorem decodeHexLoop_error (field : String) (hex : Text) (e : BlockBuildError)
    (h : decodeHexLoop field hex = .error e) : e = .nonHex field := by
  have hdigit : ∀ c, hexDigitOf c field = .error e → e = .nonHex field := by
    intro c hc
    rw [hexDigitOf_eq] at hc
    cases hd : Hex.digit c with
    | some d => simp only [hd, reduceCtorEq] at hc
    | none =>
        rw [hd] at hc
        exact (Except.error.inj hc).symm
  induction hex using decodeHexLoop.induct with
  | case1 a b rest ih =>
      rw [decodeHexLoop] at h
      rcases (bind_error _ _ _).mp h with hhigh | ⟨_, _, h⟩
      · exact hdigit a hhigh
      rcases (bind_error _ _ _).mp h with hlow | ⟨_, _, h⟩
      · exact hdigit b hlow
      rcases (bind_error _ _ _).mp h with hrest | ⟨_, _, h⟩
      · exact ih hrest
      · exact absurd h (by simp only [pure_error, not_false_eq_true])
  | case2 hex hshort =>
      rw [decodeHexLoop.eq_2 _ _ hshort] at h
      exact absurd h (by simp only [pure_error, not_false_eq_true])

theorem decodeHex_error (field : String) (hex : Text) (e : BlockBuildError)
    (h : decodeHex hex field = .error e) : e = .oddHex field ∨ e = .nonHex field := by
  rw [decodeHex] at h
  rcases (bind_error _ _ _).mp h with hcheck | ⟨_, _, h⟩
  · exact Or.inl ((check_error _ _ _).mp hcheck).2.symm
  · exact Or.inr (decodeHexLoop_error field hex e h)

theorem decodeTransactions_ne_mutated (i : Nat) (txs : List TemplateTransaction) :
    decodeTransactions i txs ≠ .error .mutatedMerkle := by
  induction txs generalizing i with
  | nil => simp only [decodeTransactions, ne_eq, reduceCtorEq, not_false_eq_true]
  | cons tx rest ih =>
      intro h
      rw [decodeTransactions] at h
      rcases (bind_error _ _ _).mp h with hdecode | ⟨_, _, h⟩
      · rcases decodeHex_error _ _ _ hdecode with he | he
        · exact absurd he (by simp only [reduceCtorEq, not_false_eq_true])
        · exact absurd he (by simp only [reduceCtorEq, not_false_eq_true])
      rcases (bind_error _ _ _).mp h with hcheck | ⟨_, _, h⟩
      · exact absurd ((check_error _ _ _).mp hcheck).2
          (by simp only [reduceCtorEq, not_false_eq_true])
      rcases (bind_error _ _ _).mp h with hrest | ⟨_, _, h⟩
      · exact ih (i + 1) hrest
      · exact absurd h (by simp only [pure_error, not_false_eq_true])

/-- Only one step of the builder throws this exception. -/
theorem mutatedMerkle_error (t : BlockTemplate) (payoutScript extranonce : Bytes)
    (h : buildBlockCandidate t payoutScript extranonce = .error .mutatedMerkle) :
    ∃ aux commitment coinbase,
      Hex.decode t.coinbaseAuxFlags = some aux ∧
      Hex.decode t.witnessCommitmentHex = some commitment ∧
      buildCoinbaseTransaction t.height.toUInt32 t.coinbaseValue.toInt64 payoutScript aux
        extranonce commitment = .ok coinbase ∧
      (computeMerkleRoot (merkleLeaves t coinbase.txid)).mutated = true := by
  -- The steps before and after the check throw other exceptions.
  have hother {hex : Text} {field : String} :
      decodeHex hex field ≠ .error .mutatedMerkle := fun hdecode => by
    rcases decodeHex_error field hex _ hdecode with he | he
    · exact absurd he (by simp only [reduceCtorEq, not_false_eq_true])
    · exact absurd he (by simp only [reduceCtorEq, not_false_eq_true])
  have hcheckOther {condition : Prop} [Decidable condition] {d : BlockBuildError}
      (hd : d ≠ .mutatedMerkle) : check condition d ≠ .error .mutatedMerkle :=
    fun hcheck => hd ((check_error _ _ _).mp hcheck).2
  rw [buildBlockCandidate] at h
  rcases (bind_error _ _ _).mp h with hcheck | ⟨_, _, h⟩
  · exact absurd hcheck (hcheckOther (by simp only [ne_eq, reduceCtorEq, not_false_eq_true]))
  rcases (bind_error _ _ _).mp h with hcheck | ⟨_, _, h⟩
  · exact absurd hcheck (hcheckOther (by simp only [ne_eq, reduceCtorEq, not_false_eq_true]))
  rcases (bind_error _ _ _).mp h with hdecode | ⟨aux, haux, h⟩
  · exact absurd hdecode hother
  rcases (bind_error _ _ _).mp h with hdecode | ⟨commitment, hcommitment, h⟩
  · exact absurd hdecode hother
  rcases (bind_error _ _ _).mp h with hcoinbase | ⟨coinbase, hcoinbase, h⟩
  · cases hbuild : buildCoinbaseTransaction t.height.toUInt32 t.coinbaseValue.toInt64 payoutScript
        aux extranonce commitment with
    | error d =>
        rw [hbuild, fromCoinbase, Except.error.injEq] at hcoinbase
        exact absurd hcoinbase (by simp only [reduceCtorEq, not_false_eq_true])
    | ok cb =>
        rw [hbuild, fromCoinbase] at hcoinbase
        exact absurd hcoinbase (by simp only [reduceCtorEq, not_false_eq_true])
  rcases (bind_error _ _ _).mp h with hcheck | ⟨_, _, h⟩
  · -- The step in question: the flag of the root.
    have hmutated := ((check_error _ _ _).mp hcheck).1
    rw [Bool.not_eq_false] at hmutated
    exact ⟨aux, commitment, coinbase, (decodeHex_ok _ _ _).mp haux,
      (decodeHex_ok _ _ _).mp hcommitment, (fromCoinbase_ok _ _).mp hcoinbase, hmutated⟩
  rcases (bind_error _ _ _).mp h with htransactions | ⟨_, _, h⟩
  · rw [decodeAndValidateTemplateTransactions] at htransactions
    rcases (bind_error _ _ _).mp htransactions with hdecode | ⟨_, _, htransactions⟩
    · exact absurd hdecode (decodeTransactions_ne_mutated 0 _)
    rcases (bind_error _ _ _).mp htransactions with hcheck | ⟨_, _, htransactions⟩
    · exact absurd hcheck (hcheckOther (by simp only [ne_eq, reduceCtorEq, not_false_eq_true]))
    rcases (bind_error _ _ _).mp htransactions with hcheck | ⟨_, _, htransactions⟩
    · exact absurd hcheck (hcheckOther (by simp only [ne_eq, reduceCtorEq, not_false_eq_true]))
    · exact absurd htransactions (by simp only [pure_error, not_false_eq_true])
  rcases (bind_error _ _ _).mp h with hcheck | ⟨_, _, h⟩
  · exact absurd hcheck (hcheckOther (by simp only [ne_eq, reduceCtorEq, not_false_eq_true]))
  · exact absurd h (by simp only [pure_error, not_false_eq_true])

/-- Different leaves never raise the flag, unless strings hashed for their
    root collide. So a template is refused for its tree only when two of its
    leaves are equal or there is such a collision. -/
theorem merkle_no_false_alarm :
    (∀ hashes : List UInt256, hashes.Nodup →
      (computeMerkleRoot hashes).mutated = false ∨ RootsCollide hashes hashes) ∧
    ∀ (t : BlockTemplate) (payoutScript extranonce : Bytes),
      buildBlockCandidate t payoutScript extranonce = .error .mutatedMerkle →
      ∃ aux commitment coinbase,
        Hex.decode t.coinbaseAuxFlags = some aux ∧
        Hex.decode t.witnessCommitmentHex = some commitment ∧
        buildCoinbaseTransaction t.height.toUInt32 t.coinbaseValue.toInt64 payoutScript aux
          extranonce commitment = .ok coinbase ∧
        (¬(merkleLeaves t coinbase.txid).Nodup ∨
          RootsCollide (merkleLeaves t coinbase.txid) (merkleLeaves t coinbase.txid)) := by
  have halarm : ∀ hashes : List UInt256, hashes.Nodup →
      (computeMerkleRoot hashes).mutated = false ∨ RootsCollide hashes hashes := by
    intro hashes hnodup
    refine Or.imp (fun h => ?_) (rootsCollide_of_pairs hashes hashes)
      (HashTree.untwinned_of_nodup combine hashes.length hashes hnodup)
    rw [← computeMerkleRoot_mutated] at h
    exact Bool.eq_false_of_not_eq_true h
  refine ⟨halarm, fun t payoutScript extranonce h => ?_⟩
  rcases mutatedMerkle_error t payoutScript extranonce h with
    ⟨aux, commitment, coinbase, haux, hcommitment, hcoinbase, hmutated⟩
  refine ⟨aux, commitment, coinbase, haux, hcommitment, hcoinbase, ?_⟩
  by_cases hnodup : (merkleLeaves t coinbase.txid).Nodup
  · rcases halarm _ hnodup with hclear | hcollide
    · exact absurd (hclear.symm.trans hmutated) Bool.false_ne_true
    · exact Or.inr hcollide
  · exact Or.inl hnodup

theorem merkle_no_false_alarm_three :
    (computeMerkleRoot threeLeaves).mutated = false ∨ RootsCollide threeLeaves threeLeaves :=
  merkle_no_false_alarm.1 threeLeaves (by decide +kernel)

end MercaMiner
