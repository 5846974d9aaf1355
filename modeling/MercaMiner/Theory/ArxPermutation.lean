import MercaMiner.Basis.Rotation
import MercaMiner.Basis.View
import MercaMiner.Core.Mercahash.Mix

/-!
# The Rounds are Permutations

The ARX rounds never merge two mixing states.

The quarter round adds, xors and rotates its four words so that every step can
be taken back: the last word changed is recovered first, from words that have
not changed since. Inside a state it works on four different positions, which
is what a `Quad` records, and the words there are a view of the state. So an
inverse quarter round at the same positions takes back a quarter round, and a
half round is taken back by four inverse quarter rounds in reverse order.

The four quads of a half round have no position in common and leave none out.
Every word is therefore changed by exactly one quarter round, and that one
reads the words the half round was given.

## Main definitions

* `rotr`, `gInverse`, `applyGInverse`: Taking back a rotation and a quarter
  round.
* `Quad`, `Quad.view`: Four different positions and the words there.
* `columnQuads`, `diagonalQuads`: The quads of the two half rounds.
* `mercaARXColumnsInverse`, `mercaARXDiagonalsInverse`,
  `mercaARXRoundInverse`, `crossLaneMixInverse`: The inverse phases.
* `PermutesBy`: A phase and an inverse, each undoing the other.

## Theorems

* `g_leftInverse`, `g_rightInverse`: A quarter round and its inverse.
* `quads_apart`: Quads without a common position are apart.
* `columns_each`, `diagonals_each`: A half round is four quarter rounds of the
  state it was given.
* `arx_permutations`: Half rounds, rounds and the cross-lane mix are
  permutations of the state.
-/

namespace MercaMiner

namespace Mercahash

/-- Rotate right by a number of bits between 1 and 63. -/
def rotr (x k : UInt64) : UInt64 :=
  (x >>> k) ||| (x <<< (64 - k))

theorem rotr_rotl (x k : UInt64) (hpos : 0 < k.toNat) (hk : k.toNat < 64) :
    rotr (rotl x k) k = x := by
  rw [← UInt64.toBitVec_inj]
  unfold rotr rotl
  rw [Rotation.shiftRight_or_shiftLeft _ k hpos hk, Rotation.shiftLeft_or_shiftRight x k hpos hk,
    Rotation.rotateRight_rotateLeft]

theorem rotl_rotr (x k : UInt64) (hpos : 0 < k.toNat) (hk : k.toNat < 64) :
    rotl (rotr x k) k = x := by
  rw [← UInt64.toBitVec_inj]
  unfold rotr rotl
  rw [Rotation.shiftLeft_or_shiftRight _ k hpos hk, Rotation.shiftRight_or_shiftLeft x k hpos hk,
    Rotation.rotateLeft_rotateRight]

/-- The quarter round taken back, last word first. -/
def gInverse (q : Quarter) : Quarter :=
  let b := rotr q.b 63 ^^^ q.c
  let c := q.c - q.d
  let d := rotr q.d 16 ^^^ q.a
  let a := q.a - b
  let b := rotr b 24 ^^^ c
  let c := c - d
  let d := rotr d 32 ^^^ a
  let a := a - b
  ⟨a, b, c, d⟩

theorem g_leftInverse : Function.LeftInverse gInverse g := by
  intro q
  unfold gInverse g
  simp only [rotr_rotl _ 63 (by decide) (by decide), rotr_rotl _ 16 (by decide) (by decide),
    rotr_rotl _ 24 (by decide) (by decide), rotr_rotl _ 32 (by decide) (by decide),
    UInt64.xor_assoc, UInt64.xor_self, UInt64.xor_zero, UInt64.add_sub_cancel]

theorem g_rightInverse : Function.RightInverse gInverse g := by
  intro q
  unfold gInverse g
  simp only [rotl_rotr _ 63 (by decide) (by decide), rotl_rotr _ 16 (by decide) (by decide),
    rotl_rotr _ 24 (by decide) (by decide), rotl_rotr _ 32 (by decide) (by decide),
    UInt64.xor_assoc, UInt64.xor_self, UInt64.xor_zero, UInt64.sub_add_cancel]

theorem get_store (state : State) (i j : Fin 16) (word : UInt64) :
    (state.store i word).get j = if i = j then word else state.get j := by
  change (state.set i.val word)[j.val] = if i = j then word else state[j.val]
  rw [Vector.getElem_set]
  simp only [Fin.ext_iff]

theorem state_ext (s s' : State) (h : ∀ j, s.get j = s'.get j) : s = s' :=
  Vector.ext fun j hj => h ⟨j, hj⟩

/-- Four different positions. -/
structure Quad where
  a : Fin 16
  b : Fin 16
  c : Fin 16
  d : Fin 16
  distinct : [a, b, c, d].Nodup

def Quad.positions (q : Quad) : List (Fin 16) :=
  [q.a, q.b, q.c, q.d]

/-- The words at the four positions. -/
def Quad.words (q : Quad) (state : State) : Quarter :=
  ⟨state.get q.a, state.get q.b, state.get q.c, state.get q.d⟩

def Quad.put (q : Quad) (state : State) (w : Quarter) : State :=
  (((state.store q.a w.a).store q.b w.b).store q.c w.c).store q.d w.d

theorem Quad.get_put_other (q : Quad) (state : State) (w : Quarter) (j : Fin 16)
    (h : j ∉ q.positions) : (q.put state w).get j = state.get j := by
  simp only [Quad.positions, List.mem_cons, List.not_mem_nil, or_false, not_or] at h
  unfold Quad.put
  rw [get_store, if_neg (Ne.symm h.2.2.2), get_store, if_neg (Ne.symm h.2.2.1),
    get_store, if_neg (Ne.symm h.2.1), get_store, if_neg (Ne.symm h.1)]

theorem Quad.words_put (q : Quad) (state : State) (w : Quarter) : q.words (q.put state w) = w := by
  have h := q.distinct
  simp only [List.nodup_cons, List.mem_cons, List.not_mem_nil, or_false, not_or,
    not_false_eq_true, List.nodup_nil, and_true] at h
  rcases h with ⟨⟨hab, hac, had⟩, ⟨hbc, hbd⟩, hcd⟩
  simp only [Quad.words, Quad.put, get_store, if_true, Ne.symm hab, Ne.symm hac, Ne.symm had,
    Ne.symm hbc, Ne.symm hbd, Ne.symm hcd, if_false]

/-- The four words of a quad, and the other twelve, are all there is. -/
theorem Quad.ext_state (q : Quad) (s s' : State) (hwords : q.words s = q.words s')
    (hrest : ∀ j, j ∉ q.positions → s.get j = s'.get j) : s = s' := by
  refine state_ext s s' (fun j => ?_)
  by_cases hj : j ∈ q.positions
  · simp only [Quad.words, Quarter.mk.injEq] at hwords
    simp only [Quad.positions, List.mem_cons, List.not_mem_nil, or_false] at hj
    rcases hj with rfl | rfl | rfl | rfl
    · exact hwords.1
    · exact hwords.2.1
    · exact hwords.2.2.1
    · exact hwords.2.2.2
  · exact hrest j hj

/-- The words of a quad as a view of the state. -/
def Quad.view (q : Quad) : View State Quarter where
  get := q.words
  put := q.put
  get_put := q.words_put
  put_get s := by
    refine q.ext_state _ _ (q.words_put s _) (fun j hj => ?_)
    rw [q.get_put_other s _ j hj]
  put_put s x y := by
    refine q.ext_state _ _ ?_ (fun j hj => ?_)
    · rw [q.words_put, q.words_put]
    · rw [q.get_put_other _ y j hj, q.get_put_other s x j hj, q.get_put_other s y j hj]

/-- The quarter round at a quad. -/
def Quad.applyG (q : Quad) (state : State) : State :=
  Mercahash.applyG state q.a q.b q.c q.d

theorem Quad.applyG_eq (q : Quad) (state : State) : q.applyG state = q.view.modify g state := rfl

/-- A quarter round puts its results where its words were. -/
theorem Quad.words_applyG (q : Quad) (state : State) :
    q.words (q.applyG state) = g (q.words state) := by
  rw [q.applyG_eq]
  exact q.view.get_modify g state

theorem Quad.applyG_other (q : Quad) (state : State) (j : Fin 16) (h : j ∉ q.positions) :
    (q.applyG state).get j = state.get j :=
  q.get_put_other state _ j h

/-- The inverse quarter round on the words at four positions. -/
def applyGInverse (state : State) (a b c d : Fin 16) : State :=
  let q := gInverse ⟨state.get a, state.get b, state.get c, state.get d⟩
  (((state.store a q.a).store b q.b).store c q.c).store d q.d

def columnQuads : List Quad :=
  [⟨0, 4, 8, 12, by decide⟩, ⟨1, 5, 9, 13, by decide⟩, ⟨2, 6, 10, 14, by decide⟩,
    ⟨3, 7, 11, 15, by decide⟩]

def diagonalQuads : List Quad :=
  [⟨0, 5, 10, 15, by decide⟩, ⟨1, 6, 11, 12, by decide⟩, ⟨2, 7, 8, 13, by decide⟩,
    ⟨3, 4, 9, 14, by decide⟩]

theorem mercaARXColumns_eq :
    mercaARXColumns = View.sweep g (columnQuads.map Quad.view) := rfl

theorem mercaARXDiagonals_eq :
    mercaARXDiagonals = View.sweep g (diagonalQuads.map Quad.view) := rfl

/-- The column half round taken back, last quad first. -/
def mercaARXColumnsInverse (state : State) : State :=
  let state := applyGInverse state 3 7 11 15
  let state := applyGInverse state 2 6 10 14
  let state := applyGInverse state 1 5 9 13
  applyGInverse state 0 4 8 12

def mercaARXDiagonalsInverse (state : State) : State :=
  let state := applyGInverse state 3 4 9 14
  let state := applyGInverse state 2 7 8 13
  let state := applyGInverse state 1 6 11 12
  applyGInverse state 0 5 10 15

theorem mercaARXColumnsInverse_eq :
    mercaARXColumnsInverse = View.sweep gInverse (columnQuads.map Quad.view).reverse := rfl

theorem mercaARXDiagonalsInverse_eq :
    mercaARXDiagonalsInverse = View.sweep gInverse (diagonalQuads.map Quad.view).reverse := rfl

/-- Two quads without a common position. -/
def Quad.Disjoint (q r : Quad) : Prop :=
  ∀ j, j ∈ q.positions → j ∉ r.positions

theorem quads_apart (q r : Quad) (h : q.Disjoint r) : r.view.Apart q.view := by
  intro s x
  have hmem : ∀ j, j ∈ q.positions → (r.put s x).get j = s.get j :=
    fun j hj => r.get_put_other s x j (h j hj)
  change q.words (r.put s x) = q.words s
  unfold Quad.words
  simp only [Quad.positions, List.mem_cons, List.not_mem_nil, or_false, forall_eq_or_imp,
    forall_eq] at hmem
  rw [hmem.1, hmem.2.1, hmem.2.2.1, hmem.2.2.2]

theorem Quad.Disjoint.symm (q r : Quad) (h : q.Disjoint r) : r.Disjoint q := by
  intro j hr hq
  exact h j hq hr

/-- A half round over quads with no position in common gives the words of each
    quad what one quarter round gives them. -/
theorem sweep_each (quads : List Quad) (hdisjoint : quads.Pairwise Quad.Disjoint) (q : Quad)
    (hq : q ∈ quads) (state : State) :
    q.words (View.sweep g (quads.map Quad.view) state) = g (q.words state) := by
  refine View.get_sweep g (quads.map Quad.view) ?_ q.view (List.mem_map_of_mem hq) state
  rw [List.pairwise_map]
  refine hdisjoint.imp (fun h => ?_)
  exact ⟨quads_apart _ _ h.symm, quads_apart _ _ h⟩

theorem columns_disjoint : columnQuads.Pairwise Quad.Disjoint := by
  unfold columnQuads Quad.Disjoint Quad.positions
  decide

theorem diagonals_disjoint : diagonalQuads.Pairwise Quad.Disjoint := by
  unfold diagonalQuads Quad.Disjoint Quad.positions
  decide

theorem columns_each (q : Quad) (hq : q ∈ columnQuads) (state : State) :
    q.words (mercaARXColumns state) = g (q.words state) := by
  rw [mercaARXColumns_eq]
  exact sweep_each columnQuads columns_disjoint q hq state

theorem diagonals_each (q : Quad) (hq : q ∈ diagonalQuads) (state : State) :
    q.words (mercaARXDiagonals state) = g (q.words state) := by
  rw [mercaARXDiagonals_eq]
  exact sweep_each diagonalQuads diagonals_disjoint q hq state

/-- Every position belongs to exactly one of the quads. -/
def CoverOnce (quads : List Quad) : Prop :=
  (quads.flatMap Quad.positions).Perm (List.finRange 16)

/-- Each of two maps of the state undoes the other. -/
structure PermutesBy (inverse f : State → State) : Prop where
  undoes : Function.LeftInverse inverse f
  redoes : Function.RightInverse inverse f

theorem PermutesBy.comp (inverse f inverse' f' : State → State) (h : PermutesBy inverse f)
    (h' : PermutesBy inverse' f') :
    PermutesBy (fun s => inverse (inverse' s)) (fun s => f' (f s)) where
  undoes := h'.undoes.comp h.undoes
  redoes := h'.redoes.comp h.redoes

/-- Sweeping quarter rounds over quads permutes the state. -/
theorem permutesBy_sweep (quads : List Quad) :
    PermutesBy (View.sweep gInverse (quads.map Quad.view).reverse)
      (View.sweep g (quads.map Quad.view)) where
  undoes := View.sweep_leftInverse g gInverse g_leftInverse _
  redoes := by
    have h := View.sweep_leftInverse gInverse g g_rightInverse (quads.map Quad.view).reverse
    rwa [List.reverse_reverse] at h

theorem permutesBy_columns : PermutesBy mercaARXColumnsInverse mercaARXColumns := by
  rw [mercaARXColumns_eq, mercaARXColumnsInverse_eq]
  exact permutesBy_sweep columnQuads

theorem permutesBy_diagonals : PermutesBy mercaARXDiagonalsInverse mercaARXDiagonals := by
  rw [mercaARXDiagonals_eq, mercaARXDiagonalsInverse_eq]
  exact permutesBy_sweep diagonalQuads

def mercaARXRoundInverse (state : State) : State :=
  mercaARXColumnsInverse (mercaARXDiagonalsInverse state)

theorem permutesBy_round : PermutesBy mercaARXRoundInverse mercaARXRound :=
  permutesBy_columns.comp _ _ _ _ permutesBy_diagonals

/-- One word as a view of the state. -/
def wordView (j : Fin 16) : View State UInt64 where
  get state := state.get j
  put state word := state.store j word
  get_put s x := by rw [get_store, if_pos rfl]
  put_get s := by
    refine state_ext _ _ (fun k => ?_)
    rw [get_store]
    by_cases hk : j = k
    · rw [if_pos hk, hk]
    · rw [if_neg hk]
  put_put s x y := by
    refine state_ext _ _ (fun k => ?_)
    rw [get_store, get_store, get_store]
    by_cases hk : j = k
    · rw [if_pos hk, if_pos hk]
    · rw [if_neg hk, if_neg hk, if_neg hk]

theorem permutesBy_modify (j : Fin 16) (inverse f : UInt64 → UInt64)
    (hundo : Function.LeftInverse inverse f) (hredo : Function.RightInverse inverse f) :
    PermutesBy ((wordView j).modify inverse) ((wordView j).modify f) where
  undoes := (wordView j).modify_leftInverse f inverse hundo
  redoes := (wordView j).modify_leftInverse inverse f hredo

theorem permutesBy_xorAt (j : Fin 16) (word : UInt64) :
    PermutesBy (fun state => state.xorAt j word) (fun state => state.xorAt j word) := by
  have h : Function.LeftInverse (fun x : UInt64 => x ^^^ word) (fun x => x ^^^ word) := by
    intro x
    change (x ^^^ word) ^^^ word = x
    rw [UInt64.xor_assoc, UInt64.xor_self, UInt64.xor_zero]
  exact permutesBy_modify j _ _ h h

/-- Subtract a word at a position. -/
def State.subAt (state : State) (j : Fin 16) (word : UInt64) : State :=
  state.store j (state.get j - word)

theorem permutesBy_addAt (j : Fin 16) (word : UInt64) :
    PermutesBy (fun state => state.subAt j word) (fun state => state.addAt j word) :=
  permutesBy_modify j (fun x => x - word) (fun x => x + word)
    (fun x => UInt64.add_sub_cancel x word) (fun x => UInt64.sub_add_cancel x word)

/-- Two inverse rounds, then the two words the step number went into. -/
def crossLaneMixInverse (state : State) (step : UInt64) : State :=
  let state := mercaARXRoundInverse (mercaARXRoundInverse state)
  let state := state.subAt 8 (step * constants 2)
  state.xorAt 0 step

theorem permutesBy_crossLaneMix (step : UInt64) :
    PermutesBy (fun state => crossLaneMixInverse state step)
      (fun state => crossLaneMix state step) := by
  have hfeed := (permutesBy_xorAt 0 step).comp _ _ _ _ (permutesBy_addAt 8 (step * constants 2))
  have hrounds := PermutesBy.comp _ _ _ _ permutesBy_round permutesBy_round
  exact hfeed.comp _ _ _ _ hrounds

/-- A map that an inverse undoes and redoes merges no two states and misses
    none. -/
theorem PermutesBy.bijective (inverse f : State → State) (h : PermutesBy inverse f) :
    Function.Injective f ∧ Function.Surjective f :=
  ⟨h.undoes.injective, h.redoes.surjective⟩

/-- Both half rounds, the full round and the cross-lane mix of any fixed step
    number are injective and surjective, each with the inverse above. A half
    round is four quarter rounds at four different positions each, which cover
    the sixteen words once. -/
theorem arx_permutations (step : UInt64) :
    (Function.Injective mercaARXColumns ∧ Function.Surjective mercaARXColumns ∧
      PermutesBy mercaARXColumnsInverse mercaARXColumns) ∧
    (Function.Injective mercaARXDiagonals ∧ Function.Surjective mercaARXDiagonals ∧
      PermutesBy mercaARXDiagonalsInverse mercaARXDiagonals) ∧
    (Function.Injective mercaARXRound ∧ Function.Surjective mercaARXRound ∧
      PermutesBy mercaARXRoundInverse mercaARXRound) ∧
    (Function.Injective (fun state => crossLaneMix state step) ∧
      Function.Surjective (fun state => crossLaneMix state step) ∧
      PermutesBy (fun state => crossLaneMixInverse state step)
        (fun state => crossLaneMix state step)) ∧
    (∀ (q : Quad) (state : State), q.words (q.applyG state) = g (q.words state) ∧
      ∀ j, j ∉ q.positions → (q.applyG state).get j = state.get j) ∧
    (∀ state, mercaARXColumns state = columnQuads.foldl (fun s q => q.applyG s) state) ∧
    (∀ state, mercaARXDiagonals state = diagonalQuads.foldl (fun s q => q.applyG s) state) ∧
    CoverOnce columnQuads ∧ CoverOnce diagonalQuads ∧
    (∀ q ∈ columnQuads, ∀ state, q.words (mercaARXColumns state) = g (q.words state)) ∧
    (∀ q ∈ diagonalQuads, ∀ state, q.words (mercaARXDiagonals state) = g (q.words state)) := by
  have hcolumns := permutesBy_columns.bijective
  have hdiagonals := permutesBy_diagonals.bijective
  have hround := permutesBy_round.bijective
  have hmix := (permutesBy_crossLaneMix step).bijective
  have hcover : CoverOnce columnQuads ∧ CoverOnce diagonalQuads := by
    unfold CoverOnce
    decide
  refine ⟨⟨hcolumns.1, hcolumns.2, permutesBy_columns⟩,
    ⟨hdiagonals.1, hdiagonals.2, permutesBy_diagonals⟩, ⟨hround.1, hround.2, permutesBy_round⟩,
    ⟨hmix.1, hmix.2, permutesBy_crossLaneMix step⟩, ?_, fun _ => rfl, fun _ => rfl, hcover.1,
    hcover.2, ?_, ?_⟩
  · intro q state
    exact ⟨q.words_applyG state, fun j hj => q.applyG_other state j hj⟩
  · intro q hq state
    exact columns_each q hq state
  · intro q hq state
    exact diagonals_each q hq state

end Mercahash

end MercaMiner
