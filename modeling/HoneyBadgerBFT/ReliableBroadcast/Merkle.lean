import HoneyBadgerBFT.Library.Sha256
import Mathlib.Data.Nat.Bitwise
import Mathlib.Data.Nat.Log
import Mathlib.Data.Set.Function

/-!
# Reliable broadcast: Merkle trees

`merkleTree`, `getMerkleBranch` and `merkleVerify`, over any hash with digests of 32 bytes; the
`ceil(math.log(N, 2))` of the code is `Nat.clog 2 N`.  Together with each function comes the list of
the strings that it hashes (`treeHashed`, `verifyHashed`), so that a result can say that it holds
unless two of *these* strings have one digest.

* `verify_complete`    the branch that a tree gives for an entry verifies;
* `verify_collides`    two strings that verify at one index of one root are equal, or two strings
                       hashed on the way have one digest (`Collides`);
* `verify_root`        a string that verifies for the root of a tree is its entry.
-/

namespace RBC

/-- a hash function with digests of 32 bytes -/
structure Digest where
  hash : Bytes → Bytes
  length : ∀ x, (hash x).length = 32

/-- `hashlib.sha256` -/
def sha : Digest := ⟨sha256, sha256_length⟩

section
variable (H : Digest)

/-- the loop over the bottom row, for `i < n` -/
def bottomLoop (strList : List Bytes) (bottomrow : ℕ) : ℕ → List Bytes → List Bytes
  | 0, mt => mt
  | n + 1, mt =>
    (bottomLoop strList bottomrow n mt).set (bottomrow + n) (H.hash (strList.getD n []))

/-- the loop over the inner nodes, from `i` down to 1 -/
def upLoop : ℕ → List Bytes → List Bytes
  | 0, mt => mt
  | i + 1, mt =>
    upLoop i (mt.set (i + 1) (H.hash (mt.getD ((i + 1) * 2) [] ++ mt.getD ((i + 1) * 2 + 1) [])))

/-- `merkleTree(strList)`, for a list that is not empty -/
def merkleTree (strList : List Bytes) : List Bytes :=
  let bottomrow := 2 ^ Nat.clog 2 strList.length
  upLoop H (bottomrow - 1)
    (bottomLoop H strList bottomrow strList.length (List.replicate (2 * bottomrow) []))

/-- the loop of `getMerkleBranch`, for `t ≤ fuel` -/
def siblings (mt : List Bytes) : ℕ → ℕ → List Bytes
  | 0, _ => []
  | fuel + 1, t => if 1 < t then mt.getD (t ^^^ 1) [] :: siblings mt fuel (t / 2) else []

def getMerkleBranch (index : ℕ) (mt : List Bytes) : List Bytes :=
  let t := index + mt.length / 2
  siblings mt t t

/-- the argument of `hash` in the loop of `merkleVerify` -/
def join (tindex : ℕ) (br tmp : Bytes) : Bytes := if tindex % 2 = 1 then br ++ tmp else tmp ++ br

/-- the loop of `merkleVerify` -/
def climb : Bytes → ℕ → List Bytes → Bytes
  | tmp, _, [] => tmp
  | tmp, tindex, br :: branch => climb (H.hash (join tindex br tmp)) (tindex / 2) branch

/-- `merkleVerify(N, val, roothash, branch, index)` for `index < N`; `none`: an assertion fails -/
def merkleVerify (N : ℕ) (val roothash : Bytes) (branch : List Bytes) (index : ℕ) : Option Bool :=
  if branch.length = Nat.clog 2 N then some (decide (climb H (H.hash val) index branch = roothash))
  else none

/-! ## the strings that are hashed -/

def climbHashed : Bytes → ℕ → List Bytes → List Bytes
  | _, _, [] => []
  | tmp, tindex, br :: branch =>
    join tindex br tmp :: climbHashed (H.hash (join tindex br tmp)) (tindex / 2) branch

/-- the strings that `merkleVerify` hashes -/
def verifyHashed (N : ℕ) (val : Bytes) (branch : List Bytes) (index : ℕ) : List Bytes :=
  if branch.length = Nat.clog 2 N then val :: climbHashed H (H.hash val) index branch else []

/-- the strings that `merkleTree` hashes -/
def treeHashed (strList : List Bytes) : List Bytes :=
  let mt := merkleTree H strList
  strList ++ (List.range' 1 (2 ^ Nat.clog 2 strList.length - 1)).map fun i =>
    mt.getD (i * 2) [] ++ mt.getD (i * 2 + 1) []

/-! ## the tree -/

theorem bottomLoop_length (strList : List Bytes) (b n : ℕ) (mt : List Bytes) :
    (bottomLoop H strList b n mt).length = mt.length := by
  induction n with
  | zero => rfl
  | succ n ih => rw [bottomLoop, List.length_set, ih]

theorem bottomLoop_getD (strList : List Bytes) {b n : ℕ} {mt : List Bytes}
    (hn : b + n ≤ mt.length) {i : ℕ} (hi : i < n) :
    (bottomLoop H strList b n mt).getD (b + i) [] = H.hash (strList.getD i []) := by
  induction n with
  | zero => omega
  | succ n ih =>
    rw [bottomLoop, List.getD_eq_getElem?_getD, List.getElem?_set]
    by_cases hin : i = n
    · subst hin
      rw [if_pos rfl, if_pos (by rw [bottomLoop_length]; omega)]
      rfl
    · rw [if_neg (by omega), ← List.getD_eq_getElem?_getD]
      exact ih (by omega) (by omega)

theorem bottomLoop_getD_of_le (strList : List Bytes) (b n : ℕ) (mt : List Bytes) {j : ℕ}
    (hj : b + n ≤ j) : (bottomLoop H strList b n mt).getD j [] = mt.getD j [] := by
  induction n with
  | zero => rfl
  | succ n ih =>
    rw [bottomLoop, List.getD_eq_getElem?_getD, List.getElem?_set_ne (by omega),
      ← List.getD_eq_getElem?_getD]
    exact ih (by omega)

theorem upLoop_length (n : ℕ) : ∀ mt : List Bytes, (upLoop H n mt).length = mt.length := by
  induction n with
  | zero => intro mt; rfl
  | succ n ih => intro mt; rw [upLoop, ih, List.length_set]

/-- the loop leaves the nodes above `n` alone -/
theorem upLoop_getD_of_lt (n : ℕ) : ∀ (mt : List Bytes) (i : ℕ), n < i →
    (upLoop H n mt).getD i [] = mt.getD i [] := by
  induction n with
  | zero => intro mt i _; rfl
  | succ n ih =>
    intro mt i hi
    rw [upLoop, ih _ i (by omega), List.getD_eq_getElem?_getD, List.getElem?_set_ne (by omega),
      ← List.getD_eq_getElem?_getD]

theorem upLoop_getD (n : ℕ) : ∀ (mt : List Bytes), n < mt.length → ∀ i, 1 ≤ i → i ≤ n →
    (upLoop H n mt).getD i [] =
      H.hash ((upLoop H n mt).getD (i * 2) [] ++ (upLoop H n mt).getD (i * 2 + 1) []) := by
  induction n with
  | zero => intro mt _ i h1 h2; omega
  | succ n ih =>
    intro mt hn i h1 h2
    rw [upLoop]
    by_cases hi : i = n + 1
    · subst hi
      rw [upLoop_getD_of_lt H n _ (n + 1) (by omega), upLoop_getD_of_lt H n _ _ (by omega),
        upLoop_getD_of_lt H n _ _ (by omega)]
      simp only [List.getD_eq_getElem?_getD]
      rw [List.getElem?_set_self hn, List.getElem?_set_ne (by omega), List.getElem?_set_ne (by omega)]
      rfl
    · exact ih _ (by rw [List.length_set]; omega) i h1 (by omega)

section
variable (strList : List Bytes)

theorem length_le_bottomrow : strList.length ≤ 2 ^ Nat.clog 2 strList.length :=
  Nat.le_pow_clog (by decide) _

theorem merkleTree_length : (merkleTree H strList).length = 2 * 2 ^ Nat.clog 2 strList.length := by
  rw [merkleTree, upLoop_length, bottomLoop_length, List.length_replicate]

theorem merkleTree_leaf {i : ℕ} (hi : i < strList.length) :
    (merkleTree H strList).getD (2 ^ Nat.clog 2 strList.length + i) [] =
      H.hash (strList.getD i []) := by
  have hle := length_le_bottomrow strList
  rw [merkleTree, upLoop_getD_of_lt H _ _ _ (by omega), bottomLoop_getD H strList ?_ hi]
  rw [List.length_replicate]
  omega

/-- the rest of the bottom row -/
theorem merkleTree_rest {i : ℕ} (hi : strList.length ≤ i) :
    (merkleTree H strList).getD (2 ^ Nat.clog 2 strList.length + i) [] = [] := by
  have hpos := Nat.two_pow_pos (Nat.clog 2 strList.length)
  rw [merkleTree, upLoop_getD_of_lt H _ _ _ (by omega), bottomLoop_getD_of_le H _ _ _ _ (by omega),
    List.getD_eq_getElem?_getD, List.getElem?_replicate]
  split <;> rfl

theorem merkleTree_node {i : ℕ} (h1 : 1 ≤ i) (hi : i < 2 ^ Nat.clog 2 strList.length) :
    (merkleTree H strList).getD i [] =
      H.hash ((merkleTree H strList).getD (i * 2) [] ++
        (merkleTree H strList).getD (i * 2 + 1) []) := by
  refine upLoop_getD H _ _ ?_ i h1 (by omega)
  rw [bottomLoop_length, List.length_replicate]
  omega

/-- the two children of an inner node are hashed together -/
theorem node_mem_treeHashed {i : ℕ} (h1 : 1 ≤ i) (hi : i < 2 ^ Nat.clog 2 strList.length) :
    (merkleTree H strList).getD (i * 2) [] ++ (merkleTree H strList).getD (i * 2 + 1) [] ∈
      treeHashed H strList := by
  refine List.mem_append_right _ (List.mem_map.mpr ⟨i, ?_, rfl⟩)
  rw [List.mem_range'_1]
  omega

end

/-! ## completeness -/

theorem xor_one (t : ℕ) : t ^^^ 1 = if t % 2 = 1 then t - 1 else t + 1 := by
  split
  · next h => exact Nat.xor_one_of_odd (Nat.odd_iff.mpr h)
  · next h => exact Nat.xor_one_of_even (Nat.even_iff.mpr (by omega))

/-- at the node `t` of the tree, `k` levels under the root, the siblings on the way up lead to the
root, and what is hashed on the way was hashed for the tree -/
theorem climb_siblings (strList : List Bytes) (k : ℕ) : ∀ (fuel i t : ℕ), t ≤ fuel → t = i + 2 ^ k →
    i < 2 ^ k → t < 2 * 2 ^ Nat.clog 2 strList.length →
    climb H ((merkleTree H strList).getD t []) i (siblings (merkleTree H strList) fuel t) =
        (merkleTree H strList).getD 1 [] ∧
      climbHashed H ((merkleTree H strList).getD t []) i (siblings (merkleTree H strList) fuel t) ⊆
        treeHashed H strList ∧
      (siblings (merkleTree H strList) fuel t).length = k := by
  induction k with
  | zero =>
    intro fuel i t hf ht hi _
    obtain rfl : t = 1 := by omega
    obtain ⟨fuel, rfl⟩ : ∃ m, fuel = m + 1 := ⟨fuel - 1, by omega⟩
    rw [siblings, if_neg (by omega)]
    exact ⟨rfl, List.nil_subset _, rfl⟩
  | succ k ih =>
    intro fuel i t hf ht hi hlt
    rw [Nat.pow_succ] at ht hi
    have hpos : 0 < 2 ^ k := Nat.two_pow_pos k
    obtain ⟨fuel, rfl⟩ : ∃ m, fuel = m + 1 := ⟨fuel - 1, by omega⟩
    rw [siblings, if_pos (by omega)]
    have hjoin : join i ((merkleTree H strList).getD (t ^^^ 1) []) ((merkleTree H strList).getD t []) =
        (merkleTree H strList).getD (t / 2 * 2) [] ++
          (merkleTree H strList).getD (t / 2 * 2 + 1) [] := by
      rw [join, xor_one]
      by_cases hodd : i % 2 = 1
      · rw [if_pos hodd, if_pos (by omega)]
        congr 2 <;> omega
      · rw [if_neg hodd, if_neg (by omega)]
        congr 2 <;> omega
    have hnode := merkleTree_node H strList (i := t / 2) (by omega) (by omega)
    obtain ⟨h1, h2, h3⟩ := ih fuel (i / 2) (t / 2) (by omega) (by omega) (by omega) (by omega)
    rw [climb, climbHashed, hjoin, ← hnode, List.length_cons, h3]
    refine ⟨h1, List.cons_subset.mpr ⟨?_, h2⟩, rfl⟩
    exact node_mem_treeHashed H strList (by omega) (by omega)

section
variable {strList : List Bytes} {i : ℕ} (hi : i < strList.length)
include hi

/-- the branch of an entry, with what its verification hashes -/
theorem branch_spec :
    climb H (H.hash (strList.getD i [])) i (getMerkleBranch i (merkleTree H strList)) =
        (merkleTree H strList).getD 1 [] ∧
      climbHashed H (H.hash (strList.getD i [])) i (getMerkleBranch i (merkleTree H strList)) ⊆
        treeHashed H strList ∧
      (getMerkleBranch i (merkleTree H strList)).length = Nat.clog 2 strList.length := by
  have hle := length_le_bottomrow strList
  have hhalf : (merkleTree H strList).length / 2 = 2 ^ Nat.clog 2 strList.length := by
    rw [merkleTree_length]
    omega
  rw [getMerkleBranch, hhalf, ← merkleTree_leaf H strList hi,
    Nat.add_comm (2 ^ Nat.clog 2 strList.length) i]
  exact climb_siblings H strList _ _ i _ le_rfl rfl (by omega) (by omega)

/-- **completeness** -/
theorem verify_complete :
    merkleVerify H strList.length (strList.getD i []) ((merkleTree H strList).getD 1 [])
      (getMerkleBranch i (merkleTree H strList)) i = some true := by
  obtain ⟨h1, -, h3⟩ := branch_spec H hi
  rw [merkleVerify, if_pos h3, h1, decide_eq_true rfl]

theorem verifyHashed_complete :
    verifyHashed H strList.length (strList.getD i []) (getMerkleBranch i (merkleTree H strList)) i ⊆
      treeHashed H strList := by
  obtain ⟨-, h2, h3⟩ := branch_spec H hi
  rw [verifyHashed, if_pos h3]
  refine List.cons_subset.mpr ⟨List.mem_append_left _ ?_, h2⟩
  rw [List.getD_eq_getElem?_getD, List.getElem?_eq_getElem hi]
  exact List.getElem_mem hi

end

/-! ## binding -/

/-- both sides of `join` are determined, as `tmp` has 32 bytes -/
theorem join_inj {i : ℕ} {br br' tmp tmp' : Bytes} (hlen : tmp.length = tmp'.length)
    (h : join i br tmp = join i br' tmp') : tmp = tmp' := by
  unfold join at h
  split at h
  · exact (List.append_inj' h hlen).2
  · exact (List.append_inj h hlen).1

/-- a string of the one list and a string of the other have the same digest -/
def Collides (xs ys : List Bytes) : Prop := ∃ x ∈ xs, ∃ y ∈ ys, x ≠ y ∧ H.hash x = H.hash y

variable {H} in
theorem Collides.mono {xs xs' ys ys' : List Bytes} (h : Collides H xs ys) (hx : xs ⊆ xs')
    (hy : ys ⊆ ys') : Collides H xs' ys' := by
  obtain ⟨x, hxm, y, hym, hne, heq⟩ := h
  exact ⟨x, hx hxm, y, hy hym, hne, heq⟩

variable {H} in
theorem Collides.not_injOn {xs ys : List Bytes} {S : Set Bytes} (h : Collides H xs ys)
    (hx : ∀ x ∈ xs, x ∈ S) (hy : ∀ y ∈ ys, y ∈ S) : ¬ Set.InjOn H.hash S := by
  obtain ⟨x, hxm, y, hym, hne, heq⟩ := h
  exact fun hS => hne (hS (hx x hxm) (hy y hym) heq)

/-- two climbs to one root start at one digest, or they hash two strings to one digest -/
theorem climb_binds (branch : List Bytes) : ∀ (branch' : List Bytes) (i : ℕ) (tmp tmp' : Bytes),
    branch.length = branch'.length → tmp.length = tmp'.length →
      climb H tmp i branch = climb H tmp' i branch' →
      tmp = tmp' ∨ Collides H (climbHashed H tmp i branch) (climbHashed H tmp' i branch') := by
  induction branch with
  | nil =>
    intro branch' i tmp tmp' hb _ h
    obtain rfl := List.length_eq_zero_iff.mp hb.symm
    exact .inl h
  | cons br branch ih =>
    intro branch' i tmp tmp' hb hlen h
    cases branch' with
    | nil => cases hb
    | cons br' branch' =>
      rw [climbHashed, climbHashed]
      rcases ih branch' (i / 2) _ _ (Nat.succ.inj hb) ((H.length _).trans (H.length _).symm) h with
        hdig | hcol
      · by_cases hjoin : join i br tmp = join i br' tmp'
        · exact .inl (join_inj hlen hjoin)
        · exact .inr ⟨_, List.mem_cons_self, _, List.mem_cons_self, hjoin, hdig⟩
      · exact .inr (hcol.mono (List.subset_cons_self _ _) (List.subset_cons_self _ _))

theorem verify_iff {N i : ℕ} {val root : Bytes} {branch : List Bytes} :
    merkleVerify H N val root branch i = some true ↔
      branch.length = Nat.clog 2 N ∧ climb H (H.hash val) i branch = root := by
  unfold merkleVerify
  split
  · next h => simp [h]
  · next h => simp [h]

/-- two strings that verify at one index of one root are equal, or there is a collision -/
theorem verify_collides {N i : ℕ} {val val' root : Bytes} {branch branch' : List Bytes}
    (hv : merkleVerify H N val root branch i = some true)
    (hv' : merkleVerify H N val' root branch' i = some true) :
    val = val' ∨ Collides H (verifyHashed H N val branch i) (verifyHashed H N val' branch' i) := by
  obtain ⟨hb, hroot⟩ := (verify_iff H).mp hv
  obtain ⟨hb', hroot'⟩ := (verify_iff H).mp hv'
  rw [verifyHashed, if_pos hb, verifyHashed, if_pos hb']
  rcases climb_binds H branch branch' i _ _ (hb.trans hb'.symm)
    ((H.length val).trans (H.length val').symm) (hroot.trans hroot'.symm) with hdig | hcol
  · by_cases hval : val = val'
    · exact .inl hval
    · exact .inr ⟨_, List.mem_cons_self, _, List.mem_cons_self, hval, hdig⟩
  · exact .inr (hcol.mono (List.subset_cons_self _ _) (List.subset_cons_self _ _))

/-- **binding** -/
theorem verify_binds {N i : ℕ} {val val' root : Bytes} {branch branch' : List Bytes} {S : Set Bytes}
    (hS : Set.InjOn H.hash S) (hv : merkleVerify H N val root branch i = some true)
    (hv' : merkleVerify H N val' root branch' i = some true)
    (h1 : ∀ x ∈ verifyHashed H N val branch i, x ∈ S)
    (h2 : ∀ x ∈ verifyHashed H N val' branch' i, x ∈ S) : val = val' :=
  (verify_collides H hv hv').resolve_right fun hcol => hcol.not_injOn h1 h2 hS

/-- what verifies for the root of a tree is an entry of its list -/
theorem verify_root {strList : List Bytes} {N i : ℕ} (hN : strList.length = N) (hi : i < N)
    {val : Bytes} {branch : List Bytes} {S : Set Bytes} (hS : Set.InjOn H.hash S)
    (hv : merkleVerify H N val ((merkleTree H strList).getD 1 []) branch i = some true)
    (h1 : ∀ x ∈ verifyHashed H N val branch i, x ∈ S)
    (h2 : ∀ x ∈ treeHashed H strList, x ∈ S) : strList.getD i [] = val := by
  subst hN
  exact verify_binds H hS (verify_complete H hi) hv
    (fun x hx => h2 x (verifyHashed_complete H hi hx)) h1

/-- **a root binds every position**: two strings that verify at one index are equal, unless the two
verifications hash two strings to one digest; for the root of a tree the string is the entry of the
list, unless the verification and the tree do -/
theorem merkle_binding (N index : ℕ) (hindex : index < N) (val : Bytes) (branch : List Bytes) :
    (∀ (root val' : Bytes) (branch' : List Bytes),
      merkleVerify H N val root branch index = some true →
      merkleVerify H N val' root branch' index = some true →
        val = val' ∨
          Collides H (verifyHashed H N val branch index) (verifyHashed H N val' branch' index)) ∧
    ∀ strList : List Bytes, strList.length = N →
      merkleVerify H N val ((merkleTree H strList).getD 1 []) branch index = some true →
        val = strList.getD index [] ∨
          Collides H (verifyHashed H N val branch index) (treeHashed H strList) := by
  refine ⟨fun root val' branch' hv hv' => verify_collides H hv hv', fun strList hN hv => ?_⟩
  subst hN
  exact (verify_collides H hv (verify_complete H hindex)).imp_right fun hcol =>
    hcol.mono (List.Subset.refl _) (verifyHashed_complete H hindex)

/-- one digest for all strings -/
def Digest.constant : Digest := ⟨fun _ => List.replicate 32 0, fun _ => List.length_replicate⟩

/-- a string that is not in the list verifies, and collides -/
theorem merkle_binding_three :
    let strList : List Bytes := [[1], [2], [3]]
    let tree := merkleTree .constant strList
    let branch := getMerkleBranch 2 tree
    merkleVerify .constant 3 [9] (tree.getD 1 []) branch 2 = some true ∧
      Collides .constant (verifyHashed .constant 3 [9] branch 2) (treeHashed .constant strList) := by
  intro strList tree branch
  have hv : merkleVerify .constant 3 [9] (tree.getD 1 []) branch 2 = some true := by decide +kernel
  exact ⟨hv, ((merkle_binding .constant 3 2 (by decide) [9] branch).2 strList rfl hv).resolve_left
    (by decide)⟩

end
end RBC
