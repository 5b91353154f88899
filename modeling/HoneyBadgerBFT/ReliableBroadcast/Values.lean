import HoneyBadgerBFT.Library.PyVal
import HoneyBadgerBFT.ReliableBroadcast.Erasure
import HoneyBadgerBFT.ReliableBroadcast.Merkle

/-!
# Reliable broadcast: Merkle trees and `decode` on any values

`merkleTreeText` is `merkleTree` on a list of strings of both types.  The fields of a message from
another party are values of any type.  `merkleVerifyVal` follows `merkleVerify` on these with the
exceptions it raises: an `AssertionError`, which the caller expects, or another one, also from the
`print` of a root hash that does not match.  `decodeVal` is `decode` on a table of values.

* `verify_true_iff`    what verifies: a `str` does if its bytes do;
* `verify_raises_iff`  when another exception is raised;
* `merkle_complete`    the branch of every string of a tree verifies;
* `decodeVal_bytes`    a table of byte strings: the `decode` of the other module.
-/

namespace RBC

/-- an `AssertionError`, or another exception -/
inductive PyError where
  | assertion | other
deriving DecidableEq

/-- the value, or the exception -/
def orRaise {α : Type} (e : PyError) : Option α → Except PyError α
  | some x => .ok x
  | none => .error e

section
variable (H : Digest)

/-- the loop of `merkleVerify`: only `bytes` can be added to `bytes` -/
def climbVal : Bytes → ℕ → List PyVal → Except PyError Bytes
  | tmp, _, [] => .ok tmp
  | tmp, tindex, br :: branch => do
    let br ← orRaise .other br.asBytes
    climbVal (H.hash (join tindex br tmp)) (tindex / 2) branch

/-- `merkleVerify(N, val, roothash, branch, index)` for `index < N` -/
def merkleVerifyVal (N : ℕ) (val roothash branch : PyVal) (index : ℕ) : Except PyError Bool := do
  let val ← orRaise .assertion val.text
  let branch ← orRaise .other branch.items
  if branch.length = Nat.clog 2 N then
    let val ← orRaise .other val.toBytes
    let tmp ← climbVal H (H.hash val) index branch
    if .bytes tmp = roothash then pure true
    -- `print("Verification failed with", hash(val), roothash, branch, tmp == roothash)`
    else if roothash.printable = true then pure false
    else throw .other
  else throw .assertion

/-- the strings that the loop hashes, up to a value that is not `bytes` -/
def climbHashedVal : Bytes → ℕ → List PyVal → List Bytes
  | _, _, [] => []
  | tmp, tindex, br :: branch =>
    match br.asBytes with
    | some br =>
      join tindex br tmp :: climbHashedVal (H.hash (join tindex br tmp)) (tindex / 2) branch
    | none => []

/-- the strings that `merkleVerify` hashes -/
def verifyHashedVal (N : ℕ) (val branch : PyVal) (index : ℕ) : List Bytes :=
  match val.text.bind Text.toBytes, branch.items with
  | some val, some branch =>
    if branch.length = Nat.clog 2 N then val :: climbHashedVal H (H.hash val) index branch else []
  | _, _ => []

/-- no exception but an `AssertionError`: a value that is not a string fails the first assertion,
and a branch of another length the second -/
def checkable (N : ℕ) (val roothash branch : PyVal) : Bool :=
  match val.text, branch.items with
  | none, _ => true
  | some _, none => false
  | some val, some branch => decide (branch.length = Nat.clog 2 N → val.toBytes.isSome = true ∧
      (∀ br ∈ branch, br.asBytes.isSome = true) ∧ roothash.printable = true)

/-! ## the branch -/

theorem climbVal_bytes (branch : List Bytes) : ∀ (tmp : Bytes) (i : ℕ),
    climbVal H tmp i (branch.map .bytes) = .ok (climb H tmp i branch) := by
  induction branch with
  | nil => intro tmp i; rfl
  | cons br branch ih => intro tmp i; exact ih _ _

theorem climbHashedVal_bytes (branch : List Bytes) : ∀ (tmp : Bytes) (i : ℕ),
    climbHashedVal H tmp i (branch.map .bytes) = climbHashed H tmp i branch := by
  induction branch with
  | nil => intro tmp i; rfl
  | cons br branch ih => intro tmp i; exact congrArg _ (ih _ _)

/-- the loop ends, or meets a value that is not `bytes` -/
theorem climbVal_cases (branch : List PyVal) : ∀ (tmp : Bytes) (i : ℕ),
    (∃ bs : List Bytes, branch = bs.map .bytes) ∨
      (¬ (∀ br ∈ branch, br.asBytes.isSome = true) ∧ climbVal H tmp i branch = .error .other) := by
  induction branch with
  | nil => exact fun _ _ => .inl ⟨[], rfl⟩
  | cons br branch ih =>
    intro tmp i
    cases hbr : br.asBytes with
    | none =>
      refine .inr ⟨fun h => ?_, ?_⟩
      · have := h br List.mem_cons_self
        rw [hbr] at this
        cases this
      · rw [climbVal, hbr]
        rfl
    | some b =>
      obtain rfl := PyVal.asBytes_eq_some.mp hbr
      rcases ih (H.hash (join i b tmp)) (i / 2) with ⟨bs, rfl⟩ | ⟨hno, herr⟩
      · exact .inl ⟨b :: bs, rfl⟩
      · exact .inr ⟨fun h => hno fun x hx => h x (List.mem_cons_of_mem _ hx), herr⟩

/-! ## the check -/

section
variable {N i : ℕ} {val branch roothash : PyVal}

section
variable {t : Text} {xs : List PyVal} (hval : val.text = some t) (hbranch : branch.items = some xs)
include hval hbranch

/-- the check of a string, from the second assertion on -/
theorem verify_from (hlen : xs.length = Nat.clog 2 N) :
    merkleVerifyVal H N val roothash branch i = (do
      let b ← orRaise .other t.toBytes
      let tmp ← climbVal H (H.hash b) i xs
      if .bytes tmp = roothash then pure true
      else if roothash.printable = true then pure false else throw .other) := by
  unfold merkleVerifyVal
  rw [hval, hbranch]
  exact if_pos hlen

/-- a branch of another length -/
theorem verify_length (hlen : xs.length ≠ Nat.clog 2 N) :
    merkleVerifyVal H N val roothash branch i = .error .assertion := by
  unfold merkleVerifyVal
  rw [hval, hbranch]
  exact if_neg hlen

omit H in
theorem checkable_eq : checkable N val roothash branch =
    decide (xs.length = Nat.clog 2 N → t.toBytes.isSome = true ∧
      (∀ br ∈ xs, br.asBytes.isSome = true) ∧ roothash.printable = true) := by
  unfold checkable
  rw [hval, hbranch]

end

section
variable {t : Text} {b : Bytes} {bs : List Bytes} (hval : val.text = some t)
  (ht : t.toBytes = some b) (hbranch : branch.items = some (bs.map .bytes))
include hval ht hbranch

/-- a string with the bytes `b`, and a branch of byte strings that has the right length -/
theorem verify_eq (hlen : bs.length = Nat.clog 2 N) :
    merkleVerifyVal H N val roothash branch i =
      if .bytes (climb H (H.hash b) i bs) = roothash then .ok true
      else if roothash.printable = true then .ok false else .error .other := by
  rw [verify_from H hval hbranch ((List.length_map _).trans hlen), ht]
  show (do let tmp ← climbVal H (H.hash b) i (bs.map .bytes); _) = _
  rw [climbVal_bytes]
  rfl

theorem verify_ok (hlen : bs.length = Nat.clog 2 N) (hprint : roothash.printable = true) :
    merkleVerifyVal H N val roothash branch i =
      .ok (decide (.bytes (climb H (H.hash b) i bs) = roothash)) := by
  rw [verify_eq H hval ht hbranch hlen, if_pos hprint]
  split
  · next he => rw [decide_eq_true he]
  · next he => rw [decide_eq_false he]

/-- a root hash that cannot be printed is no digest -/
theorem verify_unprintable (hlen : bs.length = Nat.clog 2 N) (hprint : roothash.printable ≠ true) :
    merkleVerifyVal H N val roothash branch i = .error .other := by
  rw [verify_eq H hval ht hbranch hlen, if_neg hprint, if_neg]
  rintro rfl
  exact hprint rfl

theorem verifyHashed_eq : verifyHashedVal H N val branch i = verifyHashed H N b bs i := by
  unfold verifyHashedVal verifyHashed
  rw [hval, Option.bind_some, ht, hbranch]
  show (if (bs.map PyVal.bytes).length = Nat.clog 2 N then _ else _) = _
  rw [List.length_map, climbHashedVal_bytes]

end

/-- a string goes up to the root, or fails an assertion, or raises another exception -/
theorem verify_cases (N i : ℕ) (val branch roothash : PyVal) :
    (∃ t b, ∃ bs : List Bytes, val.text = some t ∧ t.toBytes = some b ∧
      branch.items = some (bs.map .bytes) ∧ bs.length = Nat.clog 2 N ∧
      roothash.printable = true) ∨
    (checkable N val roothash branch = true ∧
      merkleVerifyVal H N val roothash branch i = .error .assertion) ∨
    (checkable N val roothash branch = false ∧
      merkleVerifyVal H N val roothash branch i = .error .other) := by
  cases hval : val.text with
  | none =>
    unfold merkleVerifyVal checkable
    rw [hval]
    exact .inr (.inl ⟨rfl, rfl⟩)
  | some t =>
    cases hbranch : branch.items with
    | none =>
      unfold merkleVerifyVal checkable
      rw [hval, hbranch]
      exact .inr (.inr ⟨rfl, rfl⟩)
    | some xs =>
      have hcheck : checkable N val roothash branch = _ := checkable_eq hval hbranch
      by_cases hlen : xs.length = Nat.clog 2 N
      · have hfrom : merkleVerifyVal H N val roothash branch i = _ :=
          verify_from H hval hbranch hlen
        cases ht : t.toBytes with
        | none =>
          rw [ht] at hcheck hfrom
          exact .inr (.inr ⟨hcheck.trans (decide_eq_false fun h => Bool.noConfusion (h hlen).1), hfrom⟩)
        | some b =>
          rcases climbVal_cases H xs (H.hash b) i with ⟨bs, rfl⟩ | ⟨hno, herr⟩
          · rw [List.length_map] at hlen
            by_cases hprint : roothash.printable = true
            · exact .inl ⟨t, b, bs, rfl, ht, rfl, hlen, hprint⟩
            · refine .inr (.inr ⟨?_, verify_unprintable H hval ht hbranch hlen hprint⟩)
              rw [hcheck]
              exact decide_eq_false fun h => hprint (h ((List.length_map _).trans hlen)).2.2
          · refine .inr (.inr ⟨?_, ?_⟩)
            · rw [hcheck]
              exact decide_eq_false fun h => hno (h hlen).2.1
            · rw [hfrom, ht]
              show (do let tmp ← climbVal H (H.hash b) i xs; _) = _
              rw [herr]
              rfl
      · refine .inr (.inl ⟨?_, verify_length H hval hbranch hlen⟩)
        rw [hcheck]
        exact decide_eq_true fun h => absurd h hlen

/-- **what verifies**: the bytes of a string, whether it is `bytes` or a `str` -/
theorem verify_true_iff : merkleVerifyVal H N val roothash branch i = .ok true ↔
    ∃ t b r, ∃ bs : List Bytes, val.text = some t ∧ t.toBytes = some b ∧ roothash = .bytes r ∧
      branch.items = some (bs.map .bytes) ∧ merkleVerify H N b r bs i = some true := by
  constructor
  · intro h
    rcases verify_cases H N i val branch roothash with
      ⟨t, b, bs, hval, ht, hbranch, hlen, hprint⟩ | ⟨-, herr⟩ | ⟨-, herr⟩
    · rw [verify_ok H hval ht hbranch hlen hprint, Except.ok.injEq, decide_eq_true_iff] at h
      exact ⟨t, b, _, bs, hval, ht, h.symm, hbranch, (verify_iff H).mpr ⟨hlen, rfl⟩⟩
    · rw [herr] at h
      cases h
    · rw [herr] at h
      cases h
  · rintro ⟨t, b, r, bs, hval, ht, rfl, hbranch, hv⟩
    obtain ⟨hlen, hroot⟩ := (verify_iff H).mp hv
    rw [verify_ok H hval ht hbranch hlen rfl, hroot, decide_eq_true rfl]

/-- what verifies and is no `str`, is `bytes` -/
theorem bytes_of_verified (hv : merkleVerifyVal H N val roothash branch i = .ok true)
    (hval : val.isStr = false) : ∃ b, val = .bytes b := by
  obtain ⟨t, -, -, -, ht, -⟩ := (verify_true_iff H).mp hv
  exact PyVal.eq_bytes_of_text ht hval

/-- the check of byte strings -/
theorem verify_bytes {b r : Bytes} {bs : List Bytes} :
    merkleVerifyVal H N (.bytes b) (.bytes r) (.list (bs.map .bytes)) i =
      orRaise .assertion (merkleVerify H N b r bs i) := by
  by_cases hlen : bs.length = Nat.clog 2 N
  · rw [verify_ok H rfl rfl rfl hlen rfl, merkleVerify, if_pos hlen]
    simp [orRaise]
  · rw [merkleVerify, if_neg hlen]
    exact verify_length H rfl rfl fun h => hlen ((List.length_map _).symm.trans h)

/-- a `str` is checked as its bytes are -/
theorem verify_str {s : List ℕ} {b : Bytes} (hs : encodeUtf8 s = some b) :
    merkleVerifyVal H N (.str s) roothash branch i =
      merkleVerifyVal H N (.bytes b) roothash branch i := by
  have htext : Text.toBytes (.str s) = Text.toBytes (.bytes b) := hs
  unfold merkleVerifyVal
  simp only [PyVal.text, orRaise, bind, Except.bind, htext]

/-- **when the check raises something else** -/
theorem verify_raises_iff : merkleVerifyVal H N val roothash branch i = .error .other ↔
    checkable N val roothash branch = false := by
  rcases verify_cases H N i val branch roothash with
    ⟨t, b, bs, hval, ht, hbranch, hlen, hprint⟩ | ⟨hc, herr⟩ | ⟨hc, herr⟩
  · have hc : checkable N val roothash branch = true := by
      rw [checkable_eq hval hbranch]
      refine decide_eq_true fun _ => ⟨by rw [ht]; rfl, fun br hbr => ?_, hprint⟩
      obtain ⟨b', -, rfl⟩ := List.mem_map.mp hbr
      rfl
    rw [verify_ok H hval ht hbranch hlen hprint, hc]
    exact ⟨(fun h => by cases h), (fun h => by cases h)⟩
  · rw [herr, hc]
    exact ⟨(fun h => by cases h), (fun h => by cases h)⟩
  · rw [herr, hc]
    exact ⟨fun _ => rfl, fun _ => rfl⟩

end

/-! ## trees over strings of both types -/

/-- the loop over the bottom row; `none`: `hash` cannot encode a `str` -/
def bottomLoopText (strList : List Text) (bottomrow : ℕ) : ℕ → List Bytes → Option (List Bytes)
  | 0, mt => some mt
  | n + 1, mt => do
    let mt ← bottomLoopText strList bottomrow n mt
    let val ← (strList.getD n (.bytes [])).toBytes
    some (mt.set (bottomrow + n) (H.hash val))

/-- `merkleTree(strList)`; `none`: it raises -/
def merkleTreeText (strList : List Text) : Option (List Bytes) :=
  if 1 ≤ strList.length then do
    let bottomrow := 2 ^ Nat.clog 2 strList.length
    let mt ← bottomLoopText H strList bottomrow strList.length (List.replicate (2 * bottomrow) [])
    some (upLoop H (bottomrow - 1) mt)
  else none

section
variable {strList : List Text}

/-- the bottom row of strings that have bytes -/
theorem bottomLoopText_bytes {bs : List Bytes} (hbs : strList.map Text.toBytes = bs.map some)
    (bottomrow : ℕ) (mt : List Bytes) : ∀ n ≤ strList.length,
      bottomLoopText H strList bottomrow n mt = some (bottomLoop H bs bottomrow n mt) := by
  intro n
  induction n with
  | zero => exact fun _ => rfl
  | succ n ih =>
    intro hn
    have hlen : strList.length = bs.length := by simpa using congrArg List.length hbs
    have hval : (strList.getD n (.bytes [])).toBytes = some (bs.getD n []) := by
      have hget := congrArg (·[n]?) hbs
      simp only [List.getElem?_map] at hget
      rw [List.getElem?_eq_getElem (by omega), List.getElem?_eq_getElem (by omega)] at hget
      rw [List.getD_eq_getElem _ _ (by omega), List.getD_eq_getElem _ _ (by omega)]
      exact Option.some.inj hget
    rw [bottomLoopText, ih (by omega), Option.bind_eq_bind, Option.bind_some, hval, bottomLoop]
    rfl

/-- a string without bytes stops the loop -/
theorem bottomLoopText_none {k : ℕ} (hk : (strList.getD k (.bytes [])).toBytes = none)
    (bottomrow : ℕ) (mt : List Bytes) : ∀ n, k < n →
      bottomLoopText H strList bottomrow n mt = none := by
  intro n
  induction n with
  | zero => exact fun hn => absurd hn (Nat.not_lt_zero k)
  | succ n ih =>
    intro hn
    rw [bottomLoopText]
    rcases Nat.lt_succ_iff_lt_or_eq.mp hn with hlt | rfl
    · rw [ih hlt]
      rfl
    · rw [hk]
      cases bottomLoopText H strList bottomrow k mt <;> rfl

/-- the tree over strings that have bytes is the one over these -/
theorem merkleTreeText_bytes {bs : List Bytes} (hbs : strList.map Text.toBytes = bs.map some)
    (hne : 1 ≤ strList.length) : merkleTreeText H strList = some (merkleTree H bs) := by
  have hlen : strList.length = bs.length := by simpa using congrArg List.length hbs
  unfold merkleTreeText merkleTree
  rw [if_pos hne]
  dsimp only
  rw [bottomLoopText_bytes H hbs _ _ _ le_rfl, hlen]
  rfl

/-- the strings of a list have bytes, or one of them has none -/
theorem exists_bytes (strList : List Text) :
    (∃ bs : List Bytes, strList.map Text.toBytes = bs.map some) ∨
      ∃ x ∈ strList, x.toBytes = none := by
  induction strList with
  | nil => exact .inl ⟨[], rfl⟩
  | cons x strList ih =>
    cases hx : x.toBytes with
    | none => exact .inr ⟨x, List.mem_cons_self, hx⟩
    | some b =>
      rcases ih with ⟨bs, hbs⟩ | ⟨y, hy, hnone⟩
      · exact .inl ⟨b :: bs, by rw [List.map_cons, hbs, hx]; rfl⟩
      · exact .inr ⟨y, List.mem_cons_of_mem _ hy, hnone⟩

theorem merkleTreeText_none {x : Text} (hx : x ∈ strList) (hnone : x.toBytes = none) :
    merkleTreeText H strList = none := by
  obtain ⟨k, hk⟩ := List.mem_iff_getElem?.mp hx
  obtain ⟨hlt, hk⟩ := List.getElem?_eq_some_iff.mp hk
  unfold merkleTreeText
  rw [if_pos (by omega)]
  dsimp only
  rw [bottomLoopText_none H (k := k) ?_ _ _ _ hlt]
  · rfl
  · rw [List.getD_eq_getElem _ _ hlt, hk, hnone]

end

/-- **the tree over a list of strings** is built if and only if each of them has bytes; then the
branch of every string has the length that `merkleVerify` asks for, and verifies -/
theorem merkle_complete (strList : List Text) (hne : 1 ≤ strList.length) :
    (merkleTreeText H strList = none ↔ ∃ x ∈ strList, x.toBytes = none) ∧
    ∀ mt, merkleTreeText H strList = some mt → ∀ index x, strList[index]? = some x →
      (getMerkleBranch index mt).length = Nat.clog 2 strList.length ∧
        merkleVerifyVal H strList.length (.ofText x) (.bytes (mt.getD 1 []))
          (.list ((getMerkleBranch index mt).map .bytes)) index = .ok true := by
  rcases exists_bytes strList with ⟨bs, hbs⟩ | ⟨y, hy, hnone⟩
  · have htree := merkleTreeText_bytes H hbs hne
    have hlen : strList.length = bs.length := by simpa using congrArg List.length hbs
    have hbytes : ∀ index x, strList[index]? = some x → ∃ h : index < bs.length,
        x.toBytes = some bs[index] := by
      intro index x hx
      have hget := congrArg (·[index]?) hbs
      simp only [List.getElem?_map, hx, Option.map_some] at hget
      obtain ⟨b, hb, hxb⟩ := Option.map_eq_some_iff.mp hget.symm
      obtain ⟨hlt, rfl⟩ := List.getElem?_eq_some_iff.mp hb
      exact ⟨hlt, hxb.symm⟩
    constructor
    · rw [htree]
      refine ⟨fun h => (by cases h), ?_⟩
      rintro ⟨x, hx, hnone⟩
      obtain ⟨index, hindex⟩ := List.mem_iff_getElem?.mp hx
      obtain ⟨_, hb⟩ := hbytes index x hindex
      cases hnone.symm.trans hb
    · intro mt hmt index x hx
      obtain rfl := Option.some.inj (htree.symm.trans hmt)
      obtain ⟨hlt, hb⟩ := hbytes index x hx
      obtain ⟨hroot, -, hbranch⟩ := branch_spec H hlt
      rw [List.getD_eq_getElem _ _ hlt] at hroot
      rw [hlen]
      refine ⟨hbranch, ?_⟩
      rw [verify_ok H (PyVal.text_ofText x) hb rfl hbranch rfl, hroot, decide_eq_true rfl]
  · have htree := merkleTreeText_none H hy hnone
    refine ⟨iff_of_true htree ⟨y, hy, hnone⟩, fun mt hmt => ?_⟩
    cases htree.symm.trans hmt

/-- a `str` of one byte, `bytes`, and a `str` of two bytes -/
theorem merkle_complete_three : ∃ mt,
    merkleTreeText sha [.str [0x61], .bytes [2], .str [0xE9]] = some mt ∧
      (getMerkleBranch 2 mt).length = 2 ∧
      merkleVerifyVal sha 3 (.str [0xE9]) (.bytes (mt.getD 1 []))
        (.list ((getMerkleBranch 2 mt).map .bytes)) 2 = .ok true := by
  obtain ⟨hraises, hverifies⟩ :=
    merkle_complete sha [.str [0x61], .bytes [2], .str [0xE9]] (by decide)
  obtain ⟨mt, hmt⟩ := Option.ne_none_iff_exists'.mp (hraises.not.mpr (by decide))
  exact ⟨mt, hmt, hverifies mt hmt 2 _ rfl⟩

/-- over a lone surrogate there is no tree -/
theorem surrogate_has_no_tree : ¬ ∀ (strList : List Text), 1 ≤ strList.length →
    ∀ index x, strList[index]? = some x → ∃ mt, merkleTreeText sha strList = some mt ∧
      merkleVerifyVal sha strList.length (.ofText x) (.bytes (mt.getD 1 []))
        (.list ((getMerkleBranch index mt).map .bytes)) index = .ok true := by
  intro hclaim
  obtain ⟨mt, hmt, -⟩ := hclaim [.str [0xD800]] (by decide) 0 _ rfl
  cases hmt

end

/-! ## decoding -/

section
variable {K N : ℕ}

/-- the loop of `decode`, which looks at no value but `None` -/
def collectVal (K : ℕ) : List (Option PyVal) → ℕ → List PyVal → List ℕ → Option (List PyVal × List ℕ)
  | [], _, _, _ => none
  | none :: rest, i, blocks, blocknums => collectVal K rest (i + 1) blocks blocknums
  | some block :: rest, i, blocks, blocknums =>
    if (blocks ++ [block]).length = K then some (blocks ++ [block], blocknums ++ [i])
    else collectVal K rest (i + 1) (blocks ++ [block]) (blocknums ++ [i])

/-- `decode(K, N, stripes)`; the decoder of `zfec` takes `bytes` only -/
def decodeVal (z : Zfec K N) (stripes : Fin N → Option PyVal) : Option Bytes := do
  let (blocks, blocknums) ← collectVal K (List.ofFn stripes) 0 [] []
  let blocks ← blocks.mapM PyVal.asBytes
  let m ← z.decode blocks blocknums
  unpad K m.flatten

theorem collectVal_bytes (l : List (Option Bytes)) : ∀ (i : ℕ) (blocks : List Bytes) (nums : List ℕ),
    collectVal K (l.map (Option.map PyVal.bytes)) i (blocks.map .bytes) nums =
      (collect K l i blocks nums).map fun x => (x.1.map .bytes, x.2) := by
  induction l with
  | nil => intro i blocks nums; rfl
  | cons a l ih =>
    intro i blocks nums
    cases a with
    | none => exact ih (i + 1) blocks nums
    | some b =>
      have hmap : blocks.map PyVal.bytes ++ [.bytes b] = (blocks ++ [b]).map .bytes := by simp
      rw [List.map_cons, Option.map_some, collectVal, collect, hmap, List.length_map, ih]
      split <;> rfl

/-- a table of byte strings -/
theorem decodeVal_bytes (z : Zfec K N) (stripes : Fin N → Option Bytes) :
    decodeVal z (fun i => (stripes i).map .bytes) = decode z stripes := by
  have hlist : List.ofFn (fun i => (stripes i).map PyVal.bytes) =
      (List.ofFn stripes).map (Option.map PyVal.bytes) := by
    rw [List.map_ofFn]
    rfl
  unfold decodeVal decode
  rw [hlist, show ([] : List PyVal) = ([] : List Bytes).map .bytes from rfl, collectVal_bytes]
  cases hcol : collect K (List.ofFn stripes) 0 [] [] with
  | none => rfl
  | some x =>
    show (do let blocks ← (x.1.map PyVal.bytes).mapM PyVal.asBytes; _) = _
    rw [PyVal.mapM_asBytes]
    rfl

end
end RBC
