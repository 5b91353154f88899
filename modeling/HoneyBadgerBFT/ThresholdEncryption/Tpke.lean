import HoneyBadgerBFT.Library.Pairing
import HoneyBadgerBFT.Library.Sha256
import HoneyBadgerBFT.ThresholdEncryption.PyObj

/-!
# Threshold encryption

The functions of `tpke`, over the pairing group of `charm` and the cipher of `Crypto`, which are
parameters (`Packages`): what is assumed of them is that elements are read back from their bytes
(the base64 of `serialize` is left out) and that the cipher decrypts what it encrypts.  An
exponent is in `ZMod p`, and `none` is an exception.
-/

namespace TPKE

structure Packages (p : ℕ) (G T : Type) [CommGroup G] [CommGroup T] extends Pairing p G T where
  serialize : G → Bytes
  deserialize1 : Bytes → Option G
  deserialize2 : Bytes → Option G
  serialize_length : ∀ g, (serialize g).length = 65
  deserialize1_serialize : ∀ g, deserialize1 (serialize g) = some g
  deserialize2_serialize : ∀ g, deserialize2 (serialize g) = some g
  /-- `group.hash(x, G2)` -/
  hash : Bytes → G
  /-- `AES.new(key, AES.MODE_CBC, iv).encrypt` on whole blocks -/
  cbcEncrypt : Bytes → Bytes → Bytes → Bytes
  cbcDecrypt : Bytes → Bytes → Bytes → Bytes
  cbcEncrypt_length : ∀ key iv x, (cbcEncrypt key iv x).length = x.length
  cbcDecrypt_length : ∀ key iv x, (cbcDecrypt key iv x).length = x.length
  cbcDecrypt_encrypt : ∀ key iv x, key.length = 32 → iv.length = 16 → x.length % 16 = 0 →
    cbcDecrypt key iv (cbcEncrypt key iv x) = x

structure PublicKey (G : Type) where
  l : ℕ
  k : ℕ
  VK : G
  VKs : List G

structure PrivateKey (p : ℕ) (G : Type) extends PublicKey G where
  SK : ZMod p
  i : ℕ

/-- `assert len(x) == len(y) == 32` and the bytes of the exclusive or -/
def xor (x : Bytes) (y : PyObj) : Option Bytes :=
  if y.len = some 32 ∧ x.length = 32 then y.bytesLike.map (List.zipWith (· ^^^ ·) x) else none

section
variable {p : ℕ} [Fact p.Prime] {G T : Type} [CommGroup G] [CommGroup T] [DecidableEq T]
  (E : Packages p G T)

/-! ## the public key scheme -/

def hashG (g : G) : Bytes := sha256 (E.serialize g)

def hashH (g : G) (x : PyObj) : Option G :=
  if x.len = some 32 then x.bytesLike.map fun b => E.hash (E.serialize g ++ b) else none

namespace PublicKey

/-- `lagrange(S, j)` -/
def lagrange (PK : PublicKey G) (S : Finset ℕ) (j : ℕ) : Option (ZMod p) :=
  if S.card = PK.k ∧ S ⊆ Finset.range PK.l ∧ j ∈ S then
    let num := ∏ jj ∈ S.erase j, (0 - (jj : ZMod p) - 1)
    let den := ∏ jj ∈ S.erase j, ((j : ZMod p) - jj)
    some (num / den)
  else none

/-- `encrypt(m)` with the random exponent `r` -/
def encrypt (PK : PublicKey G) (m : Bytes) (r : ZMod p) : Option (G × Bytes × G) :=
  if m.length = 32 then do
    let U := E.g1 ^ r.val
    let V ← xor m (.bytes (hashG E (PK.VK ^ r.val)))
    let H ← hashH E U (.bytes V)
    some (U, V, H ^ r.val)
  else none

end PublicKey

/-- `verify_ciphertext(U, V, W)` returns -/
def verifyCiphertext (U : G) (V : PyObj) (W : G) : Bool :=
  match hashH E U V with
  | none => false
  | some H => decide (E.pair E.g1 W = E.pair U H)

namespace PublicKey

/-- `verify_share(i, U_i, U, V, W)` returns; `none`: no element of the group -/
def verifyShare (PK : PublicKey G) (i : ℕ) (U_i : Option G) (U : G) : Bool :=
  match U_i, PK.VKs[i]? with
  | some U_i, some Y_i => decide (i < PK.l ∧ E.pair U_i E.g1 = E.pair U Y_i)
  | _, _ => false

/-- `combine_shares(U, V, W, shares)` -/
def combineShares (PK : PublicKey G) (U : G) (V : PyObj) (shares : List (ℕ × Option G)) :
    Option Bytes :=
  let S := (shares.map Prod.fst).toFinset
  if S ⊆ Finset.range PK.l ∧ ∀ x ∈ shares, PK.verifyShare E x.1 x.2 U = true then do
    let factors ← shares.mapM fun x => do
      let share ← x.2
      let coeff ← PK.lagrange (p := p) S x.1
      some (share ^ coeff.val)
    xor (hashG E factors.prod) V
  else none

end PublicKey

/-- `decrypt_share(U, V, W)` -/
def PrivateKey.decryptShare (SK : PrivateKey p G) (U : G) (V : PyObj) (W : G) : Option G :=
  if verifyCiphertext E U V W = true then some (U ^ SK.SK.val) else none

/-! ## the dealer -/

/-- the loop of `f(x)` -/
def evalLoop (x : ZMod p) : List (ZMod p) → ZMod p → ZMod p → ZMod p
  | [], y, _ => y
  | coeff :: a, y, xx => evalLoop x a (y + coeff * xx) (xx * x)

/-- `dealer(players, k)` with the random coefficients `secret :: rest` -/
def dealer (players k : ℕ) (secret : ZMod p) (rest : List (ZMod p)) :
    Option (PublicKey G × List (PrivateKey p G)) :=
  let a := secret :: rest
  let f (x : ZMod p) := evalLoop x a 0 1
  if a.length = k ∧ f 0 = secret then do
    let SKs := (List.range' 1 players).map fun i : ℕ => f i
    let PK : PublicKey G := ⟨players, k, E.g1 ^ secret.val, SKs.map fun xx => E.g1 ^ xx.val⟩
    let coeffs ← (List.range k).mapM fun j => PK.lagrange (p := p) (Finset.range k) j
    let rhs := (List.zipWith (fun (c : ZMod p) (j : ℕ) => c * f ((j : ZMod p) + 1)) coeffs
      (List.range k)).sum
    if f 0 = rhs then some (PK, SKs.zipIdx.map fun x => ⟨PK, x.1, x.2⟩) else none
  else none

end

/-! ## symmetric encryption -/

def BS : ℕ := 16

/-- `pad(s)` of a `str` -/
def pad (s : List ℕ) : List ℕ := s ++ List.replicate (BS - s.length % BS) (BS - s.length % BS)

/-- `unpad(s)`; `none`: there is no last byte -/
def unpad (s : Bytes) : Option Bytes := s.getLast?.map fun last => sliceTo s (-(last.toNat : ℤ))

section
variable {p : ℕ} {G T : Type} [CommGroup G] [CommGroup T] (E : Packages p G T)

/-- `encrypt(key, raw)` with the random bytes `iv` -/
def encrypt (key : Bytes) (raw : List ℕ) (iv : Bytes) : Option Bytes :=
  if key.length = 32 ∧ iv.length = 16 then do
    let raw ← encodeUtf8 (pad raw)
    if raw.length % 16 = 0 then some (iv ++ E.cbcEncrypt key iv raw) else none
  else none

/-- `decrypt(key, enc)` -/
def decrypt (key : Bytes) (enc : PyObj) : Option Bytes := do
  let iv ← (enc.front 16).readOnly
  if key.length = 32 ∧ iv.length = 16 then do
    let body ← (enc.back 16).readOnly
    if body.length % 16 = 0 then unpad (E.cbcDecrypt key iv body) else none
  else none

end

end TPKE
