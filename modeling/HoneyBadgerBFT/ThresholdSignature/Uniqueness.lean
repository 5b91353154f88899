import HoneyBadgerBFT.CommonCoin.Agreement

/-!
# Threshold signatures: one signature for a message

Whichever `k` parties sign, `combine_shares` gives the message hash to the power of the secret, and
nothing else passes `verify_signature`.
-/

namespace TSIG

variable {p : ℕ} [Fact p.Prime] {G₁ G₂ T : Type} [CommGroup G₁] [CommGroup G₂] [CommGroup T]
  [DecidableEq T]

/-- a dictionary of `k` shares for `h`, each of them accepted for its index -/
structure Accepted (E : Charm p G₁ G₂ T) (PK : PublicKey G₂) (h : G₁) (sigs : List (ℕ × G₁)) :
    Prop where
  nodup : (sigs.map Prod.fst).Nodup
  card : sigs.length = PK.k
  range : ∀ x ∈ sigs, x.1 < PK.l
  valid : ∀ x ∈ sigs, verifyShare E PK x.2 x.1 h = true

/-- **uniqueness of signatures** -/
theorem signature_unique (E : Charm p G₁ G₂ T) (players k : ℕ) (hk : 1 ≤ k) (hkp : k ≤ players)
    (hp : players < p) (secret : ZMod p) (rest : List (ZMod p))
    (hlen : (secret :: rest).length = k) :
    ∃ PK SKs, dealer E players k secret rest = some (PK, SKs) ∧ PK.l = players ∧ PK.k = k ∧
      ∀ h : G₁,
        (∀ sigs, Accepted E PK h sigs → combineShares p PK sigs = some (h ^ secret.val)) ∧
        (∀ sigs sigs', Accepted E PK h sigs → Accepted E PK h sigs' →
          combineShares p PK sigs = combineShares p PK sigs') ∧
        ∀ sig, verifySignature E PK sig h = true ↔ sig = h ^ secret.val := by
  have hcombine : ∀ (h : G₁) sigs, Accepted E (publicKey E players k (secret :: rest)) h sigs →
      combineShares p (publicKey E players k (secret :: rest)) sigs = some (h ^ secret.val) :=
    fun h sigs hs => combineShares_eq hp hk hlen sigs hs.nodup hs.card
      fun x hx => verifyShare_iff.mp (hs.valid x hx)
  refine ⟨_, _, dealer_eq E hp hkp secret hlen, rfl, rfl, fun h => ⟨hcombine h, ?_, ?_⟩⟩
  · intro sigs sigs' hs hs'
    rw [hcombine h sigs hs, hcombine h sigs' hs']
  · exact fun sig => verifySignature_iff

/-- what the party `i` of four makes of the message for the round 0 of the coin -/
def shareOf (i : ℕ) : ℕ × Coin.Z7 := (i, (Coin.four.share i).sig)

theorem accepted_shareOf {i j : ℕ} (hi : i < 4) (hj : j < 4) (hne : i ≠ j) :
    Accepted Coin.seven Coin.four.PK (Coin.Party.message Coin.seven Coin.four.text [83] 0)
      [shareOf i, shareOf j] where
  nodup := by simp [shareOf, hne]
  card := rfl
  range x hx := by
    rcases List.mem_pair.mp hx with rfl | rfl <;> assumption
  valid x hx := by
    rcases List.mem_pair.mp hx with rfl | rfl
    · exact verifyShare_iff.mpr ⟨hi, rfl⟩
    · exact verifyShare_iff.mpr ⟨hj, rfl⟩

theorem signature_unique_seven : combineShares 7 Coin.four.PK [shareOf 0, shareOf 2] =
    combineShares 7 Coin.four.PK [shareOf 3, shareOf 1] := by
  obtain ⟨PK, SKs, hdeal, -, -, h⟩ := signature_unique Coin.seven 4 2 (by decide) (by decide)
    (by decide) 3 [1] rfl
  obtain rfl : PK = Coin.four.PK :=
    congrArg Prod.fst (Option.some.inj (hdeal.symm.trans Coin.four.dealt))
  exact (h _).2.1 _ _ (accepted_shareOf (by decide) (by decide) (by decide))
    (accepted_shareOf (by decide) (by decide) (by decide))

end TSIG
