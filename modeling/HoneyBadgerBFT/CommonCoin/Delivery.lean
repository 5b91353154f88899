import HoneyBadgerBFT.CommonCoin.Agreement

/-!
# Common coin: what arrives is counted

A share of an honest party passes the check, so a party that has got it counts its sender
(`Counts`).  Where everything has arrived, a round that all honest parties have called `getCoin` for
has its bit (`puts_of_called`).
-/

namespace Coin
open Async Trans Party TSIG

variable {p : ℕ} [Fact p.Prime] {G₁ G₂ T : Type} [CommGroup G₁] [CommGroup G₂] [CommGroup T]
  {E : Charm p G₁ G₂ T} {str : List ℕ → ℤ → List ℕ} {sid : List ℕ} {a : List (ZMod p)}

/-- the share that the party `i` sends for a round -/
def RightShare {n : ℕ} (E : Charm p G₁ G₂ T) (str : List ℕ → ℤ → List ℕ) (sid : List ℕ)
    (a : List (ZMod p)) (i : Fin n) (m : Share G₁) : Prop :=
  0 ≤ m.r ∧ m.sig = message E str sid m.r ^ (TPKE.secretKey a i).val

/-- a party sends right shares, and has counted the senders of those that it has got -/
structure Counts {n : ℕ} (E : Charm p G₁ G₂ T) (str : List ℕ → ℤ → List ℕ) (sid : List ℕ)
    (a : List (ZMod p)) (q : Fin n) (nd : Node n (Party n G₁) (Share G₁)) : Prop where
  sent : ∀ m ∈ nd.st.sent, RightShare E str sid a q m
  counted : ∀ i m, (i, m) ∈ nd.rcvd → RightShare E str sid a i m →
    i ∈ (nd.st.received m.r).map Prod.fst

section
variable {N f : ℕ} {x : Party N G₁} {i q : Fin N} {m : Share G₁}
  {rcvd : List (Fin N × Share G₁)}

omit [CommGroup G₁] in
theorem add_subset (r : ℤ) : x.received r ⊆ (x.add i m).received r := by
  by_cases hr : r = m.r
  · subst hr
    rw [add_received_self]
    exact List.subset_append_left ..
  · rw [add_received_of_ne hr]
    exact List.Subset.refl _

variable [DecidableEq T]

/-- what an arrival does to the shares -/
theorem recv_received (E : Charm p G₁ G₂ T) (str : List ℕ → ℤ → List ℕ) (sid : List ℕ)
    (PK : PublicKey G₂) (i : Fin N) (m : Share G₁) (x : Party N G₁) :
    (x.recv E str sid f PK i m).received =
      if m.r < 0 ∨ (∃ y ∈ x.received m.r, y.1 = i) ∨
        verifyShare E PK m.sig i (message E str sid m.r) = false
      then x.received else (x.add i m).received := by
  have hout : ∀ y : Party N G₁, (y.output E str sid f PK m.r).received = y.received := by
    intro y
    unfold Party.output Party.putNowait
    dsimp only
    repeat' split
    all_goals rfl
  unfold Party.recv
  by_cases hr : m.r < 0
  · rw [if_pos hr, if_pos (.inl hr)]
  rw [if_neg hr]
  by_cases hold : ∃ y ∈ x.received m.r, y.1 = i
  · rw [if_pos hold, if_pos (.inr (.inl hold))]
  rw [if_neg hold]
  by_cases hv : verifyShare E PK m.sig i (message E str sid m.r) = false
  · rw [if_pos hv, if_pos (.inr (.inr hv))]
  rw [if_neg hv, if_neg (not_or.mpr ⟨hr, not_or.mpr ⟨hold, hv⟩⟩)]
  show (if ((x.add i m).received m.r).length = f + 1 then
    (x.add i m).output E str sid f PK m.r else x.add i m).received = _
  split
  · exact hout _
  · rfl

/-- an arrival forgets no sender, and counts a right share -/
theorem Counts.recv (hx : Counts E str sid a q ⟨x, rcvd⟩) :
    Counts E str sid a q ⟨x.recv E str sid f (publicKey E N (f + 1) a) i m, (i, m) :: rcvd⟩ := by
  have hrec := recv_received (f := f) E str sid (publicKey E N (f + 1) a) i m x
  refine ⟨fun m' hm' => hx.sent m' (recv_sent (f := f) E str sid _ i m x ▸ hm'),
    fun j m' hm' hright => ?_⟩
  have hmono : (x.received m'.r).map Prod.fst ⊆
      ((x.recv E str sid f (publicKey E N (f + 1) a) i m).received m'.r).map Prod.fst := by
    rw [hrec]
    split
    · exact List.Subset.refl _
    · exact List.map_subset _ (add_subset m'.r)
  rcases List.mem_cons.mp hm' with he | hold
  · obtain ⟨rfl, rfl⟩ := Prod.mk.inj he
    by_cases hin : ∃ y ∈ x.received m'.r, y.1 = j
    · exact hmono (List.mem_map.mpr hin)
    · have hver : verifyShare E (publicKey E N (f + 1) a) m'.sig j (message E str sid m'.r) = true :=
        verifyShare_iff.mpr ⟨j.isLt, hright.2⟩
      dsimp only
      rw [hrec, if_neg (not_or.mpr ⟨not_lt.mpr hright.1, not_or.mpr ⟨hin, by simp [hver]⟩⟩),
        add_received_self, List.map_append]
      exact List.mem_append_right _ List.mem_cons_self
  · exact hmono (hx.counted j m' hold hright)

omit [DecidableEq T] in
theorem Counts.act {SK : PrivateKey p G₂} (hSK : SK = privateKey E N (f + 1) a q)
    (hx : Counts E str sid a q ⟨x, rcvd⟩) {b : Act} {y : Party N G₁}
    (hy : x.act E str sid (some SK) b = some y) : Counts E str sid a q ⟨y, rcvd⟩ := by
  cases b with
  | getCoin r =>
    obtain rfl := Option.some.inj hy
    refine ⟨fun m hm => ?_, hx.counted⟩
    rcases List.mem_cons.mp hm with rfl | hold
    · subst hSK
      exact ⟨Int.natCast_nonneg r, rfl⟩
    · exact hx.sent m hold
  | take r =>
    unfold Party.act Party.take at hy
    dsimp only at hy
    split at hy
    · obtain rfl := Option.some.inj hy
      exact ⟨hx.sent, hx.counted⟩
    · cases hy

end

/-! ## runs -/

section
variable [DecidableEq G₁] [DecidableEq T] {C : Committee} {secret : ZMod p}
  {rest : List (ZMod p)} {PK : PublicKey G₂} {SKs : List (PrivateKey p G₂)}
  {ok : Net C.N (Party C.N G₁) (Share G₁) → Label C.N (Share G₁) Act → Prop}
  {s : Net C.N (Party C.N G₁) (Share G₁)}
  (hdeal : dealer E C.N (C.f + 1) secret rest = some (PK, SKs))
include hdeal

omit [DecidableEq G₁] [DecidableEq T] in
/-- every party has a key -/
theorem key_of_dealer (q : Fin C.N) :
    SKs[q.val]? = some (privateKey E C.N (C.f + 1) (secret :: rest) q) := by
  obtain ⟨-, -, hkeys⟩ := dealer_spec E hdeal
  exact hkeys q q.isLt

theorem reached_counts (h : (protocol E str sid C PK SKs).Reachable Share.wellFormed ok s) :
    ∀ q, C.Honest q → Counts E str sid (secret :: rest) q (s q) := by
  obtain ⟨-, rfl, -⟩ := dealer_spec E hdeal
  refine node_invariant (fun q nd => Counts E str sid (secret :: rest) q nd) (fun _ _ => ?_)
    (fun _ src m nd _ hx _ => hx.recv) (fun q b nd y _ hx hy => ?_) h
  · exact ⟨fun m hm => absurd hm List.not_mem_nil, fun _ _ hm => absurd hm List.not_mem_nil⟩
  · have hkey := key_of_dealer hdeal q
    replace hy : nd.st.act E str sid SKs[q.val]? b = some y := hy
    rw [hkey] at hy
    exact Counts.act rfl hx hy

/-- **a round that all honest parties have called has its bit**, where every share has arrived -/
theorem puts_of_called (hN : C.N < p)
    (h : (protocol E str sid C PK SKs).Reachable Share.wellFormed ok s) {q : Fin C.N}
    (hq : C.Honest q) (hdel : Delivered (protocol E str sid C PK SKs) s q) {r : ℤ}
    (hcalled : ∀ i, C.Honest i → (s i).st.Called r) :
    (s q).st.puts r = [bitOf E (coinSig E str sid (secret :: rest) r)] := by
  have hcall := reached_call hN hdeal h q hq
  have hcounts := reached_counts hdeal h
  refine hcall.late r ?_
  have hin : C.honest ⊆ (((s q).st.received r).map Prod.fst).toFinset := by
    intro i hi
    have hi := Committee.mem_honest.mp hi
    obtain ⟨sig, hsig⟩ := hcalled i hi
    have hsent : (⟨r, sig⟩ : Share G₁) ∈ (s i).st.sent := List.mem_filterMap.mpr ⟨_, hsig, rfl⟩
    exact List.mem_toFinset.mpr ((hcounts q hq).counted i ⟨r, sig⟩ (hdel.mem hi hsent)
      ((hcounts i hi).sent _ hsent))
  have hcard := Finset.card_le_card hin
  rw [List.toFinset_card_of_nodup (hcall.shares.nodup r), List.length_map] at hcard
  have := C.card_honest
  have := C.resilient
  omega

end

end Coin
