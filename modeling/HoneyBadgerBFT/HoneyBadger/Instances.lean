import HoneyBadgerBFT.BinaryAgreement.Rounds
import HoneyBadgerBFT.CommonCoin.Agreement
import HoneyBadgerBFT.HoneyBadger.Inbox
import HoneyBadgerBFT.Library.Compose
import HoneyBadgerBFT.ReliableBroadcast.Invariant

/-!
# HoneyBadgerBFT: the sub-protocols of a round

`Round.Step` is everything that an action of a round can do.  A `Slot` says where a sub-protocol is
in a round, and `Slot.Sound` that the round does to it what its own code does.

* `rbcSlot`, `abaSlot`, `coinSlot`, `acsSlot`   the four kinds of sub-protocols;
* `tpkeSlot`                                    the vectors of shares, which come from no other one;
* `rbcSlot_sound`, ..                           the round runs their code.
-/

namespace HoneyBadger
open Async

variable {C : Committee} {S : Setup C} {r : ℤ}

/-! ## one action of a round -/

namespace Round

/-- everything that an action can do -/
inductive Step (S : Setup C) (r : ℤ) (pid : Fin C.N) (x : S.Call) : Act C.N → S.Call → Prop
  | rbcInput {m z} (hm : x.toAcs = some m)
      (hz : (RBC.protocol (S.rbc pid)).act pid (.bytes m) (x.rbc pid) = some z) :
      Step S r pid x .rbcInput { x with rbc := Function.update x.rbc pid z }
  | rbcOut {j b z} (hb : x.rbcOutputs j = some b)
      (hz : (ACS.protocol C).act pid b x.acs = some z) :
      Step S r pid x (.rbcOut j) { x with acs := z }
  | abaInput {j v z} (hv : x.abaInputs j = some v)
      (hz : (BA.protocol C).act pid (.input v) (x.aba j) = some z) :
      Step S r pid x (.abaInput j) { x with aba := Function.update x.aba j z }
  | abaMain {j z} (hz : (BA.protocol C).act pid .main (x.aba j) = some z)
      (hpc : coinCall z = none) :
      Step S r pid x (.abaMain j) { x with aba := Function.update x.aba j z }
  | abaCoin {j z k c} (hz : (BA.protocol C).act pid .main (x.aba j) = some z)
      (hpc : coinCall z = some k) (hc : (S.coin r j).act pid (.getCoin k) (x.coin j) = some c) :
      Step S r pid x (.abaMain j)
        { x with aba := Function.update x.aba j z, coin := Function.update x.coin j c }
  | coinTake {j bit c z}
      (hbit : ((x.coin j).outputQueue (x.aba j).r.toNat).head? = some bit)
      (hc : (S.coin r j).act pid (.take (x.aba j).r.toNat) (x.coin j) = some c)
      (hz : (BA.protocol C).act pid (.coin bit) (x.aba j) = some z) :
      Step S r pid x (.coinTake j)
        { x with coin := Function.update x.coin j c, aba := Function.update x.aba j z }
  | abaOut {j v z} (hv : x.abaOutputs j = some v)
      (hz : (ACS.protocol C).act pid (.abaOut j v) x.acs = some z) :
      Step S r pid x (.abaOut j) { x with acs := z }
  | acsMain {z} (hz : (ACS.protocol C).act pid .main x.acs = some z) :
      Step S r pid x .acsMain { x with acs := z }
  | acsOut {values} (hto : x.toAcs ≠ none) (hvall : x.vall = none)
      (hmain : x.acs.main = .returned values) :
      Step S r pid x .acsOut
        { x with vall := some (List.ofFn values), myShares := shares S pid (List.ofFn values) }

theorem act_step {pid : Fin C.N} {x y : S.Call} {a : Act C.N} (h : x.act S r pid a = some y) :
    Step S r pid x a y := by
  cases a with
  | rbcInput =>
    obtain ⟨m, hm, h⟩ := Option.bind_eq_some_iff.mp h
    obtain ⟨z, hz, h⟩ := Option.bind_eq_some_iff.mp h
    obtain rfl := Option.some.inj h
    exact .rbcInput hm hz
  | rbcOut j =>
    obtain ⟨b, hb, h⟩ := Option.bind_eq_some_iff.mp h
    obtain ⟨z, hz, h⟩ := Option.bind_eq_some_iff.mp h
    obtain rfl := Option.some.inj h
    exact .rbcOut hb hz
  | abaInput j =>
    obtain ⟨v, hv, h⟩ := Option.bind_eq_some_iff.mp h
    obtain ⟨z, hz, h⟩ := Option.bind_eq_some_iff.mp h
    obtain rfl := Option.some.inj h
    exact .abaInput hv hz
  | abaMain j =>
    obtain ⟨z, hz, h⟩ := Option.bind_eq_some_iff.mp h
    simp only [callCoin, Function.update_self] at h
    split at h
    · next k hk =>
      obtain ⟨c, hc, rfl⟩ := Option.map_eq_some_iff.mp h
      exact .abaCoin hz hk hc
    · next hk =>
      obtain rfl := Option.some.inj h
      exact .abaMain hz hk
  | coinTake j =>
    obtain ⟨bit, hbit, h⟩ := Option.bind_eq_some_iff.mp h
    obtain ⟨c, hc, h⟩ := Option.bind_eq_some_iff.mp h
    obtain ⟨z, hz, h⟩ := Option.bind_eq_some_iff.mp h
    obtain rfl := Option.some.inj h
    exact .coinTake hbit hc hz
  | abaOut j =>
    obtain ⟨v, hv, h⟩ := Option.bind_eq_some_iff.mp h
    obtain ⟨z, hz, h⟩ := Option.bind_eq_some_iff.mp h
    obtain rfl := Option.some.inj h
    exact .abaOut hv hz
  | acsMain =>
    obtain ⟨z, hz, h⟩ := Option.bind_eq_some_iff.mp h
    obtain rfl := Option.some.inj h
    exact .acsMain hz
  | acsOut =>
    simp only [act] at h
    split at h
    · next m values hto hvall hmain =>
      obtain rfl := Option.some.inj h
      exact .acsOut (by rw [hto]; exact Option.some_ne_none m) hvall hmain
    · cases h

end Round

/-! ## packets -/

theorem index_val {n : ℕ} (j : Fin n) : index n j.val = some j := by
  unfold index
  rw [dif_pos ⟨Int.natCast_nonneg _, by exact_mod_cast j.isLt⟩]
  simp

section
variable {n : ℕ} {M : Type} (j : Fin n) (m : M)

@[simp] theorem place_rbc : Packet.place n ⟨.ACS_RBC, j.val, m⟩ = some (.ACS_RBC j) := by
  simp [Packet.place, index_val]

@[simp] theorem place_aba : Packet.place n ⟨.ACS_ABA, j.val, m⟩ = some (.ACS_ABA j) := by
  simp [Packet.place, index_val]

@[simp] theorem place_coin : Packet.place n ⟨.ACS_COIN, j.val, m⟩ = some (.ACS_COIN j) := by
  simp [Packet.place, index_val]

@[simp] theorem place_tpke (i : ℤ) : Packet.place n ⟨.TPKE, i, m⟩ = some .TPKE := rfl

end

/-- of the lists for all indices, only one is not empty -/
theorem flatMap_single {ι α : Type} [DecidableEq ι] {L : List ι} (hL : L.Nodup) {j : ι} (hj : j ∈ L)
    (l : List α) : (L.flatMap fun k => if k = j then l else []) = l := by
  induction L with
  | nil => cases hj
  | cons k L ih =>
    obtain ⟨hk, hL⟩ := List.nodup_cons.mp hL
    rw [List.flatMap_cons]
    rcases List.mem_cons.mp hj with rfl | hj
    · have hrest : (L.flatMap fun k => if k = j then l else []) = [] := by
        refine List.flatMap_eq_nil_iff.mpr fun k' hk' => if_neg ?_
        rintro rfl
        exact hk hk'
      rw [if_pos rfl, hrest, List.append_nil]
    · rw [if_neg (by rintro rfl; exact hk hj), List.nil_append]
      exact ih hL hj

/-! ## slots -/

/-- a sub-protocol of the round `r` -/
structure Slot (S : Setup C) (r : ℤ) (τ ν β : Type) where
  code : Protocol C.N τ ν β
  /-- the instance whose queue it reads -/
  inst : Instance C.N
  state : S.Call → τ
  read : S.Data → Option ν
  /-- what it does in an action of the round -/
  occurs : Fin C.N → Round.Act C.N → S.Call → Option β

namespace Slot
variable {τ ν β : Type} (K : Slot S r τ ν β)

/-- the message for the sub-protocol in a packet -/
def pick (y : Packet S.Data) : Option ν := if y.place C.N = some K.inst then K.read y.msg else none

/-- the message for the sub-protocol in an entry of its queue -/
def entry (y : Fin C.N × S.Data) : Option (Fin C.N × ν) := (K.read y.2).map (Prod.mk y.1)

/-- its state, and the messages that it has taken -/
def view (x : S.Call) : Node C.N τ ν := ⟨K.state x, (x.rcvd K.inst).filterMap K.entry⟩

/-- the round runs the code of the sub-protocol -/
structure Sound : Prop where
  init : ∀ pid tx key rnd iv, K.state (Round.start S pid r tx key rnd iv) = K.code.init pid
  sent : ∀ (x : S.Call) q, ((x.sentTo S q).filterMap K.pick).Perm (K.code.sentTo (K.state x) q)
  recv_other : ∀ pid src i m (x : S.Call), (i = K.inst → K.read m = none) →
    K.state (x.recv S r pid src i m) = K.state x
  recv_own : ∀ pid src m m' (x : S.Call), K.read m = some m' → x.listening S r pid K.inst = true →
    K.code.listening (K.state x) = true ∧
      K.state (x.recv S r pid src K.inst m) = K.code.recv pid src m' (K.state x)
  act_none : ∀ pid a x y, Round.Step S r pid x a y → K.occurs pid a x = none →
    K.state y = K.state x
  act_some : ∀ pid a x y b, Round.Step S r pid x a y → K.occurs pid a x = some b →
    K.code.act pid b (K.state x) = some (K.state y)

end Slot

/-! ## the kinds of slots -/

/-- the reliable broadcast `j` -/
def rbcSlot (S : Setup C) (r : ℤ) (j : Fin C.N) : Slot S r (RBC.Party C.N) RBC.Msg Text where
  code := RBC.protocol (S.rbc j)
  inst := .ACS_RBC j
  state x := x.rbc j
  read
    | .rbc m => some m
    | _ => none
  occurs
    | pid, .rbcInput, x => if pid = j then x.toAcs.map .bytes else none
    | _, _, _ => none

/-- the binary agreement `j` -/
def abaSlot (S : Setup C) (r : ℤ) (j : Fin C.N) : Slot S r (BA.Party C.N) BA.Msg BA.Party.Act where
  code := BA.protocol C
  inst := .ACS_ABA j
  state x := x.aba j
  read
    | .aba m => some m
    | _ => none
  occurs
    | _, .abaInput k, x => if k = j then (x.abaInputs k).map .input else none
    | _, .abaMain k, _ => if k = j then some .main else none
    | _, .coinTake k, x =>
      if k = j then ((x.coin k).outputQueue (x.aba k).r.toNat).head?.map .coin else none
    | _, _, _ => none

/-- the coin `j` -/
def coinSlot (S : Setup C) (r : ℤ) (j : Fin C.N) :
    Slot S r (Coin.Party C.N S.tsig.G₁) (Coin.Share S.tsig.G₁) Coin.Act where
  code := S.coin r j
  inst := .ACS_COIN j
  state x := x.coin j
  read
    | .coin m => some m
    | _ => none
  occurs
    | pid, .abaMain k, x =>
      if k = j then
        (((BA.protocol C).act pid .main (x.aba k)).bind Round.coinCall).map .getCoin
      else none
    | _, .coinTake k, x => if k = j then some (.take (x.aba k).r.toNat) else none
    | _, _, _ => none

/-- the common subset, which reads no queue -/
def acsSlot (S : Setup C) (r : ℤ) : Slot S r (ACS.Party C.N) Empty (ACS.Act C.N) where
  code := ACS.protocol C
  inst := .TPKE
  state x := x.acs
  read _ := none
  occurs
    | _, .rbcOut j, x => x.rbcOutputs j
    | _, .abaOut j, x => (x.abaOutputs j).map (.abaOut j)
    | _, .acsMain, _ => some .main
    | _, _, _ => none

/-- the vectors of shares: a party sends one when it has it, and only keeps those that arrive -/
def vectors (n : ℕ) (V : Type) : Protocol n (Option V) V (Option V) where
  init _ := none
  listening _ := true
  recv _ _ _ x := x
  act _ v _ := some v
  sentTo x _ := x.toList

/-- the vectors of the block -/
def tpkeSlot (S : Setup C) (r : ℤ) :
    Slot S r (Option (List (Option S.tpke.G))) (List (Option S.tpke.G))
      (Option (List (Option S.tpke.G))) where
  code := vectors C.N (List (Option S.tpke.G))
  inst := .TPKE
  state x := x.myShares
  read
    | .tpke shares => some shares
    | _ => none
  occurs
    | pid, .acsOut, x =>
      match x.acs.main with
      | .returned values => some (Round.shares S pid (List.ofFn values))
      | _ => none
    | _, _, _ => none

/-- what a slot reads of all that the round has sent -/
theorem filterMap_sentTo {ν : Type} {x : S.Call} {q : Fin C.N} (j : Fin C.N)
    {pick : Packet S.Data → Option ν} {l : List ν}
    (htpke : ∀ shares, pick ⟨.TPKE, 0, .tpke shares⟩ = none)
    (h : ∀ k, (x.sentBy S k q).filterMap pick = if k = j then l else []) :
    (x.sentTo S q).filterMap pick = l := by
  have hshares : (x.myShares.toList.map fun shares =>
      (⟨.TPKE, 0, .tpke shares⟩ : Packet S.Data)).filterMap pick = [] := by
    rw [List.filterMap_map]
    exact List.filterMap_eq_nil_iff.mpr fun shares _ => htpke shares
  unfold Round.sentTo
  rw [List.filterMap_append, List.filterMap_flatMap, hshares, List.append_nil]
  simp only [h]
  exact flatMap_single (List.nodup_finRange _) (List.mem_finRange j) l

theorem update_at {ι τ : Type} [DecidableEq ι] {k j : ι} (e : k = j) (z : τ) (g : ι → τ) :
    Function.update g k z j = z := by
  subst e
  exact Function.update_self ..

theorem update_else {ι τ : Type} [DecidableEq ι] {k j : ι} (e : k ≠ j) (z : τ) (g : ι → τ) :
    Function.update g k z j = g j := Function.update_of_ne e.symm z g

theorem rbcSlot_sound (S : Setup C) (r : ℤ) (j : Fin C.N) : (rbcSlot S r j).Sound where
  init _ _ _ _ _ := rfl
  sent x q := by
    refine List.Perm.of_eq (filterMap_sentTo j (fun _ => rfl) fun k => ?_)
    by_cases hk : k = j
    · subst hk
      simp [Round.sentBy, Slot.pick, rbcSlot, Function.comp_def]
    · simp [Round.sentBy, Slot.pick, rbcSlot, Function.comp_def, hk]
  recv_other pid src i m x h := by
    cases i with
    | ACS_RBC k =>
      cases m with
      | rbc m => exact update_else (by rintro rfl; cases h rfl) _ _
      | _ => rfl
    | _ => cases m <;> rfl
  recv_own pid src m m' x hm hl := by
    cases m with
    | rbc m =>
      obtain rfl := Option.some.inj hm
      exact ⟨hl, Function.update_self ..⟩
    | _ => cases hm
  act_none pid a x y h ho := by
    cases h with
    | rbcInput hm hz =>
      refine update_else (fun e => ?_) _ _
      rw [show (rbcSlot S r j).occurs pid .rbcInput x = _ from if_pos e, hm] at ho
      cases ho
    | _ => rfl
  act_some pid a x y b h ho := by
    cases h with
    | @rbcInput m z hm hz =>
      by_cases e : pid = j
      · rw [show (rbcSlot S r j).occurs pid .rbcInput x = _ from if_pos e, hm] at ho
        subst e
        obtain rfl := Option.some.inj ho
        exact hz.trans (congrArg some (update_at rfl z x.rbc).symm)
      · rw [show (rbcSlot S r j).occurs pid .rbcInput x = _ from if_neg e] at ho
        cases ho
    | _ => cases ho

/-- in an action of the agreement `k`, nothing happens to another one -/
theorem ite_eq_none {ι β : Type} [DecidableEq ι] {k j : ι} {o : Option β}
    (h : (if k = j then o else none) = none) (ho : o ≠ none) : k ≠ j := fun e =>
  ho ((if_pos e).symm.trans h)

theorem abaSlot_sound (S : Setup C) (r : ℤ) (j : Fin C.N) : (abaSlot S r j).Sound where
  init _ _ _ _ _ := rfl
  sent x q := by
    refine List.Perm.of_eq (filterMap_sentTo j (fun _ => rfl) fun k => ?_)
    by_cases hk : k = j
    · subst hk
      simp [Round.sentBy, Slot.pick, abaSlot, Function.comp_def]
    · simp [Round.sentBy, Slot.pick, abaSlot, Function.comp_def, hk]
  recv_other pid src i m x h := by
    cases i with
    | ACS_ABA k =>
      cases m with
      | aba m => exact update_else (by rintro rfl; cases h rfl) _ _
      | _ => rfl
    | _ => cases m <;> rfl
  recv_own pid src m m' x hm hl := by
    cases m with
    | aba m =>
      obtain rfl := Option.some.inj hm
      exact ⟨hl, Function.update_self ..⟩
    | _ => cases hm
  act_none pid a x y h ho := by
    cases h with
    | @abaInput k v z hv hz =>
      refine update_else (ite_eq_none ho ?_) z x.aba
      rw [hv]
      exact Option.some_ne_none _
    | abaMain hz hpc => exact update_else (ite_eq_none ho (Option.some_ne_none _)) _ _
    | abaCoin hz hpc hc => exact update_else (ite_eq_none ho (Option.some_ne_none _)) _ _
    | coinTake hbit hc hz =>
      refine update_else (ite_eq_none ho ?_) _ _
      rw [hbit]
      exact Option.some_ne_none _
    | _ => rfl
  act_some pid a x y b h ho := by
    cases h with
    | @abaInput k v z hv hz =>
      obtain ⟨rfl, hb⟩ := Option.ite_none_right_eq_some.mp ho
      rw [hv] at hb
      obtain rfl := Option.some.inj hb
      exact hz.trans (congrArg some (update_at rfl z x.aba).symm)
    | @abaMain k z hz hpc =>
      obtain ⟨rfl, hb⟩ := Option.ite_none_right_eq_some.mp ho
      obtain rfl := Option.some.inj hb
      exact hz.trans (congrArg some (update_at rfl z x.aba).symm)
    | @abaCoin k z c y hz hpc hc =>
      obtain ⟨rfl, hb⟩ := Option.ite_none_right_eq_some.mp ho
      obtain rfl := Option.some.inj hb
      exact hz.trans (congrArg some (update_at rfl z x.aba).symm)
    | @coinTake k bit c z hbit hc hz =>
      obtain ⟨rfl, hb⟩ := Option.ite_none_right_eq_some.mp ho
      rw [hbit] at hb
      obtain rfl := Option.some.inj hb
      exact hz.trans (congrArg some (update_at rfl z x.aba).symm)
    | _ => cases ho

theorem coinSlot_sound (S : Setup C) (r : ℤ) (j : Fin C.N) : (coinSlot S r j).Sound where
  init _ _ _ _ _ := rfl
  sent x q := by
    refine List.Perm.of_eq (filterMap_sentTo j (fun _ => rfl) fun k => ?_)
    by_cases hk : k = j
    · subst hk
      simp [Round.sentBy, Slot.pick, coinSlot, Function.comp_def, Setup.coin, Coin.protocol]
    · simp [Round.sentBy, Slot.pick, coinSlot, Function.comp_def, hk]
  recv_other pid src i m x h := by
    cases i with
    | ACS_COIN k =>
      cases m with
      | coin m => exact update_else (by rintro rfl; cases h rfl) _ _
      | _ => rfl
    | _ => cases m <;> rfl
  recv_own pid src m m' x hm hl := by
    cases m with
    | coin m =>
      obtain rfl := Option.some.inj hm
      exact ⟨hl, Function.update_self ..⟩
    | _ => cases hm
  act_none pid a x y h ho := by
    cases h with
    | abaCoin hz hpc hc =>
      refine update_else (ite_eq_none ho ?_) _ _
      rw [hz, Option.bind_some, hpc]
      exact Option.some_ne_none _
    | coinTake hbit hc hz => exact update_else (ite_eq_none ho (Option.some_ne_none _)) _ _
    | _ => rfl
  act_some pid a x y b h ho := by
    cases h with
    | abaMain hz hpc =>
      obtain ⟨-, hb⟩ := Option.ite_none_right_eq_some.mp ho
      rw [hz, Option.bind_some, hpc] at hb
      cases hb
    | @abaCoin k z c y hz hpc hc =>
      obtain ⟨rfl, hb⟩ := Option.ite_none_right_eq_some.mp ho
      rw [hz, Option.bind_some, hpc] at hb
      obtain rfl := Option.some.inj hb
      exact hc.trans (congrArg some (update_at rfl y x.coin).symm)
    | @coinTake k bit c z hbit hc hz =>
      obtain ⟨rfl, hb⟩ := Option.ite_none_right_eq_some.mp ho
      obtain rfl := Option.some.inj hb
      exact hc.trans (congrArg some (update_at rfl c x.coin).symm)
    | _ => cases ho

theorem acsSlot_sound (S : Setup C) (r : ℤ) : (acsSlot S r).Sound where
  init _ _ _ _ _ := rfl
  sent x q := by
    have hnone : (x.sentTo S q).filterMap (acsSlot S r).pick = [] :=
      List.filterMap_eq_nil_iff.mpr fun y _ => by
        unfold Slot.pick
        split <;> rfl
    rw [hnone]
    exact List.Perm.refl _
  recv_other pid src i m x _ := by cases i <;> cases m <;> rfl
  recv_own pid src m m' x hm _ := by cases hm
  act_none pid a x y h ho := by
    cases h with
    | rbcOut hb hz => cases hb.symm.trans ho
    | abaOut hv hz => cases ho.symm.trans (congrArg (Option.map _) hv)
    | acsMain hz => cases ho
    | _ => rfl
  act_some pid a x y b h ho := by
    cases h with
    | rbcOut hb hz =>
      obtain rfl := Option.some.inj (hb.symm.trans ho)
      exact hz
    | abaOut hv hz =>
      obtain rfl := Option.some.inj (ho.symm.trans (congrArg (Option.map _) hv))
      exact hz
    | acsMain hz =>
      obtain rfl := Option.some.inj ho
      exact hz
    | _ => cases ho

theorem tpkeSlot_sound (S : Setup C) (r : ℤ) : (tpkeSlot S r).Sound where
  init _ _ _ _ _ := rfl
  sent x q := by
    have hnone : ((List.finRange C.N).flatMap fun j => x.sentBy S j q).filterMap
        (tpkeSlot S r).pick = [] := by
      refine List.filterMap_eq_nil_iff.mpr fun y hy => ?_
      obtain ⟨j, -, hy⟩ := List.mem_flatMap.mp hy
      unfold Round.sentBy at hy
      simp only [List.mem_append, List.mem_map] at hy
      rcases hy with (⟨m, -, rfl⟩ | ⟨m, -, rfl⟩) | ⟨m, -, rfl⟩ <;> simp [Slot.pick, tpkeSlot]
    unfold Round.sentTo
    rw [List.filterMap_append, hnone, List.nil_append, List.filterMap_map]
    have hone : ((tpkeSlot S r).pick ∘ fun shares => (⟨.TPKE, 0, .tpke shares⟩ : Packet S.Data)) =
        some := rfl
    rw [hone, List.filterMap_some]
    exact List.Perm.refl _
  recv_other pid src i m x _ := by cases i <;> cases m <;> rfl
  recv_own pid src m m' x _ _ := ⟨rfl, by cases m <;> rfl⟩
  act_none pid a x y h ho := by
    cases h with
    | acsOut hto hvall hmain => simp [tpkeSlot, hmain] at ho
    | _ => rfl
  act_some pid a x y b h ho := by
    cases h with
    | @acsOut values hto hvall hmain =>
      replace ho : (match x.acs.main with
        | .returned values => some (Round.shares S pid (List.ofFn values))
        | _ => none) = some b := ho
      rw [hmain] at ho
      exact congrArg some (Option.some.inj ho).symm
    | _ => cases ho

end HoneyBadger
