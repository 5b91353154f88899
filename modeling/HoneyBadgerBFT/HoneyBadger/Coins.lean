import HoneyBadgerBFT.BinaryAgreement.Asking
import HoneyBadgerBFT.CommonCoin.Delivery
import HoneyBadgerBFT.HoneyBadger.Wiring

/-!
# HoneyBadgerBFT: an agreement and its coin

`binaryagreement` calls `coin(r)` once in a round, and goes on when `outputQueue[r].get()` returns.
So a party that has passed the CONF phase of a round has broadcast its share for this round, and the
bit of a round stays in its queue until the agreement comes to take it (`Metered`).

* `reached_metered`   every agreement of a round is in step with its coin;
* `coinTake_ne`       an agreement in front of a coin whose bit is there can take it.
-/

namespace HoneyBadger
open Async

/-- the agreement `a` and its coin `c` are in step -/
structure Metered {n : ℕ} {G : Type} (f : ℕ) (a : BA.Party n) (c : Coin.Party n G) : Prop where
  call : BA.Party.Call f a
  called : ∀ k, .coin k ∈ a.trace → c.Called k
  waits : ∀ V, a.pc = .coin V → 0 < c.waiting a.r
  queue : ∀ k, a.r < k ∨ a.r = k ∧ a.pc ≠ .returned → c.outputQueue k = c.puts k

section
variable {n f : ℕ} {G : Type} {a a' : BA.Party n} {c : Coin.Party n G}

/-- the agreement goes on to a test that is not the coin, or stays where it is -/
theorem Metered.moves (h : Metered f a c) (hcall : BA.Party.Call f a') (hr : a'.r = a.r)
    (hlive : a'.pc ≠ .returned → a.pc ≠ .returned)
    (hcoin : ∀ k, .coin k ∈ a'.trace → .coin k ∈ a.trace)
    (hpc : ∀ V, a'.pc = .coin V → a.pc = .coin V) : Metered f a' c where
  call := hcall
  called k hk := h.called k (hcoin k hk)
  waits V hV := hr ▸ h.waits V (hpc V hV)
  queue k hk := h.queue k (by
    rw [hr] at hk
    exact hk.imp_right fun e => ⟨e.1, hlive e.2⟩)

/-- the agreement gets its input -/
theorem Metered.input (h : Metered f a c) {v : Bool} (hx : a.act f (.input v) = some a') :
    Metered f a' c := by
  rcases BA.Party.act_cases hx with ⟨v', -, hpc, rfl⟩ | ⟨-, hm, -⟩ | ⟨-, hm, -⟩ | ⟨-, hm, -⟩ |
    ⟨-, hm, -⟩ | ⟨V, b, -, hm, -⟩
  · refine h.moves (h.call.act hx) (h.call.current.input hpc).1.symm (fun _ e => ?_)
      (fun k hk => hk) (fun V e => by cases e)
    cases hpc.symm.trans e
  all_goals cases hm

theorem coinCall_none (h : Round.coinCall a = none) (V : Finset Bool) : a.pc ≠ .coin V := by
  intro e
  rw [Round.coinCall, e] at h
  cases h

theorem coinCall_some {k : ℕ} (h : Round.coinCall a = some k) : (∃ V, a.pc = .coin V) ∧
    k = a.r.toNat := by
  unfold Round.coinCall at h
  split at h
  · next V hV => exact ⟨⟨V, hV⟩, (Option.some.inj h).symm⟩
  · cases h

theorem live_of_mainStep (h : a.mainStep f = some a') : a.pc ≠ .returned := by
  intro hpc
  obtain ⟨e | e | e | e, -⟩ := BA.Party.mainStep_spec h <;> cases e.symm.trans hpc

/-- the agreement goes on, and does not call the coin -/
theorem Metered.main (h : Metered f a c) (hx : a.act f .main = some a')
    (hno : Round.coinCall a' = none) : Metered f a' c := by
  obtain ⟨-, hmove⟩ := BA.Party.mainStep_spec hx
  refine h.moves (h.call.act hx) hmove.round (fun _ => live_of_mainStep hx) (fun k hk => ?_)
    fun V hV => absurd hV (coinCall_none hno V)
  refine (hmove.asked k hk).resolve_right ?_
  rintro ⟨-, V, hV⟩
  exact coinCall_none hno V hV

/-- a message for the agreement arrives -/
theorem Metered.recvAba (h : Metered f a c) (hrun : a.recvLoop = .running) (src : Fin n)
    (m : BA.Msg) : Metered f (a.recv f src m) c := by
  have hs := BA.Party.recv_sameMain f src m a
  refine h.moves (h.call.recv hrun src m) hs.r (fun hl => hs.pc ▸ hl) (fun k hk => ?_)
    fun V hV => hs.pc ▸ hV
  rcases BA.Party.recv_trace f src m a with ht | ⟨r, v, ht, -⟩ <;> rw [ht] at hk
  · exact hk
  · exact (List.mem_cons.mp hk).resolve_left BA.Out.noConfusion

end

variable {C : Committee} {S : Setup C} {r : ℤ} {pid j : Fin C.N}

section
variable {a a' : BA.Party C.N} {c c' : Coin.Party C.N S.tsig.G₁}

/-- the agreement calls the coin -/
theorem Metered.getCoin (h : Metered C.f a c) (hx : a.act C.f .main = some a') {k : ℕ}
    (hk : Round.coinCall a' = some k) (hc : (S.coin r j).act pid (.getCoin k) c = some c') :
    Metered C.f a' c' := by
  obtain ⟨-, hmove⟩ := BA.Party.mainStep_spec hx
  obtain ⟨⟨V, hV⟩, rfl⟩ := coinCall_some hk
  obtain ⟨SK, -, rfl⟩ := Option.map_eq_some_iff.mp hc
  have hcall := h.call.act hx
  have hcast : (a'.r.toNat : ℤ) = a'.r := Int.toNat_of_nonneg hcall.ordered.nonneg
  refine ⟨hcall, fun i hi => ?_, fun W _ => ?_, fun i hi => ?_⟩
  · rcases hmove.asked i hi with hold | ⟨rfl, -⟩
    · obtain ⟨sig, hsig⟩ := h.called i hold
      exact ⟨sig, List.mem_cons_of_mem _ hsig⟩
    · exact ⟨_, by rw [← hcast]; exact List.mem_cons_self⟩
  · show 0 < Function.update c.waiting (a'.r.toNat : ℤ) _ a'.r
    rw [hcast, Function.update_self]
    exact Nat.succ_pos _
  · rw [hmove.round] at hi
    exact h.queue i (hi.imp_right fun e => ⟨e.1, live_of_mainStep hx⟩)

/-- the coin answers -/
theorem Metered.take (h : Metered C.f a c) {bit : Bool} (hx : a.act C.f (.coin bit) = some a')
    (hc : (S.coin r j).act pid (.take a.r.toNat) c = some c') : Metered C.f a' c' := by
  have hcall := h.call.act hx
  have hcast : (a.r.toNat : ℤ) = a.r := Int.toNat_of_nonneg h.call.ordered.nonneg
  obtain ⟨V, rfl⟩ : ∃ V, a' = a.afterCoin V bit := by
    rcases BA.Party.act_cases hx with ⟨v, ha, -⟩ | ⟨-, ha, -⟩ | ⟨-, ha, -⟩ | ⟨-, ha, -⟩ |
      ⟨-, ha, -⟩ | ⟨V, b, -, ha, he⟩
    · cases ha
    · cases ha
    · cases ha
    · cases ha
    · cases ha
    · obtain rfl := BA.Party.Act.coin.inj ha
      exact ⟨V, he⟩
  obtain ⟨hwhere, htrace⟩ := BA.Party.afterCoin_spec V bit a
  change c.take a.r.toNat = some c' at hc
  unfold Coin.Party.take at hc
  split at hc
  · next k bit' rest _ _ =>
    obtain rfl := Option.some.inj hc
    refine ⟨hcall, fun i hi => h.called i (htrace i hi), fun W hW => ?_, fun i hi => ?_⟩
    · rcases hwhere with ⟨-, e⟩ | ⟨-, e⟩ <;> cases e.symm.trans hW
    · have hlt : a.r < i := by
        rcases hwhere with ⟨hr, -⟩ | ⟨hr, hret⟩ <;> rw [hr] at hi
        · omega
        · exact hi.resolve_right fun e => e.2 hret
      show Function.update c.outputQueue (a.r.toNat : ℤ) rest i = c.puts i
      rw [hcast, Function.update_of_ne hlt.ne']
      exact h.queue i (.inl hlt)
  · cases hc

theorem recv_waiting (r : ℤ) (pid j src : Fin C.N) (m : Coin.Share S.tsig.G₁)
    (c : Coin.Party C.N S.tsig.G₁) :
    ((S.coin r j).recv pid src m c).waiting = c.waiting := by
  show (c.recv S.tsig.charm S.str (S.coinSid r j) C.f S.tsig.sPK src m).waiting = _
  unfold Coin.Party.recv Coin.Party.output Coin.Party.putNowait
  dsimp only
  repeat' split
  all_goals rfl

/-- a share for the coin arrives -/
theorem Metered.recvCoin (h : Metered C.f a c) (src : Fin C.N) (m : Coin.Share S.tsig.G₁) :
    Metered C.f a ((S.coin r j).recv pid src m c) := by
  have hwait := recv_waiting r pid j src m c
  have hq := Coin.recv_queue (f := C.f) S.tsig.charm S.str (S.coinSid r j) S.tsig.sPK src m c
  change ((S.coin r j).recv pid src m c).outputQueue = c.outputQueue ∧
      ((S.coin r j).recv pid src m c).trace = c.trace ∨
    ∃ bit, c.outputQueue m.r = [] ∧ ((S.coin r j).recv pid src m c).outputQueue =
        Function.update c.outputQueue m.r [bit] ∧
      ((S.coin r j).recv pid src m c).trace = .put m.r bit :: c.trace at hq
  refine ⟨h.call, fun k hk => ?_, fun V hV => hwait ▸ h.waits V hV, fun k hk => ?_⟩
  · obtain ⟨sig, hsig⟩ := h.called k hk
    refine ⟨sig, ?_⟩
    rcases hq with ⟨-, ht⟩ | ⟨bit, -, -, ht⟩ <;> rw [ht]
    · exact hsig
    · exact List.mem_cons_of_mem _ hsig
  · have hold := h.queue k hk
    rcases hq with ⟨hq, ht⟩ | ⟨bit, hnil, hq, ht⟩ <;> rw [hq, Coin.Party.puts, ht]
    · exact hold
    · rw [List.filterMap_cons, Coin.outBit]
      by_cases hkm : m.r = k
      · subst hkm
        rw [hnil] at hold
        rw [Function.update_self, if_pos rfl]
        exact congrArg (bit :: ·) hold
      · rw [Function.update_of_ne (Ne.symm hkm), if_neg hkm]
        exact hold

end

/-! ## the rounds -/

/-- **every agreement is in step with its coin** -/
theorem reached_metered {nd : Node C.N S.Obj S.Msg} (h : (system S).ReachableAlone pid nd) :
    ∀ r x, nd.st.rounds r = some x → ∀ j, Metered C.f (x.aba j) (x.coin j) := by
  refine rounds_invariant (fun _ x => ∀ j, Metered C.f (x.aba j) (x.coin j))
    (fun r tx key rnd iv j => ?_) (fun r x a y hx hs j => ?_) (fun r x src i m hx hl j => ?_) h
  · exact ⟨BA.Party.Call.init, (fun k hk => by cases hk), (fun V hV => by cases hV), fun k _ => rfl⟩
  · have hother : ∀ (k : Fin C.N) {z : BA.Party C.N} {c : Coin.Party C.N S.tsig.G₁},
        Metered C.f z c →
        Metered C.f (Function.update x.aba k z j) (Function.update x.coin k c j) := by
      intro k z c hzc
      by_cases hk : j = k
      · subst hk
        rwa [Function.update_self, Function.update_self]
      · rw [Function.update_of_ne hk, Function.update_of_ne hk]
        exact hx j
    cases hs with
    | @abaInput k v z hv hz =>
      have h := hother k ((hx k).input hz)
      rwa [Function.update_eq_self] at h
    | @abaMain k z hz hpc =>
      have h := hother k ((hx k).main hz hpc)
      rwa [Function.update_eq_self] at h
    | abaCoin hz hpc hc => exact hother _ ((hx _).getCoin hz hpc hc)
    | coinTake hbit hc hz => exact hother _ ((hx _).take hz hc)
    | _ => exact hx j
  · cases i with
    | ACS_ABA k =>
      cases m with
      | aba m =>
        show Metered C.f (Function.update x.aba k _ j) _
        by_cases hk : j = k
        · subst hk
          rw [Function.update_self]
          exact (hx j).recvAba (of_decide_eq_true hl) src m
        · rw [Function.update_of_ne hk]
          exact hx j
      | _ => exact hx j
    | ACS_COIN k =>
      cases m with
      | coin m =>
        show Metered C.f _ (Function.update x.coin k _ j)
        by_cases hk : j = k
        · subst hk
          rw [Function.update_self]
          exact (hx j).recvCoin src m
        · rw [Function.update_of_ne hk]
          exact hx j
      | _ => exact hx j
    | _ => cases m <;> exact hx j

/-- **an agreement in front of a coin whose bit is there can take it** -/
theorem coinTake_ne {x : S.Call} (h : Metered C.f (x.aba j) (x.coin j)) {V : Finset Bool}
    (hpc : (x.aba j).pc = .coin V) (hput : (x.coin j).puts (x.aba j).r ≠ []) :
    x.act S r pid (.coinTake j) ≠ none := by
  have hcast : ((x.aba j).r.toNat : ℤ) = (x.aba j).r := Int.toNat_of_nonneg h.call.ordered.nonneg
  have hq := h.queue (x.aba j).r (.inr ⟨rfl, by rw [hpc]; exact BA.Pc.noConfusion⟩)
  obtain ⟨bit, rest, hbits⟩ := List.exists_cons_of_ne_nil hput
  obtain ⟨k, hk⟩ := Nat.exists_eq_succ_of_ne_zero (h.waits V hpc).ne'
  have htake : (S.coin r j).act pid (.take (x.aba j).r.toNat) (x.coin j) ≠ none := by
    show (x.coin j).take (x.aba j).r.toNat ≠ none
    unfold Coin.Party.take
    rw [hcast, hk, hq, hbits]
    exact Option.some_ne_none _
  obtain ⟨c, hc⟩ := Option.ne_none_iff_exists'.mp htake
  have hz : (BA.protocol C).act pid (.coin bit) (x.aba j) =
      some ((x.aba j).afterCoin V bit) := by
    simp only [BA.protocol, BA.Party.act, hpc]
  have hhead : ((x.coin j).outputQueue (x.aba j).r.toNat).head? = some bit := by
    rw [hcast, hq, hbits]
    rfl
  unfold Round.act
  dsimp only
  rw [hhead, hc, Option.bind_eq_bind, Option.bind_some, Option.bind_eq_bind, Option.bind_some, hz]
  exact Option.some_ne_none _

end HoneyBadger
