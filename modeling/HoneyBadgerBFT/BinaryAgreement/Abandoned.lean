import HoneyBadgerBFT.BinaryAgreement.Quit

/-!
# Binary agreement: how many parties are abandoned

A party that got the bit of the coin alone in a round decides there, and quits in the next round
whose coin is that bit again.  Whoever got both bits in the round of the decision decides later and
needs one round more, without the parties that have quit by then.  So the parties left behind are
among those with both bits (`twoBits_of_behind`), and whether they are stuck depends on how many
they are: up to `f` of them are what the comment in the code promises, and `N-f` of them finish the
round by themselves.

* `abandoned_le`    the comment's lemma, where no number between these two occurs;
* `abandoned_two`   two of four parties left behind.
-/

namespace BA
open Async Trans Party

variable {C : Committee} {coin : ℤ → Bool} {s : State C}

/-- the honest parties that have decided and have not returned -/
def abandoned (s : State C) : Finset (Fin C.N) :=
  C.honest.filter fun p => (s p).st.decisions ≠ [] ∧ (s p).st.pc ≠ .returned

/-- the honest parties that got both bits from `wait_for_conf_values` in the round `r` -/
def twoBits (s : State C) (r : ℤ) : Finset (Fin C.N) :=
  C.honest.filter fun p => .confReturn r {false, true} ∈ (s p).st.trace

/-- those who are behind do not need those who have quit: no relay is missing in the rounds they are
in, and of the honest parties in a round that one of them left with the bit of its coin alone, at
most `f` left it with both bits, or so many that they are a quorum -/
structure PeersSafe (coin : ℤ → Bool) (s : State C) : Prop where
  relays : Relayed s
  split : ∀ r p, C.Honest p → .confReturn r {coin r} ∈ (s p).st.trace →
    (twoBits s r).card ≤ C.f ∨ C.N - C.f ≤ (twoBits s r).card

/-! ## the second time is the last -/

/-- a call with a decision that gets its bit alone, and from the coin, in two rounds has returned in
the second one -/
def Party.Quits {n : ℕ} (p : Party n) : Prop :=
  ∀ r r' v, p.alreadyDecided = some v → r < r' →
    .confReturn r {v} ∈ p.trace → .received r v ∈ p.trace →
    .confReturn r' {v} ∈ p.trace → .received r' v ∈ p.trace → p.pc = .returned

theorem afterCoin_returned {n : ℕ} {p : Party n} {v : Bool} (hd : p.alreadyDecided = some v) :
    (p.afterCoin {v} v).pc = .returned := by
  have hquit : setNewEstimate {v} v (some v) = .abandonedNodeError := by cases v <;> rfl
  unfold afterCoin emit
  dsimp only
  rw [hd, hquit]

theorem Party.Quits.act {n f : ℕ} {p p' : Party n} (h : p.Quits) (hdec : p.Decides)
    (hc : Call f p) {a : Party.Act} (ha : p.act f a = some p') : p'.Quits := by
  intro r r' v hd hlt h1 h2 h3 h4
  rcases act_single hc ha h1 h2 with ⟨h1, h2⟩ | ⟨rfl, -⟩
  · -- the first round is over: its decision stands
    obtain ⟨w, hw⟩ := Option.ne_none_iff_exists'.mp (hdec r v h1 h2)
    have hv := act_alreadyDecided hc ha hw
    obtain rfl : v = w := Option.some.inj (hd.symm.trans hv)
    rcases act_single hc ha h3 h4 with ⟨h3, h4⟩ | ⟨-, rfl⟩
    · exact absurd (h r r' v hw hlt h1 h2 h3 h4) (act_live ha)
    · exact afterCoin_returned hw
  · rcases act_single hc ha h3 h4 with ⟨-, h4⟩ | ⟨rfl, -⟩
    · obtain ⟨-, hpast⟩ := hc.ordered.past h4 rfl
      omega
    · exact absurd hlt (lt_irrefl _)

theorem Party.Quits.recv {n f : ℕ} {p : Party n} (h : p.Quits) (sender : Fin n) (m : Msg) :
    (p.recv f sender m).Quits := by
  intro r r' v hd hlt h1 h2 h3 h4
  have hsame := recv_sameMain f sender m p
  obtain ⟨h1, h2⟩ := recv_single h1 h2
  obtain ⟨h3, h4⟩ := recv_single h3 h4
  rw [hsame.pc]
  exact h r r' v (hsame.alreadyDecided.symm.trans hd) hlt h1 h2 h3 h4

theorem reached_quits {ok : State C → Lbl C → Prop} (h : Reached C ok s) :
    ∀ p, C.Honest p → (s p).st.Quits := by
  have := node_invariant (fun _ nd => Call C.f nd.st ∧ nd.st.Decides ∧ nd.st.Quits) ?_ ?_ ?_ h
  · exact fun p hp => (this p hp).2.2
  · refine fun _ _ => ⟨Call.init, ?_, ?_⟩
    · intro r v hret
      cases hret
    · intro r r' v hd
      cases hd
  · intro p src m nd _ hnd hl
    obtain ⟨hc, hdec, hq⟩ := hnd
    exact ⟨hc.recv (of_decide_eq_true hl) src m, hdec.recv src m, hq.recv src m⟩
  · intro p a nd x _ hnd hx
    obtain ⟨hc, hdec, hq⟩ := hnd
    exact ⟨hc.act hx, hdec.act hc hx, hq.act hdec hc hx⟩

section
variable (h : Reached C (CommonCoin coin) s)
include h

/-- under a common coin the decision is the bit of the two rounds -/
theorem returned_of_twice {q : Fin C.N} (hq : C.Honest q) {r r' : ℤ} {v : Bool} (hlt : r < r')
    (h1 : .confReturn r {v} ∈ (s q).st.trace) (h2 : .received r v ∈ (s q).st.trace)
    (h3 : .confReturn r' {v} ∈ (s q).st.trace) (h4 : .received r' v ∈ (s q).st.trace) :
    (s q).st.pc = .returned := by
  obtain ⟨w, hw⟩ := Option.ne_none_iff_exists'.mp (reached_decides h q hq r v h1 h2)
  have hmem : w ∈ (s q).st.decisions := by
    rw [(reached_call h q hq).current.decisions, hw]
    exact List.mem_singleton_self w
  obtain ⟨r₀, hl⟩ := locked_of_decision h hq hmem
  have hv : Locked coin s r v := ⟨(received_coin h q hq r v h2).symm, q, hq, h1⟩
  obtain rfl := hl.unique h hv
  exact reached_quits h q hq r r' w hw hlt h1 h2 h3 h4

/-- what a round has returned to an honest party next to a lock: its bit, or both -/
theorem confReturn_cases {r : ℤ} {v : Bool} (hl : Locked coin s r v) {q : Fin C.N} (hq : C.Honest q)
    {V : Finset Bool} (hV : .confReturn r V ∈ (s q).st.trace) : V = {v} ∨ V = {false, true} := by
  obtain ⟨-, p, hp, hp1⟩ := hl
  rcases (reached_call h q hq).backed _ hV with ⟨w, rfl, -⟩ | ⟨hboth, -⟩
  · exact .inl (by rw [confReturn_unique h hq hp hV hp1])
  · exact .inr hboth

/-- **who is behind a quitting party got both bits** in the round of its decision: with the bit
alone there, it would have quit in the same round -/
theorem twoBits_of_behind {p q : Fin C.N} (hp : C.Honest p) (hret : (s p).st.pc = .returned)
    (hq : C.Honest q) (hlive : (s q).st.pc ≠ .returned) (hpq : (s p).st.r < (s q).st.r) {r : ℤ}
    {v : Bool} (hl : Locked coin s r v) (hlt : r < (s p).st.r) : q ∈ twoBits s r := by
  have hc := reached_call h q hq
  have hnn := hl.nonneg h
  obtain ⟨w, r₀, -, -, -, hl₀, hw⟩ := quit_locked h hp hret
  obtain rfl := hl₀.unique h hl
  have hpast : ∀ i k, 0 ≤ i → i ≤ (s p).st.r → (s q).st.Past i k :=
    fun i k hi hle => ⟨hi, .inl (by omega)⟩
  obtain ⟨V, hV⟩ := hc.ordered.confReturn (hpast r 4 hnn hlt.le)
  obtain ⟨b, hb⟩ := hc.ordered.received (hpast r 5 hnn hlt.le)
  obtain rfl : b = w := (received_coin h q hq r b hb).trans hl.1
  rcases confReturn_cases h hl hq hV with rfl | rfl
  · -- the round of the quit has returned the bit of the lock, and its coin is the same
    obtain ⟨W, hW⟩ := hc.ordered.confReturn (hpast (s p).st.r 4 (by omega) le_rfl)
    obtain ⟨c, hcoin⟩ := hc.ordered.received (hpast (s p).st.r 5 (by omega) le_rfl)
    obtain rfl := confReturn_of_locked h hl (by omega) hq hW
    obtain rfl : c = b := (received_coin h q hq _ c hcoin).trans hw.symm
    exact absurd (returned_of_twice h hq hlt hV hb hW hcoin) hlive
  · exact Finset.mem_filter.mpr ⟨Committee.mem_honest.mpr hq, hV⟩

/-- if a live party is past the round in which a party quits, that party did not get both bits in a
round with a lock -/
theorem not_twoBits_of_ahead {p q : Fin C.N} (hp : C.Honest p) (hret : (s p).st.pc = .returned)
    (hq : C.Honest q) (hlive : (s q).st.pc ≠ .returned) (hpq : (s p).st.r < (s q).st.r) {r : ℤ}
    {v : Bool} (hl : Locked coin s r v) : p ∉ twoBits s r := by
  intro hmem
  obtain ⟨-, hboth⟩ := Finset.mem_filter.mp hmem
  obtain ⟨w, r₀, -, hlt, hown, hl₀, -⟩ := quit_locked h hp hret
  obtain rfl := hl₀.unique h hl
  rcases lt_trichotomy r r₀ with hr | rfl | hr
  · -- the decision came after the lock, when both bits are no longer possible
    obtain ⟨-, hq₀⟩ := Finset.mem_filter.mp (twoBits_of_behind h hp hret hq hlive hpq hl₀ hlt)
    exact singleton_ne_both w (confReturn_of_locked h hl hr hq hq₀).symm
  · have he := (reached_call h p hp).ordered.eq hboth hown rfl rfl
    exact singleton_ne_both w (Out.confReturn.inj he).2.symm
  · exact singleton_ne_both w (confReturn_of_locked h hl₀ hr hp hboth).symm

end

/-! ## counting -/

section
variable (h : Reached C (fun s e => AtMostOnce s e ∧ CommonCoin coin s e) s)
include h

/-- **a quorum that has to go on alone goes on**: after a lock a settled state has no live call in a
round that a quorum of honest parties has come to -/
theorem Locked.no_live (hset : Settled s) {r m : ℤ} {v : Bool} (hl : Locked coin s r v)
    (hm : r < m) {B : Finset (Fin C.N)} (hhon : ∀ p ∈ B, C.Honest p) (hquo : C.N - C.f ≤ B.card)
    (hround : ∀ p ∈ B, m ≤ (s p).st.r) {p : Fin C.N} (hp : p ∈ B) (hr : (s p).st.r = m) :
    (s p).st.pc = .returned := by
  have hcoin : Reached C (CommonCoin coin) s := h.mono fun _ _ e => e.2
  have honce : Reached C AtMostOnce s := h.mono fun _ _ e => e.1
  have hnn := hl.nonneg hcoin
  have hB : Abreast s m B :=
    { nonneg := hnn.trans hm.le
      honest := hhon
      quorum := hquo
      round := hround
      relays := by
        intro w hw
        -- only the locked bit has honest senders, and whoever was in the round has sent it
        obtain ⟨q, hq⟩ := Finset.card_pos.mp (Nat.zero_lt_of_lt hw)
        obtain ⟨hq, hsent⟩ := Finset.mem_filter.mp hq
        obtain ⟨a, ha, hst⟩ := est_grounded hcoin q (Committee.mem_honest.mp hq) m w hsent
        obtain rfl := starting_of_locked hcoin hl hm a ha w hst
        have hall : B.filter (fun p => ¬ Owes s m w p) = B := by
          refine Finset.filter_true_of_mem fun b hb howe => ?_
          obtain ⟨hret, -, hno⟩ := howe
          have hc := reached_call hcoin b (hhon b hb)
          have hpast : (s b).st.Past m 1 := by
            refine ⟨by omega, ?_⟩
            rcases (hround b hb).lt_or_eq with hlt | heq
            · exact .inl hlt
            · exact .inr ⟨heq, by rw [hret]; decide⟩
          obtain ⟨e, he⟩ := hc.ordered.starting hpast
          obtain rfl := starting_of_locked hcoin hl hm b (hhon b hb) e he
          exact hno (mem_sent.mpr (hc.table.sent m e (hc.backed _ he).2))
        rw [hall]
        have := C.resilient
        omega }
  by_contra hlive
  exact hB.round_ne honce hset hp hlive hr

end

/-- **at most `f` parties are abandoned**, in every settled state of every run with a common coin
and at most one copy of each Byzantine message, in which those behind do not need those who have
quit -/
theorem abandoned_le (C : Committee) (coin : ℤ → Bool) (s : State C)
    (h : Reached C (fun s e => AtMostOnce s e ∧ CommonCoin coin s e) s) (hset : Settled s)
    (hsafe : PeersSafe coin s) : (abandoned s).card ≤ C.f := by
  have hcoin : Reached C (CommonCoin coin) s := h.mono fun _ _ e => e.2
  have honce : Reached C AtMostOnce s := h.mono fun _ _ e => e.1
  rcases (abandoned s).eq_empty_or_nonempty with hnone | ⟨q, hq⟩
  · rw [hnone, Finset.card_empty]
    exact Nat.zero_le _
  obtain ⟨hq, -, hqlive⟩ := Finset.mem_filter.mp hq
  obtain ⟨a, ha, hal, hmin⟩ := exists_earliest (Committee.mem_honest.mp hq) hqlive
  by_cases hround : ∀ p, C.Honest p → (s a).st.r ≤ (s p).st.r
  · exact absurd (no_live_of_round_le honce hset hsafe.relays ha hround) hal
  -- somebody has quit before the first of the live calls
  push Not at hround
  obtain ⟨p, hp, hpa⟩ := hround
  have hret : (s p).st.pc = .returned := by
    by_contra hl
    exact absurd (hmin p hp hl) (by omega)
  obtain ⟨v, r, -, hlt, -, hl, -⟩ := quit_locked hcoin hp hret
  have hlive : ∀ q, C.Honest q → (s q).st.pc ≠ .returned → q ∈ twoBits s r := fun q hq hql =>
    twoBits_of_behind hcoin hp hret hq hql (hpa.trans_le (hmin q hq hql)) hl hlt
  obtain ⟨rfl, w, hw, hw1⟩ := id hl
  rcases hsafe.split r w hw hw1 with hfew | hmany
  · refine (Finset.card_le_card fun b hb => ?_).trans hfew
    obtain ⟨hb, -, hblive⟩ := Finset.mem_filter.mp hb
    exact hlive b (Committee.mem_honest.mp hb) hblive
  · -- all of these are with the first live call or past it
    refine absurd (hl.no_live h hset (m := (s a).st.r) (by omega) ?_ hmany ?_ (hlive a ha hal) rfl) hal
    · exact fun b hb => Committee.mem_honest.mp (Finset.mem_filter.mp hb).1
    · intro b hb
      have hbh := Committee.mem_honest.mp (Finset.mem_filter.mp hb).1
      by_contra hlt'
      have hbret : (s b).st.pc = .returned := by
        by_contra hbl
        exact absurd (hmin b hbh hbl) hlt'
      exact not_twoBits_of_ahead hcoin hbh hbret ha hal (by omega) hl hb

/-- the party 2 alone gets both bits in the round 0, out of two CONF messages of the Byzantine party
and its own; 0 and 1 decide there and quit in the round 1, where 2 decides -/
def lastRun : List (Lbl four) :=
  let all : List (Fin four.N) := [0, 1, 2]
  let fast : List (Fin four.N) := [0, 1]
  begin false 0 ++ begin false 1 ++ begin true 2 ++
    all.flatMap (arrive [0, 1, 3] (.EST 0 false)) ++ all.flatMap (go 2) ++
    all.flatMap (arrive [2, 3] (.EST 0 true)) ++ all.flatMap (arrive all (.AUX 0 false)) ++
    all.flatMap (go 2) ++ all.flatMap (arrive [0] (.EST 0 true)) ++
    fast.flatMap (arrive all (.CONF 0 [false])) ++ arrive [2, 3] (.CONF 0 [false]) 2 ++
    arrive [3] (.CONF 0 [false, true]) 2 ++ all.flatMap (go 1) ++
    (all.map fun p => .act p (.coin false)) ++ silentRound 1 ++ go 2 2 ++
    arrive [2] (.EST 2 false) 2 ++ arrive [2] (.EST 0 false) 2 ++ arrive [1] (.EST 0 true) 2 ++
    arrive fast (.CONF 0 [false]) 2 ++ go 1 2

/-- every round has returned one bit -/
def Party.oneBit {n : ℕ} (p : Party n) : Bool :=
  p.trace.all fun o => match o with
    | .confReturn _ V => decide (V.card = 1)
    | _ => true

theorem not_mem_twoBits {p : Fin C.N} (h : (s p).st.oneBit = true) (r : ℤ) : p ∉ twoBits s r := by
  intro hp
  obtain ⟨-, hmem⟩ := Finset.mem_filter.mp hp
  have hcard : ({false, true} : Finset Bool).card = 1 :=
    of_decide_eq_true (List.all_eq_true.mp h _ hmem)
  exact absurd hcard (by decide)

theorem abandoned_le_four : ∃ s : State four,
    Reached four (fun s e => AtMostOnce s e ∧ CommonCoin (fun _ => false) s e) s ∧ Settled s ∧
      abandoned s = {2} ∧ (abandoned s).card ≤ four.f := by
  obtain ⟨s, hs, hgood⟩ := exists_exec
    (fun s e => AtMostOnce s e ∧ CommonCoin (fun _ => false) s e) (protocol four).start lastRun
    (fun s : State four => decide (Settled s ∧ abandoned s = {2} ∧
      (∀ p q, four.Honest p → four.Honest q → p ∉ ({2} : Finset (Fin four.N)) →
        (s p).st.sent ⊆ (s q).st.sent) ∧
      ∀ p, four.Honest p → p ≠ 2 → (s p).st.oneBit = true)) (by decide +kernel)
  obtain ⟨hset, hlast, hsame, hone⟩ := of_decide_eq_true hgood
  have hsafe : PeersSafe (fun _ => false) s := by
    refine ⟨relays_of_sent (le_refl 1) hsame, fun r p _ _ => .inl ?_⟩
    refine (Finset.card_le_card fun b hb => ?_).trans (Finset.card_singleton (2 : Fin four.N)).le
    by_contra hne
    have hbh := Committee.mem_honest.mp (Finset.mem_filter.mp hb).1
    exact not_mem_twoBits (hone b hbh fun e => hne (Finset.mem_singleton.mpr e)) r hb
  exact ⟨s, hs, hset, hlast, abandoned_le four _ s hs hset hsafe⟩

/-- two parties of four are left in the round 2 for lack of peers (`splitRun`) -/
theorem abandoned_two : ¬ ∀ s : State four,
    Reached four (fun s e => AtMostOnce s e ∧ CommonCoin (fun _ => false) s e) s → Settled s →
      (abandoned s).card ≤ four.f := by
  intro hclaim
  obtain ⟨s, hs, hgood⟩ := exists_exec
    (fun s e => AtMostOnce s e ∧ CommonCoin (fun _ => false) s e) (protocol four).start splitRun
    (fun s : State four => decide (Settled s ∧ abandoned s = {1, 2})) (by decide +kernel)
  obtain ⟨hset, htwo⟩ := of_decide_eq_true hgood
  have hle := hclaim s hs hset
  rw [htwo] at hle
  exact absurd hle (by decide)

end BA
