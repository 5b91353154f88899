import HoneyBadgerBFT.BinaryAgreement.Party

/-!
# Binary agreement: what every call keeps to

Facts about one call, whatever messages and answers it gets.

* `Grows`                  the tables, the sent flags and the trace only grow (`recv_grows`,
                           `act_grows`);
* `act_cases`              the actions of the main loop, one by one;
* `recv_cases`             what the arrival of a message can do;
* `recv_trace`             the one message that the receive loop sends is a relay;
* `entered_recv`           and the one entry that it makes is the message that arrives;
* `recv_suffix`, `act_suffix`   the trace grows at its front.
-/

namespace BA
namespace Party
variable {n : ℕ}

/-! ## growth -/

/-- nothing that `p` holds is taken back in `p'` -/
structure Grows (p p' : Party n) : Prop where
  est : ∀ r v, p.estValues r v ⊆ p'.estValues r v
  aux : ∀ r v, p.auxValues r v ⊆ p'.auxValues r v
  conf : ∀ r c, p.confValues r c ⊆ p'.confValues r c
  bin : ∀ r, p.binValues r ⊆ p'.binValues r
  estSent : ∀ r v, p.estSent r v = true → p'.estSent r v = true
  trace : p.trace ⊆ p'.trace

theorem Grows.refl (p : Party n) : p.Grows p :=
  ⟨fun _ _ => subset_rfl, fun _ _ => subset_rfl, fun _ _ => subset_rfl, fun _ => subset_rfl,
    fun _ _ h => h, List.Subset.refl _⟩

theorem Grows.trans {p q s : Party n} (h : p.Grows q) (h' : q.Grows s) : p.Grows s :=
  ⟨fun r v => Finset.Subset.trans (h.est r v) (h'.est r v),
    fun r v => Finset.Subset.trans (h.aux r v) (h'.aux r v),
    fun r c => Finset.Subset.trans (h.conf r c) (h'.conf r c),
    fun r => Finset.Subset.trans (h.bin r) (h'.bin r),
    fun r v e => h'.estSent r v (h.estSent r v e), List.Subset.trans h.trace h'.trace⟩

theorem subset_put {β : Type} [DecidableEq β] (table : ℤ → β → Finset (Fin n)) (r : ℤ) (v : β)
    (b : Fin n) (r' : ℤ) (v' : β) :
    table r' v' ⊆ put table r v (insert b (table r v)) r' v' := by
  rw [put_apply]
  split
  · next h => rw [h.1, h.2]; exact Finset.subset_insert _ _
  · exact subset_rfl

theorem put_true (sent : ℤ → Bool → Bool) (r : ℤ) (v : Bool) (r' : ℤ) (v' : Bool)
    (h : sent r' v' = true) : put sent r v true r' v' = true := by
  rw [put_apply]
  split
  · rfl
  · exact h

theorem emit_grows (o : Out) (p : Party n) : p.Grows (p.emit o) :=
  { Grows.refl p with trace := List.subset_cons_self _ _ }

theorem sendEst_grows (r : ℤ) (v : Bool) (p : Party n) :
    p.Grows ({ p with estSent := put p.estSent r v true }.broadcast (.EST r v)) :=
  { Grows.refl p with
    estSent := fun r' v' h => put_true _ _ _ r' v' h
    trace := List.subset_cons_self _ _ }

theorem relayEst_grows (f : ℕ) (r : ℤ) (v : Bool) (p : Party n) : p.Grows (p.relayEst f r v) := by
  unfold relayEst
  split
  · exact sendEst_grows r v p
  · exact Grows.refl p

theorem outputEst_grows (f : ℕ) (r : ℤ) (v : Bool) (p : Party n) :
    p.Grows (p.outputEst f r v) := by
  unfold outputEst
  split
  · refine { Grows.refl p with bin := fun r' => ?_ }
    by_cases hr : r' = r
    · subst hr; simp
    · simp [hr]
  · exact Grows.refl p

theorem recv_grows (f : ℕ) (sender : Fin n) (m : Msg) (p : Party n) :
    p.Grows (p.recv f sender m) := by
  cases m with
  | EST r v =>
    show p.Grows (p.recvEst f sender r v)
    unfold recvEst
    split
    · exact { Grows.refl p with }
    · have h : p.Grows { p with estValues := put p.estValues r v (insert sender (p.estValues r v)) } :=
        { Grows.refl p with est := subset_put _ _ _ _ }
      exact (h.trans (relayEst_grows f r v _)).trans (outputEst_grows f r v _)
  | AUX r v =>
    show p.Grows (p.recvAux sender r v)
    unfold recvAux
    split
    · exact { Grows.refl p with }
    · exact { Grows.refl p with aux := subset_put _ _ _ _ }
  | CONF r c =>
    show p.Grows (p.handleConfMessages sender r c)
    unfold handleConfMessages
    split
    · exact { Grows.refl p with }
    · split
      · exact { Grows.refl p with }
      · exact { Grows.refl p with conf := subset_put _ _ _ _ }

theorem startRound_grows (p : Party n) : p.Grows p.startRound := by
  unfold startRound
  dsimp only
  split
  · exact (emit_grows _ p).trans ((sendEst_grows _ _ _).trans { Grows.refl _ with })
  · exact (emit_grows _ p).trans { Grows.refl _ with }

theorem checkBin_grows (p : Party n) : p.Grows p.checkBin := by
  unfold checkBin
  split
  · exact { Grows.refl p with }
  · exact (emit_grows _ p).trans { Grows.refl _ with }

theorem callCoin_grows (values : Finset Bool) (p : Party n) : p.Grows (p.callCoin values) :=
  (emit_grows _ p).trans { Grows.refl _ with }

theorem checkAux_grows (f : ℕ) (p : Party n) : p.Grows (p.checkAux f) := by
  unfold checkAux
  split
  · exact { Grows.refl p with }
  · split
    · exact (emit_grows _ p).trans { Grows.refl _ with }
    · exact callCoin_grows _ p

theorem checkConf_grows (f : ℕ) (p : Party n) : p.Grows (p.checkConf f) := by
  unfold checkConf
  split
  · exact { Grows.refl p with }
  · exact (emit_grows _ p).trans (callCoin_grows _ _)

theorem afterCoin_grows (values : Finset Bool) (s : Bool) (p : Party n) :
    p.Grows (p.afterCoin values s) := by
  refine (emit_grows (.received p.r s) p).trans ?_
  unfold afterCoin
  dsimp only
  split
  · exact { Grows.refl _ with }
  · split
    · exact { Grows.refl _ with }
    · exact { Grows.refl _ with trace := List.subset_cons_self _ _ }

/-- the actions of a call, one case for each test of the main loop -/
theorem act_cases {f : ℕ} {a : Act} {p p' : Party n} (h : p.act f a = some p') :
    (∃ v, a = .input v ∧ p.pc = .input ∧
      p' = { p with est := v, r := 0, alreadyDecided := none, pc := .top }) ∨
    (p.pc = .top ∧ a = .main ∧ p' = p.startRound) ∨
    (p.pc = .bin ∧ a = .main ∧ p' = p.checkBin) ∨
    (p.pc = .aux ∧ a = .main ∧ p' = p.checkAux f) ∨
    (p.pc = .conf ∧ a = .main ∧ p' = p.checkConf f) ∨
    (∃ values s, p.pc = .coin values ∧ a = .coin s ∧ p' = p.afterCoin values s) := by
  cases a with
  | input v =>
    simp only [act] at h
    split at h
    · next hpc => exact .inl ⟨v, rfl, hpc, (Option.some.inj h).symm⟩
    · cases h
  | main =>
    simp only [act, mainStep] at h
    split at h
    · cases h
    · split at h <;> simp_all
  | coin s =>
    simp only [act] at h
    split at h
    · next values hpc =>
      have hp' := (Option.some.inj h).symm
      exact .inr (.inr (.inr (.inr (.inr ⟨values, s, hpc, rfl, hp'⟩))))
    · cases h

theorem act_grows {f : ℕ} {a : Act} {p p' : Party n} (h : p.act f a = some p') : p.Grows p' := by
  rcases act_cases h with ⟨v, -, -, rfl⟩ | ⟨-, -, rfl⟩ | ⟨-, -, rfl⟩ | ⟨-, -, rfl⟩ | ⟨-, -, rfl⟩ |
    ⟨values, s, -, -, rfl⟩
  · exact { Grows.refl p with }
  · exact startRound_grows p
  · exact checkBin_grows p
  · exact checkAux_grows f p
  · exact checkConf_grows f p
  · exact afterCoin_grows values s p

/-- an answer of the coin enters the trace when the coin answers -/
theorem act_received {f : ℕ} {a : Act} {p p' : Party n} (h : p.act f a = some p') {r : ℤ} {b : Bool}
    (hm : .received r b ∈ p'.trace) : .received r b ∈ p.trace ∨ a = .coin b ∧ r = p.r := by
  rcases act_cases h with ⟨v, -, -, rfl⟩ | ⟨-, -, rfl⟩ | ⟨-, -, rfl⟩ | ⟨-, -, rfl⟩ | ⟨-, -, rfl⟩ |
    ⟨V, s, -, rfl, rfl⟩
  · exact .inl hm
  · left
    unfold startRound at hm
    dsimp only at hm
    split at hm <;> simpa [goto, broadcast, emit] using hm
  · left
    unfold checkBin at hm
    split at hm <;> simpa [wait, goto, broadcast, emit] using hm
  · left
    unfold checkAux at hm
    split at hm
    · exact hm
    · split at hm <;> simpa [callCoin, goto, broadcast, emit] using hm
  · left
    unfold checkConf at hm
    split at hm <;> simpa [wait, callCoin, goto, emit] using hm
  · unfold afterCoin at hm
    dsimp only at hm
    split at hm
    · rcases List.mem_cons.mp hm with e | hm
      · cases e; exact .inr ⟨rfl, rfl⟩
      · exact .inl hm
    · split at hm
      · rcases List.mem_cons.mp hm with e | hm
        · cases e; exact .inr ⟨rfl, rfl⟩
        · exact .inl hm
      · rcases List.mem_cons.mp hm with e | hm
        · cases e
        · rcases List.mem_cons.mp hm with e | hm
          · cases e; exact .inr ⟨rfl, rfl⟩
          · exact .inl hm

/-- a return of `wait_for_conf_values` enters the trace when one of its tests succeeds -/
theorem act_confReturn {f : ℕ} {a : Act} {p p' : Party n} (h : p.act f a = some p') {r : ℤ}
    {V : Finset Bool} (hm : .confReturn r V ∈ p'.trace) :
    .confReturn r V ∈ p.trace ∨ a = .main ∧ p.pc = .conf ∧ r = p.r ∧ p.confExit f = some V := by
  rcases act_cases h with ⟨v, -, -, rfl⟩ | ⟨-, -, rfl⟩ | ⟨-, -, rfl⟩ | ⟨-, -, rfl⟩ |
    ⟨hpc, ha, rfl⟩ | ⟨W, s, -, rfl, rfl⟩
  · exact .inl hm
  · left
    unfold startRound at hm
    dsimp only at hm
    split at hm <;> simpa [goto, broadcast, emit] using hm
  · left
    unfold checkBin at hm
    split at hm <;> simpa [wait, goto, broadcast, emit] using hm
  · left
    unfold checkAux at hm
    split at hm
    · exact hm
    · split at hm <;> simpa [callCoin, goto, broadcast, emit] using hm
  · unfold checkConf at hm
    split at hm
    · exact .inl hm
    · next hx =>
      replace hm : _ ∈ Out.coin p.r :: Out.confReturn p.r _ :: p.trace := hm
      simp only [List.mem_cons, reduceCtorEq, false_or, Out.confReturn.injEq] at hm
      rcases hm with ⟨rfl, rfl⟩ | hm
      · exact .inr ⟨ha, hpc, rfl, hx⟩
      · exact .inl hm
  · left
    unfold afterCoin at hm
    dsimp only at hm
    split at hm
    · simpa [emit] using hm
    · split at hm <;> simpa [emit] using hm

/-! ## what the receive loop leaves alone -/

section
variable (f : ℕ) (r : ℤ) (v : Bool) (p : Party n)

@[simp] theorem outputEst_estValues : (p.outputEst f r v).estValues = p.estValues := by
  unfold outputEst; split <;> rfl
@[simp] theorem outputEst_auxValues : (p.outputEst f r v).auxValues = p.auxValues := by
  unfold outputEst; split <;> rfl
@[simp] theorem outputEst_confValues : (p.outputEst f r v).confValues = p.confValues := by
  unfold outputEst; split <;> rfl
@[simp] theorem outputEst_estSent : (p.outputEst f r v).estSent = p.estSent := by
  unfold outputEst; split <;> rfl
@[simp] theorem outputEst_recvLoop : (p.outputEst f r v).recvLoop = p.recvLoop := by
  unfold outputEst; split <;> rfl
@[simp] theorem outputEst_trace : (p.outputEst f r v).trace = p.trace := by
  unfold outputEst; split <;> rfl
@[simp] theorem relayEst_estValues : (p.relayEst f r v).estValues = p.estValues := by
  unfold relayEst; split <;> rfl
@[simp] theorem relayEst_auxValues : (p.relayEst f r v).auxValues = p.auxValues := by
  unfold relayEst; split <;> rfl
@[simp] theorem relayEst_confValues : (p.relayEst f r v).confValues = p.confValues := by
  unfold relayEst; split <;> rfl
@[simp] theorem relayEst_binValues : (p.relayEst f r v).binValues = p.binValues := by
  unfold relayEst; split <;> rfl
@[simp] theorem relayEst_recvLoop : (p.relayEst f r v).recvLoop = p.recvLoop := by
  unfold relayEst; split <;> rfl

theorem outputEst_binValues (r' : ℤ) :
    (p.outputEst f r v).binValues r' =
      if r' = r ∧ 2 * f + 1 ≤ (p.estValues r v).card then insert v (p.binValues r)
      else p.binValues r' := by
  unfold outputEst
  by_cases hc : 2 * f + 1 ≤ (p.estValues r v).card
  · by_cases hr : r' = r
    · subst hr; simp [hc]
    · simp [hc, hr]
  · simp [hc]

theorem relayEst_estSent (r' : ℤ) (v' : Bool) :
    (p.relayEst f r v).estSent r' v' =
      if (r' = r ∧ v' = v) ∧ f + 1 ≤ (p.estValues r v).card then true else p.estSent r' v' := by
  unfold relayEst
  by_cases hc : f + 1 ≤ (p.estValues r v).card
  · cases hs : p.estSent r v with
    | false => simp [hc, broadcast, emit, put_apply]
    | true =>
      by_cases hrv : r' = r ∧ v' = v
      · simp [hrv.1, hrv.2, hs]
      · simp [hrv]
  · simp [hc]

theorem relayEst_sent (h : ∀ r v, p.estSent r v = true → .broadcast (.EST r v) ∈ p.trace)
    (r' : ℤ) (v' : Bool) (hs : (p.relayEst f r v).estSent r' v' = true) :
    .broadcast (.EST r' v') ∈ (p.relayEst f r v).trace := by
  unfold relayEst at hs ⊢
  split at hs
  · next hc =>
    rw [if_pos hc]
    replace hs : put p.estSent r v true r' v' = true := hs
    rw [put_apply] at hs
    split at hs
    · next hrv => rw [hrv.1, hrv.2]; exact List.mem_cons_self
    · exact List.mem_cons_of_mem _ (h r' v' hs)
  · next hc =>
    rw [if_neg hc]
    exact h r' v' hs

end

/-- the variables of the main loop that no message touches -/
structure SameMain (p p' : Party n) : Prop where
  pc : p'.pc = p.pc
  parked : p'.parked = p.parked
  r : p'.r = p.r
  est : p'.est = p.est
  alreadyDecided : p'.alreadyDecided = p.alreadyDecided
  confSent : p'.confSent = p.confSent

theorem SameMain.trans {p q s : Party n} (h : p.SameMain q) (h' : q.SameMain s) : p.SameMain s :=
  ⟨h'.pc.trans h.pc, h'.parked.trans h.parked, h'.r.trans h.r, h'.est.trans h.est,
    h'.alreadyDecided.trans h.alreadyDecided, h'.confSent.trans h.confSent⟩

theorem relayEst_sameMain (f : ℕ) (r : ℤ) (v : Bool) (p : Party n) :
    p.SameMain (p.relayEst f r v) := by
  unfold relayEst
  split <;> exact ⟨rfl, rfl, rfl, rfl, rfl, rfl⟩

theorem outputEst_sameMain (f : ℕ) (r : ℤ) (v : Bool) (p : Party n) :
    p.SameMain (p.outputEst f r v) := by
  unfold outputEst
  split <;> exact ⟨rfl, rfl, rfl, rfl, rfl, rfl⟩

/-- everything the arrival of a message can do: the receive loop dies, or the message is entered
into its table -/
theorem recv_cases (f : ℕ) (sender : Fin n) (m : Msg) (p : Party n) :
    (∃ e, e ≠ RecvLoop.running ∧ e ≠ RecvLoop.killed ∧ p.recv f sender m = { p with recvLoop := e } ∧
      (match m with
        | .EST r v => sender ∈ p.estValues r v
        | .AUX r v => sender ∈ p.auxValues r v
        | .CONF r c => c ∉ confKeys ∨ sender ∈ p.confValues r c)) ∨
    (∃ r v, m = .EST r v ∧ sender ∉ p.estValues r v ∧
      p.recv f sender m = outputEst f r v (relayEst f r v
        { p with estValues := put p.estValues r v (insert sender (p.estValues r v)) })) ∨
    (∃ r v, m = .AUX r v ∧ sender ∉ p.auxValues r v ∧
      p.recv f sender m =
        { p with
          auxValues := put p.auxValues r v (insert sender (p.auxValues r v)), bvSignal := true }) ∨
    (∃ r c, m = .CONF r c ∧ c ∈ confKeys ∧ sender ∉ p.confValues r c ∧
      p.recv f sender m =
        { p with
          confValues := put p.confValues r c (insert sender (p.confValues r c)),
          bvSignal := true }) := by
  cases m with
  | EST r v =>
    by_cases hs : sender ∈ p.estValues r v
    · exact .inl ⟨.redundantMessageError, by decide, by decide, by simp [recv, recvEst, hs], hs⟩
    · exact .inr (.inl ⟨r, v, rfl, hs, by simp [recv, recvEst, hs]⟩)
  | AUX r v =>
    by_cases hs : sender ∈ p.auxValues r v
    · exact .inl ⟨.redundantMessageError, by decide, by decide, by simp [recv, recvAux, hs], hs⟩
    · exact .inr (.inr (.inl ⟨r, v, rfl, hs, by simp [recv, recvAux, hs]⟩))
  | CONF r c =>
    by_cases hc : c ∈ confKeys
    · by_cases hs : sender ∈ p.confValues r c
      · exact .inl ⟨.redundantMessageError, by decide, by decide,
          by simp [recv, handleConfMessages, hs, hc], .inr hs⟩
      · exact .inr (.inr (.inr ⟨r, c, rfl, hc, hs, by simp [recv, handleConfMessages, hs, hc]⟩))
    · exact .inl ⟨.assertionError, by decide, by decide, by simp [recv, handleConfMessages, hc],
        .inl hc⟩

theorem recv_sameMain (f : ℕ) (sender : Fin n) (m : Msg) (p : Party n) :
    p.SameMain (p.recv f sender m) := by
  rcases recv_cases f sender m p with ⟨e, -, -, h, -⟩ | ⟨r, v, -, -, h⟩ | ⟨r, v, -, -, h⟩ |
    ⟨r, c, -, -, -, h⟩ <;> rw [h]
  · exact ⟨rfl, rfl, rfl, rfl, rfl, rfl⟩
  · have h0 : p.SameMain
        { p with estValues := put p.estValues r v (insert sender (p.estValues r v)) } :=
      ⟨rfl, rfl, rfl, rfl, rfl, rfl⟩
    exact (h0.trans (relayEst_sameMain f r v _)).trans (outputEst_sameMain f r v _)
  · exact ⟨rfl, rfl, rfl, rfl, rfl, rfl⟩
  · exact ⟨rfl, rfl, rfl, rfl, rfl, rfl⟩

/-- the one message that the receive loop sends is a relay -/
theorem recv_trace (f : ℕ) (sender : Fin n) (m : Msg) (p : Party n) :
    (p.recv f sender m).trace = p.trace ∨
    ∃ r v, (p.recv f sender m).trace = .broadcast (.EST r v) :: p.trace ∧
      p.estSent r v = false ∧ (p.recv f sender m).estSent r v = true ∧
      f + 1 ≤ ((p.recv f sender m).estValues r v).card := by
  rcases recv_cases f sender m p with ⟨e, -, -, h, -⟩ | ⟨r, v, -, -, h⟩ | ⟨r, v, -, -, h⟩ |
    ⟨r, c, -, -, -, h⟩ <;> rw [h]
  · exact .inl rfl
  · simp only [outputEst_trace, outputEst_estSent, outputEst_estValues, relayEst_estValues]
    unfold relayEst
    split
    · next hc =>
      exact .inr ⟨r, v, rfl, hc.2, by simp [broadcast, emit, put_apply], hc.1⟩
    · exact .inl rfl
  · exact .inl rfl
  · exact .inl rfl

/-! ## the tables -/

/-- the message `m` of `sender` is in its table -/
def Entered (p : Party n) (sender : Fin n) : Msg → Prop
  | .EST r v => sender ∈ p.estValues r v
  | .AUX r v => sender ∈ p.auxValues r v
  | .CONF r c => sender ∈ p.confValues r c

theorem Entered.mono {p p' : Party n} (h : p.Grows p') {sender : Fin n} {m : Msg}
    (hm : p.Entered sender m) : p'.Entered sender m := by
  cases m with
  | EST r v => exact h.est r v hm
  | AUX r v => exact h.aux r v hm
  | CONF r c => exact h.conf r c hm

theorem mem_put {β : Type} [DecidableEq β] {table : ℤ → β → Finset (Fin n)} {r r' : ℤ}
    {v v' : β} {b b' : Fin n} (h : b' ∈ put table r v (insert b (table r v)) r' v') :
    b' ∈ table r' v' ∨ b' = b ∧ r' = r ∧ v' = v := by
  rw [put_apply] at h
  split at h
  · next hrv =>
    rcases Finset.mem_insert.mp h with hb | hb
    · exact .inr ⟨hb, hrv⟩
    · rw [hrv.1, hrv.2]; exact .inl hb
  · exact .inl h

/-- the one entry that the arrival of a message makes -/
theorem entered_recv {f : ℕ} {sender b : Fin n} {m m' : Msg} {p : Party n}
    (h : (p.recv f sender m).Entered b m') :
    p.Entered b m' ∨ b = sender ∧ m' = m ∧ m.wellFormed = true := by
  rcases recv_cases f sender m p with ⟨e, -, -, he, -⟩ | ⟨r, v, rfl, -, he⟩ | ⟨r, v, rfl, -, he⟩ |
    ⟨r, c, rfl, hc, -, he⟩ <;> rw [he] at h
  · cases m' <;> exact .inl h
  · cases m' with
    | EST r' v' =>
      rw [Entered, outputEst_estValues, relayEst_estValues] at h
      exact (mem_put h).imp id fun hnew => ⟨hnew.1, by rw [hnew.2.1, hnew.2.2], rfl⟩
    | AUX r' v' =>
      rw [Entered, outputEst_auxValues, relayEst_auxValues] at h
      exact .inl h
    | CONF r' c' =>
      rw [Entered, outputEst_confValues, relayEst_confValues] at h
      exact .inl h
  · cases m' with
    | EST r' v' => exact .inl h
    | AUX r' v' =>
      exact (mem_put h).imp id fun hnew => ⟨hnew.1, by rw [hnew.2.1, hnew.2.2], rfl⟩
    | CONF r' c' => exact .inl h
  · cases m' with
    | EST r' v' => exact .inl h
    | AUX r' v' => exact .inl h
    | CONF r' c' =>
      exact (mem_put h).imp id fun hnew =>
        ⟨hnew.1, by rw [hnew.2.1, hnew.2.2], decide_eq_true hc⟩

/-- entries of the trace are put at its front, when a message arrives -/
theorem recv_suffix (f : ℕ) (sender : Fin n) (m : Msg) (p : Party n) :
    p.trace <:+ (p.recv f sender m).trace := by
  rcases recv_trace f sender m p with ht | ⟨r, v, ht, -⟩
  · rw [ht]
  · rw [ht]
    exact List.suffix_cons _ _

/-- and when the call acts -/
theorem act_suffix {f : ℕ} {a : Act} {p p' : Party n} (h : p.act f a = some p') :
    p.trace <:+ p'.trace := by
  rcases act_cases h with ⟨v, -, -, rfl⟩ | ⟨-, -, rfl⟩ | ⟨-, -, rfl⟩ | ⟨-, -, rfl⟩ | ⟨-, -, rfl⟩ |
    ⟨V, s, -, -, rfl⟩
  · exact List.suffix_refl _
  · unfold startRound
    dsimp only
    split
    · exact (List.suffix_cons _ _).trans (List.suffix_cons _ _)
    · exact List.suffix_cons _ _
  · unfold checkBin
    split
    · exact List.suffix_refl _
    · exact List.suffix_cons _ _
  · unfold checkAux
    split
    · exact List.suffix_refl _
    · split <;> exact List.suffix_cons _ _
  · unfold checkConf
    split
    · exact List.suffix_refl _
    · exact (List.suffix_cons _ _).trans (List.suffix_cons _ _)
  · unfold afterCoin
    dsimp only
    split
    · exact List.suffix_cons _ _
    · split
      · exact List.suffix_cons _ _
      · exact (List.suffix_cons _ _).trans (List.suffix_cons _ _)

end Party
end BA
