import HoneyBadgerBFT.HoneyBadger.Ledger
import HoneyBadgerBFT.HoneyBadgerBlock.Robust
import HoneyBadgerBFT.ReliableBroadcast.Broadcast

/-!
# HoneyBadgerBFT: what is in a block

Every call of `_run_round` proposes one transaction, the first of the buffer, and the filter at the
end of a round never takes it out: it is the first one that was submitted (`Proposes`).  An entry of
an honest party in the tuple of the common subset is its proposal (`entry_of_honest`).

* `reached_proposes`   every round proposes the first transaction ever submitted;
* `block_includes`     a block is made of these, and of at most `f` other plaintexts.
-/

namespace HoneyBadger
open Async Trans Party

variable {C : Committee} {S : Setup C} {r : ℤ} {pid : Fin C.N}

/-! ## proposals -/

/-- the call `x` proposes the transaction `tx` -/
def Round.Proposed (S : Setup C) (x : S.Call) (tx : Str) : Prop :=
  ∃ key rnd iv, x.toAcs = Block.propose S.tpke.packages S.pickle S.tpke.ePK tx key rnd iv

/-- the buffer holds all that was submitted, and every round has proposed the first of it -/
structure Proposes (o : S.Obj) : Prop where
  buffer : o.hb.transactionBuffer = o.submitted
  proposed : ∀ r x, o.rounds r = some x →
    ∃ tx, o.submitted.head? = some tx ∧ Round.Proposed S x tx

theorem start_head {N B : ℕ} {M : Type} {p : Party N M} {tx : Str}
    (h : (p.start B).main = .inRound tx) : p.transactionBuffer.head? = some tx := by
  have hhead : (p.transactionBuffer.take B).head? = some tx := by
    unfold start at h
    cases htake : p.transactionBuffer.take B with
    | nil => cases hq : p.perRoundRecv p.round <;> simp [hq, htake] at h
    | cons tx' rest =>
      cases hq : p.perRoundRecv p.round <;> simp only [hq, htake] at h <;> cases h <;> rfl
  rw [List.head?_take] at hhead
  split at hhead
  · cases hhead
  · exact hhead

/-- a transaction is put on the buffer when it is submitted, and stays there -/
theorem next_submission {N B : ℕ} {M : Type} {p p' : Party N M} {b : Act N M}
    (h : p.next B b = some p') : p'.transactionBuffer = p.transactionBuffer ++ b.submission.toList := by
  obtain ⟨x, hx, rfl⟩ := next_cases h
  show x.transactionBuffer = _
  rw [(act_buffer hx).1]
  cases b with
  | submit tx => rfl
  | _ => exact (List.append_nil _).symm

theorem head?_append_some {α : Type} {l l' : List α} {a : α} (h : l.head? = some a) :
    (l ++ l').head? = some a := by
  cases l with
  | nil => cases h
  | cons b l => exact h

/-- an action of `run` -/
theorem Proposes.run {o u : S.Obj} (h : Proposes o) {b : Act C.N S.Data}
    (hn : o.hb.next S.B b = some u.hb)
    (hu : ∀ r x, u.rounds r = some x → o.rounds r = some x ∨
      ∃ tx, u.hb.transactionBuffer.head? = some tx ∧ Round.Proposed S x tx) : Proposes u := by
  have hsub : u.submitted = o.submitted ++ b.submission.toList := next_filterMap hn Act.submission
  have hbuf : u.hb.transactionBuffer = u.submitted := by
    rw [hsub, ← h.buffer]
    exact next_submission hn
  refine ⟨hbuf, fun r x hx => ?_⟩
  rcases hu r x hx with hold | hnew
  · obtain ⟨tx, hhead, hprop⟩ := h.proposed r x hold
    exact ⟨tx, hsub ▸ head?_append_some hhead, hprop⟩
  · rwa [hbuf] at hnew

theorem Proposes.setRound {o : S.Obj} (h : Proposes o) {x y : S.Call} (hx : o.rounds r = some x)
    (hy : y.toAcs = x.toAcs) : Proposes (o.setRound r y) := by
  refine ⟨h.buffer, fun r' z hz => ?_⟩
  rcases setRound_rounds hz with ⟨rfl, rfl⟩ | ⟨-, hz⟩
  · obtain ⟨tx, hhead, key, rnd, iv, hprop⟩ := h.proposed r' x hx
    exact ⟨tx, hhead, key, rnd, iv, hy.trans hprop⟩
  · exact h.proposed r' z hz

theorem Proposes.act {o u : S.Obj} (h : Proposes o) {a : Object.Act C.N S.tpke.p}
    (hs : Object.Step S pid o a u) : Proposes u := by
  cases hs with
  | @outer a b hb hab hn hm => exact h.run (u := { o with hb := hb }) hn fun r x hx => .inl hx
  | @started key rnd iv tx hb hn hm =>
    refine h.run hn fun r x hx => ?_
    rcases setRound_rounds hx with ⟨rfl, rfl⟩ | ⟨-, hx⟩
    · refine .inr ⟨tx, ?_, key, rnd, iv, rfl⟩
      have hstart : o.hb.act S.B .start = some (o.hb.start S.B) := if_pos (next_main hn).1
      obtain ⟨z, hz, rfl⟩ := next_cases hn
      obtain rfl := Option.some.inj (hstart.symm.trans hz)
      show (o.hb.start S.B).transactionBuffer.head? = some tx
      rw [start_buffer]
      exact start_head hm
    · exact .inl hx
  | take hx hm hl => exact h.setRound hx (Round.recv_later hl _ _).toAcs
  | inner hx hy => exact h.setRound hx hy.later.toAcs

theorem reached_proposes {nd : Node C.N S.Obj S.Msg} (h : (system S).ReachableAlone pid nd) :
    Proposes nd.st := by
  refine alone_invariant (fun nd : Node C.N S.Obj S.Msg => Proposes nd.st) ?_ ?_ ?_ h
  · exact ⟨rfl, fun _ _ h => by cases h⟩
  · intro src m nd ho hl
    obtain ⟨hb, hn, he⟩ := Object.receive_eq src m hl
    show Proposes (nd.st.receive S src m)
    rw [he]
    exact ho.run (u := { nd.st with hb := hb }) hn fun _ _ h => .inl h
  · exact fun a nd u ho hu => ho.act (Object.act_step hu)

/-- the own broadcast of a party has its proposal -/
theorem reached_input {nd : Node C.N S.Obj S.Msg} (h : (system S).ReachableAlone pid nd) :
    ∀ r x, nd.st.rounds r = some x → ∀ m, (x.rbc pid).m = some m →
      ∃ b, x.toAcs = some b ∧ m = .bytes b := by
  refine rounds_invariant (fun _ x => ∀ m, (x.rbc pid).m = some m →
    ∃ b, x.toAcs = some b ∧ m = .bytes b) (fun _ _ _ _ _ _ h => by cases h) ?_ ?_ h
  · intro r x a y hx hs m hm
    cases hs with
    | @rbcInput b z hb hz =>
      replace hm : (Function.update x.rbc pid z pid).m = some m := hm
      rw [Function.update_self] at hm
      obtain ⟨-, rfl⟩ := RBC.act_cases hz
      refine ⟨b, hb, ?_⟩
      unfold RBC.Party.start at hm
      split at hm
      · obtain ⟨b', hb', rfl⟩ := hx m hm
        rw [Option.some.inj (hb.symm.trans hb')]
      · exact (Option.some.inj hm).symm
    | _ => exact hx m hm
  · intro r x src i m hx hl m' hm'
    rw [(Round.recv_later hl src m).toAcs]
    refine hx m' ?_
    rw [← hm']
    cases i with
    | ACS_RBC j =>
      cases m with
      | rbc m =>
        show _ = (Function.update x.rbc j _ pid).m
        by_cases hj : pid = j
        · subst hj
          rw [Function.update_self]
          exact (RBC.recv_turn pid src m _).m.symm
        · rw [Function.update_of_ne hj]
      | _ => rfl
    | _ => cases m <;> rfl

/-! ## the entries of honest parties -/

/-- no proposal of an honest party is one of those that the broadcasts confuse with another one -/
def NotConfused (S : Setup C) (r : ℤ) (s : State S) : Prop :=
  ∀ j, C.Honest j → ∀ y b, (s j).st.rounds r = some y → y.toAcs = some b →
    ¬ RBC.Confused (C.N - 2 * C.f) b

section
variable {s : State S} (h : Running S s) (hc : NoCollision S r s) (hconf : NotConfused S r s)
include h hc hconf

/-- what an honest leader's broadcast returns is its proposal -/
theorem broadcast_of_honest {q j : Fin C.N} (hq : C.Honest q) (hj : C.Honest j) {v : Bytes}
    (hv : ((rbcSlot S r j).net s q).st.status = .returned v) :
    ∃ y, (s j).st.rounds r = some y ∧ y.toAcs = some v := by
  obtain ⟨m, b, w, w', hm, hb, hw, hd, hw', hsplit⟩ :=
    RBC.returned_of_leader (rbc_reached h r j) S.small (hc j) hj hq hv
  replace hm : ((rbcSlot S r j).net s j).st.m = some m := hm
  cases hy : (s j).st.rounds r with
  | none =>
    rw [net_none hy] at hm
    cases hm
  | some y =>
    rw [net_some hy] at hm
    obtain ⟨b', hto, rfl⟩ := reached_input (reach_alone h j) r y hy m hm
    obtain rfl := Option.some.inj hb
    refine ⟨y, rfl, ?_⟩
    have hsmall := S.small
    have hpos := RBC.K_pos C
    by_contra hne
    have hne : v ≠ b' := fun e => hne (e ▸ hto)
    exact hconf j hj y b' hy hto ((RBC.confused_iff hpos (by omega) hw).mp
      ⟨v, w', hd, hw', hsplit, hne⟩)

/-- **an entry of an honest party is its proposal** -/
theorem entry_of_honest {p j : Fin C.N} (hp : C.Honest p) (hj : C.Honest j)
    {values : Fin C.N → Option Bytes}
    (hm : ((acsSlot S r).net s p).st.main = .returned values) {v : Bytes}
    (hv : values j = some v) : ∃ y, (s j).st.rounds r = some y ∧ y.toAcs = some v := by
  obtain ⟨-, q, hq, hdone⟩ := (ACS.entry_iff (acs_reached h hc) hp hm j v).mp hv
  exact broadcast_of_honest h hc hconf hq hj (net_done h q hdone)

end

/-- the parties whose entries the common subset has let in, by their numbers -/
def entrants (values : Fin C.N → Option Bytes) : List (Fin C.N) :=
  (List.finRange C.N).filter fun j => (values j).isSome

theorem entrants_lt (values : Fin C.N → Option Bytes) : (entrants values).Pairwise (· < ·) :=
  (List.sortedLT_finRange C.N).pairwise.filter _

theorem entrants_card (values : Fin C.N → Option Bytes) (Q : Fin C.N → Prop) [DecidablePred Q] :
    ((entrants values).filter fun j => Q j).length =
      ((Finset.univ.filter fun j => values j ≠ none).filter Q).card := by
  have hnodup : ((entrants values).filter fun j => Q j).Nodup :=
    ((List.nodup_finRange C.N).filter _).filter _
  rw [← List.toFinset_card_of_nodup hnodup]
  congr 1
  ext j
  simp [entrants, Option.isSome_iff_ne_none, and_comm]

/-- what is decrypted stands beside the keys of what it comes from -/
theorem forall₂_present {α β γ : Type} {g : β → Option γ} {values : α → Option β} {l : List α} :
    ∀ {ds : List γ}, (l.filterMap values).mapM g = some ds →
      List.Forall₂ (fun j b => ∃ v, values j = some v ∧ g v = some b)
        (l.filter fun j => (values j).isSome) ds := by
  induction l with
  | nil =>
    intro ds h
    obtain rfl := Option.some.inj h
    exact .nil
  | cons j l ih =>
    intro ds h
    cases hv : values j with
    | none =>
      rw [List.filterMap_cons_none hv] at h
      rw [List.filter_cons_of_neg (by rw [hv]; exact Bool.false_ne_true)]
      exact ih h
    | some v =>
      rw [List.filterMap_cons_some hv, List.mapM_cons] at h
      rw [List.filter_cons_of_pos (by rw [hv]; rfl)]
      obtain ⟨b, hb, h⟩ := Option.bind_eq_some_iff.mp h
      obtain ⟨bs, hbs, h⟩ := Option.bind_eq_some_iff.mp h
      obtain rfl := Option.some.inj h
      exact .cons ⟨v, hv, hb⟩ (ih hbs)

/-- **what a block is made of**: the plaintexts of a block of an honest party come from as many
different parties, at least `N-f`; `N-2f` of these are honest, and the plaintext of an honest one is
the first transaction that was ever submitted to it -/
theorem block_includes (C : Committee) (S : Setup C) (s : State S) (h : Running S s)
    (hc : ∀ r, NoCollision S r s) (hconf : ∀ r, NotConfused S r s) (p : Fin C.N) (hp : C.Honest p)
    (k : ℕ) (ds : List Bytes) (hds : (s p).st.blocks[k]? = some ds) :
    ∃ js : List (Fin C.N), js.Pairwise (· < ·) ∧ C.N - C.f ≤ js.length ∧
      C.N - 2 * C.f ≤ (js.filter fun j => C.Honest j).length ∧
      List.Forall₂ (fun j b => C.Honest j → ∃ tx, (s j).st.submitted.head? = some tx ∧
        encodeUtf8 tx = some b) js ds := by
  obtain ⟨x, hx, hret⟩ := (reached_recorded (reach_alone h p)).returned k ds hds
  obtain ⟨l, -, hl, hblock⟩ := Round.outcome_returned.mp hret
  obtain ⟨values, hm, rfl⟩ := (reached_wired (reach_alone h p) k x hx).vall l hl
  replace hm : ((acsSlot S k).net s p).st.main = .returned values := (net_some hx).symm ▸ hm
  have hplain := Block.plaintexts_of_returned S.tpke.lt S.tpke.dealt hblock
  have hcard := ACS.card_entries (acs_reached h (hc k)) hp hm
  have hvals : (List.ofFn values).filterMap id = (List.finRange C.N).filterMap values := by
    rw [List.ofFn_eq_map, List.filterMap_map]
    rfl
  rw [hvals] at hplain
  refine ⟨entrants values, entrants_lt values, ?_, ?_, (forall₂_present hplain).imp ?_⟩
  · have hall := entrants_card values fun _ => True
    rw [Finset.filter_true, List.filter_eq_self.mpr fun _ _ => decide_eq_true trivial] at hall
    omega
  · rw [entrants_card values fun j => C.Honest j]
    refine Committee.honest_le_card ?_
    have := C.resilient
    omega
  · rintro j b ⟨v, hv, hdec⟩ hhon
    obtain ⟨y, hy, hto⟩ := entry_of_honest h (hc k) (hconf k) hp hhon hm hv
    obtain ⟨tx, hhead, key, rnd, iv, hprop⟩ := (reached_proposes (reach_alone h j)).proposed k y hy
    obtain ⟨-, hePK, -⟩ := TPKE.dealer_spec S.tpke.dealt
    rw [hto, hePK] at hprop
    obtain ⟨-, b', hb', hdec'⟩ := Block.propose_spec hprop.symm
    obtain rfl := Option.some.inj (hdec'.symm.trans hdec)
    exact ⟨tx, hhead, hb'⟩

theorem four.notConfused (r : ℤ) (s : State four.setup) : NotConfused four.setup r s := by
  rintro j - y b - - (⟨h, -⟩ | ⟨-, h, -⟩)
  · exact absurd h (by decide)
  · exact absurd h (by decide)

theorem block_includes_four : (four.last 1).st.blocks[0]? = some four.block ∧
    ∃ js : List (Fin Committee.four.N), js.Pairwise (· < ·) ∧ 3 ≤ js.length ∧
      2 ≤ (js.filter fun j => Committee.four.Honest j).length ∧
      List.Forall₂ (fun j b => Committee.four.Honest j → ∃ tx,
        (four.last j).st.submitted.head? = some tx ∧ encodeUtf8 tx = some b) js four.block := by
  have hblock : (four.last 1).st.blocks[0]? = some four.block := by
    rw [(four.evaluated.2.1 1 (.inl rfl)).1]
    rfl
  exact ⟨hblock, block_includes Committee.four four.setup four.last four.running four.noCollision
    (fun r => four.notConfused r four.last) 1 (by decide) 0 _ hblock⟩

end HoneyBadger
