import HoneyBadgerBFT.BinaryAgreement.Rounds

/-!
# Binary agreement: what arrives is taken in

When Byzantine parties send each message at most once, no message of a run is redundant: honest
parties broadcast nothing twice.  So the receive loop of an honest call never dies of an exception,
and its tables hold every message that has arrived (`reached_kept`).
-/

namespace BA
open Async Trans Party

variable {C : Committee} {s t : State C}

theorem mem_put_self {n : ℕ} {β : Type} [DecidableEq β] (table : ℤ → β → Finset (Fin n)) (r : ℤ)
    (v : β) (b : Fin n) : b ∈ put table r v (insert b (table r v)) r v := by
  rw [put_apply, if_pos ⟨rfl, rfl⟩]
  exact Finset.mem_insert_self ..

/-- a well-formed message that is new is taken in -/
theorem recv_entered {n : ℕ} (f : ℕ) {sender : Fin n} {m : Msg} {p : Party n}
    (hnew : ¬ p.Entered sender m) (hwf : m.wellFormed = true) :
    (p.recv f sender m).recvLoop = p.recvLoop ∧ (p.recv f sender m).Entered sender m := by
  rcases recv_cases f sender m p with ⟨e, -, -, -, hold⟩ | ⟨r, v, rfl, -, he⟩ | ⟨r, v, rfl, -, he⟩ |
    ⟨r, c, rfl, -, -, he⟩
  · cases m with
    | EST r v => exact absurd hold hnew
    | AUX r v => exact absurd hold hnew
    | CONF r c =>
      rcases hold with hc | hc
      · exact absurd (of_decide_eq_true hwf) hc
      · exact absurd hc hnew
  · rw [he, Entered, outputEst_recvLoop, relayEst_recvLoop, outputEst_estValues, relayEst_estValues]
    exact ⟨rfl, mem_put_self ..⟩
  · rw [he]
    exact ⟨rfl, mem_put_self ..⟩
  · rw [he]
    exact ⟨rfl, mem_put_self ..⟩

theorem iter_mem_confKeys {B : Finset Bool} (hB : B ≠ ∅) : iter B ∈ confKeys := by
  revert hB
  revert B
  decide

theorem mem_of_mem_iter {B : Finset Bool} {b : Bool} (h : b ∈ iter B) : b ∈ B := by
  revert h
  revert b B
  decide

/-- an honest call sends well-formed messages -/
theorem sent_wellFormed {n f : ℕ} {p : Party n} (h : Call f p) {m : Msg} (hm : m ∈ p.sent) :
    m.wellFormed = true := by
  cases m with
  | EST r v => rfl
  | AUX r v => rfl
  | CONF r c =>
    obtain ⟨B, hB, -, rfl, -⟩ := h.backed _ (mem_sent.mp hm)
    exact decide_eq_true (iter_mem_confKeys hB)

/-- an action leaves the receive loop alone, or kills it -/
theorem act_recvLoop {n f : ℕ} {p p' : Party n} {a : Party.Act} (h : p.act f a = some p') :
    p'.recvLoop = p.recvLoop ∨ p'.recvLoop = .killed := by
  rcases act_cases h with ⟨v, -, -, rfl⟩ | ⟨-, -, rfl⟩ | ⟨-, -, rfl⟩ | ⟨-, -, rfl⟩ | ⟨-, -, rfl⟩ |
    ⟨V, b, -, -, rfl⟩
  · exact .inl rfl
  · unfold startRound; dsimp only; split <;> exact .inl rfl
  · unfold checkBin; split <;> exact .inl rfl
  · unfold checkAux
    split
    · exact .inl rfl
    · split <;> exact .inl rfl
  · unfold checkConf; split <;> exact .inl rfl
  · unfold afterCoin
    dsimp only
    split
    · exact .inr rfl
    · split <;> exact .inl rfl

/-- an honest call takes in whatever arrives -/
structure Kept (nd : Node C.N (Party C.N) Msg) : Prop where
  alive : nd.st.recvLoop = .running ∨ nd.st.recvLoop = .killed
  entered : ∀ b m, (b, m) ∈ nd.rcvd → nd.st.Entered b m

/-- a message in a channel has not arrived before -/
theorem pending_new (h : Reached C AtMostOnce s) {dst src : Fin C.N} {m : Msg}
    (he : AtMostOnce s (.deliver dst src m))
    (hp : (protocol C).pending Msg.wellFormed s dst src m = true) : (src, m) ∉ (s dst).rcvd := by
  by_cases hs : C.Honest src
  · have hlt := pending_honest hs hp
    have hone := List.nodup_iff_count_le_one.mp (reached_call h src hs).nodup m
    intro hmem
    have hpos := List.count_pos_iff.mpr hmem
    replace hlt : _ < (s src).st.sent.count m := hlt
    omega
  · exact he hs

theorem pending_wellFormed {ok : State C → Lbl C → Prop} (h : Reached C ok s) {dst src : Fin C.N}
    {m : Msg} (hp : (protocol C).pending Msg.wellFormed s dst src m = true) :
    m.wellFormed = true := by
  by_cases hs : C.Honest src
  · have hlt := pending_honest hs hp
    exact sent_wellFormed (reached_call h src hs) (List.count_pos_iff.mp (Nat.zero_lt_of_lt hlt))
  · exact pending_byz hs hp

theorem Kept.recv {nd : Node C.N (Party C.N) Msg} (h : Kept nd) (hh : Heard nd) {src : Fin C.N}
    {m : Msg} (hnew : (src, m) ∉ nd.rcvd) (hwf : m.wellFormed = true) :
    Kept ⟨nd.st.recv C.f src m, (src, m) :: nd.rcvd⟩ := by
  obtain ⟨hloop, hent⟩ := recv_entered C.f (fun hm => hnew (hh.arrived hm)) hwf
  refine ⟨by rw [hloop]; exact h.alive, fun b m' hm' => ?_⟩
  rcases List.mem_cons.mp hm' with e | hold
  · cases e; exact hent
  · exact (h.entered b m' hold).mono (recv_grows C.f src m nd.st)

theorem Kept.act {nd : Node C.N (Party C.N) Msg} (h : Kept nd) {a : Party.Act} {x : Party C.N}
    (hx : nd.st.act C.f a = some x) : Kept ⟨x, nd.rcvd⟩ := by
  refine ⟨?_, fun b m hm => (h.entered b m hm).mono (act_grows hx)⟩
  rcases act_recvLoop hx with e | e
  · rw [e]; exact h.alive
  · exact .inr e

/-- **nothing that arrives is lost** -/
theorem reached_kept (h : Reached C AtMostOnce s) : ∀ p, C.Honest p → Kept (s p) := by
  refine Reach.invariant_of_reach (fun s : State C => ∀ p, C.Honest p → Kept (s p))
    (fun s e t hs hk hok hn p hp => ?_) h fun p _ => ⟨.inl rfl, fun b m hm => by cases hm⟩
  rcases next_at hn p with heq | ⟨src, m, rfl, -, -, hpend, heq⟩ | ⟨a, x, -, -, hx, heq⟩ <;>
    rw [heq]
  · exact hk p hp
  · exact (hk p hp).recv (reached_heard hs p hp) (pending_new hs hok hpend)
      (pending_wellFormed hs hpend)
  · exact (hk p hp).act hx

end BA
