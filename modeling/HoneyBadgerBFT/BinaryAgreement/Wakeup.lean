import HoneyBadgerBFT.BinaryAgreement.Invariant

/-!
# Binary agreement: the event that wakes the main loop

Three waits and three handlers share the event `bv_signal`, and a wait clears it first.  A call on
its own, with any messages and answers in any order (`turn`), is in a wait with the signal unset
only while the test of that wait fails (`Alert`): what leaves the signal unset leaves the tests
alone (`recv_quiet`).
-/

namespace BA
open Trans Party

/-- a turn of the receive loop or a step of the main loop -/
inductive Turn (n : ℕ) where
  | recv (sender : Fin n) (m : Msg)
  | act (a : Party.Act)

namespace Party
variable {n f : ℕ} {p p' : Party n}

def turn (f : ℕ) (p : Party n) : Turn n → Option (Party n)
  | .recv sender m => if p.recvLoop = .running then some (p.recv f sender m) else none
  | .act a => p.act f a

/-- a call that sleeps waits for something that is not there -/
structure Alert (f : ℕ) (p : Party n) : Prop where
  asleep : p.parked = true → p.bvSignal = false → p.Waiting f
  awake : p.parked = true → p.pc = .bin ∨ p.pc = .aux ∨ p.pc = .conf

theorem Alert.of_running (h : p.parked = false) : p.Alert f :=
  ⟨fun hp _ => absurd (h.symm.trans hp) (by decide), fun hp => absurd (h.symm.trans hp) (by decide)⟩

theorem Alert.recv (h : p.Alert f) (sender : Fin n) (m : Msg) : (p.recv f sender m).Alert f := by
  have hs := recv_sameMain f sender m p
  refine ⟨fun hp hb => ?_, fun hp => ?_⟩
  · obtain ⟨h1, h2, h3, h4⟩ := recv_quiet hb
    exact (h.asleep (hs.parked ▸ hp) h1).congr hs.pc hs.r h2 h3 h4
  · rw [hs.pc]
    exact h.awake (hs.parked ▸ hp)

/-- clearing the signal and waiting, at a test that fails -/
theorem Alert.wait (hw : p.Waiting f) : p.wait.Alert f := by
  refine ⟨fun _ _ => hw.congr rfl rfl rfl rfl rfl, fun _ => ?_⟩
  rcases hw.cases with ⟨hpc, -⟩ | ⟨hpc, -⟩ | ⟨hpc, -⟩
  · exact .inl hpc
  · exact .inr (.inl hpc)
  · exact .inr (.inr hpc)

/-- **step lemma, actions**: the main loop goes on, or its test has failed -/
theorem Alert.act (h : p.Alert f) {a : Act} (ha : p.act f a = some p') : p'.Alert f := by
  rcases act_cases ha with ⟨v, -, hpc, rfl⟩ | ⟨hpc, -, rfl⟩ | ⟨hpc, -, rfl⟩ | ⟨hpc, -, rfl⟩ |
    ⟨hpc, -, rfl⟩ | ⟨V, s, hpc, -, rfl⟩
  · have hrun : p.parked = false := not_parked h.awake (by simp [hpc])
    exact .of_running hrun
  · unfold startRound
    dsimp only
    split <;> exact .of_running rfl
  · unfold checkBin
    split
    · next hb =>
      refine .wait ?_
      rw [Waiting, hpc]
      exact hb
    · exact .of_running rfl
  · unfold checkAux
    split
    · next hx =>
      refine .wait ?_
      rw [Waiting, hpc]
      exact hx
    · split <;> exact .of_running rfl
  · unfold checkConf
    split
    · next hx =>
      refine .wait ?_
      rw [Waiting, hpc]
      exact hx
    · exact .of_running rfl
  · have hrun : p.parked = false := not_parked h.awake (by simp [hpc])
    refine .of_running (Eq.trans ?_ hrun)
    unfold afterCoin
    dsimp only
    split
    · rfl
    · split <;> rfl

/-- **run lemma** -/
theorem alert_of_reach (h : Reach (turn f) (fun _ _ => True) (Party.init : Party n) p) :
    p.Alert f := by
  refine h.invariant (Alert f) (fun p e p' hp _ hn => ?_) (.of_running rfl)
  cases e with
  | recv sender m =>
    simp only [turn] at hn
    split at hn
    · obtain rfl := Option.some.inj hn
      exact hp.recv sender m
    · cases hn
  | act a => exact hp.act hn

end Party

/-- **no missed wake-up**: whatever messages have arrived in whatever order, while the main loop is
parked with the signal unset, the condition that it waits for is false -/
theorem no_missed_wakeup (n f : ℕ) (p : Party n)
    (h : Reach (turn f) (fun _ _ => True) Party.init p) (hparked : p.parked = true)
    (hsignal : p.bvSignal = false) :
    (p.pc = .bin ∧ p.binValues p.r = ∅) ∨
    (p.pc = .aux ∧
      ¬ (true ∈ p.binValues p.r ∧ n - f ≤ (p.auxValues p.r true).card) ∧
      ¬ (false ∈ p.binValues p.r ∧ n - f ≤ (p.auxValues p.r false).card) ∧
      ¬ n - f ≤ ∑ v ∈ p.binValues p.r, (p.auxValues p.r v).card) ∨
    (p.pc = .conf ∧
      ¬ (true ∈ p.binValues p.r ∧ n - f ≤ (p.confValues p.r [true]).card) ∧
      ¬ (false ∈ p.binValues p.r ∧ n - f ≤ (p.confValues p.r [false]).card) ∧
      ¬ n - f ≤ p.confSum p.r) := by
  rcases ((alert_of_reach h).asleep hparked hsignal).cases with ⟨hpc, hb⟩ | ⟨hpc, hx⟩ | ⟨hpc, hx⟩
  · exact .inl ⟨hpc, hb⟩
  · exact .inr (.inl ⟨hpc, auxExit_eq_none.mp hx⟩)
  · exact .inr (.inr ⟨hpc, confExit_eq_none.mp hx⟩)

/-- one of four parties starts with 0 and waits for the first bit -/
theorem no_missed_wakeup_four : ∃ p : Party 4,
    Reach (turn 1) (fun _ _ => True) Party.init p ∧ p.parked = true ∧ p.bvSignal = false ∧
      p.binValues p.r = ∅ := by
  have hexec : (Trans.exec (turn 1) (fun _ _ => true) (Party.init : Party 4)
      [.act (.input false), .recv 3 (.EST 0 true), .act .main, .act .main]).any
      (fun p => decide (p.parked = true ∧ p.bvSignal = false ∧ p.pc = .bin)) = true := by
    decide +kernel
  obtain ⟨p, hp, hgood⟩ := exists_reach_of_exec (fun _ _ _ => trivial) hexec
  obtain ⟨hparked, hsignal, hpc⟩ := of_decide_eq_true hgood
  rcases no_missed_wakeup 4 1 p hp hparked hsignal with ⟨-, h⟩ | ⟨h, -⟩ | ⟨h, -⟩
  · exact ⟨p, hp, hparked, hsignal, h⟩
  · rw [hpc] at h; cases h
  · rw [hpc] at h; cases h

end BA
