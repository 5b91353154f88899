import HoneyBadgerBFT.ReliableBroadcast.Parity
import HoneyBadgerBFT.ReliableBroadcast.Silent
import HoneyBadgerBFT.ReliableBroadcast.Typed

/-!
# Reliable broadcast: messages that crash a call

A Byzantine ECHO or READY message makes an honest call raise if its root hash is a list, or if its
branch, its stripe or its root hash lets `merkleVerify` raise a `TypeError` or a
`UnicodeEncodeError`, which the handler does not catch.  A `str` passes the check if its bytes do,
and then is no stripe for `zfec`.  Nor are the stripes, when two Byzantine parties send some of two
lengths for a root of their own.  These are all: in a run without such messages no honest call raises
(`no_crash`), if the leader's input is one whose padding is read back.
-/

namespace RBC.Raw
open Async Trans

variable {C : Committee} {S : Setup C}

/-! ## the typed run -/

/-- what a carried input is decoded to has the same blocks -/
theorem Carried.exists_same {K : ℕ} (hK : 0 < K) (h256 : K ≤ 256) {m : Text} (h : Carried K m) :
    ∃ b w v w', m.toBytes = some b ∧ padded K b = some w ∧ unsplit K w = some v ∧
      padded K v = some w' ∧ split K w' = split K w := by
  obtain ⟨b, hb, hcases⟩ := h
  obtain ⟨w, hw, -⟩ := padded_of_le hK h256 b
  rcases hcases with hres | hconf
  · refine ⟨b, w, b, w, hb, hw, ?_, hw, rfl⟩
    rw [unsplit, flatten_split_padded hK h256 hw]
    exact (unpad_fill_iff h256 rfl (Nat.mod_lt _ hK)).mpr hres
  · obtain ⟨v, w', hv, hw', hsame, -⟩ := (confused_iff hK h256 hw).mpr hconf
    exact ⟨b, w, v, w', hb, hw, hv, hw', hsame⟩

section
variable {t : RBC.State C} (h : (RBC.protocol S).Reachable (fun _ => true) InputCarried t)
  (hl : C.Honest S.leader) (hN : C.N ≤ 256)
include h hN

/-- the leader waits for its input, or has a carried one -/
theorem leader_input : ((t S.leader).st.m = none → (t S.leader).st.status = .input) ∧
    ∀ m, (t S.leader).st.m = some m → Carried (C.N - 2 * C.f) m := by
  refine Reach.invariant (fun t : RBC.State C =>
    ((t S.leader).st.m = none → (t S.leader).st.status = .input) ∧
      ∀ m, (t S.leader).st.m = some m → Carried (C.N - 2 * C.f) m) ?_ h ⟨fun _ => if_pos rfl, ?_⟩
  · intro t e t' ⟨hin, hcar⟩ hok hn
    rcases next_at hn S.leader with heq | ⟨src, m, -, -, hrun, -, heq⟩ | ⟨m, y, rfl, -, hy, heq⟩ <;>
      rw [heq]
    · exact ⟨hin, hcar⟩
    · show ((RBC.Party.recv S S.leader src m (t S.leader).st).m = none → _) ∧
        ∀ m', (RBC.Party.recv S S.leader src m (t S.leader).st).m = some m' → _
      rw [(recv_turn S.leader src m (t S.leader).st).m]
      refine ⟨fun hnone => ?_, hcar⟩
      have hrun := of_decide_eq_true hrun
      rw [hin hnone] at hrun
      cases hrun
    · obtain ⟨-, rfl⟩ := act_cases hy
      have hcar' : Carried (C.N - 2 * C.f) m := hok
      obtain ⟨b, w, -, -, hb, hw, -⟩ := hcar'.exists_same (K_pos C) (by omega)
      have hstart := encode_bytes S.zfec (by omega) hb hw
      unfold RBC.Party.start
      rw [hstart]
      refine ⟨(fun hnone => by cases hnone), fun m' hm' => ?_⟩
      obtain rfl := Option.some.inj hm'
      exact hcar'
  · intro m hm
    cases hm

include hl

/-- **the typed calls**: none raises -/
theorem not_raised (hinj : Set.InjOn S.H.hash (RBC.hashedIn t)) {q : Fin C.N} (hq : C.Honest q) :
    (t q).st.status ≠ .raised := by
  intro hraised
  have hreach : RBC.Reached S t := Reach.mono (fun _ _ _ => trivial) h
  obtain ⟨hin, hcar⟩ := leader_input h hN
  rcases (reached_call S hreach q hq).outcome.raised hraised with ⟨rfl, hnone⟩ | ⟨r, hc, hno⟩
  · rw [hin hnone] at hraised
    cases hraised
  · obtain ⟨m, code, hm, hcode, rfl⟩ := root_of_complete hreach hl hq hc
    obtain ⟨b, w, v, w', hb, hw, hv, hw', hsame⟩ :=
      (hcar m hm).exists_same (K_pos C) (by omega)
    obtain ⟨b', w₀, hb', hw₀, rfl⟩ := encode_eq_some hcode
    obtain rfl := Option.some.inj (hb.symm.trans hb')
    obtain rfl := Option.some.inj (hw.symm.trans hw₀)
    have hdec := decode_stripes hreach hinj hN hcode (treeHashed_leader hreach hl hm hcode) hb hw hq
    rw [if_pos hc.2, hv] at hdec
    refine hno v ⟨hdec, _, encode_bytes S.zfec (by omega) rfl hw', ?_⟩
    rw [hsame]

end

/-! ## the stripes -/

/-- byte strings of one length -/
def OneLength {n : ℕ} (stripes : Fin n → Option PyVal) : Prop :=
  ∃ step, ∀ i y, stripes i = some y → ∃ b, y = .bytes b ∧ b.length = step

/-- the stripes of Byzantine parties only -/
def ByzOneLength (x : Party C.N) : Prop :=
  ∀ k, (∀ i, x.stripes k i ≠ none → ¬ C.Honest i) → OneLength (x.stripes k)

theorem oneLength_of_fits {x : Party C.N} {k : PyVal} {b : Bytes} (h : Fits C x k (.bytes b))
    (src : Fin C.N) {st : Fin C.N → Option PyVal} (hbyz : ∀ i, st i ≠ none → ¬ C.Honest i)
    (hst : ∀ i, st i = if i = src then some (.bytes b) else x.stripes k i) : OneLength st := by
  refine ⟨b.length, fun i y hy => ?_⟩
  have hi := hbyz i (Option.ne_none_iff_exists'.mpr ⟨y, hy⟩)
  rw [hst] at hy
  split at hy
  · obtain rfl := Option.some.inj hy
    exact ⟨b, rfl, rfl⟩
  · have hlen := h.2 i hi y hy
    obtain ⟨b', hb', hlen⟩ := Option.map_eq_some_iff.mp hlen
    exact ⟨b', PyVal.asBytes_eq_some.mp hb', hlen⟩

theorem byz_recv {x : Party C.N} (h : ByzOneLength x) {pid src : Fin C.N} {m : Msg}
    (hm : C.Honest src ∨ Harmless S x src m) : ByzOneLength (x.recv S pid src m) := by
  intro k hk
  rcases Party.recv_stripes S x pid src m with
    heq | ⟨k₀, branch, stripe, rfl, hnew, hv, heq⟩
  · rw [heq] at hk ⊢
    exact h k hk
  · by_cases hkk : k = k₀
    · subst hkk
      have hsrc : ¬ C.Honest src := by
        refine hk src ?_
        rw [heq, if_pos ⟨rfl, rfl⟩]
        exact Option.some_ne_none _
      have hfits := ((hm.resolve_left hsrc).2.resolve_left hnew).2 hv
      obtain ⟨b, rfl⟩ := bytes_of_verified S.H hv hfits.1
      refine oneLength_of_fits hfits src hk fun i => ?_
      rw [heq]
      exact if_congr (and_iff_right rfl) rfl rfl
    · have hsame : (x.recv S pid src (.ECHO k₀ branch stripe)).stripes k = x.stripes k := by
        funext i
        rw [heq, if_neg fun e => hkk e.1]
      rw [hsame] at hk ⊢
      exact h k hk

theorem reached_byz {s : State C} (h : Reached S (Guarded S) s) (q : Fin C.N) :
    ByzOneLength (s q).st := by
  refine Reach.invariant (fun s : State C => ByzOneLength (s q).st) ?_ h
    fun k _ => ⟨0, fun i y hy => ?_⟩
  · intro s e s' hs hok hn
    rcases next_at hn q with heq | ⟨src, m, rfl, -, -, -, heq⟩ | ⟨m, x, rfl, -, hx, heq⟩ <;>
      rw [heq]
    · exact hs
    · exact byz_recv hs hok
    · have hst : x.stripes = (s q).st.stripes := by
        change (s q).st.act S m = some x at hx
        unfold Party.act at hx
        split at hx
        · obtain rfl := Option.some.inj hx
          unfold Party.start
          split <;> rfl
        · cases hx
      intro k hk
      show OneLength (x.stripes k)
      replace hk : ∀ i, x.stripes k i ≠ none → ¬ C.Honest i := hk
      rw [hst] at hk ⊢
      exact hs k hk
  · cases hy

/-- the stripes that `encode` gives for blocks of one length have this length -/
def SameSize {K N : ℕ} (z : Zfec K N) : Prop :=
  ∀ (blocks : List Bytes) (step : ℕ), blocks.length = K → (∀ b ∈ blocks, b.length = step) →
    ∀ x ∈ z.encode blocks, x.length = step

/-- the stripes of a root that an honest party has sent in an ECHO message -/
theorem oneLength_of_honest (hz : SameSize S.zfec) (hl : C.Honest S.leader) (hN : C.N ≤ 256)
    {t : RBC.State C} (h : RBC.Reached S t) (hinj : Set.InjOn S.H.hash (RBC.hashedIn t))
    {x : Party C.N} {q : Fin C.N} (hq : C.Honest q) (hlike : Like (t q).st x) {k : PyVal}
    {i : Fin C.N} (hi : C.Honest i) (hk : x.stripes k i ≠ none) : OneLength (x.stripes k) := by
  cases hkey : k.asBytes with
  | none => exact absurd (hlike.stripes_other k hkey i) hk
  | some r =>
    obtain rfl := PyVal.asBytes_eq_some.mp hkey
    rw [hlike.stripes, Ne, Option.map_eq_none_iff] at hk
    obtain ⟨b, hb⟩ := Option.ne_none_iff_exists'.mp hk
    obtain ⟨br, hsent⟩ := echo_of_stripe h hq hi hb
    obtain ⟨m, code, hm, hcode, rfl⟩ := root_of_echo h hl hi hsent
    have hlen := code_length hN hcode
    have hpart := partOf_code h hinj hlen (treeHashed_leader h hl hm hcode) hq
    obtain ⟨-, w, -, -, rfl⟩ := encode_eq_some hcode
    refine ⟨w.length / (C.N - 2 * C.f), fun j y hy => ?_⟩
    rw [hlike.stripes] at hy
    obtain ⟨b', hb', rfl⟩ := Option.map_eq_some_iff.mp hy
    refine ⟨b', rfl, ?_⟩
    have hj : j.val < (S.zfec.encode (split (C.N - 2 * C.f) w)).length := by
      rw [hlen]
      exact j.isLt
    rw [← hpart j b' hb', List.getD_eq_getElem _ _ hj]
    exact hz _ _ (split_length _ w) (fun _ => length_of_mem_split) _ (List.getElem_mem hj)

/-! ## no crash -/

/-- the call has not raised, and the stripes of every root can be given to `zfec` -/
def Fine (x : Party C.N) : Prop := x.status ≠ .raised ∧ ∀ k, OneLength (x.stripes k)

/-- two strings that honest calls have hashed have one digest -/
def Collision (S : Setup C) (s : State C) : Prop :=
  ∃ x ∈ hashedIn s, ∃ y ∈ hashedIn s, x ≠ y ∧ S.H.hash x = S.H.hash y

/-- the message is not redundant, an ECHO message passes `merkleVerify`, and the message is in the
tables after it -/
def Accepted (S : Setup C) (src : Fin C.N) (x x' : Party C.N) : Msg → Prop
  | .VAL _ _ _ => False
  | .ECHO roothash branch stripe => ¬ x.HasEcho src roothash ∧
      merkleVerifyVal S.H C.N stripe roothash branch src = .ok true ∧
      x'.stripes roothash src = some stripe
  | .READY roothash => ¬ x.HasReady src roothash ∧ src ∈ x'.ready roothash

/-- **guarded runs** -/
theorem fine_of_guarded (hz : SameSize S.zfec) (hl : C.Honest S.leader) (hN : C.N ≤ 256)
    {s : State C} (h : Reached S (Guarded S) s) :
    (∀ q, C.Honest q → Fine (s q).st) ∨ Collision S s := by
  obtain ⟨t, ht, hfol⟩ := exists_typed hl h
  have hreach : RBC.Reached S t := Reach.mono (fun _ _ _ => trivial) ht
  have hsub : RBC.hashedIn t ⊆ hashedIn s := by
    rintro x ⟨p, hp, hx⟩
    exact ⟨p, hp, (hfol.like p hp).hashed hx⟩
  by_cases hinj : Set.InjOn S.H.hash (hashedIn s)
  · refine .inl fun q hq => ⟨?_, fun k => ?_⟩
    · rw [(hfol.like q hq).status]
      exact not_raised ht hl hN (hinj.mono hsub) hq
    · by_cases hbyz : ∀ i, (s q).st.stripes k i ≠ none → ¬ C.Honest i
      · exact reached_byz h q k hbyz
      · push Not at hbyz
        obtain ⟨i, hk, hi⟩ := hbyz
        exact oneLength_of_honest hz hl hN hreach (hinj.mono hsub) hq (hfol.like q hq) hi hk
  · unfold Set.InjOn at hinj
    push Not at hinj
    obtain ⟨x, hx, y, hy, he, hne⟩ := hinj
    exact .inr ⟨x, hx, y, hy, hne, he⟩

section
variable {x : Party C.N} {pid src : Fin C.N} {m : Msg}

/-- **a message that is not harmless** makes the call raise, or brings a stripe that does not fit -/
theorem harmless_of_fine (h : Fine (x.recv S pid src m)) : Harmless S x src m := by
  cases m with
  | VAL k branch stripe => trivial
  | ECHO k branch stripe =>
    change Fine (x.recvEcho S src k branch stripe) at h
    rcases Party.recvEcho_cases S x src k branch stripe with
      ⟨-, hs, heq⟩ | ⟨hkey, hskip, -⟩ | ⟨hkey, hnew, hv, heq⟩
    · rw [heq] at h
      exact absurd rfl h.1
    · exact ⟨hkey, hskip.imp_right fun hc => ⟨hc.1, fun hv => absurd hv hc.2⟩⟩
    · have hcheck : checkable C.N stripe k branch = true := by
        refine eq_true_of_ne_false fun hc => ?_
        rw [(verify_raises_iff S.H).mpr hc] at hv
        cases hv
      rw [heq] at h
      obtain ⟨step, hstep⟩ := h.2 k
      simp only [Party.takeEcho_stripes, true_and] at hstep
      obtain ⟨b, rfl, rfl⟩ := hstep src stripe (if_pos rfl)
      refine ⟨hkey, .inr ⟨hcheck, fun _ => ⟨rfl, fun i _ y hy => ?_⟩⟩⟩
      have hne : i ≠ src := by
        rintro rfl
        exact hnew (.inl (Option.ne_none_iff_exists'.mpr ⟨y, hy⟩))
      obtain ⟨b', rfl, hlen⟩ := hstep i y ((if_neg hne).trans hy)
      exact congrArg some hlen
  | READY k =>
    change Fine (x.recvReady S src k) at h
    rcases Party.recvReady_cases S x src k with
      ⟨-, heq⟩ | ⟨hkey, -⟩ | ⟨hkey, -⟩
    · rw [heq] at h
      exact absurd rfl h.1
    · exact hkey
    · exact hkey

/-- **a text stripe** whose bytes pass the check gets in, or the message makes the call raise -/
theorem str_not_fine {s : List ℕ} {b : Bytes} (hs : encodeUtf8 s = some b) {k branch : PyVal}
    (hnew : ¬ x.HasEcho src k)
    (hv : merkleVerifyVal S.H C.N (.bytes b) k branch src = .ok true) :
    ¬ Fine (x.recv S pid src (.ECHO k branch (.str s))) := by
  intro hfine
  obtain ⟨-, hok⟩ := harmless_of_fine hfine
  cases ((hok.resolve_left hnew).2 ((verify_str S.H hs).trans hv)).1

/-- **a harmless message** is skipped with the state unchanged, or gets in after its check -/
theorem skipped_or_accepted (hsrc : src ≠ S.leader) (hm : Harmless S x src m) :
    (∃ hs, x.recv S pid src m = x.hash hs) ∨ Accepted S src x (x.recv S pid src m) m := by
  cases m with
  | VAL k branch stripe => exact .inl ⟨[], Party.recvVal_of_ne hsrc⟩
  | ECHO k branch stripe =>
    rcases hm.echo with hskip | ⟨hnew, hv, -, heq⟩
    · exact .inl hskip
    · refine .inr ⟨hnew, hv, ?_⟩
      show (x.recvEcho S src k branch stripe).stripes k src = _
      rw [heq, Party.takeEcho_stripes, if_pos ⟨rfl, rfl⟩]
  | READY k =>
    rcases hm.ready with heq | ⟨hnew, heq⟩
    · exact .inl ⟨[], heq⟩
    · refine .inr ⟨hnew, ?_⟩
      show src ∈ (x.recvReady S src k).ready k
      rw [heq]
      exact Party.mem_takeReady

end

/-! ## four parties -/

namespace four

/-- the leader is the party 0 -/
def setup : Setup Committee.four := ⟨0, Zfec.twoOfFour, sha⟩

theorem sameSize : SameSize setup.zfec := by
  intro blocks step hlen hstep x hx
  obtain ⟨p, q, rfl⟩ := List.length_eq_two.mp hlen
  obtain ⟨i, -, rfl⟩ := List.mem_map.mp hx
  rw [List.length_zipWith, hstep p List.mem_cons_self,
    hstep q (List.mem_cons_of_mem _ List.mem_cons_self), min_self]

/-- the leader gets its input; three messages of the party 3, to the party 1, are harmless: the root of
the last one is printed -/
def run : List (Lbl Committee.four) :=
  [.act 0 (.str [0x68, 0xE9]), .deliver 1 3 (.READY .none),
    .deliver 1 3 (.ECHO (.str [0x68]) (.list [.none]) (.bytes [1])),
    .deliver 1 3 (.ECHO (.str [0x68]) (.list [.bytes [], .bytes []]) (.bytes [1]))]

/-- the test of a step of it -/
def guarded (s : State Committee.four) : Lbl Committee.four → Bool
  | .deliver dst src m => decide (Harmless setup (s dst).st src m)
  | .act _ m => m.toBytes.isSome

theorem guarded_spec (s : State Committee.four) (e : Lbl Committee.four)
    (h : guarded s e = true) : Guarded setup s e := by
  cases e with
  | deliver dst src m => exact .inr (of_decide_eq_true h)
  | act p m =>
    obtain ⟨b, hb⟩ := Option.isSome_iff_exists.mp h
    have hlt := Nat.mod_lt b.length (K_pos Committee.four)
    exact ⟨b, hb, .inl (.inl (hlt.trans (by decide)))⟩

end four

/-- **no crash**: in a run whose Byzantine messages are harmless and whose leader has a carried
input, no honest call raises and the stripes of every root can be given to `zfec`, unless two strings
hashed in the run have the same digest; a harmless message is skipped or accepted, and no other
message leaves the call like this -/
theorem no_crash (C : Committee) (hN : C.N ≤ 256) (S : Setup C) (hz : SameSize S.zfec)
    (hl : C.Honest S.leader) (s : State C) (h : Reached S (Guarded S) s) :
    ((∀ q, C.Honest q → Fine (s q).st) ∨ Collision S s) ∧
    ∀ q src m t, ¬ C.Honest src →
      (protocol S).next (fun _ => true) s (.deliver q src m) = some t →
        ((Fine (t q).st ↔ Harmless S (s q).st src m) ∨ Collision S t) ∧
        (Harmless S (s q).st src m →
          (∃ hs, (t q).st = (s q).st.hash hs) ∨ Accepted S src (s q).st (t q).st m) := by
  refine ⟨fine_of_guarded hz hl hN h, fun q src m t hsrc hn => ?_⟩
  have hne : src ≠ S.leader := by
    rintro rfl
    exact hsrc hl
  obtain ⟨hq, hst⟩ : C.Honest q ∧ (t q).st = (s q).st.recv S q src m := by
    rcases next_cases hn with ⟨dst, src', m', he, hd, -, -, rfl⟩ | ⟨p, a, x, he, -⟩ <;> cases he
    refine ⟨hd, ?_⟩
    rw [Function.update_self]
    rfl
  constructor
  · by_cases hm : Harmless S (s q).st src m
    · have hok : Guarded S s (.deliver q src m) := Or.inr hm
      have ht : Reached S (Guarded S) t := Reach.tail h ⟨_, hok, hn⟩
      exact (fine_of_guarded hz hl hN ht).imp_left fun hfine => iff_of_true (hfine q hq) hm
    · exact .inl (iff_of_false (fun hfine => hm (harmless_of_fine (hst ▸ hfine))) hm)
  · rw [hst]
    exact skipped_or_accepted hne

theorem no_crash_four : ∃ s : State Committee.four, Reached four.setup (Guarded four.setup) s ∧
    (s 0).st.m = some (.str [0x68, 0xE9]) ∧ 3 ∈ (s 1).st.readySenders ∧
    ((∀ q, Committee.four.Honest q → Fine (s q).st) ∨ Collision four.setup s) := by
  have hexec : (exec ((protocol four.setup).next fun _ => true) four.guarded
      (protocol four.setup).start four.run).any (fun s =>
        (s 0).st.m == some (.str [0x68, 0xE9]) && decide (3 ∈ (s 1).st.readySenders)) = true := by
    decide +kernel
  obtain ⟨s, hs, hgood⟩ := exists_reach_of_exec four.guarded_spec hexec
  simp only [Bool.and_eq_true, beq_iff_eq, decide_eq_true_eq] at hgood
  exact ⟨s, hs, hgood.1, hgood.2, (no_crash Committee.four (by decide) four.setup four.sameSize
    (by decide) s hs).1⟩

/-- READY with a list for its root hash, from the party 3 to the party 1 -/
theorem list_crashes : ¬ ∀ (C : Committee) (S : Setup C) (s : State C), C.N ≤ 256 →
    SameSize S.zfec → C.Honest S.leader → Reached S (fun _ _ => True) s → ¬ Collision S s →
      ∀ q, C.Honest q → Fine (s q).st := by
  intro hclaim
  let s₀ : State Committee.four := (protocol four.setup).start
  have hn : (protocol four.setup).next (fun _ => true) s₀ (.deliver 1 3 (.READY (.list []))) =
      some (Function.update s₀ 1 ⟨(s₀ 1).st.raised, [(3, .READY (.list []))]⟩) := rfl
  have hreach : Reached four.setup (fun _ _ => True) _ := (Reach.refl s₀).tail ⟨_, trivial, hn⟩
  have hfine := hclaim Committee.four four.setup _ (by decide) four.sameSize (by decide) hreach ?_ 1
    (by decide)
  · rw [Function.update_self] at hfine
    exact hfine.1 rfl
  · rintro ⟨x, ⟨p, hp, hx⟩, -⟩
    by_cases h1 : p = 1
    · rw [h1, Function.update_self] at hx
      cases hx
    · rw [Function.update_of_ne h1] at hx
      cases hx

end RBC.Raw
