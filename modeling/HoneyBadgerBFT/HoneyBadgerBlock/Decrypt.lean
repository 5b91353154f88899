import HoneyBadgerBFT.HoneyBadgerBlock.Block

/-!
# One block of HoneyBadgerBFT: what it decrypts

`plaintext secret v` is what the entry `v` says to someone who knows the master secret.

* `receive_spec`       the vectors that a call uses are the first ones of the first `f+1` senders;
* `decryptFrom_iff`    with the keys of the dealer the second loop gives the plaintexts, or raises;
* `plaintexts_eq_iff`  two loops with different answers of `pickle.loads` give the same.
-/

set_option linter.unusedSectionVars false

namespace Block
open TPKE

/-! ## the vectors that are used -/

section
variable {N f : ℕ} {V : Type} {arrivals l : List (Fin N × V)} {x : Fin N × V}

/-- the senders of a list of vectors -/
def senders (l : List (Fin N × V)) : Finset (Fin N) := (l.map Prod.fst).toFinset

/-- `x` is the first vector of its sender, and at most `f` others have sent one before -/
def Early (f : ℕ) (arrivals : List (Fin N × V)) (x : Fin N × V) : Prop :=
  ∃ l₁ l₂, arrivals = l₁ ++ x :: l₂ ∧ x.1 ∉ senders l₁ ∧ (senders l₁).card ≤ f

theorem Early.mem (h : Early f arrivals x) : x ∈ arrivals := by
  obtain ⟨l₁, l₂, rfl, -⟩ := h
  exact List.mem_append_right _ List.mem_cons_self

theorem Early.of_prefix (hl : l <+: arrivals) (h : Early f l x) : Early f arrivals x := by
  obtain ⟨l₁, l₂, rfl, h1, h2⟩ := h
  obtain ⟨t, rfl⟩ := hl
  exact ⟨l₁, l₂ ++ t, by simp, h1, h2⟩

/-- the same, after the vectors `before` -/
def EarlyAfter (f : ℕ) (before arrivals : List (Fin N × V)) (x : Fin N × V) : Prop :=
  ∃ l₁ l₂, arrivals = l₁ ++ x :: l₂ ∧ x.1 ∉ senders (before ++ l₁) ∧
    (senders (before ++ l₁)).card ≤ f

theorem earlyAfter_cons (before : List (Fin N × V)) (y : Fin N × V) (rest : List (Fin N × V)) :
    EarlyAfter f before (y :: rest) x ↔
      (x = y ∧ y.1 ∉ senders before ∧ (senders before).card ≤ f) ∨
        EarlyAfter f (before ++ [y]) rest x := by
  constructor
  · rintro ⟨l₁, l₂, heq, h1, h2⟩
    rcases List.cons_eq_append_iff.mp heq with ⟨rfl, heq⟩ | ⟨l₁', rfl, rfl⟩
    · obtain ⟨rfl, -⟩ := List.cons.inj heq
      rw [List.append_nil] at h1 h2
      exact .inl ⟨rfl, h1, h2⟩
    · refine .inr ⟨l₁', l₂, rfl, ?_, ?_⟩
      · rwa [List.append_assoc]
      · rwa [List.append_assoc]
  · rintro (⟨rfl, h1, h2⟩ | ⟨l₁, l₂, rfl, h1, h2⟩)
    · exact ⟨[], rest, rfl, by rwa [List.append_nil], by rwa [List.append_nil]⟩
    · rw [List.append_assoc] at h1 h2
      exact ⟨y :: l₁, l₂, rfl, h1, h2⟩

theorem senders_append (l l' : List (Fin N × V)) : senders (l ++ l') = senders l ∪ senders l' := by
  rw [senders, List.map_append, List.toFinset_append]
  rfl

theorem senders_card {received : List (Fin N × V)} (h : (received.map Prod.fst).Nodup) :
    (senders received).card = received.length := by
  rw [senders, List.toFinset_card_of_nodup h, List.length_map]

theorem not_earlyAfter {before : List (Fin N × V)} (h : f < (senders before).card) :
    ¬ EarlyAfter f before arrivals x := by
  rintro ⟨l₁, l₂, -, -, h2⟩
  rw [senders_append] at h2
  have hsub : senders before ⊆ senders before ∪ senders l₁ := Finset.subset_union_left
  have := Finset.card_le_card hsub
  omega

/-- what the loop gives for `arrivals` after the vectors `before`, of which it has kept `received` -/
def Receives (f : ℕ) (before received arrivals : List (Fin N × V)) :
    Option (List (Fin N × V)) → Prop
  | none => (senders (before ++ arrivals)).card ≤ f
  | some r => r.length = f + 1 ∧ (r.map Prod.fst).Nodup ∧
      ∀ x, x ∈ r ↔ x ∈ received ∨ EarlyAfter f before arrivals x

section
variable {before received rest : List (Fin N × V)} {j : Fin N} {shares : V}
  {o : Option (List (Fin N × V))}

/-- it has enough vectors -/
theorem Receives.full (hsame : senders received = senders before)
    (hnodup : (received.map Prod.fst).Nodup) (hlen : received.length = f + 1) :
    Receives f before received arrivals (some received) := by
  have hcard := senders_card hnodup
  refine ⟨hlen, hnodup, fun x => ⟨.inl, ?_⟩⟩
  rintro (h | h)
  · exact h
  · exact absurd h (not_earlyAfter (by rw [← hsame]; omega))

/-- a second vector of `j` is left out -/
theorem Receives.again (hj : j ∈ senders before)
    (h : Receives f (before ++ [(j, shares)]) received rest o) :
    Receives f before received ((j, shares) :: rest) o := by
  cases o with
  | none =>
    rw [Receives, List.append_assoc] at h
    exact h
  | some r =>
    obtain ⟨h1, h2, h3⟩ := h
    refine ⟨h1, h2, fun x => ?_⟩
    rw [h3 x, earlyAfter_cons]
    refine or_congr_right ⟨.inr, ?_⟩
    rintro (⟨-, hno, -⟩ | hx)
    · exact absurd hj hno
    · exact hx

/-- the first vector of `j` is kept -/
theorem Receives.first (hj : j ∉ senders before) (hcard : (senders before).card ≤ f)
    (h : Receives f (before ++ [(j, shares)]) (received ++ [(j, shares)]) rest o) :
    Receives f before received ((j, shares) :: rest) o := by
  cases o with
  | none =>
    rw [Receives, List.append_assoc] at h
    exact h
  | some r =>
    obtain ⟨h1, h2, h3⟩ := h
    refine ⟨h1, h2, fun x => ?_⟩
    rw [h3 x, earlyAfter_cons, List.mem_append, List.mem_singleton, or_assoc]
    exact or_congr_right (or_congr_left ⟨fun hx => ⟨hx, hj, hcard⟩, And.left⟩)

end

/-- the loop, when it has the vectors `received` already -/
theorem receive_from (arrivals : List (Fin N × V)) : ∀ received before : List (Fin N × V),
    senders received = senders before → (received.map Prod.fst).Nodup →
    received.length ≤ f + 1 →
    Receives f before received arrivals (receive f arrivals received) := by
  induction arrivals with
  | nil =>
    intro received before hsame hnodup hlen
    unfold receive
    by_cases hfull : f + 1 ≤ received.length
    · rw [if_pos hfull]
      exact Receives.full hsame hnodup (le_antisymm hlen hfull)
    · have hcard := senders_card hnodup
      rw [if_neg hfull, Receives, List.append_nil, ← hsame]
      omega
  | cons y rest ih =>
    intro received before hsame hnodup hlen
    obtain ⟨j, shares⟩ := y
    unfold receive
    by_cases hfull : f + 1 ≤ received.length
    · rw [if_pos hfull]
      exact Receives.full hsame hnodup (le_antisymm hlen hfull)
    · rw [if_neg hfull]
      by_cases hj : j ∈ received.map Prod.fst
      · have hjb : j ∈ senders before := hsame ▸ List.mem_toFinset.mpr hj
        have hsame' : senders received = senders (before ++ [(j, shares)]) := by
          rw [senders_append, hsame]
          exact (Finset.union_eq_left.mpr (by simpa [senders] using hjb)).symm
        rw [if_pos hj]
        exact Receives.again hjb (ih received _ hsame' hnodup hlen)
      · have hjb : j ∉ senders before := hsame ▸ fun h => hj (List.mem_toFinset.mp h)
        have hsame' : senders (received ++ [(j, shares)]) = senders (before ++ [(j, shares)]) := by
          rw [senders_append, senders_append, hsame]
        have hnodup' : ((received ++ [(j, shares)]).map Prod.fst).Nodup := by
          rw [List.map_append]
          exact List.Nodup.append hnodup (List.nodup_singleton _)
            (List.disjoint_singleton.mpr hj)
        have hcard := senders_card hnodup
        rw [if_neg hj]
        refine Receives.first hjb (by rw [← hsame]; omega) (ih _ _ hsame' hnodup' ?_)
        rw [List.length_append, List.length_singleton]
        omega

/-- **the vectors that a call uses** -/
theorem receive_spec {r : List (Fin N × V)} (h : receive f arrivals [] = some r) :
    r.length = f + 1 ∧ (r.map Prod.fst).Nodup ∧ ∀ x, x ∈ r ↔ Early f arrivals x := by
  have := receive_from (f := f) arrivals [] [] rfl List.nodup_nil (Nat.zero_le _)
  rw [h] at this
  obtain ⟨h1, h2, h3⟩ := this
  refine ⟨h1, h2, fun x => (h3 x).trans ⟨?_, .inr⟩⟩
  rintro (hx | hx)
  · cases hx
  · exact hx

/-- a call waits as long as vectors from `f+1` senders are missing -/
theorem receive_eq_none_iff : receive f arrivals [] = none ↔ (senders arrivals).card ≤ f := by
  constructor
  · intro h
    have := receive_from (f := f) arrivals [] [] rfl List.nodup_nil (Nat.zero_le _)
    rwa [h] at this
  · intro h
    by_contra hne
    obtain ⟨r, hr⟩ := Option.ne_none_iff_exists'.mp hne
    obtain ⟨hlen, hnodup, hmem⟩ := receive_spec hr
    have hsub : senders r ⊆ senders arrivals := by
      intro j hj
      obtain ⟨x, hx, rfl⟩ := List.mem_map.mp (List.mem_toFinset.mp hj)
      exact List.mem_toFinset.mpr (List.mem_map_of_mem ((hmem x).mp hx).mem)
    have := Finset.card_le_card hsub
    rw [senders_card hnodup] at this
    omega

end

/-! ## the plaintexts -/

variable {p : ℕ} [Fact p.Prime] {G T : Type} [CommGroup G] [CommGroup T] [DecidableEq T]
  (E : Packages p G T) (P : Pickle)

/-- the entry `v` of the common subset, decrypted with the master secret -/
def plaintext (secret : ZMod p) (v : Bytes) : Option Bytes := do
  let ((U, V, _), ciph) ← opened E P v
  let key ← xor (hashG E (U ^ secret.val)) V
  TPKE.decrypt E key ciph

/-- the plaintexts of the entries from the index `i` on, unpickled as `A` says -/
def plaintextsFrom (A : Answers) (secret : ZMod p) : ℕ → List (Option Bytes) → Option (List Bytes)
  | _, [] => some []
  | i, none :: vall => plaintextsFrom A secret (i + 1) vall
  | i, some v :: vall => do
    let plain ← plaintext E (A i) secret v
    let rest ← plaintextsFrom A secret (i + 1) vall
    some (plain :: rest)

/-- the share for the entry `v` at the place `i` of a vector is the one that the key `sk` makes -/
def RightShare (sk : ZMod p) (shares : List (Option G)) (i : ℕ) (v : Bytes) : Prop :=
  ∀ U V W ciph, opened E P v = some ((U, V, W), ciph) → shares[i]? = some (some (U ^ sk.val))

variable {E P} {A A' : Answers}

theorem mem_of_mapM {α β : Type} {g : α → Option β} : ∀ {l : List α} {l' : List β},
    l.mapM g = some l' → ∀ x ∈ l, ∃ y ∈ l', g x = some y := by
  intro l
  induction l with
  | nil =>
    intro l' _ x hx
    cases hx
  | cons a l ih =>
    intro l' h x hx
    rw [List.mapM_cons] at h
    obtain ⟨b, hb, h⟩ := Option.bind_eq_some_iff.mp h
    obtain ⟨bs, hbs, h⟩ := Option.bind_eq_some_iff.mp h
    obtain rfl := Option.some.inj h
    rcases List.mem_cons.mp hx with rfl | hx
    · exact ⟨b, List.mem_cons_self, hb⟩
    · obtain ⟨y, hy, hxy⟩ := ih hbs x hx
      exact ⟨y, List.mem_cons_of_mem _ hy, hxy⟩

/-- what holds at every entry of a list holds at the first one and at those after it -/
theorem forall_entries_cons {Q : ℕ → Bytes → Prop} {o : Option Bytes} {vall : List (Option Bytes)}
    {i : ℕ} : (∀ n v, (o :: vall)[n]? = some (some v) → Q (i + n) v) ↔
      (∀ v, o = some v → Q i v) ∧ ∀ n v, vall[n]? = some (some v) → Q (i + 1 + n) v := by
  have hshift : ∀ n, i + 1 + n = i + (n + 1) := fun n => by omega
  constructor
  · intro h
    refine ⟨fun v hv => h 0 v (congrArg some hv), fun n v hn => ?_⟩
    rw [hshift n]
    exact h (n + 1) v hn
  · rintro ⟨hfirst, hrest⟩ n v hn
    cases n with
    | zero => exact hfirst v (Option.some.inj hn)
    | succ n =>
      rw [← hshift n]
      exact hrest n v hn

/-! ## different answers -/

/-- a plaintext is made of the object -/
theorem plaintext_congr {P P' : Pickle} {v : Bytes} (h : P.loads v = P'.loads v)
    (secret : ZMod p) : plaintext E P secret v = plaintext E P' secret v := by
  unfold plaintext opened
  rw [h]

theorem plaintextsFrom_const (P : Pickle) (secret : ZMod p) (vall : List (Option Bytes)) :
    ∀ i, plaintextsFrom E (fun _ => P) secret i vall =
      (vall.filterMap id).mapM (plaintext E P secret) := by
  induction vall with
  | nil => exact fun _ => rfl
  | cons o vall ih =>
    intro i
    cases o with
    | none => exact ih (i + 1)
    | some v =>
      have hentries : (some v :: vall).filterMap id = v :: vall.filterMap id := rfl
      rw [hentries, List.mapM_cons, ← ih (i + 1)]
      rfl

/-- **two loops** over the same entries give the same plaintexts if and only if they do so at each
entry -/
theorem plaintexts_eq_iff (secret : ZMod p) (vall : List (Option Bytes)) : ∀ i ds ds',
    plaintextsFrom E A secret i vall = some ds → plaintextsFrom E A' secret i vall = some ds' →
      (ds = ds' ↔ ∀ n v, vall[n]? = some (some v) →
        plaintext E (A (i + n)) secret v = plaintext E (A' (i + n)) secret v) := by
  induction vall with
  | nil =>
    intro i ds ds' h h'
    refine iff_of_true (Option.some.inj (h.symm.trans h')) fun n v hn => ?_
    cases hn
  | cons o vall ih =>
    intro i ds ds' h h'
    rw [forall_entries_cons (Q := fun n v =>
      plaintext E (A n) secret v = plaintext E (A' n) secret v)]
    cases o with
    | none =>
      rw [ih (i + 1) ds ds' h h']
      refine (and_iff_right fun v hv => ?_).symm
      cases hv
    | some v =>
      obtain ⟨plain, hplain, h⟩ := Option.bind_eq_some_iff.mp h
      obtain ⟨rest, hrest, h⟩ := Option.bind_eq_some_iff.mp h
      obtain ⟨plain', hplain', h'⟩ := Option.bind_eq_some_iff.mp h'
      obtain ⟨rest', hrest', h'⟩ := Option.bind_eq_some_iff.mp h'
      obtain rfl := Option.some.inj h
      obtain rfl := Option.some.inj h'
      rw [List.cons.injEq, ih (i + 1) rest rest' hrest hrest']
      refine and_congr_left fun _ => ⟨?_, fun heq => ?_⟩
      · rintro rfl w hw
        obtain rfl := Option.some.inj hw
        exact hplain.trans hplain'.symm
      · have hboth := heq v rfl
        rw [hplain, hplain'] at hboth
        exact Option.some.inj hboth

/-! ## the second loop -/

section
variable {N k : ℕ} {a : List (ZMod p)} {received : List (Fin N × List (Option G))}

/-- one turn of the second loop, with right shares -/
theorem decryptFrom_cons (hN : N < p) (ha : a.length = k)
    (hnodup : (received.map Prod.fst).Nodup) (hlen : received.length = k) {i : ℕ} {v : Bytes}
    (hgood : ∀ x ∈ received, RightShare E (A i) (secretKey a x.1) x.2 i v)
    (vall : List (Option Bytes)) :
    decryptFrom E A (publicKey E N k a) received i (some v :: vall) =
      (plaintext E (A i) ((poly a).eval 0) v).bind fun plain =>
        (decryptFrom E A (publicKey E N k a) received (i + 1) vall).bind fun rest =>
          some (plain :: rest) := by
  cases ho : opened E (A i) v with
  | none =>
    simp only [decryptFrom, plaintext, ho, Option.bind_eq_bind, Option.bind_none]
    cases received.mapM fun x => (x.2[i]?).map fun share => (x.1.val, share) <;> rfl
  | some y =>
    obtain ⟨⟨U, V, W⟩, ciph⟩ := y
    have hvec : (received.mapM fun x => (x.2[i]?).map fun share => (x.1.val, share)) =
        some (received.map fun x => (x.1.val, some (U ^ (secretKey a x.1).val))) := by
      refine mapM_eq_some received fun x hx => ?_
      rw [hgood x hx U V W ciph ho]
      rfl
    have hkeys : ((received.map fun x =>
        (x.1.val, some (U ^ (secretKey a x.1).val))).map Prod.fst).Nodup := by
      have hcomp : (received.map fun x => (x.1.val, some (U ^ (secretKey a x.1).val))).map Prod.fst =
          (received.map Prod.fst).map Fin.val := by
        rw [List.map_map, List.map_map]
        rfl
      rw [hcomp]
      exact hnodup.map Fin.val_injective
    have hcomb := combineShares_of_correct (E := E) (U := U) hN ha hkeys (by simpa using hlen) V ?_
    · simp only [decryptFrom, plaintext, ho, hvec, hcomb, Option.bind_eq_bind, Option.bind_some]
      cases xor (hashG E (U ^ ((poly a).eval 0).val)) V <;> rfl
    · intro x hx
      obtain ⟨y, -, rfl⟩ := List.mem_map.mp hx
      exact ⟨y.1.isLt, rfl⟩

/-- a wrong share stops the second loop -/
theorem decryptFrom_wrong {i : ℕ} {v : Bytes} {x : Fin N × List (Option G)} (hx : x ∈ received)
    (hwrong : ¬ RightShare E (A i) (secretKey a x.1) x.2 i v) (vall : List (Option Bytes)) :
    decryptFrom E A (publicKey E N k a) received i (some v :: vall) = none := by
  unfold RightShare at hwrong
  push Not at hwrong
  obtain ⟨U, V, W, ciph, ho, hne⟩ := hwrong
  cases hvec : received.mapM fun x => (x.2[i]?).map fun share => (x.1.val, share) with
  | none => simp only [decryptFrom, hvec, Option.bind_eq_bind, Option.bind_none]
  | some svec =>
    obtain ⟨y, hy, hxy⟩ := mem_of_mapM hvec x hx
    obtain ⟨share, hshare, rfl⟩ := Option.map_eq_some_iff.mp hxy
    have hcomb := combineShares_of_wrong (E := E) (N := N) (k := k) (a := a) (U := U)
      svec V fun hall => hne (hshare.trans (congrArg some (hall _ hy).2))
    simp only [decryptFrom, ho, hvec, hcomb, Option.bind_eq_bind, Option.bind_some,
      Option.bind_none]

/-- **the second loop**: it gives the plaintexts if every share that it uses is right, or raises -/
theorem decryptFrom_iff (hN : N < p) (ha : a.length = k)
    (hnodup : (received.map Prod.fst).Nodup) (hlen : received.length = k)
    (vall : List (Option Bytes)) : ∀ i ds,
    decryptFrom E A (publicKey E N k a) received i vall = some ds ↔
      (∀ n v, vall[n]? = some (some v) → ∀ x ∈ received,
        RightShare E (A (i + n)) (secretKey a x.1) x.2 (i + n) v) ∧
      plaintextsFrom E A ((poly a).eval 0) i vall = some ds := by
  induction vall with
  | nil =>
    intro i ds
    refine ⟨fun h => ⟨fun n v hn => ?_, h⟩, And.right⟩
    cases hn
  | cons o vall ih =>
    intro i ds
    rw [forall_entries_cons (Q := fun n v => ∀ x ∈ received,
      RightShare E (A n) (secretKey a x.1) x.2 n v)]
    cases o with
    | none =>
      rw [decryptFrom, ih]
      refine and_congr_left fun _ => (and_iff_right fun v hv => ?_).symm
      cases hv
    | some v =>
      constructor
      · intro h
        have hgood : ∀ x ∈ received, RightShare E (A i) (secretKey a x.1) x.2 i v := by
          by_contra hc
          push Not at hc
          obtain ⟨x, hx, hwrong⟩ := hc
          cases (decryptFrom_wrong hx hwrong vall).symm.trans h
        rw [decryptFrom_cons hN ha hnodup hlen hgood] at h
        obtain ⟨plain, hplain, h⟩ := Option.bind_eq_some_iff.mp h
        obtain ⟨rest, hrest, h⟩ := Option.bind_eq_some_iff.mp h
        obtain ⟨h1, h2⟩ := (ih (i + 1) rest).mp hrest
        refine ⟨⟨fun w hw => Option.some.inj hw ▸ hgood, h1⟩, ?_⟩
        rw [plaintextsFrom, hplain, h2, ← h]
        rfl
      · rintro ⟨⟨hgood, h1⟩, h2⟩
        obtain ⟨plain, hplain, h2⟩ := Option.bind_eq_some_iff.mp h2
        obtain ⟨rest, hrest, h2⟩ := Option.bind_eq_some_iff.mp h2
        have hrec := (ih (i + 1) rest).mpr ⟨h1, hrest⟩
        rw [decryptFrom_cons hN ha hnodup hlen (hgood v rfl), hplain, hrec, ← h2]
        rfl

end

end Block
