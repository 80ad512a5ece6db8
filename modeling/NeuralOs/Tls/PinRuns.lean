import NeuralOs.Tls.Verifier

/-!
# Pins over handshakes and restarts

The pins change only when a handshake learns one, and a restart reads back
what was saved. A name keeps the leaf it was first accepted with as long as no
other spelling of it brings another one.
-/

set_option autoImplicit false

namespace NeuralOs.Tls
open ByteString
open TextScan (Text)
open Bpe (utf8)

def Saved (s : PinStore) : Prop :=
  s.persisted = some s.pins.serialize ∨ s = PinStore.init

theorem restart_saved {s : PinStore} (h : Saved s) : restart s = s := by
  rcases h with h | rfl
  · rw [restart, h]
    dsimp only
    rw [load_serialize, ← h]
  · rfl

variable (C : Crypto)

variable {p : Text × Fingerprint}

theorem learn_entries {s : PinStore} {h : Handshake}
    (hp : presented C h = some p) (hlearn : Learns s p.1) :
    (learn s p.1 p.2).pins.entries = s.pins.entries ++ [⟨p.1, p.2, isKnownHost p.1⟩] :=
  (checkPin_learns (presented_storable hp) hlearn p.2).2

theorem handshake_learns {s : PinStore} {h : Handshake}
    (hp : presented C h = some p) (hlearn : Learns s p.1) :
    (handshake C s h).1 = learn s p.1 p.2 ∧ accepted (certificateStep C s h).2 = true ∧
      accepted (handshake C s h).2 = signed C h := by
  obtain ⟨hstore, hcert, hresult⟩ := handshake_presented C (s := s) hp
  have hcheck := (checkPin_learns (presented_storable hp) hlearn p.2).1
  rw [hcheck] at hstore hcert hresult
  exact ⟨hstore, by rw [hcert]; rfl, hresult⟩

theorem handshake_keeps {s : PinStore} {h : Handshake}
    (hp : presented C h = some p) (hlearn : ¬ Learns s p.1) :
    (handshake C s h).1 = s ∧
      (accepted (certificateStep C s h).2 = true ↔ s.pins.lookup p.1 = some p.2) ∧
      (accepted (handshake C s h).2 = true → s.pins.lookup p.1 = some p.2) := by
  obtain ⟨hstore, hcert, hresult⟩ := handshake_presented C (s := s) hp
  obtain ⟨hsame, hiff⟩ := checkPin_keeps hlearn p.2
  refine ⟨hstore.trans hsame, by rw [hcert]; exact hiff, ?_⟩
  intro hok
  rw [hresult, Bool.and_eq_true] at hok
  exact hiff.mp hok.1

theorem exec_cases {s : PinStore} (hsaved : Saved s) (a : Action) :
    exec C s a = s ∨ ∃ h p, a = .handshake h ∧ presented C h = some p ∧ Learns s p.1 ∧
      exec C s a = learn s p.1 p.2 := by
  cases a with
  | restart => exact Or.inl (restart_saved hsaved)
  | handshake h =>
    cases hp : presented C h with
    | none => exact Or.inl (handshake_unpresented C hp).1
    | some p =>
      by_cases hlearn : Learns s p.1
      · exact Or.inr ⟨h, p, rfl, hp, hlearn, (handshake_learns C hp hlearn).1⟩
      · exact Or.inl (handshake_keeps C hp hlearn).1

theorem saved_exec {s : PinStore} (hsaved : Saved s) (a : Action) : Saved (exec C s a) := by
  rcases exec_cases C hsaved a with hsame | ⟨h, p, -, -, -, hexec⟩
  · rw [hsame]
    exact hsaved
  · rw [hexec]
    exact Or.inl rfl

theorem lookup_exec {s : PinStore} (hsaved : Saved s) {host : Text} {fp : Fingerprint}
    (hpin : s.pins.lookup host = some fp) (a : Action) :
    (exec C s a).pins.lookup host = some fp := by
  rcases exec_cases C hsaved a with hsame | ⟨h, p, -, hp, hlearn, hexec⟩
  · rw [hsame]
    exact hpin
  · obtain ⟨e, he, hhost, hfp⟩ := lookup_eq_some_iff.mp hpin
    rw [hexec, lookup_eq_some_iff, learn_entries C hp hlearn]
    exact ⟨e, List.mem_append_left _ he, hhost, hfp⟩

theorem lookup_learn {s : PinStore} {h : Handshake}
    (hp : presented C h = some p) (hlearn : Learns s p.1) :
    (learn s p.1 p.2).pins.lookup p.1 = some p.2 := by
  rw [lookup_eq_some_iff, learn_entries C hp hlearn]
  exact ⟨⟨p.1, p.2, isKnownHost p.1⟩, by simp, rfl, rfl⟩

/-! ## One leaf for each name -/

/-- The same name as `is_known_host` compares names. -/
def SameName (a b : Text) : Prop := eqIgnoreAscii (bareName a) (bareName b) = true

theorem all_zip_iff {α β : Type} [DecidableEq β] (f : α → β) (a b : List α) :
    (a.length = b.length ∧ (a.zip b).all (fun p => f p.1 = f p.2) = true) ↔
      a.map f = b.map f := by
  induction a generalizing b with
  | nil => cases b <;> simp
  | cons x a ih =>
    cases b with
    | nil => simp
    | cons y b =>
      rw [List.map_cons, List.map_cons, List.cons.injEq, ← ih b]
      simp
      tauto

theorem eqIgnoreAscii_iff {a b : Text} :
    eqIgnoreAscii a b = true ↔ (utf8 a).map asciiLower = (utf8 b).map asciiLower := by
  rw [← all_zip_iff, eqIgnoreAscii, Bool.and_eq_true, decide_eq_true_eq]

theorem SameName.symm {a b : Text} (h : SameName a b) : SameName b a :=
  (eqIgnoreAscii_iff).mpr ((eqIgnoreAscii_iff).mp h).symm

structure Outcome where
  host : Text
  fp : Fingerprint
  accepted : Bool
  deriving DecidableEq

def outcome (s : PinStore) : Action → Option Outcome
  | .handshake h =>
    (presented C h).map fun p => ⟨p.1, p.2, accepted (certificateStep C s h).2⟩
  | .restart => none

def outcomes : PinStore → List Action → List Outcome
  | _, [] => []
  | s, a::l => (outcome C s a).toList ++ outcomes (exec C s a) l

/-- After `a` was accepted its name is refused another leaf. -/
def Respects (a b : Outcome) : Prop :=
  a.accepted = true → SameName a.host b.host → a.fp ≠ b.fp → b.accepted = false

def Sticky (actions : List Action) : Prop := (outcomes C .init actions).Pairwise Respects

/-- A new pin repeats the fingerprint of the pins with the same name. -/
def Fits (s : PinStore) : Action → Prop
  | .handshake h => ∀ p, presented C h = some p → Learns s p.1 →
      ∀ e ∈ s.pins.entries, SameName e.host p.1 → e.fp = p.2
  | .restart => True

/-- The pins are the leaves accepted so far, one for each name. -/
structure Accounted (past : List Outcome) (s : PinStore) : Prop where
  saved : Saved s
  pinned : ∀ o ∈ past, o.accepted = true → s.pins.lookup o.host = some o.fp
  backed : ∀ e ∈ s.pins.entries, ∃ o ∈ past, o.accepted = true ∧ o.host = e.host ∧ o.fp = e.fp
  agree : ∀ d ∈ s.pins.entries, ∀ e ∈ s.pins.entries, SameName d.host e.host → d.fp = e.fp

section sticky
variable {C} {past : List Outcome} {s : PinStore} {a : Action}

theorem Accounted.fits_iff (hinv : Accounted past s) :
    Fits C s a ↔ ∀ o ∈ outcome C s a, ∀ p ∈ past, Respects p o := by
  cases a with
  | restart => simp [Fits, outcome]
  | handshake h =>
    cases hp : presented C h with
    | none => simp [Fits, outcome, hp]
    | some q =>
      by_cases hlearn : Learns s q.1
      · have hok := (handshake_learns C hp hlearn).2.1
        simp only [Fits, outcome, hp, Option.some.injEq, forall_eq', Option.map_some,
          Option.mem_some_iff, hlearn, forall_const, hok]
        constructor
        · intro hfit p hmem hacc hname hne
          obtain ⟨e, he, hhost, hfp⟩ := lookup_eq_some_iff.mp (hinv.pinned p hmem hacc)
          exact absurd (hfp ▸ hfit e he (hhost ▸ hname)) hne
        · intro hresp e he hname
          obtain ⟨p, hmem, hacc, hhost, hfp⟩ := hinv.backed e he
          by_contra hne
          exact absurd (hresp p hmem hacc (hhost ▸ hname) (hfp ▸ hne)) (by simp)
      · have hiff := (handshake_keeps C hp hlearn).2.1
        simp only [Fits, outcome, hp, Option.some.injEq, forall_eq', Option.map_some,
          Option.mem_some_iff, hlearn, false_implies, true_iff]
        intro p hmem hacc hname hne
        dsimp only at hname hne ⊢
        rw [← Bool.not_eq_true, hiff]
        intro hpin
        obtain ⟨d, hd, hdhost, hdfp⟩ := lookup_eq_some_iff.mp (hinv.pinned p hmem hacc)
        obtain ⟨e, he, hehost, hefp⟩ := lookup_eq_some_iff.mp hpin
        have hagree := hinv.agree d hd e he (by rw [hdhost, hehost]; exact hname)
        exact hne (hdfp ▸ hefp ▸ hagree)

theorem outcome_pinned {o : Outcome} (ho : o ∈ outcome C s a) (hacc : o.accepted = true) :
    (exec C s a).pins.lookup o.host = some o.fp := by
  cases a with
  | restart => cases ho
  | handshake h =>
    obtain ⟨p, hp, rfl⟩ := Option.map_eq_some_iff.mp ho
    by_cases hlearn : Learns s p.1
    · rw [Tls.exec, (handshake_learns C hp hlearn).1]
      exact lookup_learn C hp hlearn
    · obtain ⟨hsame, hiff, -⟩ := handshake_keeps C hp hlearn
      rw [Tls.exec, hsame]
      exact hiff.mp hacc

theorem Accounted.exec (hinv : Accounted past s) (hfit : Fits C s a) :
    Accounted (past ++ (outcome C s a).toList) (exec C s a) := by
  refine ⟨saved_exec C hinv.saved a, ?_, ?_, ?_⟩
  · intro o ho hacc
    rcases List.mem_append.mp ho with ho | ho
    · exact lookup_exec C hinv.saved (hinv.pinned o ho hacc) a
    · exact outcome_pinned (Option.mem_toList.mp ho) hacc
  all_goals rcases exec_cases C hinv.saved a with hsame | ⟨h, p, rfl, hp, hlearn, hexec⟩
  · intro e he
    rw [hsame] at he
    obtain ⟨o, ho, hback⟩ := hinv.backed e he
    exact ⟨o, List.mem_append_left _ ho, hback⟩
  · intro e he
    rw [hexec, learn_entries C hp hlearn] at he
    rcases List.mem_append.mp he with he | he
    · obtain ⟨o, ho, hback⟩ := hinv.backed e he
      exact ⟨o, List.mem_append_left _ ho, hback⟩
    · cases List.mem_singleton.mp he
      refine ⟨⟨p.1, p.2, true⟩, List.mem_append_right _ ?_, rfl, rfl, rfl⟩
      simp [outcome, hp, (handshake_learns C hp hlearn).2.1]
  · rw [hsame]
    exact hinv.agree
  · intro d hd e he hname
    rw [hexec, learn_entries C hp hlearn] at hd he
    rcases List.mem_append.mp hd with hd | hd <;> rcases List.mem_append.mp he with he | he
    · exact hinv.agree d hd e he hname
    · cases List.mem_singleton.mp he
      exact hfit p hp hlearn d hd hname
    · cases List.mem_singleton.mp hd
      exact (hfit p hp hlearn e he hname.symm).symm
    · rw [List.mem_singleton.mp hd, List.mem_singleton.mp he]

theorem sticky_from_iff (hinv : Accounted past s) (actions : List Action) :
    ((outcomes C s actions).Pairwise Respects ∧
        ∀ p ∈ past, ∀ o ∈ outcomes C s actions, Respects p o) ↔
      Machine.Along (exec C) (Fits C) s actions := by
  induction actions generalizing past s with
  | nil => simp [outcomes, Machine.Along]
  | cons a l ih =>
    rw [Machine.Along, hinv.fits_iff]
    constructor
    · rintro ⟨hpair, hpast⟩
      rw [outcomes, List.pairwise_append] at hpair
      have hfit : ∀ o ∈ outcome C s a, ∀ p ∈ past, Respects p o := by
        intro o ho p hp
        exact hpast p hp o (List.mem_append_left _ (Option.mem_toList.mpr ho))
      refine ⟨hfit, (ih (hinv.exec (hinv.fits_iff.mpr hfit))).mp ⟨hpair.2.1, ?_⟩⟩
      intro p hp o ho
      rcases List.mem_append.mp hp with hp | hp
      · exact hpast p hp o (List.mem_append_right _ ho)
      · exact hpair.2.2 p hp o ho
    · rintro ⟨hfit, hrest⟩
      obtain ⟨hpair, hpast⟩ := (ih (hinv.exec (hinv.fits_iff.mpr hfit))).mpr hrest
      rw [outcomes, List.pairwise_append]
      refine ⟨⟨?_, hpair, ?_⟩, ?_⟩
      · cases outcome C s a <;> simp
      · intro p hp o ho
        exact hpast p (List.mem_append_right _ hp) o ho
      · intro p hp o ho
        rcases List.mem_append.mp ho with ho | ho
        · exact hfit o (Option.mem_toList.mp ho) p hp
        · exact hpast p (List.mem_append_left _ hp) o ho

end sticky

/-- In every history a name keeps the leaf it was accepted with exactly if
every new pin repeats the fingerprint of the pins with the same name. -/
theorem pins_sticky_iff (actions : List Action) :
    Sticky C actions ↔ Machine.Along (exec C) (Fits C) .init actions := by
  have hinit : Accounted [] PinStore.init := by
    refine ⟨Or.inr rfl, ?_, ?_, ?_⟩ <;> simp [PinStore.init, PinTable.new]
  rw [← sticky_from_iff hinit]
  simp [Sticky]

def plainCrypto (valid : Bool) : Crypto where
  sha256 der := PinTable.toFingerprint der
  extractP256Sec1 der := some der
  extractRsaNe _ := none
  ecdsa _ _ _ := valid
  rsaPss _ _ _ := valid

def plainHandshake (host : Text) (leaf : UInt8) : Handshake :=
  ⟨host, [], [.x509 [leaf]], ecdsaScheme, []⟩

instance (a b : Text) : Decidable (SameName a b) := by unfold SameName; infer_instance
instance (a b : Outcome) : Decidable (Respects a b) := by unfold Respects; infer_instance

def twoSpellings : List Action :=
  [.handshake (plainHandshake "example.com".toList 1),
    .handshake (plainHandshake "Example.com".toList 2)]

/-- The name in another case is accepted with another leaf. -/
theorem other_case_accepted :
    SameName "example.com".toList "Example.com".toList ∧
      (outcomes (plainCrypto true) .init twoSpellings).map Outcome.accepted = [true, true] ∧
      ¬ Sticky (plainCrypto true) twoSpellings := by
  refine ⟨by decide +kernel, by decide +kernel, ?_⟩
  unfold Sticky
  decide +kernel

/-! ## Pins and proofs of possession -/

def proof (s : PinStore) : Action → List (Text × Fingerprint)
  | .handshake h => if accepted (handshake C s h).2 then (presented C h).toList else []
  | .restart => []

def savedEntries (s : PinStore) : List PinEntry :=
  match s.persisted with
  | none => []
  | some data => (PinTable.new.loadBytes data).1.entries

def Covered (proven : List (Text × Fingerprint)) (s : PinStore) : Prop :=
  ∀ e ∈ s.pins.entries ++ savedEntries s, (e.host, e.fp) ∈ proven

/-- After every action each pin was proven by a handshake up to then. -/
def OnlyProven : List (Text × Fingerprint) → PinStore → List Action → Prop
  | proven, s, [] => Covered proven s
  | proven, s, a::l => Covered proven s ∧ OnlyProven (proven ++ proof C s a) (exec C s a) l

def FailureKeeps (s : PinStore) : Action → Prop
  | .handshake h => accepted (handshake C s h).2 = false → (handshake C s h).1 = s
  | .restart => True

/-- A handshake that learns a pin has its signature accepted. -/
def LearnsProven (s : PinStore) : Action → Prop
  | .handshake h => ∀ p, presented C h = some p → Learns s p.1 → signed C h = true
  | .restart => True

section proven
variable {C} {proven : List (Text × Fingerprint)} {s : PinStore} {a : Action}

theorem learn_ne {h : Handshake} {p : Text × Fingerprint} (hp : presented C h = some p)
    (hlearn : Learns s p.1) : learn s p.1 p.2 ≠ s := by
  intro hsame
  have hpin := lookup_learn C hp hlearn
  rw [hsame, hlearn.1] at hpin
  cases hpin

theorem failureKeeps_iff (s : PinStore) (a : Action) : FailureKeeps C s a ↔ LearnsProven C s a := by
  cases a with
  | restart => exact Iff.rfl
  | handshake h =>
    cases hp : presented C h with
    | none => simp [FailureKeeps, LearnsProven, hp, handshake_unpresented C hp]
    | some p =>
      by_cases hlearn : Learns s p.1
      · obtain ⟨hstore, -, hresult⟩ := handshake_learns C hp hlearn
        simp [FailureKeeps, LearnsProven, hp, hlearn, hstore, hresult, learn_ne hp hlearn]
      · simp [FailureKeeps, LearnsProven, hp, hlearn, (handshake_keeps C hp hlearn).1]

theorem savedEntries_of_saved (hsaved : Saved s) : savedEntries s = s.pins.entries := by
  rcases hsaved with h | rfl
  · rw [savedEntries, h]
    dsimp only
    rw [load_serialize]
  · rfl

theorem covered_iff (hsaved : Saved s) :
    Covered proven s ↔ ∀ e ∈ s.pins.entries, (e.host, e.fp) ∈ proven := by
  rw [Covered, savedEntries_of_saved hsaved]
  simp

structure Held (proven : List (Text × Fingerprint)) (s : PinStore) : Prop where
  saved : Saved s
  pinned : ∀ p ∈ proven, s.pins.lookup p.1 = some p.2

theorem proof_pinned {p : Text × Fingerprint} (hp : p ∈ proof C s a) :
    (exec C s a).pins.lookup p.1 = some p.2 := by
  cases a with
  | restart => cases hp
  | handshake h =>
    rw [proof] at hp
    by_cases hok : accepted (handshake C s h).2 = true
    · rw [if_pos hok] at hp
      have hpres := Option.mem_toList.mp hp
      by_cases hlearn : Learns s p.1
      · rw [exec, (handshake_learns C hpres hlearn).1]
        exact lookup_learn C hpres hlearn
      · obtain ⟨hsame, -, hpin⟩ := handshake_keeps C hpres hlearn
        rw [exec, hsame]
        exact hpin hok
    · rw [if_neg hok] at hp
      cases hp

theorem Held.exec (hheld : Held proven s) (a : Action) :
    Held (proven ++ proof C s a) (Tls.exec C s a) := by
  refine ⟨saved_exec C hheld.saved a, ?_⟩
  intro p hp
  rcases List.mem_append.mp hp with hp | hp
  · exact lookup_exec C hheld.saved (hheld.pinned p hp) a
  · exact proof_pinned hp

theorem Held.covered_exec_iff (hheld : Held proven s) (hcov : Covered proven s) :
    Covered (proven ++ proof C s a) (Tls.exec C s a) ↔ LearnsProven C s a := by
  rw [covered_iff (saved_exec C hheld.saved a)]
  rw [covered_iff hheld.saved] at hcov
  rcases exec_cases C hheld.saved a with hsame | ⟨h, p, rfl, hp, hlearn, hexec⟩
  · have hold : ∀ e ∈ (Tls.exec C s a).pins.entries, (e.host, e.fp) ∈ proven ++ proof C s a := by
      intro e he
      rw [hsame] at he
      exact List.mem_append_left _ (hcov e he)
    have hnone : LearnsProven C s a := by
      cases a with
      | restart => trivial
      | handshake h =>
        intro p hp hlearn
        have hexec := (handshake_learns C hp hlearn).1
        exact absurd (hexec.symm.trans hsame) (learn_ne hp hlearn)
    exact ⟨fun _ => hnone, fun _ => hold⟩
  · have hnew : p ∉ proven := by
      intro hmem
      have hpin := hheld.pinned p hmem
      rw [hlearn.1] at hpin
      cases hpin
    have hproof : p ∈ proof C s (.handshake h) ↔ signed C h = true := by
      rw [proof, (handshake_learns C hp hlearn).2.2, hp]
      cases signed C h <;> simp
    rw [hexec, learn_entries C hp hlearn]
    constructor
    · intro hall q hq _
      have hlast := hall ⟨p.1, p.2, isKnownHost p.1⟩ (by simp)
      exact hproof.mp ((List.mem_append.mp hlast).resolve_left hnew)
    · intro hsigned e he
      rcases List.mem_append.mp he with he | he
      · exact List.mem_append_left _ (hcov e he)
      · rw [List.mem_singleton.mp he]
        exact List.mem_append_right _ (hproof.mpr (hsigned p hp hlearn))

theorem onlyProven_iff (hheld : Held proven s) (hcov : Covered proven s) (actions : List Action) :
    OnlyProven C proven s actions ↔ Machine.Along (exec C) (LearnsProven C) s actions := by
  induction actions generalizing proven s with
  | nil => simp [OnlyProven, Machine.Along, hcov]
  | cons a l ih =>
    rw [OnlyProven, Machine.Along]
    constructor
    · rintro ⟨-, hrest⟩
      have hnext : Covered (proven ++ proof C s a) (Tls.exec C s a) := by
        cases l with
        | nil => exact hrest
        | cons b l => exact hrest.1
      exact ⟨(hheld.covered_exec_iff hcov).mp hnext, (ih (hheld.exec a) hnext).mp hrest⟩
    · rintro ⟨hlearn, hrest⟩
      have hnext := (hheld.covered_exec_iff hcov).mpr hlearn
      exact ⟨hcov, (ih (hheld.exec a) hnext).mpr hrest⟩

end proven

/-- In every history the pins are proven keys and failed handshakes leave
them alone exactly if every handshake that learns a pin also proves its key. -/
theorem pins_proven_iff (actions : List Action) :
    (OnlyProven C [] .init actions ∧ Machine.Along (exec C) (FailureKeeps C) .init actions) ↔
      Machine.Along (exec C) (LearnsProven C) .init actions := by
  have hheld : Held [] PinStore.init := ⟨Or.inr rfl, by simp⟩
  have hcov : Covered [] PinStore.init := by
    rw [covered_iff hheld.saved]
    simp [PinStore.init, PinTable.new]
  have hkeeps : FailureKeeps C = LearnsProven C := by
    funext s a
    exact propext (failureKeeps_iff s a)
  rw [onlyProven_iff hheld hcov, hkeeps, and_self]

instance (proven : List (Text × Fingerprint)) (s : PinStore) : Decidable (Covered proven s) := by
  unfold Covered
  infer_instance

def unprovenLeaf : Handshake := plainHandshake "example.com".toList 1

/-- The leaf of a handshake whose signature is refused is pinned and saved. -/
theorem unproven_leaf_pinned :
    accepted (handshake (plainCrypto false) .init unprovenLeaf).2 = false ∧
      (handshake (plainCrypto false) .init unprovenLeaf).1.pins.lookup "example.com".toList =
        some (PinTable.toFingerprint [1]) ∧
      ¬ OnlyProven (plainCrypto false) [] .init [.handshake unprovenLeaf] := by
  refine ⟨by decide +kernel, by decide +kernel, ?_⟩
  unfold OnlyProven
  unfold OnlyProven
  decide +kernel

end NeuralOs.Tls
