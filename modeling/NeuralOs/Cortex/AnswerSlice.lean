import NeuralOs.Cortex.DecodeLoop

/-!
# The slice after the prompt

At the end, and in each turn with byte-pair tokens, the answer is read as the tokens
after the first `prompt_len`. That is what was generated exactly while no eviction
has cut tokens off the front; a cut of any size makes the slice start too late. The
budget is kept by everything but a Medusa draft taken near its end.
-/

set_option autoImplicit false

namespace NeuralOs.Cortex
open Checked MeasuredLoop

variable {C H L D : Type} {E : Env C H L D} {prompt : List ℕ} {s t : GenState C H L D}

/-- The tokens are the prompt and all that was generated, without the first `lost`. -/
structure Tracks (prompt : List ℕ) (lost : ℕ) (s : GenState C H L D) : Prop where
  bound : lost ≤ (prompt++s.made).length
  tokens : s.tokens = (prompt++s.made).drop lost
  step : s.step = s.made.length

theorem makeRoom_tracks {lost : ℕ} (h : Tracks prompt lost s) :
    ∃ lost', Tracks prompt lost' (makeRoom E s) ∧ lost ≤ lost' ∧ (lost < lost' ↔ Drains E s) := by
  obtain ⟨hmade, hstep⟩ := makeRoom_made (E := E) s
  by_cases hd : Drains E s
  · obtain ⟨k, hpos, hle, htok⟩ := makeRoom_drains hd
    rw [h.tokens, List.length_drop] at hle
    refine ⟨lost+k, ⟨?_, ?_, ?_⟩, Nat.le_add_right _ _, ?_⟩
    · rw [hmade]
      have := h.bound
      omega
    · rw [htok, hmade, h.tokens, List.drop_drop]
    · rw [hstep, hmade, h.step]
    · exact ⟨fun _ => hd, fun _ => by omega⟩
  · refine ⟨lost, ⟨?_, ?_, ?_⟩, le_rfl, ?_⟩
    · rw [hmade]
      exact h.bound
    · rw [makeRoom_steady hd, hmade, h.tokens]
    · rw [hstep, hmade, h.step]
    · exact ⟨fun hlt => absurd hlt (lt_irrefl _), fun hdr => absurd hdr hd⟩

theorem Appends.tracks {lost : ℕ} {new : List ℕ} (h : Tracks prompt lost s)
    (happ : Appends s t new) : Tracks prompt lost t := by
  refine ⟨?_, ?_, ?_⟩
  · rw [happ.made, ← List.append_assoc, List.length_append]
    exact Nat.le_add_right_of_le h.bound
  · rw [happ.tokens, happ.made, ← List.append_assoc, List.drop_append_of_le_length h.bound,
      h.tokens]
  · rw [happ.step, happ.made, h.step, List.length_append]

theorem turn_tracks {lost promptLen : ℕ} (h : Tracks prompt lost s) (hs : s.step < E.maxGen)
    (hleaves : Leaves (turn E promptLen s) t) :
    ∃ lost', Tracks prompt lost' t ∧ lost ≤ lost' ∧ (lost < lost' ↔ Drains E s) ∧
      (E.maxGen < t.step ↔ Overshoots E promptLen s) := by
  obtain ⟨new, happ, hover⟩ := turn_leaves hs hleaves
  obtain ⟨lost', htracks, hle, hdrain⟩ := makeRoom_tracks (E := E) h
  exact ⟨lost', happ.tracks htracks, hle, hdrain, hover⟩

def Spoiled (E : Env C H L D) (prompt : List ℕ) (s : GenState C H L D) : Prop :=
  (∃ lost, 0 < lost ∧ Tracks prompt lost s) ∨ Tracks prompt 0 s ∧ E.maxGen < s.step

theorem turn_spoils {lost promptLen : ℕ} (h : Tracks prompt lost s) (hs : s.step < E.maxGen)
    (hbad : 0 < lost ∨ Drains E s ∨ Overshoots E promptLen s)
    (hleaves : Leaves (turn E promptLen s) t) : Spoiled E prompt t := by
  obtain ⟨lost', htracks, hle, hdrain, hover⟩ := turn_tracks h hs hleaves
  by_cases hlost : 0 < lost'
  · exact .inl ⟨lost', hlost, htracks⟩
  obtain rfl : lost' = 0 := by omega
  rcases hbad with hpos | hdr | hov
  · omega
  · have := hdrain.mpr hdr
    omega
  · exact .inr ⟨htracks, hover.mpr hov⟩

theorem exec_spoiled (promptLen : ℕ) (h : Spoiled E prompt s)
    (hend : (genLoop E promptLen).exec s = .ok t) : Spoiled E prompt t := by
  have hrule := exec_rule (genLoop E promptLen)
    (fun s r => Spoiled E prompt s → r = .ok t → Spoiled E prompt t) ?stop ?turn s
  · exact hrule h hend
  case stop =>
    intro s r hstop hsp hr
    by_cases hs : s.step < E.maxGen
    · rcases hsp with ⟨lost, hpos, htracks⟩ | ⟨-, hover⟩
      · exact turn_spoils htracks hs (.inl hpos) (.inr (hr ▸ hstop))
      · omega
    · have hstay : turn E promptLen s = .inr (.ok s) := if_neg hs
      obtain rfl : Except.ok s = r := Sum.inr.inj (hstay.symm.trans hstop)
      exact Except.ok.inj hr ▸ hsp
  case turn =>
    intro s u r hgo ih hsp
    have hs := (turn_progress hgo).1
    rcases hsp with ⟨lost, hpos, htracks⟩ | ⟨-, hover⟩
    · exact ih (turn_spoils htracks hs (.inl hpos) (.inl hgo))
    · omega

theorem visits_tracks {promptLen : ℕ} {lost : ℕ} (h : Tracks prompt lost s)
    (hv : Visits (genLoop E promptLen) s t) : ∃ lost', Tracks prompt lost' t := by
  induction hv with
  | start => exact ⟨lost, h⟩
  | turn _ hgo ih =>
    obtain ⟨k, hk⟩ := ih
    obtain ⟨lost', htracks, -⟩ := turn_tracks hk (turn_progress hgo).1 (.inl hgo)
    exact ⟨lost', htracks⟩

/-- No eviction of the run drains tokens and no Medusa draft passes the budget. -/
def Undisturbed (E : Env C H L D) (promptLen : ℕ) (s : GenState C H L D) : Prop :=
  ∀ t, Visits (genLoop E promptLen) s t → t.step < E.maxGen →
    ¬Drains E t ∧ ¬Overshoots E promptLen t

theorem exec_whole (hrun : Undisturbed E prompt.length s) (h : Tracks prompt 0 s)
    (hs : s.step ≤ E.maxGen) :
    ∃ t, (genLoop E prompt.length).exec s = .ok t ∧ Tracks prompt 0 t ∧ t.step ≤ E.maxGen := by
  have hrule := exec_rule (genLoop E prompt.length)
    (fun u r => Visits (genLoop E prompt.length) s u → Tracks prompt 0 u → u.step ≤ E.maxGen →
      ∃ t, r = .ok t ∧ Tracks prompt 0 t ∧ t.step ≤ E.maxGen) ?stop ?turn s
  · exact hrule .start h hs
  case stop =>
    intro u r hstop hv hu hle
    by_cases hlive : u.step < E.maxGen
    · obtain ⟨hnd, hno⟩ := hrun u hv hlive
      cases r with
      | ok t =>
        obtain ⟨lost', htracks, -, hdrain, hover⟩ := turn_tracks hu hlive (.inr hstop)
        obtain rfl : lost' = 0 := by
          by_contra hne
          exact hnd (hdrain.mp (Nat.pos_of_ne_zero hne))
        exact ⟨t, rfl, htracks, Nat.le_of_not_lt fun hlt => hno (hover.mp hlt)⟩
      | error e =>
        -- the slice after the prompt is in range: nothing was lost
        have hshort := turn_panic hstop
        rw [(chosen_appends u).tokens, makeRoom_steady hnd, hu.tokens, List.drop_zero] at hshort
        simp only [List.length_append] at hshort
        omega
    · have hstay : turn E prompt.length u = .inr (.ok u) := if_neg hlive
      obtain rfl : Except.ok u = r := Sum.inr.inj (hstay.symm.trans hstop)
      exact ⟨u, rfl, hu, hle⟩
  case turn =>
    intro u w r hgo ih hv hu hle
    have hlive := (turn_progress hgo).1
    obtain ⟨hnd, hno⟩ := hrun u hv hlive
    obtain ⟨lost', htracks, -, hdrain, hover⟩ := turn_tracks hu hlive (.inl hgo)
    obtain rfl : lost' = 0 := by
      by_contra hne
      exact hnd (hdrain.mp (Nat.pos_of_ne_zero hne))
    exact ih (hv.turn hgo) htracks (Nat.le_of_not_lt fun hlt => hno (hover.mp hlt))

theorem prefilled_tracks (cache : C) (decoder : Option D) (tokens : List ℕ) :
    Tracks tokens 0 (prefilled E cache decoder tokens) := by
  refine ⟨Nat.zero_le _, ?_, rfl⟩
  exact (List.append_nil tokens).symm

/-- The answer of a call: it ends without a slice out of range, and the ids it decodes are the
tokens it generated, at most `max_gen`. -/
def Survives (E : Env C H L D) (cache : C) (decoder : Option D) (hasMachine : Bool)
    (prompt : List ℕ) : Prop :=
  ∃ ids t, generate E cache decoder hasMachine prompt = .ok (ids, t) ∧ ids = t.made ∧
    ids.length ≤ E.maxGen

theorem generate_eq {cache : C} {decoder : Option D} {hasMachine : Bool} {prompt tokens : List ℕ}
    (htok : clip E.maxSeq hasMachine prompt = tokens)
    (hexec : (genLoop E tokens.length).exec (prefilled E cache decoder tokens) = .ok t) :
    generate E cache decoder hasMachine prompt =
      if t.tokens.length < tokens.length then .error .panic
      else .ok (t.tokens.drop tokens.length, t) := by
  subst htok
  rw [generate, hexec]
  rfl

theorem spoiled_slice {tokens : List ℕ} (h : Spoiled E tokens t)
    (hin : ¬t.tokens.length < tokens.length) (hids : t.tokens.drop tokens.length = t.made) :
    E.maxGen < t.made.length := by
  have hlen := congrArg List.length hids
  rw [List.length_drop] at hlen
  rcases h with ⟨lost, hpos, htracks⟩ | ⟨htracks, hover⟩
  · have hbound := htracks.bound
    have htokens := congrArg List.length htracks.tokens
    rw [List.length_drop] at htokens
    rw [List.length_append] at htokens hbound
    omega
  · rw [← htracks.step]
    exact hover

theorem survives_iff_undisturbed (E : Env C H L D) (cache : C) (decoder : Option D)
    (hasMachine : Bool) (prompt : List ℕ) :
    Survives E cache decoder hasMachine prompt ↔
      Undisturbed E (clip E.maxSeq hasMachine prompt).length
        (prefilled E cache decoder (clip E.maxSeq hasMachine prompt)) := by
  generalize htok : clip E.maxSeq hasMachine prompt = tokens
  have hstart := prefilled_tracks (E := E) cache decoder tokens
  constructor
  · rintro ⟨ids, t, hgen, hids, hbudget⟩ u hv hlive
    by_contra hbad
    have hbad' : Drains E u ∨ Overshoots E tokens.length u := by
      rw [not_and_or, not_not, not_not] at hbad
      exact hbad
    obtain ⟨lost, hu⟩ := visits_tracks hstart hv
    -- whatever the turn from `u` does, the run ends spoiled
    have hspoiled : ∀ w, (genLoop E tokens.length).exec u = .ok w → Spoiled E tokens w := by
      intro w hw
      cases hturn : turn E tokens.length u with
      | inl x =>
        rw [exec_turn (genLoop E tokens.length) hturn] at hw
        exact exec_spoiled tokens.length (turn_spoils hu hlive (.inr hbad') (.inl hturn)) hw
      | inr r =>
        rw [exec_stop (genLoop E tokens.length) hturn] at hw
        exact turn_spoils hu hlive (.inr hbad') (.inr (hw ▸ hturn))
    cases hexec : (genLoop E tokens.length).exec (prefilled E cache decoder tokens) with
    | error e =>
      rw [generate, htok, hexec] at hgen
      cases hgen
    | ok w =>
      have hend := hspoiled w (hv.exec_eq ▸ hexec)
      rw [generate_eq htok hexec] at hgen
      split at hgen
      · cases hgen
      · next hin =>
        obtain ⟨rfl, rfl⟩ := Prod.mk.inj (Except.ok.inj hgen)
        have hover := spoiled_slice hend hin hids
        rw [hids] at hbudget
        omega
  · intro hrun
    obtain ⟨t, hexec, htracks, hbudget⟩ := exec_whole hrun hstart (Nat.zero_le _)
    have htokens : t.tokens = tokens++t.made := htracks.tokens
    refine ⟨t.made, t, ?_, rfl, htracks.step ▸ hbudget⟩
    rw [generate_eq htok hexec, htokens, List.drop_left, List.length_append, if_neg (by omega)]

def sixEnv (maxSeq maxGen : ℕ) (heads : List (Unit → Unit)) : Env (KvCache ℤ) Unit Unit Unit where
  maxSeq := maxSeq
  maxGen := maxGen
  eos := 1
  eot := 2
  useBpe := true
  isGreeting := false
  shortlisting := false
  cohOn _ := false
  cacheLen c := c.len
  h2oEvict c recent heavy := h2oEvict headArith c recent heavy fullGrant
  forward _ c ts := (addRows c ts, (), ())
  forwardAllLogits c ts := (addRows c ts, ())
  rowMax _ _ := 6
  omitted _ := false
  scoreCandidates _ _ := ()
  buildCandidates _ _ := []
  sampleCoherence _ _ _ := 6
  pickHf _ _ _ := 6
  pickChar _ _ := 6
  medusaHeads := heads
  maskLogits _ _ := ()
  stepDecoder _ _ := ()
  greetingish _ := false
  propose := NgramSpeculator.propose
where
  addRows (c : KvCache ℤ) (ts : List ℕ) : KvCache ℤ :=
    ((exec headArith c (.append 0 (ts.map Int.ofNat) (ts.map Int.ofNat) 1 1)).toOption.getD c).advance
      ts.length

/-- A prompt as long as the context is drained to 18 tokens and the slice after the prompt
panics; a Medusa draft of three tokens passes a budget of two. -/
theorem answer_lost :
    ¬Survives (sixEnv 64 4 []) (KvCache.new 1 1 1) none false (List.replicate 64 7) ∧
      ¬Survives (sixEnv 64 2 [id, id, id]) (KvCache.new 1 1 1) none false [7] := by
  have hpanic : (generate (sixEnv 64 4 []) (KvCache.new 1 1 1) none false
      (List.replicate 64 7)).toOption.isSome = false := by
    decide +kernel
  have hlong : (generate (sixEnv 64 2 [id, id, id]) (KvCache.new 1 1 1) none false
      [7]).toOption.map Prod.fst = some [6, 6, 6, 6] := by
    decide +kernel
  constructor
  · rintro ⟨ids, t, hgen, -⟩
    rw [hgen] at hpanic
    cases hpanic
  · rintro ⟨ids, t, hgen, -, hbudget⟩
    rw [hgen] at hlong
    obtain rfl : ids = [6, 6, 6, 6] := Option.some.inj hlong
    revert hbudget
    decide

end NeuralOs.Cortex
