import NeuralOs.Cortex.InferQueue
import NeuralOs.Lib.Machine

/-!
# Every accepted job is answered once

Each phase of a job either goes on with it or answers it and releases the flags. The
one step that does neither is a slice that finds the memory critical: it clears the
job without a reply and leaves the flags set. All runs without such a step, and no
others, answer every claimed job once.
-/

set_option autoImplicit false

namespace NeuralOs.Cortex.Infer
open Checked

/-- The queue itself: positions, ids, slots and the two records. -/
structure Lined (q : Queue) : Prop where
  order : q.head ≤ q.tail
  room : q.tail-q.head ≤ queueCap
  next : q.nextId = q.tail+1
  pending : q.pending = q.tail-q.head
  ids : q.submitted.map Prod.fst = List.range' 1 q.tail
  claimed : q.claimed = List.range' 1 q.head
  slots : ∀ i, q.head ≤ i → i < q.tail → (q.slots (i%queueCap)).occupied = true ∧
    ∃ topic, (q.slots (i%queueCap)).id = i+1 ∧ (q.slots (i%queueCap)).replyTopic = some topic ∧
      (i+1, topic) ∈ q.submitted
  topics : ∀ r ∈ q.replies, (r.1, r.2.1) ∈ q.submitted

def Answered (q : Queue) (n : ℕ) : Prop := q.replies.map Prod.fst = List.range' 1 n

structure Settled (q : Queue) : Prop where
  answered : Answered q q.head
  activeId : q.activeId = 0
  inFlight : q.inFlight = false

structure Serving (q : Queue) (st : ActiveState) : Prop where
  running : st.running = true
  pos : 0 < q.head
  jobId : st.jobId = q.head
  topic : (st.jobId, st.replyTopic) ∈ q.submitted
  answered : Answered q (q.head-1)
  activeId : q.activeId = q.head

structure Inv (q : Queue) : Prop where
  lined : Lined q
  settled : q.active = none → Settled q
  serving : ∀ st, q.active = some st → Serving q st

/-- During a call an aborted job may still stand in the active place. -/
structure Within (q : Queue) : Prop where
  lined : Lined q
  settled : q.active = none → Settled q
  serving : ∀ st, q.active = some st → Serving q st ∨ st.phase = .idle ∧ Settled q

theorem Inv.within {q : Queue} (h : Inv q) : Within q :=
  ⟨h.lined, h.settled, fun st hst => .inl (h.serving st hst)⟩

theorem new_inv : Inv Queue.new where
  lined := by
    refine ⟨le_rfl, Nat.zero_le _, rfl, rfl, rfl, rfl, ?_, ?_⟩
    · intro i _ hi
      exact absurd hi (Nat.not_lt_zero i)
    · intro r hr
      cases hr
  settled _ := ⟨rfl, rfl, rfl⟩
  serving st hst := by cases hst

section flags

structure Flagged (q q' : Queue) : Prop where
  slots : ∀ i, (q'.slots i).occupied = (q.slots i).occupied ∧ (q'.slots i).id = (q.slots i).id ∧
    (q'.slots i).replyTopic = (q.slots i).replyTopic
  rest : { q' with slots := q.slots, activeCancel := q.activeCancel } = q

variable {q : Queue}

theorem Flagged.lined {q' : Queue} (h : Flagged q q') (hq : Lined q) : Lined q' := by
  obtain ⟨hslots, hrest⟩ := h
  obtain ⟨ho, hr, hn, hp, hi, hc, hs, ht⟩ := hq
  rw [← hrest] at ho hr hn hp hi hc ht hs
  refine ⟨ho, hr, hn, hp, hi, hc, ?_, ht⟩
  intro i hlo hhi
  obtain ⟨hocc, topic, hid, htopic, hmem⟩ := hs i hlo hhi
  obtain ⟨h1, h2, h3⟩ := hslots (i%queueCap)
  exact ⟨h1.trans hocc, topic, h2.trans hid, h3.trans htopic, hmem⟩

theorem Flagged.inv {q' : Queue} (h : Flagged q q') (hq : Inv q) : Inv q' := by
  have hrest := h.rest
  refine ⟨h.lined hq.lined, ?_, ?_⟩
  · intro hnone
    obtain ⟨ha, hid, hf⟩ := hq.settled (by rw [← hrest]; exact hnone)
    rw [← hrest] at ha hid hf
    exact ⟨ha, hid, hf⟩
  · intro st hst
    obtain ⟨hr, hp, hj, ht, ha, hid⟩ := hq.serving st (by rw [← hrest]; exact hst)
    rw [← hrest] at hp hj ht ha hid
    exact ⟨hr, hp, hj, ht, ha, hid⟩

theorem Flagged.refl (q : Queue) : Flagged q q := ⟨fun _ => ⟨rfl, rfl, rfl⟩, rfl⟩

theorem Flagged.trans {p r : Queue} (h : Flagged p q) (h' : Flagged q r) : Flagged p r := by
  refine ⟨?_, ?_⟩
  · intro i
    obtain ⟨h1, h2, h3⟩ := h.slots i
    obtain ⟨h1', h2', h3'⟩ := h'.slots i
    exact ⟨h1'.trans h1, h2'.trans h2, h3'.trans h3⟩
  · have hr := h'.rest
    have hp := h.rest
    rw [← hr] at hp
    exact hp

theorem cancelSlot_flagged (q : Queue) (i : ℕ) : Flagged q (q.cancelSlot i) := by
  refine ⟨?_, rfl⟩
  intro j
  by_cases hj : j = i
  · subst hj
    simp [Queue.cancelSlot]
  · simp [Queue.cancelSlot, hj]

theorem activeCancel_flagged (q : Queue) : Flagged q { q with activeCancel := true } :=
  ⟨fun _ => ⟨rfl, rfl, rfl⟩, rfl⟩

theorem cancel_flagged (q : Queue) (id : ℕ) : Flagged q (cancel q id).1 := by
  rw [cancel]
  split
  · exact activeCancel_flagged q
  · split
    · exact cancelSlot_flagged q _
    · exact Flagged.refl q

theorem cancelHead_flagged (q : Queue) : Flagged q q.cancelHead := by
  rw [Queue.cancelHead]
  split
  · exact cancelSlot_flagged q _
  · exact Flagged.refl q

theorem cancelActive_flagged (q : Queue) : Flagged q (cancelActive q) := by
  rw [cancelActive]
  split
  · exact ((activeCancel_flagged q).trans (cancel_flagged _ _)).trans (cancelHead_flagged _)
  · exact cancelHead_flagged q

end flags

section submit

def Queue.enter (q : Queue) (prompt : List Char) (machine : Option (List ℕ))
    (topic : List Char) : Queue :=
  { q with
    slots := Function.update q.slots (q.tail%queueCap)
      ⟨true, q.nextId, false, some prompt, some topic, machine⟩
    tail := q.tail+1
    nextId := q.nextId+1
    pending := q.pending+1
    submitted := q.submitted++[(q.nextId, topic)] }

variable {q : Queue}

theorem submit_cases {prompt topic : List Char} {machine : Option (List ℕ)}
    {headroom : ℕ} {r : Queue × Except SubmitErr ℕ}
    (h : submit q prompt machine topic headroom = .ok r) :
    r.1 = q ∨ q.tail-q.head < queueCap ∧ ∃ topic', r.1 = q.enter prompt machine topic' := by
  rw [submit] at h
  split at h
  · cases h
    exact .inl rfl
  split at h
  · cases h
    exact .inl rfl
  split at h
  · cases h
  next topic' _ =>
  split at h
  · cases h
    exact .inl rfl
  · next hroom =>
    cases h
    exact .inr ⟨by omega, topic', rfl⟩

theorem mod_ne {i tail : ℕ} (hlt : i < tail) (hnear : tail-i < queueCap) :
    i%queueCap ≠ tail%queueCap := by
  intro heq
  have := Nat.sub_mod_eq_zero_of_mod_eq heq.symm
  rw [Nat.mod_eq_of_lt hnear] at this
  omega

theorem enter_lined {prompt topic : List Char} {machine : Option (List ℕ)}
    (h : Lined q) (hroom : q.tail-q.head < queueCap) : Lined (q.enter prompt machine topic) := by
  obtain ⟨ho, hr, hn, hp, hi, hc, hs, ht⟩ := h
  have hmem : ∀ e ∈ q.submitted, e ∈ (q.enter prompt machine topic).submitted :=
    fun e he => List.mem_append_left _ he
  refine ⟨?_, ?_, ?_, ?_, ?_, hc, ?_, ?_⟩
  · exact Nat.le_succ_of_le ho
  · simp only [Queue.enter]
    omega
  · simp only [Queue.enter]
    omega
  · simp only [Queue.enter]
    omega
  · simp only [Queue.enter, List.map_append, hi, hn, List.map_cons, List.map_nil]
    rw [List.range'_1_concat, Nat.add_comm 1]
  · intro i hlo hhi
    by_cases hlast : i = q.tail
    · subst hlast
      have hslot : (q.enter prompt machine topic).slots (q.tail%queueCap) =
          ⟨true, q.nextId, false, some prompt, some topic, machine⟩ := Function.update_self ..
      rw [hslot]
      refine ⟨rfl, topic, hn, rfl, ?_⟩
      rw [← hn]
      exact List.mem_append_right _ List.mem_cons_self
    · have hhi' : i < q.tail := by
        have : i < q.tail+1 := hhi
        omega
      have hlo' : q.head ≤ i := hlo
      have hslot : (q.enter prompt machine topic).slots (i%queueCap) = q.slots (i%queueCap) :=
        Function.update_of_ne (mod_ne hhi' (by omega)) ..
      obtain ⟨hocc, t, hid, htopic, hin⟩ := hs i hlo' hhi'
      rw [hslot]
      exact ⟨hocc, t, hid, htopic, hmem _ hin⟩
  · exact fun r hr => hmem _ (ht r hr)

theorem enter_within {prompt topic : List Char} {machine : Option (List ℕ)}
    (h : Within q) (hroom : q.tail-q.head < queueCap) :
    Within (q.enter prompt machine topic) := by
  refine ⟨enter_lined h.lined hroom, ?_, ?_⟩
  · intro hnone
    obtain ⟨ha, hid, hf⟩ := h.settled hnone
    exact ⟨ha, hid, hf⟩
  · intro st hst
    rcases h.serving st hst with ⟨hr, hp, hj, ht, ha, hid⟩ | ⟨hidle, ha, hid, hf⟩
    · exact .inl ⟨hr, hp, hj, List.mem_append_left _ ht, ha, hid⟩
    · exact .inr ⟨hidle, ha, hid, hf⟩

theorem enter_inv {prompt topic : List Char} {machine : Option (List ℕ)}
    (h : Inv q) (hroom : q.tail-q.head < queueCap) : Inv (q.enter prompt machine topic) := by
  refine ⟨enter_lined h.lined hroom, ?_, ?_⟩
  · intro hnone
    obtain ⟨ha, hid, hf⟩ := h.settled hnone
    exact ⟨ha, hid, hf⟩
  · intro st hst
    obtain ⟨hr, hp, hj, ht, ha, hid⟩ := h.serving st hst
    exact ⟨hr, hp, hj, List.mem_append_left _ ht, ha, hid⟩

end submit

section claim

variable {q : Queue}

theorem Within.proof (h : Within q) (id : ℕ) (sent done : Bool) :
    Within { q with proofId := id, proofSubmitted := sent, proofDone := done } := by
  obtain ⟨⟨ho, hr, hn, hp, hi, hc, hs, ht⟩, hsettled, hserving⟩ := h
  refine ⟨⟨ho, hr, hn, hp, hi, hc, hs, ht⟩, ?_, ?_⟩
  · intro hnone
    obtain ⟨ha, hid, hf⟩ := hsettled hnone
    exact ⟨ha, hid, hf⟩
  · intro st hst
    rcases hserving st hst with ⟨hr, hp, hj, ht, ha, hid⟩ | ⟨hidle, ha, hid, hf⟩
    · exact .inl ⟨hr, hp, hj, ht, ha, hid⟩
    · exact .inr ⟨hidle, ha, hid, hf⟩

theorem maybeSubmitProof_within (w : World) (h : Within q) : Within (maybeSubmitProof w q) := by
  rw [maybeSubmitProof]
  split
  · exact h
  split
  · next q' id hsub =>
    rcases submit_cases hsub with rfl | ⟨hroom, topic, rfl⟩
    · exact h.proof _ _ _
    · exact (enter_within h hroom).proof _ _ _
  · exact h

theorem take_lined (h : Lined q) (hlt : q.head < q.tail) :
    Lined q.take ∧ ∃ topic, (q.slots (q.head%queueCap)).id = q.head+1 ∧
      (q.slots (q.head%queueCap)).replyTopic = some topic ∧ (q.head+1, topic) ∈ q.submitted := by
  obtain ⟨ho, hr, hn, hp, hi, hc, hs, ht⟩ := h
  obtain ⟨-, topic, hid, htopic, hmem⟩ := hs q.head le_rfl hlt
  refine ⟨⟨hlt, ?_, hn, ?_, hi, ?_, ?_, ht⟩, topic, hid, htopic, hmem⟩
  · simp only [Queue.take]
    omega
  · simp only [Queue.take]
    omega
  · simp only [Queue.take, hc, hid]
    rw [List.range'_1_concat, Nat.add_comm 1]
  intro i hlo hhi
  have hlo' : q.head < i := hlo
  have hhi' : i < q.tail := hhi
  have hslot : q.take.slots (i%queueCap) = q.slots (i%queueCap) :=
    Function.update_of_ne (Ne.symm (mod_ne hlo' (by omega))) ..
  rw [hslot]
  exact hs i hlo'.le hhi'

theorem refused_settled {topic : List Char} (text : String) (h : Lined q)
    (hset : Settled q) (hlt : q.head < q.tail)
    (htopic : (q.slots (q.head%queueCap)).replyTopic.getD llmResponse = topic) :
    let id := (q.slots (q.head%queueCap)).id
    Lined ((q.take.reply id topic text).noteTerminal id) ∧
      Settled ((q.take.reply id topic text).noteTerminal id) := by
  obtain ⟨hl, topic', hid, hsome, hmem⟩ := take_lined h hlt
  have htopic' : topic' = topic := by rw [← htopic, hsome, Option.getD_some]
  obtain ⟨ho, hr, hn, hp, hi, hc, hs, ht⟩ := hl
  refine ⟨⟨ho, hr, hn, hp, hi, hc, hs, ?_⟩, ?_, hset.activeId, hset.inFlight⟩
  · intro r hr
    rcases List.mem_append.mp hr with hold | hnew
    · exact ht r hold
    · rw [List.mem_singleton.mp hnew, hid, ← htopic']
      exact hmem
  · have hans : q.replies.map Prod.fst = List.range' 1 q.head := hset.answered
    simp only [Answered, Queue.noteTerminal, Queue.reply, Queue.take, List.map_append, hans, hid,
      List.map_cons, List.map_nil]
    rw [List.range'_1_concat, Nat.add_comm 1]

theorem freshActive_running (w : World) (q : Queue) (slot : Slot) :
    (freshActive w q slot).running = true := by
  cases hs : w.streaming <;> simp [freshActive, ActiveState.running, hs]

theorem claimLoop_inv (w : World) (fuel n : ℕ) (h : Lined q)
    (hnone : q.active = none) (hset : Settled q) : Inv (claimLoop w fuel n q) := by
  induction fuel generalizing n q with
  | zero =>
    exact ⟨h, fun _ => hset, fun st hst => absurd (hnone.symm.trans hst) (by simp)⟩
  | succ fuel ih =>
    rw [claimLoop]
    split
    · exact ⟨h, fun _ => hset, fun st hst => absurd (hnone.symm.trans hst) (by simp)⟩
    next hhead =>
    have hlt : q.head < q.tail := by
      by_contra hge
      exact hhead (.inl (Nat.le_of_not_lt hge))
    split
    · obtain ⟨hl, hs⟩ := refused_settled "[cancelled]" h hset hlt rfl
      exact ih (n+1) hl hnone hs
    split
    · obtain ⟨hl, hs⟩ := refused_settled escalateMsg h hset hlt rfl
      exact ih (n+1) hl hnone hs
    obtain ⟨⟨ho, hr, hn, hp, hi, hc, hsl, ht⟩, topic, hid, htopic, hmem⟩ := take_lined h hlt
    refine ⟨⟨ho, hr, hn, hp, hi, hc, hsl, ht⟩, ?_, ?_⟩
    · intro hactive
      cases hactive
    · intro st hst
      obtain rfl := Option.some.inj hst
      refine ⟨freshActive_running w q _, Nat.succ_pos _, hid, ?_, hset.answered, hid⟩
      simp only [freshActive, htopic, Option.getD_some, hid]
      exact hmem

theorem tryClaim_within (w : World) (h : Within q) : Within (tryClaimIntoActive w q) := by
  rw [tryClaimIntoActive]
  split
  · exact h
  next hfree =>
  have hnone : q.active = none := by
    cases hact : q.active with
    | none => rfl
    | some st => exact absurd (Or.inl (by rw [hact]; rfl)) hfree
  exact (claimLoop_inv w _ 0 h.lined hnone (h.settled hnone)).within

end claim

/-! ## Every accepted job is answered once -/
open Machine

section phases
variable {w : World} {q : Queue} {st : ActiveState}

def Advances (w : World) (q : Queue) (st : ActiveState) (r : Queue × ActiveState) : Prop :=
  (r.1 = q ∧ r.2.running = true ∧ r.2.jobId = st.jobId ∧ r.2.replyTopic = st.replyTopic) ∨
    ∃ st' text, r = finishJob w q st' text ∧ st'.jobId = st.jobId ∧
      st'.replyTopic = st.replyTopic

variable {st' : ActiveState}

theorem finishes {text : String} (hid : st'.jobId = st.jobId)
    (htopic : st'.replyTopic = st.replyTopic) : Advances w q st (finishJob w q st' text) :=
  .inr ⟨st', text, rfl, hid, htopic⟩

theorem setup_advances : Advances w q st (runPrefillSetup w q st) := by
  rw [runPrefillSetup]
  split
  · exact finishes rfl rfl
  split
  · exact finishes rfl rfl
  · exact .inl ⟨rfl, rfl, rfl, rfl⟩
  · split
    · exact finishes rfl rfl
    · exact .inl ⟨rfl, rfl, rfl, rfl⟩

theorem startChunk_ok (h : startChunk w st = .ok st') :
    st'.phase = st.phase ∧ st'.jobId = st.jobId ∧ st'.replyTopic = st.replyTopic := by
  rw [startChunk] at h
  split at h
  · cases h
    exact ⟨rfl, rfl, rfl⟩
  split at h
  · cases h
  split at h
  · cases h
  · split at h
    · cases h
    · cases h
      exact ⟨rfl, rfl, rfl⟩

theorem endChunk_same {st : ActiveState} (h : st.phase = .prefilling) :
    (endChunk st).running = true ∧ (endChunk st).jobId = st.jobId ∧
      (endChunk st).replyTopic = st.replyTopic := by
  rw [endChunk]
  split
  · simp [ActiveState.running, h]
  · exact ⟨rfl, rfl, rfl⟩

theorem prefillStep_advances (h : st.phase = .prefilling) :
    Advances w q st (runPrefillStep w q st) := by
  rw [runPrefillStep]
  split
  · exact finishes rfl rfl
  split
  · exact finishes rfl rfl
  split
  · exact finishes rfl rfl
  split
  · exact finishes rfl rfl
  split
  · exact finishes rfl rfl
  next st' hchunk =>
    obtain ⟨hphase, hid, htopic⟩ := startChunk_ok hchunk
    have hpre : st'.phase = .prefilling := hphase.trans h
    split
    · exact finishes hid htopic
    split
    · exact finishes hid htopic
    · exact finishes hid htopic
    next layer _ =>
    split
    · exact .inl ⟨rfl, by simp [ActiveState.running, hpre], hid, htopic⟩
    · have hpre' : ({ st' with prefillLayer := layer } : ActiveState).phase = .prefilling := hpre
      obtain ⟨hr, hi, ht⟩ := endChunk_same hpre'
      exact .inl ⟨rfl, hr, hi.trans hid, ht.trans htopic⟩

theorem prefill_advances : Advances w q st (runPrefill w q st) := by
  have hsetup : Advances w q st (runPrefillSetup w q st) := setup_advances
  rw [runPrefill]
  split
  · next hpre =>
    have hstep : Advances w (runPrefillSetup w q st).1 (runPrefillSetup w q st).2
        (runPrefillStep w (runPrefillSetup w q st).1 (runPrefillSetup w q st).2) :=
      prefillStep_advances hpre
    rcases hsetup with ⟨hq, -, hid, htopic⟩ | ⟨st', text, heq, -, -⟩
    · rcases hstep with ⟨hq', hr', hid', htopic'⟩ | ⟨st', text, heq, hid', htopic'⟩
      · exact .inl ⟨hq'.trans hq, hr', hid'.trans hid, htopic'.trans htopic⟩
      · exact .inr ⟨st', text, by rw [heq, hq], hid'.trans hid, htopic'.trans htopic⟩
    · rw [heq] at hpre
      cases hpre
  · exact hsetup

theorem evictDecode_same (w : World) (st : ActiveState) :
    (evictDecode w st).phase = st.phase ∧ (evictDecode w st).jobId = st.jobId ∧
      (evictDecode w st).replyTopic = st.replyTopic := by
  rw [evictDecode]
  split
  · exact ⟨rfl, rfl, rfl⟩
  · exact ⟨rfl, rfl, rfl⟩

theorem pushToken_same (w : World) (st : ActiveState) :
    (pushToken w st).phase = st.phase ∧ (pushToken w st).jobId = st.jobId ∧
      (pushToken w st).replyTopic = st.replyTopic := ⟨rfl, rfl, rfl⟩

theorem decodeOne_advances (h : st.phase = .decoding) : Advances w q st (runDecodeOne w q st) := by
  obtain ⟨hphase, hid, htopic⟩ := evictDecode_same w st
  obtain ⟨hphase', hid', htopic'⟩ := pushToken_same w (evictDecode w st)
  rw [runDecodeOne]
  split
  · exact finishes rfl rfl
  split
  · exact finishes rfl rfl
  split
  · exact finishes rfl rfl
  split
  · exact finishes rfl rfl
  dsimp only
  split
  · exact finishes hid htopic
  split
  · exact finishes (hid'.trans hid) (htopic'.trans htopic)
  · refine .inl ⟨rfl, ?_, hid'.trans hid, htopic'.trans htopic⟩
    simp [ActiveState.running, hphase', hphase, h]

theorem coarse_advances : Advances w q st (runCoarse w q st) := by
  rw [runCoarse]
  split
  · exact finishes rfl rfl
  · exact finishes rfl rfl

theorem phase_advances (h : st.running = true) : Advances w q st (runPhase w q st) := by
  rw [runPhase]
  split
  · exact prefill_advances
  · next hphase => exact prefillStep_advances hphase
  · next hphase => exact decodeOne_advances hphase
  · exact coarse_advances
  · next hphase => simp [ActiveState.running, hphase] at h
  · next hphase => simp [ActiveState.running, hphase] at h

theorem finishJob_settled (text : String) (hl : Lined q) (hs : Serving q st)
    (hid : st'.jobId = st.jobId) (htopic : st'.replyTopic = st.replyTopic) :
    Lined (finishJob w q st' text).1 ∧ Settled (finishJob w q st' text).1 := by
  obtain ⟨ho, hr, hn, hp, hi, hc, hsl, ht⟩ := hl
  refine ⟨⟨ho, hr, hn, hp, hi, hc, hsl, ?_⟩, ?_, rfl, rfl⟩
  · intro r hr
    rcases List.mem_append.mp hr with hold | hnew
    · exact ht r hold
    · rw [List.mem_singleton.mp hnew, hid, htopic]
      exact hs.topic
  · have hans : q.replies.map Prod.fst = List.range' 1 (q.head-1) := hs.answered
    have hpos := hs.pos
    simp only [Answered, finishJob, List.map_append, hans, hid, hs.jobId, List.map_cons,
      List.map_nil]
    rw [show q.head = q.head-1+1 by omega, List.range'_1_concat, Nat.add_sub_cancel, Nat.add_comm 1]

theorem watchProof_within (w : World) {q : Queue} (h : Inv q) : Within (watchProof w q) := by
  rw [watchProof]
  split
  · split
    · exact h.within.proof _ _ _
    · next st _ hst =>
      split
      · obtain ⟨⟨ho, hr, hn, hp, hi, hc, hsl, ht⟩, ha, hid, hf⟩ :=
          finishJob_settled (w := w) "[stop=slice_budget — HITL escalate]" h.lined
            (h.serving st hst) rfl rfl
        refine ⟨⟨ho, hr, hn, hp, hi, hc, hsl, ht⟩, ?_, ?_⟩
        · intro hnone
          cases hnone
        · intro st' hst'
          obtain rfl := Option.some.inj hst'
          exact .inr ⟨rfl, ha, hid, hf⟩
      · exact h.within
    · exact h.within
  · exact h.within

end phases

section slice

def atSlice (w : World) (q : Queue) : Queue :=
  tryClaimIntoActive w (maybeSubmitProof w (watchProof w q))

/-- A poll that finds the memory critical has no running job in its slice. -/
def Spared (q : Queue) : Call → Prop
  | .pollSlice w =>
    w.critical = true → ∀ st, (atSlice w q).active = some st → st.running = false
  | _ => True

theorem slice_inv {w : World} {q : Queue} (h : Within q)
    (hspared : w.critical = true → ∀ st, q.active = some st → st.running = false) :
    Inv (slice w q) := by
  rw [slice]
  split
  · next hnone => exact ⟨h.lined, h.settled, fun st hst => absurd (hnone.symm.trans hst) (by simp)⟩
  next st hst =>
  have hkeep : ¬(st.running = true ∧ w.critical = true) := by
    rintro ⟨hrun, hcrit⟩
    rw [hspared hcrit st hst] at hrun
    cases hrun
  rw [if_neg hkeep]
  dsimp only
  rcases h.serving st hst with hserving | ⟨hidle, ha, hid, hf⟩
  · rcases phase_advances (w := w) (q := q) hserving.running with
      ⟨hq, hrun, hid, htopic⟩ | ⟨st', text, heq, hid, htopic⟩
    · have hgo : ¬(st.running = false ∨ (runPhase w q st).2.phase = .idle) := by
        rintro (hstop | hstop)
        · rw [hserving.running] at hstop
          cases hstop
        · simp [ActiveState.running, hstop] at hrun
      rw [if_neg hgo, hq]
      obtain ⟨ho, hr, hn, hp, hi, hc, hsl, ht⟩ := h.lined
      refine ⟨⟨ho, hr, hn, hp, hi, hc, hsl, ht⟩, ?_, ?_⟩
      · intro hnone
        cases hnone
      · intro st' hst'
        obtain rfl := Option.some.inj hst'
        exact ⟨hrun, hserving.pos, hid.trans hserving.jobId, by
          rw [hid, htopic]
          exact hserving.topic, hserving.answered, hserving.activeId⟩
    · rw [heq, if_pos (.inr rfl)]
      obtain ⟨⟨ho, hr, hn, hp, hi, hc, hsl, ht⟩, ha, hid, hf⟩ :=
        finishJob_settled (w := w) text h.lined hserving hid htopic
      refine ⟨⟨ho, hr, hn, hp, hi, hc, hsl, ht⟩, fun _ => ⟨ha, hid, hf⟩, ?_⟩
      intro st'' hst''
      cases hst''
  · have hstop : st.running = false := by simp [ActiveState.running, hidle]
    have hsame : runPhase w q st = (q, st) := by simp [runPhase, hidle]
    rw [if_pos (.inl hstop), hsame]
    obtain ⟨ho, hr, hn, hp, hi, hc, hsl, ht⟩ := h.lined
    refine ⟨⟨ho, hr, hn, hp, hi, hc, hsl, ht⟩, fun _ => ⟨ha, hid, hf⟩, ?_⟩
    intro st'' hst''
    cases hst''

theorem atSlice_within (w : World) {q : Queue} (h : Inv q) : Within (atSlice w q) :=
  tryClaim_within w (maybeSubmitProof_within w (watchProof_within w h))

theorem step_inv {q : Queue} {call : Call} (h : Inv q) (hspared : Spared q call) :
    Inv (step q call) := by
  cases call with
  | submit prompt machine topic headroom =>
    rw [step]
    split
    · next r hsub =>
      rcases submit_cases hsub with hsame | ⟨hroom, topic', henter⟩
      · rw [hsame]
        exact h
      · rw [henter]
        exact enter_inv h hroom
    · exact h
  | cancel id => exact (cancel_flagged q id).inv h
  | cancelActive => exact (cancelActive_flagged q).inv h
  | pollSlice w => exact slice_inv (atSlice_within w h) hspared

end slice

/-- What a caller may rely on: at most one reply to an id, on the topic it was submitted with;
claims in the order of submission; and with no job active every claimed job answered, the flags
released and the count of waiting jobs right. -/
structure Sound (q : Queue) : Prop where
  once : ∀ id, (q.replies.map Prod.fst).count id ≤ 1
  topics : ∀ r ∈ q.replies, (r.1, r.2.1) ∈ q.submitted
  order : q.claimed <+: q.submitted.map Prod.fst
  answered : q.active = none → ∀ id ∈ q.claimed, id ∈ q.replies.map Prod.fst
  released : q.active = none → q.activeId = 0 ∧ q.inFlight = false
  pending : q.active = none → q.pending = q.submitted.length-q.claimed.length

theorem Inv.sound {q : Queue} (h : Inv q) : Sound q := by
  obtain ⟨⟨ho, hr, hn, hp, hi, hc, hsl, ht⟩, hsettled, hserving⟩ := h
  have hanswered : ∃ n, q.replies.map Prod.fst = List.range' 1 n := by
    cases hact : q.active with
    | none => exact ⟨_, (hsettled hact).answered⟩
    | some st => exact ⟨_, (hserving st hact).answered⟩
  obtain ⟨n, hanswered⟩ := hanswered
  refine ⟨?_, ht, ?_, ?_, ?_, ?_⟩
  · intro id
    rw [hanswered]
    exact List.nodup_iff_count_le_one.mp List.nodup_range' id
  · rw [hc, hi, ← Nat.add_sub_cancel' ho, ← List.range'_append_1]
    exact List.prefix_append _ _
  · intro hnone id hid
    have hans : q.replies.map Prod.fst = List.range' 1 q.head := (hsettled hnone).answered
    rw [hans, ← hc]
    exact hid
  · intro hnone
    exact ⟨(hsettled hnone).activeId, (hsettled hnone).inFlight⟩
  · intro _
    have hlen : q.submitted.length = q.tail := by
      rw [← List.length_map (f := Prod.fst), hi, List.length_range']
    rw [hp, hlen, hc, List.length_range']

theorem dropped_unsound {q : Queue} {call : Call} (h : Inv q) (hdrop : ¬Spared q call) :
    ¬Sound (step q call) := by
  cases call with
  | submit prompt machine topic headroom => exact absurd trivial hdrop
  | cancel id => exact absurd trivial hdrop
  | cancelActive => exact absurd trivial hdrop
  | pollSlice w =>
    intro hsound
    apply hdrop
    intro hcrit st hst
    by_contra hrun
    rw [Bool.not_eq_false] at hrun
    have hserving : Serving (atSlice w q) st := by
      rcases (atSlice_within w h).serving st hst with hs | ⟨hidle, -⟩
      · exact hs
      · simp [ActiveState.running, hidle] at hrun
    have hstep : step q (.pollSlice w) = { atSlice w q with active := none } := by
      have hslice : slice w (atSlice w q) = { atSlice w q with active := none } := by
        have hboth : st.running = true ∧ w.critical = true := ⟨hrun, hcrit⟩
        rw [slice, hst]
        simp only [if_pos hboth]
        rfl
      exact hslice
    rw [hstep] at hsound
    have hzero : (atSlice w q).activeId = 0 := (hsound.released rfl).1
    have hactive := hserving.activeId
    have hpos := hserving.pos
    omega

theorem jobs_answered_iff (calls : List Call) :
    (∀ n, Sound (run step Queue.new (calls.take n))) ↔ Along step Spared Queue.new calls := by
  suffices hmain : ∀ q, Inv q →
      ((∀ n, Sound (run step q (calls.take n))) ↔ Along step Spared q calls) from
    hmain Queue.new new_inv
  induction calls with
  | nil =>
    intro q hq
    exact ⟨fun _ => trivial, fun _ n => by rw [List.take_nil]; exact hq.sound⟩
  | cons call calls ih =>
    intro q hq
    constructor
    · intro hall
      have hspared : Spared q call := by
        by_contra hdrop
        exact dropped_unsound hq hdrop (hall 1)
      exact ⟨hspared, (ih _ (step_inv hq hspared)).mp fun n => hall (n+1)⟩
    · intro halong n
      cases n with
      | zero => exact hq.sound
      | succ n => exact (ih _ (step_inv hq halong.1)).mpr halong.2 n

def calmWorld : World where
  watch := .quiet
  modelLoaded := false
  submitHeadroom := 512
  claimCritical := false
  claimHeadroom _ := 512
  streaming := false
  critical := false
  low := false
  model := .transformer
  bpeLoaded := true
  eos := 1
  eot := 2
  greeting := false
  escalate := false
  tokens := [5]
  maxSeq := 64
  maxGen := 4
  wouldPause := false
  embedOk := true
  embedLen := 1
  layers := 1
  stride := 1
  layersPerSlice := 1
  padOk _ := true
  layerOk _ := true
  evictDropped := 0
  evictLen := 0
  next := 7
  piece := "a"
  greetingish := false
  gibberish := false
  generated := ""

def pressedRun : Queue :=
  run step Queue.new [.submit ['a'] none [] 512, .pollSlice calmWorld,
    .pollSlice { calmWorld with critical := true }]

theorem job_dropped :
    pressedRun.active.isNone ∧ pressedRun.claimed = [1] ∧ pressedRun.replies = [] ∧
      pressedRun.activeId = 1 ∧ pressedRun.inFlight = true ∧ ¬Sound pressedRun := by
  have hstate : pressedRun.active.isNone ∧ pressedRun.claimed = [1] ∧ pressedRun.replies = [] ∧
      pressedRun.activeId = 1 ∧ pressedRun.inFlight = true := by
    decide
  obtain ⟨hnone, hclaimed, hreplies, hid, hflight⟩ := hstate
  refine ⟨hnone, hclaimed, hreplies, hid, hflight, ?_⟩
  intro hsound
  have hzero := (hsound.released (Option.isNone_iff_eq_none.mp hnone)).1
  omega

end NeuralOs.Cortex.Infer
