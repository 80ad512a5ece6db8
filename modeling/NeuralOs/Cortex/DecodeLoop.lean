import NeuralOs.Cortex.KvCache

/-!
# The decoding loop

`generate_speculative_with_ctx` from the clipped prompt on: each turn makes room in
the cache, chooses a token, tries a draft of the n-gram speculator or of the Medusa
heads, and otherwise feeds the token to the model. The model, the cache, the choice
functions and the structured decoder are parameters.
-/

set_option autoImplicit false

namespace NeuralOs.Cortex

def ngramN : ℕ := 8

def ngramM : ℕ := 4

def hashWindow (tokens : List ℕ) : ℕ :=
  tokens.foldl (fun h t => (h*6364136223846793005+t)%2^64) 0

structure NgramSpeculator where
  history : List ℕ
  /-- hash, and where the continuation starts -/
  entries : List (ℕ × ℕ)

namespace NgramSpeculator

def new : NgramSpeculator := ⟨[], []⟩

def upsert : List (ℕ × ℕ) → ℕ → ℕ → List (ℕ × ℕ)
  | [], hash, contStart => [(hash, contStart)]
  | e::es, hash, contStart =>
    if e.1 = hash then (hash, contStart)::es else e::upsert es hash contStart

def feed (s : NgramSpeculator) (token : ℕ) : NgramSpeculator :=
  let history := s.history++[token]
  let len := history.length
  if ngramN+1 ≤ len then
    let contStart := len-1
    let window := (history.drop (contStart-ngramN)).take ngramN
    ⟨history, upsert s.entries (hashWindow window) contStart⟩
  else ⟨history, s.entries⟩

def feedSlice (s : NgramSpeculator) (tokens : List ℕ) : NgramSpeculator := tokens.foldl feed s

def propose (s : NgramSpeculator) : List ℕ :=
  let len := s.history.length
  if len < ngramN then []
  else
    let h := hashWindow (s.history.drop (len-ngramN))
    match s.entries.find? fun e => e.1 = h ∧ e.2 < len with
    | some e => (s.history.drop e.2).take ngramM
    | none => []

end NgramSpeculator

/-- `verify_draft`: how many drafts after the first agree with the row before them, and the
token of the first row that disagrees or of the last. -/
def verifyDraft (rowMax : ℕ → ℕ) (drafts : List ℕ) : ℕ × ℕ :=
  if drafts = [] then (0, 1)
  else go rowMax drafts 0
where
  go (rowMax : ℕ → ℕ) : List ℕ → ℕ → ℕ × ℕ
    | _::next::rest, i =>
      if rowMax i = next then go rowMax (next::rest) (i+1) else (i, rowMax i)
    | _, i => (i, rowMax i)

variable {F : Type}

/-- What the choices ask of floating point; `penalty` divides or multiplies by the repetition
penalty when there is one. -/
structure FloatOrder (F : Type) where
  gt : F → F → Bool
  negInf : F
  isNan : F → Bool
  penalty : Option (F → F)

variable (O : FloatOrder F)

def logitsRow (logits : Tensor F) (row : ℕ) : List F :=
  (logits.data.drop (row*logits.shape.2)).take logits.shape.2

def argmaxRow (logits : Tensor F) (row : ℕ) : ℕ :=
  ((logitsRow logits row).zipIdx.foldl
    (fun best v => if O.gt v.1 best.2 then (v.2, v.1) else best) (0, O.negInf)).1

/-- `argmax_row_hf_vocab`: neither a recent nor a forbidden token; the last 64 of `hist` are
penalised. -/
def argmaxRowHfVocab (eos : ℕ) (forbidden : ℕ → Bool) (logits : Tensor F) (row : ℕ)
    (recent hist : List ℕ) : ℕ :=
  let seen := hist.drop (hist.length-64)
  let best := (logitsRow logits row).zipIdx.foldl (fun (best : Option (ℕ × F)) v =>
    if recent.contains v.2 || forbidden v.2 || O.isNan v.1 then best
    else
      let x := match O.penalty with
        | some p => if seen.contains v.2 then p v.1 else v.1
        | none => v.1
      match best with
      | none => some (v.2, x)
      | some b => if O.gt x b.2 then some (v.2, x) else some b) none
  match best with
  | some b => b.1
  | none => eos

/-- `argmax_row_char_vocab`: a character, and not the one before; the end of sequence when no
entry is above the lowest value. -/
def argmaxRowCharVocab (logits : Tensor F) (row : ℕ) (prev : Option ℕ) : ℕ :=
  ((((logitsRow logits row).zipIdx.take 99).drop 3).foldl (fun best v =>
    if (prev = some (v.2%2^16) ∧ v.2 < 140) ∨ O.isNan v.1 then best
    else if O.gt v.1 best.2 then (v.2, v.1) else best) (1, O.negInf)).1

/-! ## The decoding loop -/
open Checked MeasuredLoop

/-- The settings of one call and everything it calls: `C` is the cache, `H` a hidden state,
`L` logits, `D` a structured decoder. -/
structure Env (C H L D : Type) where
  maxSeq : ℕ
  maxGen : ℕ
  eos : ℕ
  eot : ℕ
  useBpe : Bool
  isGreeting : Bool
  /-- tied embeddings, a large hidden size and byte-pair tokens -/
  shortlisting : Bool
  /-- coherence sampling, read once in each turn -/
  cohOn : ℕ → Bool
  cacheLen : C → ℕ
  h2oEvict : C → ℕ → ℕ → ℕ × C
  /-- `forward_with_kv`, with the flag that leaves the logits out -/
  forward : Bool → C → List ℕ → C × H × L
  forwardAllLogits : C → List ℕ → C × L
  rowMax : L → ℕ → ℕ
  /-- at most one column: the logits were left out -/
  omitted : L → Bool
  scoreCandidates : H → List ℕ → L
  buildCandidates : L → List ℕ → List ℕ
  sampleCoherence : ℕ → L → List ℕ → ℕ
  pickHf : L → List ℕ → List ℕ → ℕ
  pickChar : L → Option ℕ → ℕ
  medusaHeads : List (H → L)
  maskLogits : D → L → L
  stepDecoder : D → ℕ → D
  greetingish : List ℕ → Bool
  propose : NgramSpeculator → List ℕ

structure GenState (C H L D : Type) where
  tokens : List ℕ
  recent : List ℕ
  spec : NgramSpeculator
  cache : C
  lastHidden : H
  lastLogits : L
  shortlist : List ℕ
  shortlistAge : ℕ
  decoder : Option D
  step : ℕ
  made : List ℕ

def refreshEvery : ℕ := 4

/-- `as u16` -/
def low16 (t : ℕ) : ℕ := t%2^16

variable {C H L D : Type}

namespace GenState

def push (s : GenState C H L D) (t : ℕ) : GenState C H L D :=
  let recent := s.recent++[t]
  { s with
    tokens := s.tokens++[t]
    recent := if 4 < recent.length then recent.drop 1 else recent
    spec := s.spec.feed (low16 t)
    step := s.step+1
    made := s.made++[t] }

end GenState

variable (E : Env C H L D)

/-- The eviction at the head of a turn: the tokens are cut down to the cache. -/
def evictTurn (s : GenState C H L D) : GenState C H L D :=
  let (dropped, cache) := E.h2oEvict s.cache 8 (E.maxSeq/2/3)
  if 0 < dropped ∧ E.cacheLen cache < s.tokens.length then
    let tokens := s.tokens.drop (s.tokens.length-E.cacheLen cache)
    { s with cache, tokens, recent := tokens.getLast?.toList }
  else { s with cache }

def makeRoom (s : GenState C H L D) : GenState C H L D :=
  if E.maxSeq ≤ s.tokens.length then evictTurn E s else s

def masked (s : GenState C H L D) : L :=
  match s.decoder with
  | some d => E.maskLogits d s.lastLogits
  | none => s.lastLogits

def prepare (s : GenState C H L D) : GenState C H L D :=
  let logits := masked E s
  if E.omitted logits ∧ s.shortlist ≠ [] then
    { s with lastLogits := E.scoreCandidates s.lastHidden s.shortlist }
  else if E.shortlisting then
    { s with
      lastLogits := logits
      shortlist := E.buildCandidates logits (s.recent.map low16)
      shortlistAge := 0 }
  else { s with lastLogits := logits }

def choose (s : GenState C H L D) : ℕ :=
  if E.cohOn s.step ∧ E.useBpe then E.sampleCoherence s.step s.lastLogits s.recent
  else if E.useBpe then E.pickHf s.lastLogits s.recent s.tokens
  else E.pickChar s.lastLogits (s.recent.getLast?.map low16)

/-- How many tokens of a draft are pushed; the first is taken as verified. -/
def kept (drafts : List ℕ) (s : GenState C H L D) : ℕ :=
  min (1+(verifyDraft (E.rowMax (E.forwardAllLogits s.cache drafts).2) drafts).1) drafts.length

def acceptDraft (drafts : List ℕ) (s : GenState C H L D) : GenState C H L D :=
  let bonus := (verifyDraft (E.rowMax (E.forwardAllLogits s.cache drafts).2) drafts).2
  let s := (drafts.take (kept E drafts s)).foldl GenState.push
    { s with cache := (E.forwardAllLogits s.cache drafts).1 }
  if low16 bonus ≠ low16 E.eos ∧ s.step < E.maxGen ∧ s.tokens.length < E.maxSeq then s.push bonus
  else s

def ended (s : GenState C H L D) : Bool :=
  s.tokens.getLast? = some E.eos || s.tokens.getLast? = some E.eot

abbrev Turn (C H L D : Type) := GenState C H L D ⊕ Run (GenState C H L D)

/-- A draft of the n-gram speculator; the logits are not refreshed. -/
def ngramTurn (drafts : List ℕ) (s : GenState C H L D) : Turn C H L D :=
  let s := acceptDraft E drafts s
  if ended E s then .inr (.ok s) else .inl s

def medusaDraft (s : GenState C H L D) : List ℕ :=
  (((E.medusaHeads.take 3).map fun head =>
      let logits := head s.lastHidden
      if E.useBpe then E.pickHf logits s.recent s.tokens
      else E.pickChar logits (s.recent.getLast?.map low16)).takeWhile
    fun t => t ≠ E.eos ∧ t ≠ E.eot).map low16

def medusaTurn (drafts : List ℕ) (s : GenState C H L D) : Turn C H L D :=
  let s := acceptDraft E drafts s
  if ended E s then .inr (.ok s)
  else
    match s.tokens.getLast? with
    | some last =>
      if s.step < E.maxGen ∧ s.tokens.length < E.maxSeq then
        let (cache, lastHidden, lastLogits) := E.forward false s.cache [last]
        .inl { s with cache, lastHidden, lastLogits, shortlistAge := refreshEvery }
      else .inl s
    | none => .inl s

def plainTurn (next : ℕ) (s : GenState C H L D) : Turn C H L D :=
  if s.step < E.maxGen ∧ s.tokens.length < E.maxSeq then
    let useSl := E.shortlisting && !s.shortlist.isEmpty && s.shortlistAge+1 < refreshEvery
    let (cache, lastHidden, lastLogits) := E.forward useSl s.cache [next]
    .inl { s with
      cache, lastHidden, lastLogits
      shortlistAge := if useSl then s.shortlistAge+1 else refreshEvery }
  else .inl s

def usedDraft (coh : Bool) (s : GenState C H L D) : List ℕ :=
  let draft := E.propose s.spec
  if 2 ≤ draft.length ∧ coh = false ∧ s.decoder.isNone then
    draft.take (min (min draft.length (E.maxGen-s.step)) ngramM)
  else []

def usedMedusa (coh : Bool) (s : GenState C H L D) : List ℕ :=
  if E.medusaHeads ≠ [] ∧ s.decoder.isNone ∧ coh = false ∧ s.step < E.maxGen ∧
      2 ≤ (medusaDraft E s).length then medusaDraft E s
  else []

def extend (coh : Bool) (next : ℕ) (s : GenState C H L D) : Turn C H L D :=
  if usedDraft E coh s ≠ [] then ngramTurn E (usedDraft E coh s) s
  else if usedMedusa E coh s ≠ [] then medusaTurn E (usedMedusa E coh s) s
  else plainTurn E next s

def atChoice (s : GenState C H L D) : GenState C H L D := prepare E (makeRoom E s)

def chosen (s : GenState C H L D) : GenState C H L D :=
  let s := atChoice E s
  let next := choose E s
  ({ s with decoder := s.decoder.map fun d => E.stepDecoder d (low16 next) }).push next

/-- How a turn leaves the loop before it extends the answer: no room, an end token, the slice
of the tokens after the prompt, an answer that is a greeting already. -/
def exits (promptLen : ℕ) (s : GenState C H L D) : Option (Run (GenState C H L D)) :=
  let next := choose E (atChoice E s)
  if E.maxSeq ≤ (makeRoom E s).tokens.length then some (.ok (makeRoom E s))
  else if next = E.eos ∨ next = E.eot then some (.ok (atChoice E s))
  else if E.useBpe ∧ (chosen E s).tokens.length < promptLen then some (.error .panic)
  else if E.useBpe ∧ E.isGreeting ∧ E.greetingish ((chosen E s).tokens.drop promptLen) then
    some (.ok (chosen E s))
  else none

def turn (promptLen : ℕ) (s : GenState C H L D) : Turn C H L D :=
  if s.step < E.maxGen then
    match exits E promptLen s with
    | some r => .inr r
    | none => extend E (E.cohOn s.step) (choose E (atChoice E s)) (chosen E s)
  else .inr (.ok s)

section appends

structure Appends (s t : GenState C H L D) (new : List ℕ) : Prop where
  tokens : t.tokens = s.tokens++new
  made : t.made = s.made++new
  step : t.step = s.step+new.length

theorem Appends.refl (s : GenState C H L D) : Appends s s [] :=
  ⟨(List.append_nil _).symm, (List.append_nil _).symm, rfl⟩

theorem Appends.trans {s t u : GenState C H L D} {m n : List ℕ} (h : Appends s t m)
    (h' : Appends t u n) : Appends s u (m++n) := by
  refine ⟨?_, ?_, ?_⟩
  · rw [h'.tokens, h.tokens, List.append_assoc]
  · rw [h'.made, h.made, List.append_assoc]
  · rw [h'.step, h.step, List.length_append, Nat.add_assoc]

theorem push_appends (s : GenState C H L D) (t : ℕ) : Appends s (s.push t) [t] := ⟨rfl, rfl, rfl⟩

theorem foldl_push_appends (s : GenState C H L D) (ts : List ℕ) :
    Appends s (ts.foldl GenState.push s) ts := by
  induction ts generalizing s with
  | nil => exact Appends.refl s
  | cons t ts ih => exact (push_appends s t).trans (ih _)

variable {E}

theorem kept_le (drafts : List ℕ) (s : GenState C H L D) : kept E drafts s ≤ drafts.length :=
  min_le_right _ _

theorem acceptDraft_appends (drafts : List ℕ) (s : GenState C H L D) :
    ∃ new, Appends s (acceptDraft E drafts s) new ∧
      (E.maxGen < (acceptDraft E drafts s).step ↔ E.maxGen < s.step+kept E drafts s) := by
  have hpush := foldl_push_appends { s with cache := (E.forwardAllLogits s.cache drafts).1 }
    (drafts.take (kept E drafts s))
  have hfold : Appends s ((drafts.take (kept E drafts s)).foldl GenState.push
      { s with cache := (E.forwardAllLogits s.cache drafts).1 }) (drafts.take (kept E drafts s)) :=
    ⟨hpush.tokens, hpush.made, hpush.step⟩
  have hlen : (drafts.take (kept E drafts s)).length = kept E drafts s := by
    rw [List.length_take]
    exact min_eq_left (kept_le drafts s)
  have hstep := hfold.step
  rw [hlen] at hstep
  rw [acceptDraft]
  split
  · next hbonus =>
    refine ⟨_, hfold.trans (push_appends _ _), ?_⟩
    rw [(push_appends _ _).step, List.length_singleton]
    omega
  · exact ⟨_, hfold, by rw [hstep]⟩

variable {promptLen : ℕ} {coh : Bool} {next : ℕ} {s t : GenState C H L D}

def Leaves (r : Turn C H L D) (t : GenState C H L D) : Prop := r = .inl t ∨ r = .inr (.ok t)

def Exceeds (E : Env C H L D) (coh : Bool) (s : GenState C H L D) : Prop :=
  usedDraft E coh s = [] ∧ usedMedusa E coh s ≠ [] ∧
    E.maxGen < s.step+kept E (usedMedusa E coh s) s

theorem usedDraft_length : (usedDraft E coh s).length ≤ E.maxGen-s.step := by
  rw [usedDraft]
  split
  · rw [List.length_take]
    omega
  · exact Nat.zero_le _

theorem ngramTurn_leaves {drafts : List ℕ} (h : Leaves (ngramTurn E drafts s) t) :
    t = acceptDraft E drafts s := by
  rw [Leaves, ngramTurn] at h
  split at h <;> simpa [eq_comm] using h

theorem medusaTurn_leaves {drafts : List ℕ} (h : Leaves (medusaTurn E drafts s) t) :
    Appends (acceptDraft E drafts s) t [] := by
  rw [Leaves, medusaTurn] at h
  dsimp only at h
  have hrefl := Appends.refl (acceptDraft E drafts s)
  split at h
  · obtain rfl : acceptDraft E drafts s = t := by simpa using h
    exact hrefl
  split at h
  · split at h
    · obtain rfl := by simpa using h
      exact ⟨hrefl.tokens, hrefl.made, hrefl.step⟩
    · obtain rfl : acceptDraft E drafts s = t := by simpa using h
      exact hrefl
  · obtain rfl : acceptDraft E drafts s = t := by simpa using h
    exact hrefl

theorem plainTurn_leaves (h : Leaves (plainTurn E next s) t) : Appends s t [] := by
  rw [Leaves, plainTurn] at h
  dsimp only at h
  have hrefl := Appends.refl s
  split at h
  · obtain rfl := by simpa using h
    exact ⟨hrefl.tokens, hrefl.made, hrefl.step⟩
  · obtain rfl : s = t := by simpa using h
    exact hrefl

theorem extend_leaves (hs : s.step ≤ E.maxGen) (h : Leaves (extend E coh next s) t) :
    ∃ new, Appends s t new ∧ (E.maxGen < t.step ↔ Exceeds E coh s) := by
  rw [extend] at h
  by_cases hdraft : usedDraft E coh s = []
  · rw [if_neg (not_not_intro hdraft)] at h
    by_cases hmedusa : usedMedusa E coh s = []
    · rw [if_neg (not_not_intro hmedusa)] at h
      have happ := plainTurn_leaves h
      refine ⟨[], happ, ?_⟩
      rw [happ.step]
      exact ⟨fun hlt => absurd hlt (Nat.not_lt.mpr hs), fun hex => absurd hmedusa hex.2.1⟩
    · rw [if_pos hmedusa] at h
      obtain ⟨new, happ, hstep⟩ := acceptDraft_appends (usedMedusa E coh s) s
      have hlast := medusaTurn_leaves h
      refine ⟨new++[], happ.trans hlast, ?_⟩
      rw [hlast.step, List.length_nil, Nat.add_zero, hstep]
      exact ⟨fun hlt => ⟨hdraft, hmedusa, hlt⟩, fun hex => hex.2.2⟩
  · rw [if_pos hdraft] at h
    obtain ⟨new, happ, hstep⟩ := acceptDraft_appends (usedDraft E coh s) s
    rw [ngramTurn_leaves h]
    refine ⟨new, happ, ?_⟩
    have hkept : kept E (usedDraft E coh s) s ≤ (usedDraft E coh s).length := kept_le _ s
    have hbudget : (usedDraft E coh s).length ≤ E.maxGen-s.step := usedDraft_length
    rw [hstep]
    exact ⟨fun hlt => absurd hlt (by omega), fun hex => absurd hex.1 hdraft⟩

theorem extend_returns (coh : Bool) (next : ℕ) (s : GenState C H L D) :
    ∃ t, Leaves (extend E coh next s) t := by
  rw [extend]
  split
  · rw [ngramTurn]
    split
    · exact ⟨_, .inr rfl⟩
    · exact ⟨_, .inl rfl⟩
  split
  · rw [medusaTurn]
    split
    · exact ⟨_, .inr rfl⟩
    · split
      · split
        · exact ⟨_, .inl rfl⟩
        · exact ⟨_, .inl rfl⟩
      · exact ⟨_, .inl rfl⟩
  · rw [plainTurn]
    split
    · exact ⟨_, .inl rfl⟩
    · exact ⟨_, .inl rfl⟩

end appends

section turn
variable {E} {promptLen : ℕ} {s t : GenState C H L D}

def Drains (E : Env C H L D) (s : GenState C H L D) : Prop :=
  E.maxSeq ≤ s.tokens.length ∧ 0 < (E.h2oEvict s.cache 8 (E.maxSeq/2/3)).1 ∧
    E.cacheLen (E.h2oEvict s.cache 8 (E.maxSeq/2/3)).2 < s.tokens.length

theorem makeRoom_made (s : GenState C H L D) :
    (makeRoom E s).made = s.made ∧ (makeRoom E s).step = s.step := by
  rw [makeRoom, evictTurn]
  dsimp only
  split
  · split
    · exact ⟨rfl, rfl⟩
    · exact ⟨rfl, rfl⟩
  · exact ⟨rfl, rfl⟩

theorem makeRoom_steady (h : ¬Drains E s) : (makeRoom E s).tokens = s.tokens := by
  rw [makeRoom, evictTurn]
  dsimp only
  split
  · next hfull => rw [if_neg fun hdrop => h ⟨hfull, hdrop⟩]
  · rfl

theorem makeRoom_drains (h : Drains E s) :
    ∃ lost, 0 < lost ∧ lost ≤ s.tokens.length ∧ (makeRoom E s).tokens = s.tokens.drop lost := by
  refine ⟨s.tokens.length-E.cacheLen (E.h2oEvict s.cache 8 (E.maxSeq/2/3)).2, ?_, ?_, ?_⟩
  · have := h.2.2
    omega
  · omega
  · rw [makeRoom, if_pos h.1, evictTurn]
    dsimp only
    rw [if_pos h.2]

theorem prepare_appends (s : GenState C H L D) : Appends s (prepare E s) [] := by
  have hrefl := Appends.refl s
  rw [prepare]
  split
  · exact ⟨hrefl.tokens, hrefl.made, hrefl.step⟩
  · split
    · exact ⟨hrefl.tokens, hrefl.made, hrefl.step⟩
    · exact ⟨hrefl.tokens, hrefl.made, hrefl.step⟩

theorem chosen_appends (s : GenState C H L D) :
    Appends (makeRoom E s) (chosen E s) [choose E (atChoice E s)] := by
  have hprep := prepare_appends (E := E) (makeRoom E s)
  have hpush := push_appends (atChoice E s) (choose E (atChoice E s))
  have hboth := hprep.trans hpush
  exact ⟨hboth.tokens, hboth.made, hboth.step⟩

def Overshoots (E : Env C H L D) (promptLen : ℕ) (s : GenState C H L D) : Prop :=
  exits E promptLen s = none ∧ Exceeds E (E.cohOn s.step) (chosen E s)

theorem exits_ok (h : exits E promptLen s = some (.ok t)) :
    ∃ new, Appends (makeRoom E s) t new ∧ t.step ≤ s.step+1 := by
  have hstep := (makeRoom_made (E := E) s).2
  have hprep := prepare_appends (E := E) (makeRoom E s)
  have hchosen := chosen_appends (E := E) s
  rw [exits] at h
  split at h
  · cases h
    exact ⟨[], Appends.refl _, by omega⟩
  split at h
  · cases h
    exact ⟨[], hprep, by rw [atChoice, hprep.step, hstep, List.length_nil]; omega⟩
  split at h
  · cases h
  · split at h
    · cases h
      exact ⟨_, hchosen, by rw [hchosen.step, hstep, List.length_singleton]⟩
    · cases h

theorem exits_panic {e : Stop Empty} (h : exits E promptLen s = some (.error e)) :
    (chosen E s).tokens.length < promptLen := by
  rw [exits] at h
  split at h
  · cases h
  split at h
  · cases h
  · split at h
    · next hslice => exact hslice.2
    · split at h
      · cases h
      · cases h

theorem turn_panic {e : Stop Empty} (h : turn E promptLen s = .inr (.error e)) :
    (chosen E s).tokens.length < promptLen := by
  rw [turn] at h
  split at h
  · cases hexit : exits E promptLen s with
    | some r =>
      rw [hexit] at h
      obtain rfl : r = .error e := Sum.inr.inj h
      exact exits_panic hexit
    | none =>
      rw [hexit] at h
      obtain ⟨t, ht | ht⟩ := extend_returns (E := E) (E.cohOn s.step) (choose E (atChoice E s))
        (chosen E s)
      · rw [ht] at h
        cases h
      · rw [ht] at h
        cases h
  · cases h

theorem turn_leaves (hs : s.step < E.maxGen) (h : Leaves (turn E promptLen s) t) :
    ∃ new, Appends (makeRoom E s) t new ∧ (E.maxGen < t.step ↔ Overshoots E promptLen s) := by
  rw [Leaves, turn, if_pos hs] at h
  have hstep := (makeRoom_made (E := E) s).2
  cases hexit : exits E promptLen s with
  | some r =>
    rw [hexit] at h
    obtain rfl : r = .ok t := by simpa using h
    obtain ⟨new, happ, hle⟩ := exits_ok hexit
    refine ⟨new, happ, ?_⟩
    rw [Overshoots, hexit]
    exact ⟨fun hlt => absurd hlt (by omega), fun hex => absurd hex.1 (by simp)⟩
  | none =>
    rw [hexit] at h
    have hchosen := chosen_appends (E := E) s
    have hle : (chosen E s).step ≤ E.maxGen := by
      rw [hchosen.step, hstep, List.length_singleton]
      exact hs
    obtain ⟨new, happ, hiff⟩ := extend_leaves hle h
    refine ⟨_, hchosen.trans happ, ?_⟩
    rw [hiff, Overshoots]
    exact ⟨fun hex => ⟨hexit, hex⟩, fun hex => hex.2⟩

theorem turn_progress (h : turn E promptLen s = .inl t) : s.step < E.maxGen ∧ s.step < t.step := by
  have hstep := (makeRoom_made (E := E) s).2
  by_cases hs : s.step < E.maxGen
  · refine ⟨hs, ?_⟩
    rw [turn, if_pos hs] at h
    cases hexit : exits E promptLen s with
    | some r =>
      rw [hexit] at h
      cases h
    | none =>
      rw [hexit] at h
      have hchosen := chosen_appends (E := E) s
      have hnow : (chosen E s).step = s.step+1 := by
        rw [hchosen.step, hstep, List.length_singleton]
      obtain ⟨new, happ, -⟩ := extend_leaves (by omega) (.inl h)
      rw [happ.step, hnow]
      omega
  · rw [turn, if_neg hs] at h
    cases h

end turn

def genLoop (promptLen : ℕ) : Loop (GenState C H L D) (Run (GenState C H L D)) where
  step := turn E promptLen
  measure s := E.maxGen-s.step
  decreases s t h := by
    have := turn_progress h
    omega

/-- A prompt that is too long loses its tail when it is a machine context, its head otherwise. -/
def clip (maxSeq : ℕ) (hasMachine : Bool) (tokens : List ℕ) : List ℕ :=
  if maxSeq < tokens.length then
    let keep := max maxSeq 1
    if hasMachine then tokens.take keep else tokens.drop (tokens.length-keep)
  else tokens

def prefilled (cache : C) (decoder : Option D) (tokens : List ℕ) : GenState C H L D :=
  let (cache, lastHidden, lastLogits) := E.forward false cache tokens
  { tokens
    recent := if E.isGreeting then [] else tokens.getLast?.toList
    spec := NgramSpeculator.new.feedSlice (tokens.map low16)
    cache, lastHidden, lastLogits
    shortlist := []
    shortlistAge := refreshEvery
    decoder
    step := 0
    made := [] }

def generate (cache : C) (decoder : Option D) (hasMachine : Bool) (prompt : List ℕ) :
    Run (List ℕ × GenState C H L D) := do
  let tokens := clip E.maxSeq hasMachine prompt
  let s ← (genLoop E tokens.length).exec (prefilled E cache decoder tokens)
  if s.tokens.length < tokens.length then .error .panic
  else pure (s.tokens.drop tokens.length, s)

/-! ## Drafts and plain decoding -/

def withoutDrafts (E : Env C H L D) : Env C H L D := { E with propose := fun _ => [] }

/-- When the turn asks for a draft it gets less than two tokens, or has no budget for them. -/
def NoDraft (E : Env C H L D) (s : GenState C H L D) : Prop :=
  (E.propose (chosen E s).spec).length < 2 ∨ E.maxGen ≤ (chosen E s).step

variable {E}

variable {s : GenState C H L D}

theorem usedDraft_nil {coh : Bool} (h : NoDraft E s) : usedDraft E coh (chosen E s) = [] := by
  rw [usedDraft]
  rcases h with hshort | hbudget
  · rw [if_neg fun hused => absurd hused.1 (Nat.not_le.mpr hshort)]
  · split
    · rw [Nat.sub_eq_zero_of_le hbudget, Nat.min_zero, Nat.zero_min, List.take_zero]
    · rfl

theorem usedDraft_withoutDrafts (coh : Bool) (s : GenState C H L D) :
    usedDraft (withoutDrafts E) coh s = [] := by
  rw [usedDraft]
  exact if_neg fun hused => absurd hused.1 (Nat.not_succ_le_zero 1)

theorem extend_withoutDrafts {coh : Bool} {next : ℕ} (h : usedDraft E coh s = []) :
    extend (withoutDrafts E) coh next s = extend E coh next s := by
  rw [extend, extend, usedDraft_withoutDrafts, h]
  rfl

theorem turn_withoutDrafts {promptLen : ℕ}
    (h : s.step < E.maxGen → exits E promptLen s = none → NoDraft E s) :
    turn (withoutDrafts E) promptLen s = turn E promptLen s := by
  have hexits : exits (withoutDrafts E) promptLen s = exits E promptLen s := rfl
  rw [turn, turn, hexits]
  by_cases hs : s.step < E.maxGen
  · rw [if_pos hs, if_pos (show s.step < (withoutDrafts E).maxGen from hs)]
    cases hexit : exits E promptLen s with
    | some r => rfl
    | none => exact extend_withoutDrafts (usedDraft_nil (h hs hexit))
  · rw [if_neg hs, if_neg (show ¬s.step < (withoutDrafts E).maxGen from hs)]

theorem drafts_lossless (E : Env C H L D) (cache : C) (decoder : Option D) (hasMachine : Bool)
    (prompt : List ℕ)
    (h : ∀ s, Visits (genLoop E (clip E.maxSeq hasMachine prompt).length)
        (prefilled E cache decoder (clip E.maxSeq hasMachine prompt)) s →
      s.step < E.maxGen → exits E (clip E.maxSeq hasMachine prompt).length s = none →
      NoDraft E s) :
    generate (withoutDrafts E) cache decoder hasMachine prompt =
      generate E cache decoder hasMachine prompt := by
  have hexec : (genLoop (withoutDrafts E) (clip E.maxSeq hasMachine prompt).length).exec
        (prefilled E cache decoder (clip E.maxSeq hasMachine prompt)) =
      (genLoop E (clip E.maxSeq hasMachine prompt).length).exec
        (prefilled E cache decoder (clip E.maxSeq hasMachine prompt)) := by
    symm
    -- both loops stay in the same state, which the run with drafts visits
    apply exec_simulation _ _ (fun s t => s = t ∧
      Visits (genLoop E (clip E.maxSeq hasMachine prompt).length)
        (prefilled E cache decoder (clip E.maxSeq hasMachine prompt)) s) Eq
    · rintro s t r ⟨rfl, hv⟩ hstop
      exact ⟨r, (turn_withoutDrafts (h s hv)).trans hstop, rfl⟩
    · rintro s t s' ⟨rfl, hv⟩ hgo
      exact ⟨s', (turn_withoutDrafts (h s hv)).trans hgo, rfl, hv.turn hgo⟩
    · exact ⟨rfl, .start⟩
  have hstart : prefilled (withoutDrafts E) cache decoder (clip E.maxSeq hasMachine prompt) =
      prefilled E cache decoder (clip E.maxSeq hasMachine prompt) := rfl
  have hclip : clip (withoutDrafts E).maxSeq hasMachine prompt = clip E.maxSeq hasMachine prompt :=
    rfl
  rw [generate, generate, hclip, hstart, hexec]

/-- A model that is a function of the cached tokens, without shortlist, sampling, Medusa heads,
structured decoder or eviction. -/
def seqEnv {F : Type} (O : FloatOrder F) (vocab : ℕ) (f : List ℕ → List F)
    (forbidden : ℕ → Bool) (useBpe : Bool) (eos eot maxSeq maxGen : ℕ) :
    Env (List ℕ) Unit (Tensor F) Unit where
  maxSeq := maxSeq
  maxGen := maxGen
  eos := eos
  eot := eot
  useBpe := useBpe
  isGreeting := false
  shortlisting := false
  cohOn _ := false
  cacheLen := List.length
  h2oEvict c _ _ := (0, c)
  forward _ c ts := (c++ts, (), ⟨(1, vocab), f (c++ts)⟩)
  forwardAllLogits c ts :=
    (c++ts, ⟨(ts.length, vocab), (List.range ts.length).flatMap fun i => f (c++ts.take (i+1))⟩)
  rowMax := argmaxRow O
  omitted l := l.shape.2 ≤ 1
  scoreCandidates _ _ := ⟨(0, 0), []⟩
  buildCandidates _ _ := []
  sampleCoherence _ _ _ := eos
  pickHf l recent hist := argmaxRowHfVocab O eos forbidden l 0 recent hist
  pickChar l prev := argmaxRowCharVocab O l 0 prev
  medusaHeads := []
  maskLogits _ l := l
  stepDecoder _ _ := ()
  greetingish _ := false
  propose := NgramSpeculator.propose

def intOrder : FloatOrder ℤ := ⟨fun a b => b < a, -1000, fun _ => false, none⟩

/-- After the prompt of twelve tokens the model wants 10, and the end after anything else. -/
def stopModel (seq : List ℕ) : List ℤ :=
  (List.range 12).map fun id => if id = (if seq.length = 12 then 10 else 1) then 1 else 0

def stopEnv (maxGen : ℕ) : Env (List ℕ) Unit (Tensor ℤ) Unit :=
  seqEnv intOrder 12 stopModel (fun _ => false) true 1 2 64 maxGen

def alternating : List ℕ := [10, 11, 10, 11, 10, 11, 10, 11, 10, 11, 10, 11]

/-- After a prompt of twelve tokens the model counts up from 10. -/
def countEnv : Env (List ℕ) Unit (Tensor ℤ) Unit :=
  seqEnv intOrder 15 (fun seq => (List.range 15).map fun id => if id+2 = seq.length then 1 else 0)
    (fun _ => false) true 1 2 64 3

def ascending : List ℕ := [3, 4, 5, 6, 7, 8, 9, 3, 4, 5, 6, 7]

instance (s : GenState (List ℕ) Unit (Tensor ℤ) Unit) : Decidable (NoDraft countEnv s) :=
  inferInstanceAs (Decidable (_ ∨ _))

theorem drafts_lossless_counted :
    generate (withoutDrafts countEnv) [] none false ascending =
        generate countEnv [] none false ascending ∧
      (generate countEnv [] none false ascending).map Prod.fst = .ok [10, 11, 12] := by
  refine ⟨drafts_lossless countEnv [] none false ascending fun s hv hs _ => ?_, by decide⟩
  -- two turns are asked for a draft in vain, the third has no budget for one
  have hstep := (chosen_appends (E := countEnv) s).step
  rw [(makeRoom_made s).2, List.length_singleton] at hstep
  have hbudget : countEnv.maxGen = 3 := rfl
  by_cases hlast : 2 ≤ s.step
  · exact .inr (by omega)
  have h₁ : (turn countEnv 12 (prefilled countEnv [] none ascending)).elim
      (fun t => decide (NoDraft countEnv t)) (fun _ => true) = true := by decide
  rcases hv with _ | ⟨hv, hgo⟩
  · exact of_decide_eq_true (by decide)
  rcases hv with _ | ⟨hv, hback⟩
  · rw [show turn countEnv 12 (prefilled countEnv [] none ascending) = .inl s from hgo] at h₁
    exact of_decide_eq_true h₁
  · have := turn_progress hgo
    have := turn_progress hback
    omega

/-- The model stops after one token; the draft 11, 10 gets its first token in unverified, and
the token after it is chosen from the logits of the prompt. -/
theorem draft_changes_answer :
    (generate (withoutDrafts (stopEnv 4)) [] none false alternating).map Prod.fst = .ok [10] ∧
      (generate (stopEnv 4) [] none false alternating).map Prod.fst = .ok [10, 11, 0] := by
  decide

end NeuralOs.Cortex
