import NeuralOs.Cortex.DecodeLoop

/-!
# The inference queue

Jobs wait in eight slots; `poll_slice` claims the oldest and moves it one slice
further: prefill, decoding token by token, or one call of a model that cannot be
sliced. What the heap, the model and the clock answer during one call is a `World`.
Replies, ids handed out and ids claimed are recorded.
-/

set_option autoImplicit false

namespace NeuralOs.Cortex.Infer
open Checked

def queueCap : ℕ := 8

def llmResponse : List Char := ['L', 'L', 'M', '_', 'R', 'E', 'S', 'P', 'O', 'N', 'S', 'E']

def noModelMsg : String := "[CORTEX] AI indisponível — nenhum modelo carregado"

def escalateMsg : String :=
  "[heap escalate] headroom critico - ctx insuficiente; /approve ou feche apps. HITL."

def pauseMsg : String :=
  "[a2_proof abort watchdog_would_pause — BSP sem AP-IDT, " ++
    "slice>500ms pausaria infer_worker; HITL]"

inductive SubmitErr
  | full
  | emptyPrompt
  | heapPressure
  deriving DecidableEq

inductive Phase
  | idle
  | needPrefill
  | prefilling
  | decoding
  | coarseFallback
  | finishing
  deriving DecidableEq

structure Slot where
  occupied : Bool
  id : ℕ
  cancel : Bool
  prompt : Option (List Char)
  replyTopic : Option (List Char)
  machine : Option (List ℕ)

def Slot.new : Slot := ⟨false, 0, false, none, none, none⟩

structure ActiveState where
  phase : Phase
  jobId : ℕ
  replyTopic : List Char
  prompt : List Char
  machine : Option (List ℕ)
  tokens : List ℕ
  promptLen : ℕ
  step : ℕ
  maxGen : ℕ
  maxSeq : ℕ
  useBpe : Bool
  isGreeting : Bool
  eos : ℕ
  eot : ℕ
  recent : List ℕ
  /-- the length of the cache, when the job has one -/
  cache : Option ℕ
  lastLogits : Bool
  accText : String
  coarse : Bool
  prefillX : Bool
  prefillMask : Bool
  prefillLayer : ℕ
  prefillNewLen : ℕ
  prefillChunk : ℕ
  isProof : Bool
  heapEscalate : Bool

structure Queue where
  slots : ℕ → Slot
  head : ℕ
  tail : ℕ
  nextId : ℕ
  activeId : ℕ
  activeCancel : Bool
  pending : ℕ
  active : Option ActiveState
  inFlight : Bool
  proofId : ℕ
  proofSubmitted : Bool
  proofDone : Bool
  submitted : List (ℕ × List Char)
  claimed : List ℕ
  replies : List (ℕ × List Char × String)

def Queue.new : Queue where
  slots _ := Slot.new
  head := 0
  tail := 0
  nextId := 1
  activeId := 0
  activeCancel := false
  pending := 0
  active := none
  inFlight := false
  proofId := 0
  proofSubmitted := false
  proofDone := false
  submitted := []
  claimed := []
  replies := []

inductive ModelKind
  | absent
  | transformer
  | other
  deriving DecidableEq

/-- What the watch at the head of a poll finds: nothing, a proof job past its deadline or
stalled, or a stalled job to abort. -/
inductive Watch
  | quiet
  | terminal
  | abort

/-- What everything outside the queue answers during one poll. -/
structure World where
  watch : Watch
  modelLoaded : Bool
  submitHeadroom : ℕ
  claimCritical : Bool
  /-- the headroom when the n-th slot of the poll is claimed -/
  claimHeadroom : ℕ → ℕ
  streaming : Bool
  critical : Bool
  low : Bool
  model : ModelKind
  bpeLoaded : Bool
  eos : ℕ
  eot : ℕ
  greeting : Bool
  escalate : Bool
  tokens : List ℕ
  maxSeq : ℕ
  maxGen : ℕ
  wouldPause : Bool
  embedOk : Bool
  embedLen : ℕ
  layers : ℕ
  stride : ℕ
  layersPerSlice : ℕ
  padOk : ℕ → Bool
  layerOk : ℕ → Bool
  evictDropped : ℕ
  evictLen : ℕ
  next : ℕ
  piece : String
  greetingish : Bool
  gibberish : Bool
  generated : String

def Queue.reply (q : Queue) (id : ℕ) (topic : List Char) (text : String) : Queue :=
  { q with replies := q.replies++[(id, topic, text)] }

/-- `a2_note_terminal` -/
def Queue.noteTerminal (q : Queue) (id : ℕ) : Queue :=
  { q with proofDone := q.proofDone || id = q.proofId }

/-- `String::truncate`, a panic inside a character. -/
def cutBytes : ℕ → List Char → Option (List Char)
  | _, [] => some []
  | n, c::cs =>
    if n = 0 then some []
    else if c.utf8Size ≤ n then (cutBytes (n-c.utf8Size) cs).map (c::·) else none

def resolveTopic (topic : List Char) : Option (List Char) :=
  if topic = [] then some llmResponse
  else if 48 < (topic.map Char.utf8Size).sum then cutBytes 48 topic else some topic

/-- `submit_with_ctx` -/
def submit (q : Queue) (prompt : List Char) (machine : Option (List ℕ)) (topic : List Char)
    (headroom : ℕ) : Run (Queue × Except SubmitErr ℕ) :=
  if prompt = [] ∧ machine.isNone then .ok (q, .error .emptyPrompt)
  else if headroom < 128 then .ok (q, .error .heapPressure)
  else
    match resolveTopic topic with
    | none => .error .panic
    | some replyTopic =>
      if queueCap ≤ q.tail-q.head ∨ (q.slots (q.tail%queueCap)).occupied then
        .ok (q, .error .full)
      else
        .ok ({ q with
          slots := Function.update q.slots (q.tail%queueCap)
            ⟨true, q.nextId, false, some prompt, some replyTopic, machine⟩
          tail := q.tail+1
          nextId := q.nextId+1
          pending := q.pending+1
          submitted := q.submitted++[(q.nextId, replyTopic)] }, .ok q.nextId)

def Queue.cancelSlot (q : Queue) (i : ℕ) : Queue :=
  { q with slots := Function.update q.slots i { q.slots i with cancel := true } }

def cancel (q : Queue) (id : ℕ) : Queue × Bool :=
  if q.activeId = id then ({ q with activeCancel := true }, true)
  else
    match (List.range queueCap).find? fun i => (q.slots i).occupied && (q.slots i).id = id with
    | some i => (q.cancelSlot i, true)
    | none => (q, false)

def Queue.cancelHead (q : Queue) : Queue :=
  if q.head < q.tail ∧ (q.slots (q.head%queueCap)).occupied then q.cancelSlot (q.head%queueCap)
  else q

def cancelActive (q : Queue) : Queue :=
  Queue.cancelHead
    (if q.activeId ≠ 0 then (cancel { q with activeCancel := true } q.activeId).1 else q)

def freshActive (w : World) (q : Queue) (slot : Slot) : ActiveState where
  phase := if w.streaming then .coarseFallback else .needPrefill
  jobId := slot.id
  replyTopic := slot.replyTopic.getD llmResponse
  prompt := slot.prompt.getD []
  machine := slot.machine
  tokens := []
  promptLen := 0
  step := 0
  maxGen := 0
  maxSeq := 64
  useBpe := w.bpeLoaded
  isGreeting := false
  eos := 0
  eot := 0
  recent := []
  cache := none
  lastLogits := false
  accText := ""
  coarse := w.streaming
  prefillX := false
  prefillMask := false
  prefillLayer := 0
  prefillNewLen := 0
  prefillChunk := 0
  isProof := slot.id = q.proofId
  heapEscalate := false

def Queue.take (q : Queue) : Queue :=
  let i := q.head%queueCap
  let slot := q.slots i
  { q with
    head := q.head+1
    slots := Function.update q.slots i
      { slot with occupied := false, prompt := none, replyTopic := none, machine := none }
    pending := q.pending-1
    claimed := q.claimed++[slot.id] }

/-- The loop of `try_claim_into_active`; a job that is cancelled or finds too little memory is
answered at once and the next one is tried. -/
def claimLoop (w : World) : ℕ → ℕ → Queue → Queue
  | 0, _, q => q
  | fuel+1, n, q =>
    let slot := q.slots (q.head%queueCap)
    let topic := slot.replyTopic.getD llmResponse
    if q.tail ≤ q.head ∨ slot.occupied = false then q
    else if slot.cancel ∨ (slot.prompt.getD [] = [] ∧ slot.machine.isNone) then
      claimLoop w fuel (n+1) ((q.take.reply slot.id topic "[cancelled]").noteTerminal slot.id)
    else if w.claimHeadroom n < 128 then
      claimLoop w fuel (n+1) ((q.take.reply slot.id topic escalateMsg).noteTerminal slot.id)
    else
      { q.take with
        activeId := slot.id
        activeCancel := false
        active := some (freshActive w q slot)
        inFlight := true }

def tryClaimIntoActive (w : World) (q : Queue) : Queue :=
  if q.active.isSome ∨ w.claimCritical then q else claimLoop w (q.tail-q.head) 0 q

def finalText (w : World) (st : ActiveState) (text : String) : String :=
  if st.useBpe ∧ w.gibberish then "[stop=gibberish — HITL escalate]"
  else if text.isEmpty then (if st.accText.isEmpty then noModelMsg else st.accText)
  else text

def finishJob (w : World) (q : Queue) (st : ActiveState) (text : String) : Queue × ActiveState :=
  ({ q with
      replies := q.replies++[(st.jobId, st.replyTopic, finalText w st text)]
      activeId := 0
      activeCancel := false
      inFlight := false
      proofDone := q.proofDone || st.isProof },
    { st with lastLogits := false, cache := none, phase := .idle })

def runPrefillSetup (w : World) (q : Queue) (st : ActiveState) : Queue × ActiveState :=
  if q.activeCancel then finishJob w q st "[cancelled]"
  else
    match w.model with
    | .absent => finishJob w q st noModelMsg
    | .other => (q, { st with coarse := true, phase := .coarseFallback })
    | .transformer =>
      let st := { st with
        useBpe := w.bpeLoaded
        eos := w.eos
        eot := w.eot
        isGreeting := st.machine.isNone && w.greeting }
      if w.escalate then finishJob w q { st with heapEscalate := true } escalateMsg
      else
        let tokens := clip w.maxSeq st.machine.isSome w.tokens
        (q, { st with
          tokens
          promptLen := tokens.length
          maxSeq := w.maxSeq
          maxGen := w.maxGen
          cache := some 0
          prefillX := false
          prefillMask := false
          prefillLayer := 0
          prefillNewLen := 0
          prefillChunk := 0
          phase := .prefilling })

/-- The embedding of the next chunk when none is pending, or the text the job ends with. -/
def startChunk (w : World) (st : ActiveState) : Except String ActiveState :=
  if st.prefillX then .ok st
  else if st.tokens.length ≤ st.prefillChunk then .error "[prefill chunk OOB — HITL escalate]"
  else if st.cache.isNone then .error noModelMsg
  else if w.embedOk = false ∨ w.embedLen = 0 then
    .error "[heap: embed/mask refuse — HITL escalate]"
  else .ok { st with
    prefillX := true
    prefillMask := true
    prefillNewLen := w.embedLen
    prefillLayer := 0 }

inductive LayersEnd
  | refused
  | padOom
  | upTo (layer : ℕ)

/-- The layers of one slice; those off the stride are padded and not counted. -/
def applyLayers (w : World) (stride : ℕ) : ℕ → ℕ → ℕ → LayersEnd
  | 0, layer, _ => .upTo layer
  | fuel+1, layer, applied =>
    if layer < w.layers ∧ applied < w.layersPerSlice then
      if 1 < stride ∧ layer%stride ≠ 0 then
        if w.padOk layer then applyLayers w stride fuel (layer+1) applied else .padOom
      else if w.layerOk layer then applyLayers w stride fuel (layer+1) (applied+1) else .refused
    else .upTo layer

def endChunk (st : ActiveState) : ActiveState :=
  let st := { st with
    cache := st.cache.map (·+st.prefillNewLen)
    prefillChunk := st.prefillChunk+st.prefillNewLen
    prefillX := false
    prefillMask := false }
  if st.prefillChunk < st.tokens.length then st
  else { st with
    recent := if st.isGreeting then [] else st.tokens.getLast?.toList
    lastLogits := true
    step := 0
    phase := .decoding }

def runPrefillStep (w : World) (q : Queue) (st : ActiveState) : Queue × ActiveState :=
  if q.activeCancel then finishJob w q st "[cancelled]"
  else if w.low then finishJob w q st "[heap: headroom baixo no prefill — fail-closed HITL]"
  else if st.isProof ∧ w.wouldPause then
    finishJob w q st pauseMsg
  else if w.model ≠ .transformer then finishJob w q st noModelMsg
  else
    match startChunk w st with
    | .error text => finishJob w q st text
    | .ok st =>
      if st.prefillX = false ∨ st.prefillMask = false ∨ st.cache.isNone then
        finishJob w q st noModelMsg
      else
        match applyLayers w (if st.isProof then 1 else w.stride) (w.layers-st.prefillLayer)
          st.prefillLayer 0 with
        | .refused => finishJob w q st "[heap: apply_one_layer refuse — HITL escalate]"
        | .padOom => finishJob w q st "[oom]"
        | .upTo layer =>
          if layer < w.layers then (q, { st with prefillLayer := layer })
          else (q, endChunk { st with prefillLayer := layer })

def runPrefill (w : World) (q : Queue) (st : ActiveState) : Queue × ActiveState :=
  let r := runPrefillSetup w q st
  if r.2.phase = .prefilling then runPrefillStep w r.1 r.2 else r

def evictDecode (w : World) (st : ActiveState) : ActiveState :=
  if st.maxSeq ≤ st.tokens.length ∧ 0 < w.evictDropped then
    { st with
      cache := some w.evictLen
      tokens := st.tokens.drop (st.tokens.length-w.evictLen) }
  else st

def pushToken (w : World) (st : ActiveState) : ActiveState :=
  { st with
    tokens := st.tokens++[w.next]
    recent := (st.recent++[w.next]).drop (if 4 < st.recent.length+1 then 1 else 0)
    step := st.step+1
    accText := st.accText++w.piece
    cache :=
      if st.step+1 < st.maxGen ∧ st.tokens.length+1 < st.maxSeq then st.cache.map (·+1)
      else st.cache }

def runDecodeOne (w : World) (q : Queue) (st : ActiveState) : Queue × ActiveState :=
  let orText (text : String) := if st.accText.isEmpty then text else st.accText
  if q.activeCancel then finishJob w q st (orText "[cancelled]")
  else if w.low then
    finishJob w q st (orText "[heap: headroom baixo no decode — fail-closed HITL]")
  else if st.maxGen ≤ st.step then finishJob w q st st.accText
  else if w.model ≠ .transformer ∨ st.cache.isNone ∨ st.lastLogits = false then
    finishJob w q st noModelMsg
  else
    let st := evictDecode w st
    if st.maxSeq ≤ st.tokens.length ∨ w.next = st.eos ∨ w.next = st.eot then
      finishJob w q st st.accText
    else
      let st := pushToken w st
      if st.useBpe ∧ st.isGreeting ∧ w.greetingish then finishJob w q st st.accText
      else (q, st)

def runCoarse (w : World) (q : Queue) (st : ActiveState) : Queue × ActiveState :=
  if q.activeCancel then finishJob w q st "[cancelled]"
  else
    let text := if w.streaming ∨ w.model ≠ .absent then w.generated else noModelMsg
    finishJob w q { st with accText := text } text

def runPhase (w : World) (q : Queue) (st : ActiveState) : Queue × ActiveState :=
  match st.phase with
  | .needPrefill => runPrefill w q st
  | .prefilling => runPrefillStep w q st
  | .decoding => runDecodeOne w q st
  | .coarseFallback => runCoarse w q st
  | .finishing => (q, st)
  | .idle => (q, st)

def ActiveState.running (st : ActiveState) : Bool := st.phase ≠ .finishing ∧ st.phase ≠ .idle

/-- The slice of the active job. With too little memory left a running job only gets the phase
`Finishing`, and that phase clears it. -/
def slice (w : World) (q : Queue) : Queue :=
  match q.active with
  | none => q
  | some st =>
    let st := if st.running ∧ w.critical then { st with phase := .finishing } else st
    let r := runPhase w q st
    if st.running = false ∨ r.2.phase = .idle then { r.1 with active := none }
    else { r.1 with active := some r.2 }

/-- `slice_diag_and_proof_deadline` -/
def watchProof (w : World) (q : Queue) : Queue :=
  if q.proofSubmitted ∧ q.proofDone = false then
    match w.watch, q.active with
    | .terminal, _ => q.noteTerminal q.proofId
    | .abort, some st =>
      if st.running then
        let r := finishJob w q st "[stop=slice_budget — HITL escalate]"
        { r.1 with active := some r.2 }
      else q
    | _, _ => q
  else q

/-- `maybe_submit_a2_proof` -/
def maybeSubmitProof (w : World) (q : Queue) : Queue :=
  if q.proofDone ∨ q.proofSubmitted ∨ w.modelLoaded = false then q
  else
    match submit q ['o', 'i'] none llmResponse w.submitHeadroom with
    | .ok (q', .ok id) => { q' with proofId := id, proofSubmitted := true }
    | _ => q

def pollSlice (w : World) (q : Queue) : Queue :=
  slice w (tryClaimIntoActive w (maybeSubmitProof w (watchProof w q)))

inductive Call
  | submit (prompt : List Char) (machine : Option (List ℕ)) (topic : List Char) (headroom : ℕ)
  | cancel (id : ℕ)
  | cancelActive
  | pollSlice (w : World)

/-- A call that panics leaves the queue as it was. -/
def step (q : Queue) : Call → Queue
  | .submit prompt machine topic headroom =>
    match submit q prompt machine topic headroom with
    | .ok r => r.1
    | .error _ => q
  | .cancel id => (cancel q id).1
  | .cancelActive => cancelActive q
  | .pollSlice w => pollSlice w q

end NeuralOs.Cortex.Infer
