import NeuralOs.Lib.TextScan
import NeuralOs.Bpe.RoundTrip

/-!
# Stream packets

A packet of the answer stream travels as one line `TYPE|field|field\n`. The
reader drops the trailing newlines, takes the type before the first bar and
cuts the rest at as many bars as the type has fields. Nothing is escaped, so
the theorem of this file says which packets come back.
-/

set_option autoImplicit false

namespace NeuralOs.Hermes.Stream
open TextScan Delimited ByteString
open Bpe (utf8 fromUtf8 fromUtf8_utf8)

inductive ToolKind
  | search
  | urlFetch
  | codeExec
  | reasoning
  | custom (name : Text)
  | memory
  | fileReader
  | deepResearch
  | bash
  deriving DecidableEq

def ToolKind.encode : ToolKind → Text
  | .search => "search".toList
  | .urlFetch => "fetch".toList
  | .codeExec => "code".toList
  | .reasoning => "reason".toList
  | .custom _ => "custom".toList
  | .memory => "memory".toList
  | .fileReader => "file".toList
  | .deepResearch => "deep_research".toList
  | .bash => "bash".toList

/-- The kinds the reader knows; the name of a custom kind is not written. -/
def toolKinds : List ToolKind :=
  [.search, .urlFetch, .codeExec, .reasoning, .custom [], .memory, .fileReader, .deepResearch,
    .bash]

def ToolKind.decode (s : Text) : Option ToolKind := toolKinds.find? fun k => k.encode = s

/-- `F` is the type of the seconds, which are printed and read as floats. -/
inductive StreamPacket (F : Type)
  | sessionStart (sessionId : UInt32)
  | reasoningStart
  | reasoningDelta (content : Text)
  | reasoningDone
  | toolStart (id : UInt32) (kind : ToolKind) (label : Text)
  | toolDelta (id : UInt32) (content : Text)
  | toolDone (id : UInt32) (resultSummary : Option Text)
  | messageStart (preAnswerSeconds : Option F)
  | messageDelta (content : Text)
  | citation (docId : UInt32) (text : Text) (url : Option Text)
  | userMessage (content : Text)
  | error (message : Text)
  | stop
  deriving DecidableEq

inductive Tag
  | session
  | reasoningStart
  | reasoningDelta
  | reasoningDone
  | toolStart
  | toolDelta
  | toolDone
  | msgStart
  | msgDelta
  | citation
  | userMsg
  | error
  | stop
  deriving DecidableEq

def Tag.text : Tag → Text
  | .session => "SESSION".toList
  | .reasoningStart => "REASONING_START".toList
  | .reasoningDelta => "REASONING_DELTA".toList
  | .reasoningDone => "REASONING_DONE".toList
  | .toolStart => "TOOL_START".toList
  | .toolDelta => "TOOL_DELTA".toList
  | .toolDone => "TOOL_DONE".toList
  | .msgStart => "MSG_START".toList
  | .msgDelta => "MSG_DELTA".toList
  | .citation => "CITATION".toList
  | .userMsg => "USER_MSG".toList
  | .error => "ERROR".toList
  | .stop => "STOP".toList

def tags : List Tag :=
  [.session, .reasoningStart, .reasoningDelta, .reasoningDone, .toolStart, .toolDelta, .toolDone,
    .msgStart, .msgDelta, .citation, .userMsg, .error, .stop]

def Tag.ofText (s : Text) : Option Tag := tags.find? fun t => t.text = s

/-- How seconds are printed with one decimal and how a float is read. -/
structure Seconds (F : Type) where
  format : F → Text
  parse : Text → Option F

variable {F : Type} (S : Seconds F)

def showId (id : UInt32) : Text := decimal id.toNat

def parseId (s : Text) : Option UInt32 := (parseBelow (2^32) s).map UInt32.ofNat

def StreamPacket.tag : StreamPacket F → Tag
  | .sessionStart _ => .session
  | .reasoningStart => .reasoningStart
  | .reasoningDelta _ => .reasoningDelta
  | .reasoningDone => .reasoningDone
  | .toolStart _ _ _ => .toolStart
  | .toolDelta _ _ => .toolDelta
  | .toolDone _ _ => .toolDone
  | .messageStart _ => .msgStart
  | .messageDelta _ => .msgDelta
  | .citation _ _ _ => .citation
  | .userMessage _ => .userMsg
  | .error _ => .error
  | .stop => .stop

def StreamPacket.fields : StreamPacket F → Text
  | .sessionStart id => showId id
  | .reasoningDelta content => content
  | .toolStart id kind label => showId id ++ '|'::(kind.encode ++ '|'::label)
  | .toolDelta id content => showId id ++ '|'::content
  | .toolDone id summary => showId id ++ '|'::summary.getD []
  | .messageStart (some secs) => S.format secs
  | .messageDelta content => content
  | .citation id text url => showId id ++ '|'::(text ++ '|'::url.getD [])
  | .userMessage content => content
  | .error message => message
  | .messageStart none | .reasoningStart | .reasoningDone | .stop => []

def StreamPacket.encode (p : StreamPacket F) : Bytes :=
  utf8 (p.tag.text ++ '|'::(p.fields S ++ ['\n']))

def filled (s : Text) : Option Text := if s = [] then none else some s

def decodeFields (rest : Text) : Tag → Option (StreamPacket F)
  | .session => (parseId rest).map .sessionStart
  | .reasoningStart => some .reasoningStart
  | .reasoningDelta => some (.reasoningDelta rest)
  | .reasoningDone => some .reasoningDone
  | .toolStart =>
    match splitn '|' 3 rest with
    | [id, kind, label] => do
      let id ← parseId id
      let kind ← ToolKind.decode kind
      some (.toolStart id kind label)
    | _ => none
  | .toolDelta => do
    let p ← splitOnce '|' rest
    let id ← parseId p.1
    some (.toolDelta id p.2)
  | .toolDone =>
    let p := (splitOnce '|' rest).getD (rest, [])
    (parseId p.1).map fun id => .toolDone id (filled p.2)
  | .msgStart => some (.messageStart (if rest = [] then none else S.parse rest))
  | .msgDelta => some (.messageDelta rest)
  | .citation =>
    match splitn '|' 3 rest with
    | [id, text, url] => (parseId id).map fun id => .citation id text (filled url)
    | _ => none
  | .userMsg => some (.userMessage rest)
  | .error => some (.error rest)
  | .stop => some .stop

def decode (bytes : Bytes) : Option (StreamPacket F) := do
  let s ← fromUtf8 bytes
  let p ← splitOnce '|' (trimEndMatches '\n' s)
  let tag ← Tag.ofText p.1
  decodeFields S p.2 tag

/-! ## What comes back -/

theorem ofText_text (t : Tag) : Tag.ofText t.text = some t := by
  cases t <;> decide

theorem bar_not_mem_text (t : Tag) : '|' ∉ t.text := by
  cases t <;> decide

theorem bar_not_mem_kind (k : ToolKind) : '|' ∉ k.encode := by
  cases k with
  | custom => exact (show '|' ∉ "custom".toList by decide)
  | _ => decide

def ToolKind.unnamed : ToolKind → ToolKind
  | .custom _ => .custom []
  | k => k

theorem decode_encode_kind (k : ToolKind) : ToolKind.decode k.encode = some k.unnamed := by
  cases k with
  | custom => exact (show ToolKind.decode "custom".toList = some (.custom []) by decide)
  | _ => decide

theorem unnamed_eq_self_iff (k : ToolKind) :
    k.unnamed = k ↔ ∀ name, k = .custom name → name = [] := by
  cases k <;> simp [ToolKind.unnamed, eq_comm]

theorem bar_not_mem_id (id : UInt32) : '|' ∉ showId id :=
  not_mem_digits (decimal_digits _) (by decide)

theorem parseId_showId (id : UInt32) : parseId (showId id) = some id := by
  rw [parseId, showId, parseBelow_decimal id.toNat_lt]
  simp

theorem trim_showId (id : UInt32) : trimEndMatches '\n' (showId id) = showId id := by
  rw [trimEndMatches_eq_self_iff]
  intro h
  have hnot : '\n' ∉ showId id := not_mem_digits (decimal_digits _) (by decide)
  exact hnot (List.mem_of_getLast? h)

theorem decode_encode_eq (p : StreamPacket F) :
    decode S (p.encode S) = decodeFields S (trimEndMatches '\n' (p.fields S)) p.tag := by
  have htrim : trimEndMatches '\n' (p.tag.text ++ '|'::(p.fields S ++ ['\n'])) =
      p.tag.text ++ '|'::trimEndMatches '\n' (p.fields S) := by
    rw [trimEndMatches_append (by decide), trimEndMatches_concat]
  simp only [decode, StreamPacket.encode, fromUtf8_utf8, htrim, Option.bind_eq_bind,
    Option.bind_some, splitOnce_join (bar_not_mem_text _), ofText_text]

theorem filled_eq_some_iff {s t : Text} : filled s = some t ↔ s = t ∧ t ≠ [] := by
  unfold filled
  split
  next h => simp [h, eq_comm]
  next h =>
    rw [Option.some.injEq]
    constructor
    · intro hs
      exact ⟨hs, hs ▸ h⟩
    · exact fun hs => hs.1

/-- A last field comes back if it does not end the line with newlines of its own. -/
def Kept (s : Text) : Prop := s.getLast? ≠ some '\n'

/-- An optional last field comes back if it is absent or kept and not empty. -/
def KeptOption : Option Text → Prop
  | none => True
  | some s => s ≠ [] ∧ Kept s

instance (s : Text) : Decidable (Kept s) := by unfold Kept; infer_instance
instance (o : Option Text) : Decidable (KeptOption o) := by
  cases o <;> dsimp only [KeptOption] <;> infer_instance

theorem filled_trim_iff (o : Option Text) :
    filled (trimEndMatches '\n' (o.getD [])) = o ↔ KeptOption o := by
  cases o with
  | none => simp [filled, trimEndMatches, KeptOption]
  | some s =>
    rw [Option.getD_some, filled_eq_some_iff, trimEndMatches_eq_self_iff, and_comm]
    rfl

def Survives : StreamPacket F → Prop
  | .reasoningDelta content => Kept content
  | .toolStart _ kind label => Kept label ∧ ∀ name, kind = .custom name → name = []
  | .toolDelta _ content => Kept content
  | .toolDone _ summary => KeptOption summary
  | .messageDelta content => Kept content
  | .citation _ text url => '|' ∉ text ∧ KeptOption url
  | .userMessage content => Kept content
  | .error message => Kept message
  | _ => True

theorem toolStart_back_iff (id : UInt32) (kind : ToolKind) (label : Text) :
    decode S ((StreamPacket.toolStart id kind label).encode S) = some (.toolStart id kind label) ↔
      Survives (F := F) (.toolStart id kind label) := by
  rw [decode_encode_eq]
  simp only [StreamPacket.fields, StreamPacket.tag, Survives]
  rw [trimEndMatches_append (by decide), trimEndMatches_append (by decide)]
  simp only [decodeFields, splitn_three (bar_not_mem_id id) (bar_not_mem_kind kind),
    parseId_showId, decode_encode_kind, Option.bind_eq_bind, Option.bind_some]
  rw [← unnamed_eq_self_iff, Kept, ← trimEndMatches_eq_self_iff]
  simp [and_comm]

theorem toolDelta_back_iff (id : UInt32) (content : Text) :
    decode S ((StreamPacket.toolDelta id content).encode S) = some (.toolDelta id content) ↔
      Survives (F := F) (.toolDelta id content) := by
  rw [decode_encode_eq]
  simp only [StreamPacket.fields, StreamPacket.tag, Survives]
  rw [trimEndMatches_append (by decide)]
  simp only [decodeFields, splitOnce_join (bar_not_mem_id id), parseId_showId,
    Option.bind_eq_bind, Option.bind_some]
  rw [Kept, ← trimEndMatches_eq_self_iff]
  simp

theorem toolDone_back_iff (id : UInt32) (summary : Option Text) :
    decode S ((StreamPacket.toolDone id summary).encode S) = some (.toolDone id summary) ↔
      Survives (F := F) (.toolDone id summary) := by
  rw [decode_encode_eq]
  simp only [StreamPacket.fields, StreamPacket.tag, Survives]
  rw [trimEndMatches_append (by decide)]
  simp only [decodeFields, splitOnce_join (bar_not_mem_id id), parseId_showId, Option.getD_some,
    Option.map_some]
  rw [← filled_trim_iff]
  simp

theorem citation_back_iff (id : UInt32) (text : Text) (url : Option Text) :
    decode S ((StreamPacket.citation id text url).encode S) = some (.citation id text url) ↔
      Survives (F := F) (.citation id text url) := by
  rw [decode_encode_eq]
  simp only [StreamPacket.fields, StreamPacket.tag, Survives]
  rw [trimEndMatches_append (by decide), trimEndMatches_append (by decide)]
  by_cases hbar : '|' ∈ text
  · -- the text that is read ends at its first bar
    simp only [decodeFields, splitn_join (bar_not_mem_id id)]
    cases hs : splitOnce '|' (text ++ '|'::trimEndMatches '\n' (url.getD [])) with
    | none => simp [splitn, hs, hbar]
    | some q =>
      have hfree := splitOnce_fst_free hs
      have hne : q.1 ≠ text := fun heq => hfree (heq ▸ hbar)
      simp [splitn, hs, hbar, hne]
  · simp only [decodeFields, splitn_three (bar_not_mem_id id) hbar, parseId_showId, Option.map_some]
    rw [← filled_trim_iff]
    simp [hbar]

/-- Exactly the packets that survive come back as they were sent. -/
theorem packet_back_iff (p : StreamPacket F) (h : ∀ secs, p ≠ .messageStart secs) :
    decode S (p.encode S) = some p ↔ Survives p := by
  cases p with
  | toolStart id kind label => exact toolStart_back_iff S id kind label
  | toolDelta id content => exact toolDelta_back_iff S id content
  | toolDone id summary => exact toolDone_back_iff S id summary
  | citation id text url => exact citation_back_iff S id text url
  | messageStart secs => exact absurd rfl (h secs)
  | sessionStart id =>
    rw [decode_encode_eq]
    simp [StreamPacket.fields, StreamPacket.tag, decodeFields, trim_showId, parseId_showId,
      Survives]
  | reasoningStart | reasoningDone | stop =>
    rw [decode_encode_eq]
    simp [StreamPacket.tag, decodeFields, Survives]
  | reasoningDelta s | messageDelta s | userMessage s | error s =>
    rw [decode_encode_eq]
    simp [StreamPacket.fields, StreamPacket.tag, decodeFields, Survives, Kept,
      trimEndMatches_eq_self_iff]

def noSeconds : Seconds Unit := ⟨fun _ => [], fun _ => none⟩

/-- A label may hold bars: it is the last field. -/
theorem piped_label_back :
    decode noSeconds ((StreamPacket.toolStart 7 .bash "ls|wc".toList).encode noSeconds) =
      some (.toolStart 7 .bash "ls|wc".toList) := by
  apply (packet_back_iff noSeconds _ _).mpr
  · refine ⟨by decide, ?_⟩
    intro name h
    cases h
  · intro secs h
    cases h

/-- An answer token that is a newline arrives empty. -/
theorem newline_token_lost :
    decode noSeconds ((StreamPacket.messageDelta ['\n']).encode noSeconds) =
        some (.messageDelta []) ∧
      decode noSeconds ((StreamPacket.messageDelta ['\n']).encode noSeconds) ≠
        some (.messageDelta ['\n']) := by
  rw [decode_encode_eq]
  decide

end NeuralOs.Hermes.Stream
