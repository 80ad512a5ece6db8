import NeuralOs.Lib.Checked
import NeuralOs.Lib.TextLines
import NeuralOs.Bpe.RoundTrip

/-!
# Package documents

A package is a text with a frontmatter between two separators. It is signed over
all lines but its hash and signature lines, wherever they stand; a document from
the network has its provenance and sandbox lines rewritten and is signed again.
The verifier reads a field by its first line. Signing is left open.
-/

set_option autoImplicit false

namespace NeuralOs.Hermes.PackageHub
open ByteString Checked TextScan TextLines
open Delimited (trimEndMatches)
open Bpe (utf8)

inductive PackageKind
  | skill
  | agent
  | agentWasm
  | workflow
  | plugin
  | mcp
  | model
  | firmware
  | deviceRecipe
  deriving DecidableEq

def kindNames : List (Text × PackageKind) :=
  [("skill".toList, .skill), ("skills".toList, .skill), ("agent".toList, .agent),
   ("agents".toList, .agent), ("agent-wasm".toList, .agentWasm), ("wasm".toList, .agentWasm),
   ("workflow".toList, .workflow), ("workflows".toList, .workflow), ("plugin".toList, .plugin),
   ("plugins".toList, .plugin), ("mcp".toList, .mcp), ("model".toList, .model),
   ("models".toList, .model), ("firmware".toList, .firmware), ("fw".toList, .firmware),
   ("device-recipe".toList, .deviceRecipe), ("device_recipe".toList, .deviceRecipe),
   ("devicerecipe".toList, .deviceRecipe), ("devices".toList, .deviceRecipe)]

def toAsciiLowercase (s : Text) : Text := s.map Char.toLower

def PackageKind.fromStr (s : Text) : Option PackageKind :=
  (kindNames.find? fun n => n.1 = toAsciiLowercase s).map Prod.snd

inductive PackageError
  | badName
  | pathTraversal
  | nameCharset
  | sessionNotReady
  | missingFrontmatter
  | sandboxNotRun
  | bodyTooShort
  | bodyTooLarge
  | missingSchema
  | badSchema
  | missingKind
  | kindMismatch
  | missingName
  | missingGoal
  | emptyGoal
  | missingContexto
  | emptyContexto
  | missingAcionaveis
  | badAcionaveis
  | missingTokens
  | missingProvenance
  | badProvenance
  | missingSandboxStatus
  | badSandboxStatus
  | importSandboxRequired
  | sandboxFailed
  | missingSection
  | dangerousPattern
  | missingContentHash
  | hashMismatch
  | missingOrBadSignature
  deriving DecidableEq

structure Identity where
  signSession : Bytes → Option Bytes
  verifyTrusted : Bytes → Bytes → Bool

abbrev Check := Except (Stop PackageError)

def require (b : Bool) (e : PackageError) : Check Unit := if b then .ok () else refuse e

theorem require_ok {b : Bool} {e : PackageError} : require b e = .ok () ↔ b = true := by
  cases b <;> simp [require, refuse]

theorem safe_require {b : Bool} {e : PackageError} : Safe (require b e) := by
  cases b with
  | true => exact safe_ok ()
  | false => exact safe_refuse e

/-! ## Fields of a text -/

def sanitizeName (name : Text) : Check Unit := do
  require (trim name ≠ [] && (utf8 (trim name)).length ≤ 64) .badName
  require (!contains "..".toList (trim name) && !(trim name).contains '/' &&
    !(trim name).contains '\\') .pathTraversal
  require ((trim name).all fun c => c.isAlphanum || c == '_' || c == '-') .nameCharset

def trimMatches (c : Char) (s : Text) : Text := trimEndMatches c (s.dropWhile (· == c))

def unquote (value : Text) : Text := trimMatches '"' (trim value)

def hasKey (key line : Text) : Bool := (key ++ [':']).isPrefixOf (trim line)

theorem hasKey_iff (key line : Text) : hasKey key line = true ↔ key ++ [':'] <+: trimStart line := by
  rw [hasKey, List.isPrefixOf_iff_prefix]
  exact prefix_trim_iff (by decide)

theorem hasKey_append {key a : Text} (h : hasKey key a = true) (b : Text) :
    hasKey key (a ++ b) = true := by
  rw [hasKey_iff] at h ⊢
  exact starts_append (by simp) h b

def fieldOf (key line : Text) : Option Text :=
  ((trim line).dropPrefix? (key ++ [':'])).map trim

def extractFmField (content key : Text) : Option Text := (lines content).findSome? (fieldOf key)

def signatureKey : Text := "signature".toList
def contentHashKey : Text := "content_hash".toList
def provenanceKey : Text := "provenance".toList
def sandboxKey : Text := "sandbox_status".toList

def sealLine (line : Text) : Bool := hasKey signatureKey line || hasKey contentHashKey line

def bodyForSign (content : Text) : Text := unlines ((lines content).filter fun l => !sealLine l)

def hasSection (body title : Text) : Bool :=
  (lines body).any fun l => toAsciiLowercase (trim l) = toAsciiLowercase ("## ".toList ++ title)

def actions : List Text :=
  ["init".toList, "oneshot".toList, "continuous".toList, "event_driven".toList,
   "on_demand".toList]

def actionOk (v : Text) : Bool :=
  actions.contains v ||
    ((v.dropPrefix? "poll_every:".toList).bind (parseBelow (2^32))).isSome

def acionaveisOk (raw : Text) : Bool :=
  let inner := trimEndMatches ']' ((trim raw).dropWhile (· == '['))
  let items := ((inner.splitOn ',').map fun item =>
    trimMatches '\'' (trimMatches '"' (trim item))).filter (· ≠ [])
  items ≠ [] && items.all actionOk

/-! ## Hash and signature in hexadecimal -/

def hexDigits : Text := "0123456789abcdef".toList

def hexDigit (n : ℕ) : Char := hexDigits.getD n '0'

def fnv1a64 (data : Bytes) : UInt64 :=
  data.foldl (fun h b => (h ^^^ b.toUInt64)*0x100000001b3) 0xcbf29ce484222325

/-- `format!("{:016x}", h)`, the most significant digit first. -/
def hex16 (h : UInt64) : Text := (List.range 16).map fun i => hexDigit (h.toNat/16^(15-i)%16)

def contentHash (canonical : Text) : Text := hex16 (fnv1a64 (utf8 canonical))

def hexSignature (sig : Bytes) : Text :=
  sig.flatMap fun b => [hexDigit (b.toNat/16), hexDigit (b.toNat%16)]

theorem hexDigit_mem {n : ℕ} : hexDigit n ∈ hexDigits := by
  unfold hexDigit
  by_cases h : n < hexDigits.length
  · rw [List.getD_eq_getElem _ _ h]
    exact List.getElem_mem h
  · rw [List.getD_eq_default _ _ (not_lt.mp h)]
    decide

variable {c : Char}

theorem not_mem_contentHash (hc : c ∉ hexDigits) (t : Text) : c ∉ contentHash t := by
  simp only [contentHash, hex16, List.mem_map, not_exists, not_and]
  exact fun i _ he => hc (he ▸ hexDigit_mem)

theorem not_mem_hexSignature (hc : c ∉ hexDigits) (sig : Bytes) : c ∉ hexSignature sig := by
  simp only [hexSignature, List.mem_flatMap, List.mem_cons, List.not_mem_nil, or_false,
    not_exists, not_and, not_or]
  exact fun b _ => ⟨fun he => hc (he ▸ hexDigit_mem), fun he => hc (he ▸ hexDigit_mem)⟩

def hexValue (c : Char) : Option ℕ :=
  if c.isDigit then some (c.toNat-48)
  else if 'a' ≤ c ∧ c ≤ 'f' then some (c.toNat-87)
  else if 'A' ≤ c ∧ c ≤ 'F' then some (c.toNat-55)
  else none

/-- `u8::from_str_radix` of two characters; a plus sign may lead. -/
def hexByte (c d : Char) : Option UInt8 :=
  if c = '+' then (hexValue d).map UInt8.ofNat
  else (hexValue c).bind fun x => (hexValue d).map fun y => UInt8.ofNat (16*x+y)

/-- The two-byte slices of a text, each read as a byte. A slice that ends inside
a character panics; one that is a single character of two bytes is no number. -/
def hexBytes : Text → Check (Option Bytes)
  | [] => .ok (some [])
  | [c] => if c.utf8Size = 2 then .ok none else .error .panic
  | c::d::s =>
    if c.utf8Size = 2 then .ok none
    else if c.utf8Size ≠ 1 ∨ d.utf8Size ≠ 1 then .error .panic
    else match hexByte c d with
      | none => .ok none
      | some b => do
        let bs ← hexBytes s
        .ok (bs.map (b::·))

def parseHexSig (hex : Text) : Check (Option Bytes) :=
  if (utf8 (trim hex)).length ≠ 128 then .ok none else hexBytes (trim hex)

/-! ## Signing -/

def sep : Text := "---\n".toList

def quoted (key value : Text) : Text := key ++ (": \"".toList ++ (value ++ ['"']))

theorem not_mem_quoted {key x : Text} (hk : c ∉ key) (hx : c ∉ x)
    (hq : c ∉ ": \"".toList) : c ∉ quoted key x := by
  simp_all [quoted]

def endLine (s : Text) : Text := if s.getLast? = some '\n' then s else s ++ ['\n']

theorem closed_sep : Closed sep := closed_concat "---".toList

def signArtifactMd (id : Identity) (content : Text) : Except PackageError Text :=
  let canonical := bodyForSign content
  match id.signSession (utf8 canonical) with
  | none => .error .sessionNotReady
  | some sig =>
    match splitn sep 3 (normalizeLf content) with
    | [_, fm, body] =>
      .ok (sep ++ (endLine (bodyForSign fm) ++ (unlines [quoted contentHashKey (contentHash canonical),
        quoted signatureKey (hexSignature sig)] ++ (sep ++ body))))
    | _ => .error .missingFrontmatter

def sandboxLine (passed : Bool) : Text :=
  if passed then "sandbox_status: passed".toList else "sandbox_status: pending".toList

def provenanceLine : Text := "provenance: imported".toList

def rewriteLine (passed : Bool) (line : Text) : Text :=
  if hasKey sandboxKey line then sandboxLine passed
  else if hasKey provenanceKey line then provenanceLine
  else line

def newlineSep : Text := "\n---\n".toList

def insertLine (line s : Text) : Option Text :=
  (cut newlineSep s).map fun q => (q.1 ++ ['\n']) ++ ((line ++ ['\n']) ++ (sep ++ q.2))

def ensureProvenance (saw : Bool) (s : Text) : Text :=
  if saw then s else (insertLine provenanceLine s).getD s

def wrapFrontmatter (s : Text) : Text := if sep.isPrefixOf s then s else sep ++ (s ++ sep)

def patchImportFrontmatter (content : Text) (passed : Bool) : Except PackageError Text :=
  let ls := lines (normalizeLf content)
  let patched := unlines (ls.map (rewriteLine passed))
  let sawSandbox := ls.any (hasKey sandboxKey)
  -- a line is looked at for its provenance only if it is no sandbox line
  let sawProv := ls.any fun l => !hasKey sandboxKey l && hasKey provenanceKey l
  match (if sawSandbox then some patched else insertLine (sandboxLine passed) patched) with
  | none => .error .sandboxNotRun
  | some patched => .ok (wrapFrontmatter (ensureProvenance sawProv patched))

def resignImportedWithSandbox (id : Identity) (content : Text) (passed : Bool) :
    Except PackageError Text :=
  match patchImportFrontmatter content passed with
  | .error e => .error e
  | .ok patched => signArtifactMd id patched

def resignImported (id : Identity) (content : Text) : Except PackageError Text :=
  resignImportedWithSandbox id content false

/-! ## Verification -/

def checkFields (kind : PackageKind) (fm : Text) : Check Unit := do
  let schema ← okOr (extractFmField fm "schema".toList) .missingSchema
  require (unquote schema = "1".toList) .badSchema
  let kindFm ← okOr (extractFmField fm "kind".toList) .missingKind
  require (PackageKind.fromStr (unquote kindFm) = some kind) .kindMismatch
  let name ← okOr (extractFmField fm "name".toList) .missingName
  sanitizeName (unquote name)
  let goal ← okOr ((extractFmField fm "goal".toList).or
    (extractFmField fm "description".toList)) .missingGoal
  require (unquote goal ≠ []) .emptyGoal
  let contexto ← okOr (extractFmField fm "contexto".toList) .missingContexto
  require (unquote contexto ≠ []) .emptyContexto
  let acionaveis ← okOr (extractFmField fm "acionaveis".toList) .missingAcionaveis
  require (acionaveisOk acionaveis) .badAcionaveis
  require (extractFmField fm "required_tokens".toList).isSome .missingTokens

def imported : Text := "imported".toList
def passed : Text := "passed".toList
def failed : Text := "failed".toList

def provenances : List Text := ["hermes_created".toList, imported, "native_compiled".toList]
def sandboxStates : List Text := ["none".toList, "pending".toList, passed, failed]

def checkOrigin (fm : Text) : Check Unit := do
  let provenance ← okOr (extractFmField fm provenanceKey) .missingProvenance
  require (provenances.contains (unquote provenance)) .badProvenance
  let sandbox ← okOr (extractFmField fm sandboxKey) .missingSandboxStatus
  require (sandboxStates.contains (unquote sandbox)) .badSandboxStatus
  require (!(unquote provenance = imported && unquote sandbox ≠ passed)) .importSandboxRequired
  require (unquote sandbox ≠ failed) .sandboxFailed

def sections (kind : PackageKind) : List Text :=
  if kind = .deviceRecipe then
    ["Contexto".toList, "Bind".toList, "Stages / UnlockDAG".toList, "Pre-Flight".toList,
     "Success Criteria".toList, "Failure Policy".toList, "Anti-Patterns".toList]
  else
    ["Contexto".toList, "Goal".toList, "Acionaveis".toList, "Workflow".toList,
     "Pre-Flight".toList, "Success Criteria".toList, "Failure Policy".toList]

def dangerousPatterns : List Text :=
  ["ignore all".toList, "ignore seus comandos".toList, "you are now".toList,
   "system prompt".toList, "<s>".toList, "[/inst]".toList, "<<sys>>".toList, "rm -rf".toList,
   "format c:".toList]

def checkBody (kind : PackageKind) (body : Text) : Check Unit := do
  require ((sections kind).all (hasSection body)) .missingSection
  require (dangerousPatterns.all fun p => !contains p (toAsciiLowercase body)) .dangerousPattern

/-- The signature that a text carries: the first field of that name anywhere. -/
def signatureOf (content : Text) : Check (Option Bytes) :=
  match extractFmField content signatureKey with
  | none => .ok none
  | some raw => parseHexSig (unquote raw)

def checkSignatureContent (id : Identity) (content : Text) : Check Bool := do
  let sig ← signatureOf content
  .ok (sig.elim false (id.verifyTrusted (utf8 (bodyForSign content))))

def checkSeal (id : Identity) (content fm : Text) : Check Unit := do
  let hash ← okOr (extractFmField fm contentHashKey) .missingContentHash
  require (unquote hash = contentHash (bodyForSign content)) .hashMismatch
  let good ← checkSignatureContent id content
  require good .missingOrBadSignature

def checkParts (id : Identity) (kind : PackageKind) (content fm body : Text) : Check Unit := do
  require ((utf8 body).length ≤ 512*1024) .bodyTooLarge
  checkFields kind fm
  checkOrigin fm
  checkBody kind body
  checkSeal id content fm

def verifyArtifactMd (id : Identity) (kind : PackageKind) (raw : Text) : Check Unit := do
  let content := normalizeLf raw
  require (24 ≤ (utf8 (trim content)).length) .bodyTooShort
  require (!contains "..".toList content) .pathTraversal
  match splitn sep 3 content with
  | [_, fm, body] => checkParts id kind content fm body
  | _ => refuse .missingFrontmatter

/-! ## Imported packages wait for the sandbox -/

def Marked (key v line : Text) : Prop := hasKey key line = true → line = v

theorem stripCr_prefix (l : Text) : ∃ t, l = stripCr l ++ t := by
  unfold stripCr
  split
  · next h =>
    obtain ⟨k, hk⟩ := List.getLast?_eq_some_iff.mp h
    exact ⟨['\r'], by simp [hk]⟩
  · exact ⟨[], by simp⟩

/-- The line that a patch writes: neither a carriage return nor a dash ends it. -/
structure Fixed (v : Text) : Prop where
  free : '\n' ∉ v
  cr : v.getLast? ≠ some '\r'
  dash : v.getLast? ≠ some '-'

section Marks
variable {key v : Text}

variable {l : Text}

theorem marked_stripCr (hv : Fixed v) (h : Marked key v l) : Marked key v (stripCr l) := by
  intro hk
  obtain ⟨t, ht⟩ := stripCr_prefix l
  have hl : l = v := h (by rw [ht]; exact hasKey_append hk t)
  rw [hl, stripCr, if_neg hv.cr]

theorem marked_cut (hv : Fixed v) (h : Marked key v (l ++ "---".toList)) :
    Marked key v l := by
  intro hk
  have hl := h (hasKey_append hk _)
  have hd := hv.dash
  rw [← hl] at hd
  simp at hd

theorem marked_each_normalizeLf (hv : Fixed v) {s : Text} (h : Each (Marked key v) s) :
    Each (Marked key v) (normalizeLf s) :=
  each_normalizeLf (Q := Marked key v) (fun _ => marked_stripCr hv) h

theorem marked_parts (hv : Fixed v) {s a b c : Text} (h : Each (Marked key v) s)
    (hs : splitn sep 3 s = [a, b, c]) : Each (Marked key v) b ∧ Each (Marked key v) c := by
  have hsep : sep = "---".toList ++ ['\n'] := rfl
  rw [splitn_three hs, ← List.append_assoc, each_append] at h
  · refine ⟨?_, ?_⟩
    · rw [hsep] at h
      exact each_before (by decide) (fun _ => marked_cut hv) (by decide) (by decide) h.2
    · have hclosed : Closed (b ++ sep) := by
        rw [hsep, ← List.append_assoc]
        exact closed_concat _
      rw [← List.append_assoc, each_append hclosed] at h
      exact h.2.2
  · rw [hsep, ← List.append_assoc]
    exact closed_concat _

theorem marked_other (h : hasKey key l = false) : Marked key v l := by
  intro hk
  rw [h] at hk
  cases hk

theorem marked_unlines (hv : Fixed v) {ls : List Text} (hn : ∀ l ∈ ls, '\n' ∉ l)
    (h : ∀ l ∈ ls, Marked key v l) : Each (Marked key v) (unlines ls) :=
  each_unlines (Q := Marked key v) (fun _ => marked_stripCr hv) hn h

theorem marked_insertLine (hv : Fixed v) {line s t : Text} (hf : '\n' ∉ line)
    (hl : Marked key v line) (h : Each (Marked key v) s) (ht : insertLine line s = some t) :
    Each (Marked key v) t := by
  obtain ⟨q, hq, rfl⟩ := Option.map_eq_some_iff.mp ht
  have hs : s = (q.1 ++ ['\n']) ++ (sep ++ q.2) := by
    rw [cut_eq hq]
    simp [newlineSep, sep]
  rw [hs, each_append (closed_concat _)] at h
  rw [each_append (closed_concat _), each_append (closed_concat _)]
  refine ⟨h.1, ?_, h.2⟩
  have hn : ∀ l ∈ [line], '\n' ∉ l := by simpa using hf
  have hline := marked_unlines hv hn (by simpa using hl)
  simpa [unlines] using hline

end Marks

/-- The lines that the patch and the signer write themselves. -/
structure Patched (key v : Text) : Prop extends Fixed v where
  rewritten : ∀ l, Marked key v (rewriteLine false l)
  sandbox : Marked key v (sandboxLine false)
  provenance : Marked key v provenanceLine
  hash : ∀ x, Marked key v (quoted contentHashKey x)
  signature : ∀ x, Marked key v (quoted signatureKey x)
  dashes : Marked key v "---".toList

theorem hasKey_quoted {key a : Text} {c : Char} (hc : a.head? = some c)
    (hw : isWhitespace c = false) (h₁ : ¬ a <+: key ++ [':']) (h₂ : ¬ key ++ [':'] <+: a)
    (x : Text) : hasKey key (quoted a x) = false := by
  rw [Bool.eq_false_iff]
  intro h
  have hs : trimStart (quoted a x) = quoted a x := by
    obtain ⟨b, rfl⟩ := List.head?_eq_some_iff.mp hc
    exact List.dropWhile_cons_of_neg (by simp [hw])
  rw [hasKey_iff, hs] at h
  rcases List.prefix_or_prefix_of_prefix h (List.prefix_append a _) with hp | hp
  · exact h₂ hp
  · exact h₁ hp

theorem sandbox_patched : Patched sandboxKey (sandboxLine false) where
  free := by decide
  cr := by decide
  dash := by decide
  rewritten l := by
    unfold rewriteLine
    split
    · exact fun _ => rfl
    · next hs =>
      split
      · exact marked_other (by decide)
      · exact fun h => absurd h hs
  sandbox _ := rfl
  provenance := marked_other (by decide)
  hash x := marked_other (hasKey_quoted (c := 'c') (by decide) (by decide) (by decide)
    (by decide) x)
  signature x := marked_other (hasKey_quoted (c := 's') (by decide) (by decide) (by decide)
    (by decide) x)
  dashes := marked_other (by decide)

theorem provenance_patched : Patched provenanceKey provenanceLine where
  free := by decide
  cr := by decide
  dash := by decide
  rewritten l := by
    unfold rewriteLine
    split
    · exact marked_other (by decide)
    · split
      · exact fun _ => rfl
      · next hp => exact fun h => absurd h hp
  sandbox := marked_other (by decide)
  provenance _ := rfl
  hash x := marked_other (hasKey_quoted (c := 'c') (by decide) (by decide) (by decide)
    (by decide) x)
  signature x := marked_other (hasKey_quoted (c := 's') (by decide) (by decide) (by decide)
    (by decide) x)
  dashes := marked_other (by decide)

theorem rewriteLine_free {l : Text} (h : '\n' ∉ l) : '\n' ∉ rewriteLine false l := by
  unfold rewriteLine
  split
  · decide
  · split
    · decide
    · exact h

theorem insertLine_closed {line s t : Text} (h : Closed s) (ht : insertLine line s = some t) :
    Closed t := by
  obtain ⟨q, hq, rfl⟩ := Option.map_eq_some_iff.mp ht
  have hs : s = (q.1 ++ ['\n']) ++ (sep ++ q.2) := by
    rw [cut_eq hq]
    simp [newlineSep, sep]
  rw [hs] at h
  exact (closed_concat _).append ((closed_concat _).append h.of_append)

theorem marked_endLine {key v s : Text} (h : Each (Marked key v) s) (hc : Closed s) :
    Each (Marked key v) (endLine s) ∧ Closed (endLine s) := by
  unfold endLine
  split
  · exact ⟨h, hc⟩
  · refine ⟨(each_append hc).mpr ⟨h, ?_⟩, hc.append (closed_concat [])⟩
    intro l hl
    have hl : l = [] := by simpa [lines, pieces, chomp, stripCr] using hl
    subst hl
    exact marked_other (by simp [hasKey, trim, trimStart])

section Import
variable {key v : Text} (hm : Patched key v)
include hm

theorem marked_sep : Each (Marked key v) sep := by
  intro l hl
  have hs : lines sep = ["---".toList] := by decide
  rw [hs, List.mem_singleton] at hl
  exact hl ▸ hm.dashes

theorem marked_rewritten (content : Text) :
    Each (Marked key v) (unlines ((lines (normalizeLf content)).map (rewriteLine false))) := by
  refine marked_unlines hm.toFixed ?_ ?_
  · intro l hl
    obtain ⟨k, hk, rfl⟩ := List.mem_map.mp hl
    exact rewriteLine_free (line_free hk)
  · intro l hl
    obtain ⟨k, -, rfl⟩ := List.mem_map.mp hl
    exact hm.rewritten k

theorem marked_ensureProvenance {saw : Bool} {s : Text} (h : Each (Marked key v) s)
    (hc : Closed s) :
    Each (Marked key v) (ensureProvenance saw s) ∧ Closed (ensureProvenance saw s) := by
  unfold ensureProvenance
  split
  · exact ⟨h, hc⟩
  · cases hi : insertLine provenanceLine s with
    | none => exact ⟨h, hc⟩
    | some t =>
      exact ⟨marked_insertLine hm.toFixed (by decide) hm.provenance h hi, insertLine_closed hc hi⟩

theorem marked_wrapFrontmatter {s : Text} (h : Each (Marked key v) s) (hc : Closed s) :
    Each (Marked key v) (wrapFrontmatter s) := by
  unfold wrapFrontmatter
  split
  · exact h
  · rw [each_append closed_sep, each_append hc]
    exact ⟨marked_sep hm, h, marked_sep hm⟩

theorem marked_patch {content patched : Text}
    (h : patchImportFrontmatter content false = .ok patched) : Each (Marked key v) patched := by
  have h0 := marked_rewritten hm content
  have hc0 := closed_unlines ((lines (normalizeLf content)).map (rewriteLine false))
  simp only [patchImportFrontmatter] at h
  split at h
  · cases h
  next t ht =>
  cases h
  have h1 : Each (Marked key v) t ∧ Closed t := by
    split at ht
    · cases ht
      exact ⟨h0, hc0⟩
    · exact ⟨marked_insertLine hm.toFixed (by decide) hm.sandbox h0 ht, insertLine_closed hc0 ht⟩
  obtain ⟨h2, hc2⟩ := marked_ensureProvenance hm h1.1 h1.2
  exact marked_wrapFrontmatter hm h2 hc2

theorem marked_sign {id : Identity} {content s : Text} (hc : Each (Marked key v) content)
    (h : signArtifactMd id content = .ok s) : Each (Marked key v) s := by
  simp only [signArtifactMd] at h
  split at h
  · cases h
  next sig _ =>
  split at h
  · next a fm body hp =>
    cases h
    obtain ⟨hfm, hbody⟩ := marked_parts hm.toFixed (marked_each_normalizeLf hm.toFixed hc) hp
    have hkept : Each (Marked key v) (bodyForSign fm) ∧ Closed (bodyForSign fm) := by
      refine ⟨marked_unlines hm.toFixed ?_ ?_, closed_unlines _⟩
      · exact fun l hl => line_free (List.mem_of_mem_filter hl)
      · exact fun l hl => hfm l (List.mem_of_mem_filter hl)
    have hend : Each (Marked key v) (endLine (bodyForSign fm)) ∧ Closed (endLine (bodyForSign fm)) :=
      marked_endLine hkept.1 hkept.2
    have hseal : Each (Marked key v) (unlines
        [quoted contentHashKey (contentHash (bodyForSign content)),
          quoted signatureKey (hexSignature sig)]) := by
      refine marked_unlines hm.toFixed ?_ ?_
      · simp only [List.mem_cons, List.not_mem_nil, or_false, forall_eq_or_imp, forall_eq]
        exact ⟨not_mem_quoted (by decide) (not_mem_contentHash (by decide) _) (by decide),
          not_mem_quoted (by decide) (not_mem_hexSignature (by decide) sig) (by decide)⟩
      · simp only [List.mem_cons, List.not_mem_nil, or_false, forall_eq_or_imp, forall_eq]
        exact ⟨hm.hash _, hm.signature _⟩
    rw [each_append closed_sep, each_append hend.2, each_append (closed_unlines _),
      each_append closed_sep]
    exact ⟨marked_sep hm, hend.1, hseal, marked_sep hm, hbody⟩
  · cases h

end Import

/-! ## What the verifier finds -/

theorem extractFmField_some {s key x : Text} (h : extractFmField s key = some x) :
    ∃ l ∈ lines s, hasKey key l = true ∧ fieldOf key l = some x := by
  obtain ⟨l, hl, hx⟩ := List.exists_of_findSome?_eq_some h
  refine ⟨l, hl, ?_, hx⟩
  obtain ⟨y, hy, -⟩ := Option.map_eq_some_iff.mp hx
  obtain ⟨p, hp, he⟩ := List.dropPrefix?_eq_some_iff.mp hy
  rw [hasKey, List.isPrefixOf_iff_prefix, hp, beq_iff_eq.mp he]
  exact List.prefix_append _ _

theorem extractFmField_marked {s key v x : Text} (h : Each (Marked key v) s)
    (hx : extractFmField s key = some x) : fieldOf key v = some x := by
  obtain ⟨l, hl, hk, hf⟩ := extractFmField_some hx
  rwa [h l hl hk] at hf

theorem checkOrigin_refuses {fm : Text} (hp : Each (Marked provenanceKey provenanceLine) fm)
    (hs : Each (Marked sandboxKey (sandboxLine false)) fm) : checkOrigin fm ≠ .ok () := by
  intro h
  simp only [checkOrigin, bind_ok, require_ok] at h
  obtain ⟨p, hp', _, -, s, hs', _, -, _, hreq, -⟩ := h
  have h1 := extractFmField_marked hp (okOr_ok hp')
  have h2 := extractFmField_marked hs (okOr_ok hs')
  have e1 : fieldOf provenanceKey provenanceLine = some imported := by decide
  have e2 : fieldOf sandboxKey (sandboxLine false) = some "pending".toList := by decide
  rw [e1, Option.some.injEq] at h1
  rw [e2, Option.some.injEq] at h2
  subst h1 h2
  exact absurd (require_ok.mp hreq) (by decide)

theorem safe_checkFields (kind : PackageKind) (fm : Text) : Safe (checkFields kind fm) := by
  unfold checkFields sanitizeName
  repeat' first
    | exact safe_require
    | exact safe_okOr
    | refine safe_bind ?_ fun _ _ => ?_

theorem safe_checkOrigin (fm : Text) : Safe (checkOrigin fm) := by
  unfold checkOrigin
  repeat' first
    | exact safe_require
    | exact safe_okOr
    | refine safe_bind ?_ fun _ _ => ?_

/-- Whatever the document, its kind and the signatures: after an import has been
signed again, the verifier refuses it. -/
theorem resigned_import_refused (id : Identity) (kind : PackageKind) (content s : Text)
    (h : resignImported id content = .ok s) : Refused (verifyArtifactMd id kind s) := by
  unfold resignImported resignImportedWithSandbox at h
  split at h
  · cases h
  next patched hp =>
  have hprov := marked_sign provenance_patched (marked_patch provenance_patched hp) h
  have hsand := marked_sign sandbox_patched (marked_patch sandbox_patched hp) h
  have hprov := marked_each_normalizeLf provenance_patched.toFixed hprov
  have hsand := marked_each_normalizeLf sandbox_patched.toFixed hsand
  unfold verifyArtifactMd
  refine refused_bind (safe_require) fun _ _ => refused_bind (safe_require) fun _ _ => ?_
  split
  · next a fm body hs =>
    have h1 := (marked_parts provenance_patched.toFixed hprov hs).1
    have h2 := (marked_parts sandbox_patched.toFixed hsand hs).1
    unfold checkParts
    refine refused_bind (safe_require) fun _ _ =>
      refused_bind (safe_checkFields kind fm) fun _ _ => Refused.bind ?_ _
    exact refused_of_safe (safe_checkOrigin fm) (checkOrigin_refuses h1 h2)
  · exact ⟨_, rfl⟩

def boldImport : Text :=
  "---\nschema: 1\nkind: skill\n".toList ++ "name: t\ngoal: g\ncontexto: c\n".toList ++
  "acionaveis: [on_demand]\n".toList ++ "required_tokens: [1]\n".toList ++
  "provenance: native_compiled\n".toList ++ "sandbox_status: passed\n---\n".toList ++
  "## Contexto\n## Goal\n## Acionaveis\n".toList ++ "## Workflow\n## Pre-Flight\n".toList ++
  "## Success Criteria\n## Failure Policy\n".toList

def zeroId : Identity where
  signSession _ := some (List.replicate 64 0)
  verifyTrusted _ _ := true

def resigned : Text := (resignImported zeroId boldImport).toOption.getD []

theorem bold_import_refused :
    resignImported zeroId boldImport = .ok resigned ∧
      Refused (verifyArtifactMd zeroId .skill resigned) := by
  have h : resignImported zeroId boldImport = .ok resigned := by decide +kernel
  exact ⟨h, resigned_import_refused zeroId .skill boldImport resigned h⟩

end NeuralOs.Hermes.PackageHub
