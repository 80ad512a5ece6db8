import NeuralOs.Lib.JsonGrammar

/-!
# Structured decoding

A table of transitions masks the logits so that the next token fits the output
grammar. The table names a character by its byte plus an offset, while the tokenizer
counts its characters from the blank on.
-/

set_option autoImplicit false

namespace NeuralOs.Cortex.StructuredDecode
open JsonGrammar

def bos : UInt16 := 0

def eos : UInt16 := 1

def pad : UInt16 := 2

def charOffset : UInt16 := 3

def vocabSize : UInt16 := 99

/-! ### Tokenizer -/

def encode (text : List UInt8) : List UInt16 :=
  (bos::(text.filter fun b => 32 ≤ b && b ≤ 126).map fun b => (b-32).toUInt16+charOffset)++[eos]
    |>.take 64

def charOf (t : UInt16) : Char := Char.ofNat (t-charOffset+32).toUInt8.toNat

def decode : List UInt16 → List Char
  | [] => []
  | t::ts =>
    if t = bos ∨ t = pad then decode ts
    else if t = eos then []
    else if t < vocabSize then charOf t::decode ts
    else decode ts

/-! ### The table -/

inductive DecodeMode
  | free
  | json
  | number
  | alpha
  | skillCmd
  | shellSafe
  deriving DecidableEq

abbrev Key := ℕ × UInt16

def keyLt (a b : Key) : Bool := a.1 < b.1 || (a.1 == b.1 && a.2 < b.2)

def insertKey (key : Key) (next : ℕ) : List (Key × ℕ) → List (Key × ℕ)
  | [] => [(key, next)]
  | e::rest =>
    if e.1 = key then (key, next)::rest
    else if keyLt key e.1 then (key, next)::e::rest
    else e::insertKey key next rest

structure StructuredDecoder where
  mode : DecodeMode
  state : ℕ
  validTokens : List UInt16
  transitions : List (Key × ℕ)

def addTrans (sd : StructuredDecoder) (rule : ℕ × UInt16 × ℕ) : StructuredDecoder :=
  { sd with transitions := insertKey (rule.1, rule.2.1) rule.2.2 sd.transitions }

def updateValid (sd : StructuredDecoder) : StructuredDecoder :=
  let valid := (sd.transitions.filter fun e => e.1.1 = sd.state).map fun e => e.1.2
  { sd with validTokens := if valid = [] ∧ sd.mode ≠ .free then [bos, eos, pad] else valid }

def on (state : ℕ) (c : Char) (next : ℕ) : ℕ × UInt16 × ℕ :=
  (state, UInt16.ofNat c.toNat+charOffset, next)

def onRange (state first count next : ℕ) : List (ℕ × UInt16 × ℕ) :=
  (List.range count).map fun d => (state, UInt16.ofNat (first+d)+charOffset, next)

def jsonRules : List (ℕ × UInt16 × ℕ) :=
  [on 0 '{' 1, on 0 '[' 4, on 0 '"' 5, on 0 't' 7, on 0 'f' 8, on 0 'n' 9]++
  onRange 0 48 10 6++
  [on 0 '-' 6, on 1 '"' 5, on 1 '}' 0, on 2 ':' 0, on 3 ',' 1, on 3 '}' 0, on 4 ']' 0, on 4 '"' 5]++
  onRange 4 48 10 6++
  (onRange 5 32 95 5).filter (fun r => r.2.1 ≠ 34+charOffset)++
  [on 5 '"' 0, on 6 ',' 3, on 6 '}' 0, on 6 ']' 0]++
  onRange 6 48 10 6++
  [on 6 '.' 6, on 7 'r' 10, on 10 'u' 11, on 11 'e' 0, on 8 'a' 12, on 12 'l' 13, on 13 's' 14,
    on 14 'e' 0, on 9 'u' 15, on 15 'l' 16, on 16 'l' 0]

def numberRules : List (ℕ × UInt16 × ℕ) :=
  onRange 0 48 10 0++[on 0 '.' 1, on 0 '-' 0, on 1 '0' 1]

def alphaRules : List (ℕ × UInt16 × ℕ) := onRange 0 65 26 0++onRange 0 97 26 0++[on 0 ' ' 0]

def skillRules : List (ℕ × UInt16 × ℕ) := on 0 '/' 1::onRange 1 97 26 1++[on 1 ' ' 0]

def shellRules : List (ℕ × UInt16 × ℕ) :=
  "ABCDEFGHIJKLMNOPQRSTUVWXYZabcdefghijklmnopqrstuvwxyz0123456789 ./_=+-@!~,[]".toList.map
    fun c => on 0 c 0

def rules : DecodeMode → List (ℕ × UInt16 × ℕ)
  | .free => []
  | .json => jsonRules
  | .number => numberRules
  | .alpha => alphaRules
  | .skillCmd => skillRules
  | .shellSafe => shellRules

def StructuredDecoder.new (mode : DecodeMode) : StructuredDecoder :=
  if mode = .free then ⟨mode, 0, (List.range 99).map UInt16.ofNat, []⟩
  else updateValid ((rules mode).foldl addTrans ⟨mode, 0, [], []⟩)

/-! ### Steps -/

def get (transitions : List (Key × ℕ)) (key : Key) : Option ℕ :=
  (transitions.find? fun e => e.1 = key).map Prod.snd

/-- A pair that is not in the table leaves the state. -/
def advance (sd : StructuredDecoder) (token : UInt16) : StructuredDecoder :=
  { sd with state := (get sd.transitions (sd.state, token)).getD sd.state }

def step (sd : StructuredDecoder) (token : UInt16) : List UInt16 × StructuredDecoder :=
  if sd.mode = .free then ([], sd)
  else if token = eos then ([], advance sd token)
  else ((updateValid (advance sd token)).validTokens, updateValid (advance sd token))

def leaves (sd : StructuredDecoder) (token : UInt16) : Bool :=
  sd.mode == .free || token < charOffset || sd.validTokens.contains token

def maskLogits {F : Type} (negInfinity : F) (sd : StructuredDecoder) (logits : List F) : List F :=
  logits.mapIdx fun i x => if leaves sd (UInt16.ofNat i) then x else negInfinity

/-- Every token is left unmasked in the state that the tokens before it lead to. -/
def Allowed : StructuredDecoder → List UInt16 → Prop
  | _, [] => True
  | sd, t::ts => leaves sd t = true ∧ Allowed (step sd t).2 ts

instance decidableAllowed : ∀ (sd : StructuredDecoder) (ts : List UInt16), Decidable (Allowed sd ts)
  | _, [] => inferInstanceAs (Decidable True)
  | sd, t::ts =>
    have := decidableAllowed (step sd t).2 ts
    inferInstanceAs (Decidable (leaves sd t = true ∧ Allowed (step sd t).2 ts))

/-! ### The JSON table -/

def decoderAt (table : List (Key × ℕ)) (state : ℕ) : StructuredDecoder :=
  updateValid ⟨.json, state, [], table⟩

def jsonTable : List (Key × ℕ) := (jsonRules.foldl addTrans ⟨.json, 0, [], []⟩).transitions

def jsonAt (state : ℕ) : StructuredDecoder := decoderAt jsonTable state

theorem foldl_addTrans (rs : List (ℕ × UInt16 × ℕ)) (m : DecodeMode) (s : ℕ) (v : List UInt16)
    (table : List (Key × ℕ)) :
    rs.foldl addTrans ⟨m, s, v, table⟩ =
      ⟨m, s, v, (rs.foldl addTrans ⟨m, s, v, table⟩).transitions⟩ := by
  induction rs generalizing table with
  | nil => rfl
  | cons r rs ih => exact ih _

theorem new_json : StructuredDecoder.new .json = jsonAt 0 := by
  have hnew : StructuredDecoder.new .json =
      updateValid (jsonRules.foldl addTrans ⟨.json, 0, [], []⟩) := if_neg DecodeMode.noConfusion
  rw [hnew]
  exact congrArg updateValid (foldl_addTrans jsonRules .json 0 [] [])

variable {e : Key × ℕ}

theorem mem_insertKey {key : Key} {next : ℕ} {table : List (Key × ℕ)}
    (h : e ∈ insertKey key next table) : e = (key, next) ∨ e ∈ table := by
  induction table with
  | nil => exact .inl (List.mem_singleton.mp h)
  | cons d table ih =>
    rw [insertKey] at h
    split at h
    · exact (List.mem_cons.mp h).imp_right (List.mem_cons_of_mem d)
    · split at h
      · exact List.mem_cons.mp h
      · rcases List.mem_cons.mp h with rfl | h
        · exact .inr List.mem_cons_self
        · exact (ih h).imp_right (List.mem_cons_of_mem d)

theorem mem_foldl_addTrans {rs : List (ℕ × UInt16 × ℕ)} {sd : StructuredDecoder}
    (h : e ∈ (rs.foldl addTrans sd).transitions) :
    (e.1.1, e.1.2, e.2) ∈ rs ∨ e ∈ sd.transitions := by
  induction rs generalizing sd with
  | nil => exact .inr h
  | cons r rs ih =>
    rcases ih h with hmem | hmem
    · exact .inl (List.mem_cons_of_mem r hmem)
    · rcases mem_insertKey hmem with rfl | hmem
      · exact .inl List.mem_cons_self
      · exact .inr hmem

theorem mem_jsonTable (h : e ∈ jsonTable) : (e.1.1, e.1.2, e.2) ∈ jsonRules :=
  (mem_foldl_addTrans h).resolve_right List.not_mem_nil

def quiet : List ℕ := [0, 1, 7, 8, 9, 10, 11, 12, 13, 14, 15, 16]

def loud : List UInt16 := [37, 48, 51, 52, 53, 54, 55, 56, 57, 58, 59, 60]

theorem json_rules : ∀ r ∈ jsonRules, 35 ≤ r.2.1 ∧
    (r.1 ∈ quiet →
      (99 ≤ r.2.1 ∧ r.2.2 ∈ quiet) ∨ (r.2.1 = 94 ∧ r.2.2 = 4) ∨ r.2.1 ∈ loud) ∧
    (r.1 = 4 → r.2.1 = 96 ∨ r.2.1 ∈ loud) := by
  decide +kernel

theorem json_tokens (h : e ∈ jsonTable) : 35 ≤ e.1.2 :=
  (json_rules _ (mem_jsonTable h)).1

theorem json_quiet (h : e ∈ jsonTable) (hs : e.1.1 ∈ quiet) :
    (99 ≤ e.1.2 ∧ e.2 ∈ quiet) ∨ (e.1.2 = 94 ∧ e.2 = 4) ∨ e.1.2 ∈ loud :=
  (json_rules _ (mem_jsonTable h)).2.1 hs

theorem json_array (h : e ∈ jsonTable) (hs : e.1.1 = 4) : e.1.2 = 96 ∨ e.1.2 ∈ loud :=
  (json_rules _ (mem_jsonTable h)).2.2 hs

theorem get_mem {transitions : List (Key × ℕ)} {key : Key} {next : ℕ}
    (h : get transitions key = some next) : (key, next) ∈ transitions := by
  obtain ⟨e, he, rfl⟩ := Option.map_eq_some_iff.mp h
  have hkey : e.1 = key := by simpa using List.find?_some he
  rw [← hkey]
  exact List.mem_of_find?_eq_some he

theorem get_of_mem {transitions : List (Key × ℕ)} (h : e ∈ transitions) :
    ∃ next, get transitions e.1 = some next := by
  have hsome : (transitions.find? fun d => d.1 = e.1).isSome :=
    List.find?_isSome.mpr ⟨e, h, by simp⟩
  obtain ⟨d, hd⟩ := Option.isSome_iff_exists.mp hsome
  exact ⟨d.2, by rw [get, hd]; rfl⟩

section
variable {table : List (Key × ℕ)} (htable : ∀ e ∈ table, 35 ≤ e.1.2)
include htable

theorem get_special {t : UInt16} (h : t < 35) (s : ℕ) : get table (s, t) = none := by
  cases hg : get table (s, t) with
  | none => rfl
  | some next =>
    have hge : 35 ≤ t := htable _ (get_mem hg)
    exact absurd h (UInt16.not_lt.mpr hge)

theorem step_decoderAt (s : ℕ) (t : UInt16) :
    (step (decoderAt table s) t).2 = decoderAt table ((get table (s, t)).getD s) := by
  have hmode : ¬(decoderAt table s).mode = .free := DecodeMode.noConfusion
  have hadv : advance (decoderAt table s) t =
      { decoderAt table s with state := (get table (s, t)).getD s } := rfl
  rw [step, if_neg hmode]
  split
  · next ht =>
    have hnone : get table (s, t) = none := get_special htable (by rw [ht]; decide) s
    rw [hadv, hnone]
    rfl
  · rfl

theorem leaves_cases {s : ℕ} {t : UInt16} (h : leaves (decoderAt table s) t = true) :
    (t < charOffset ∧ (step (decoderAt table s) t).2 = decoderAt table s) ∨
      ∃ next, ((s, t), next) ∈ table ∧
        (step (decoderAt table s) t).2 = decoderAt table next := by
  by_cases ht : t < charOffset
  · refine .inl ⟨ht, ?_⟩
    rw [step_decoderAt htable, get_special htable (UInt16.lt_trans ht (by decide))]
    rfl
  have hvalid : t ∈ (decoderAt table s).validTokens := by
    simpa [leaves, ht, decoderAt, updateValid] using h
  rw [decoderAt, updateValid] at hvalid
  simp only at hvalid
  split at hvalid
  · simp only [List.mem_cons, List.not_mem_nil, or_false] at hvalid
    rcases hvalid with rfl | rfl | rfl <;> exact absurd (by decide) ht
  obtain ⟨e, he, rfl⟩ := List.mem_map.mp hvalid
  obtain ⟨hmem, hs⟩ := List.mem_filter.mp he
  obtain ⟨next, hnext⟩ := get_of_mem hmem
  have hkey : e.1 = (s, e.1.2) := Prod.ext (by simpa using hs) rfl
  rw [hkey] at hnext
  exact .inr ⟨next, get_mem hnext, by rw [step_decoderAt htable, hnext]; rfl⟩

end

variable {s : ℕ} {t : UInt16} {ts : List UInt16}

theorem json_step (h : leaves (jsonAt s) t = true) :
    (t < charOffset ∧ (step (jsonAt s) t).2 = jsonAt s) ∨
      ∃ next, ((s, t), next) ∈ jsonTable ∧ (step (jsonAt s) t).2 = jsonAt next :=
  leaves_cases (fun _ => json_tokens) h

/-! ### What is shown -/

def shown (ts : List UInt16) : List UInt16 :=
  (ts.takeWhile (· ≠ eos)).filter fun t => charOffset ≤ t && t < vocabSize

theorem decode_eq (ts : List UInt16) : decode ts = (shown ts).map charOf := by
  induction ts with
  | nil => rfl
  | cons t ts ih =>
    rw [decode]
    split
    · next h => rcases h with rfl | rfl <;> exact ih
    next h =>
    split
    · next ht =>
      subst ht
      rfl
    next ht =>
    have hge : charOffset ≤ t := by
      rw [UInt16.le_iff_toNat_le]
      simp only [not_or, bos, pad, eos, ← UInt16.toNat_inj] at h ht
      simp [charOffset] at h ht ⊢
      omega
    have hne : (decide (t ≠ eos)) = true := decide_eq_true ht
    rw [shown, List.takeWhile_cons, if_pos hne]
    split
    · next hlt => simp [hge, hlt, ih, shown]
    · next hlt => simp [hlt, ih, shown]

theorem shown_special (h : t < charOffset) (ts : List UInt16) :
    shown (t::ts) = [] ∨ shown (t::ts) = shown ts := by
  by_cases ht : t = eos
  · exact .inl (by simp [shown, ht])
  · exact .inr (by simp [shown, ht, UInt16.not_le.mpr h])

theorem shown_high (h : vocabSize ≤ t) (ts : List UInt16) : shown (t::ts) = shown ts := by
  have hne : t ≠ eos := by
    rintro rfl
    exact absurd h (by decide)
  simp [shown, hne, UInt16.not_lt.mpr h]

theorem shown_char (h : charOffset ≤ t) (h' : t < vocabSize) (ts : List UInt16) :
    shown (t::ts) = t::shown ts := by
  have hne : t ≠ eos := by
    rintro rfl
    exact absurd h (by decide)
  simp [shown, hne, h, h']

theorem shown_printable (h : Allowed (jsonAt s) ts) : ∀ t ∈ shown ts, 35 ≤ t ∧ t < vocabSize := by
  induction ts generalizing s with
  | nil => simp [shown]
  | cons t ts ih =>
    obtain ⟨hl, hrest⟩ := h
    rcases json_step hl with ⟨ht, hstep⟩ | ⟨next, hmem, hstep⟩
    · rw [hstep] at hrest
      rcases shown_special ht ts with hs | hs
      · simp [hs]
      · rw [hs]
        exact ih hrest
    · rw [hstep] at hrest
      have hge : 35 ≤ t := json_tokens hmem
      by_cases hlt : t < vocabSize
      · rw [shown_char (UInt16.le_trans (by decide) hge) hlt, List.forall_mem_cons]
        exact ⟨⟨hge, hlt⟩, ih hrest⟩
      · rw [shown_high (UInt16.not_lt.mp hlt)]
        exact ih hrest

theorem loud_range (h : t ∈ loud) : charOffset ≤ t ∧ t < vocabSize := by
  have hall : (loud.all fun t => charOffset ≤ t ∧ t < vocabSize) = true := by decide +kernel
  exact of_decide_eq_true (List.all_eq_true.mp hall t h)

theorem shown_array (h : Allowed (jsonAt 4) ts) :
    shown ts = [] ∨ ∃ t rest, shown ts = t::rest ∧ (t = 96 ∨ t ∈ loud) := by
  induction ts with
  | nil => exact .inl rfl
  | cons t ts ih =>
    obtain ⟨hl, hrest⟩ := h
    rcases json_step hl with ⟨ht, hstep⟩ | ⟨next, hmem, hstep⟩
    · rw [hstep] at hrest
      rcases shown_special ht ts with hs | hs
      · exact .inl hs
      · rw [hs]
        exact ih hrest
    · have ht : t = 96 ∨ t ∈ loud := json_array hmem rfl
      have hrange : charOffset ≤ t ∧ t < vocabSize := by
        rcases ht with rfl | ht
        · decide
        · exact loud_range ht
      exact .inr ⟨t, shown ts, shown_char hrange.1 hrange.2 ts, ht⟩

theorem shown_quiet (hs : s ∈ quiet) (h : Allowed (jsonAt s) ts) :
    shown ts = [] ∨ (∃ t rest, shown ts = t::rest ∧ t ∈ loud) ∨
      ∃ us, shown ts = 94::shown us ∧ Allowed (jsonAt 4) us := by
  induction ts generalizing s with
  | nil => exact .inl rfl
  | cons t ts ih =>
    obtain ⟨hl, hrest⟩ := h
    rcases json_step hl with ⟨ht, hstep⟩ | ⟨next, hmem, hstep⟩
    · rw [hstep] at hrest
      rcases shown_special ht ts with hsh | hsh
      · exact .inl hsh
      · rw [hsh]
        exact ih hs hrest
    rw [hstep] at hrest
    rcases json_quiet hmem hs with ⟨hhigh, hnext⟩ | ⟨ht, hnext⟩ | ht
    · rw [shown_high hhigh]
      exact ih hnext hrest
    · simp only at ht hnext
      rw [hnext] at hrest
      subst ht
      exact .inr (.inr ⟨ts, shown_char (by decide) (by decide) ts, hrest⟩)
    · have hrange := loud_range ht
      exact .inr (.inl ⟨t, shown ts, shown_char hrange.1 hrange.2 ts, ht⟩)

theorem loud_chars (h : t ∈ loud) :
    isBlank (charOf t) = false ∧ charOf t ∉ starts ∧ charOf t ≠ '"' ∧ charOf t ≠ '}' := by
  have hall : (loud.all fun t => isBlank (charOf t) = false ∧ charOf t ∉ starts ∧
      charOf t ≠ '"' ∧ charOf t ≠ '}') = true := by decide +kernel
  exact of_decide_eq_true (List.all_eq_true.mp hall t h)

theorem printable_not_blank (h : 35 ≤ t) (h' : t < vocabSize) : isBlank (charOf t) = false := by
  have hall : ∀ m : Fin 99, 35 ≤ m.val → isBlank (charOf (UInt16.ofNat m)) = false := by decide
  rw [UInt16.le_iff_toNat_le] at h
  rw [UInt16.lt_iff_toNat_lt] at h'
  have ht := hall ⟨t.toNat, h'⟩ h
  rwa [UInt16.ofNat_toNat] at ht

theorem shown_of_json {rest : List Char} (h : Allowed (jsonAt 0) ts)
    (hj : Element ((shown ts).map charOf++rest)) :
    shown ts = [] ∨ shown ts = [94] ∨ shown ts = [94, 96] := by
  have hprint := shown_printable h
  rcases shown_quiet (by decide) h with hnil | ⟨t, v, hs, ht⟩ | ⟨us, hs, hus⟩
  · exact .inl hnil
  · rw [hs] at hj
    obtain ⟨hblank, hstart, -⟩ := loud_chars ht
    rcases element_head hj with hb | hb
    · rw [hblank] at hb
      cases hb
    · exact absurd hb hstart
  rw [hs] at hj hprint ⊢
  rcases shown_array hus with hnil | ⟨t, v, hs', ht⟩
  · exact .inr (.inl (by rw [hnil]))
  rw [hs'] at hj hprint ⊢
  rcases ht with rfl | ht
  · cases v with
    | nil => exact .inr (.inr rfl)
    | cons d v =>
      have hj' : Element ('{':: '}'::((d::v).map charOf++rest)) := hj
      have hb := element_empty hj' (charOf d) (by simp)
      obtain ⟨hge, hlt⟩ := hprint d (by simp)
      rw [printable_not_blank hge hlt] at hb
      cases hb
  · obtain ⟨hblank, -, hq, hc⟩ := loud_chars ht
    have hj' : Element ('{'::charOf t::(v.map charOf++rest)) := hj
    rcases element_brace_next hj' with hb | hb | hb
    · rw [hblank] at hb
      cases hb
    · exact absurd hb hq
    · exact absurd hb hc

/-- A decoded text is the beginning of a JSON text, and a JSON text once the end was chosen,
exactly when only the brackets of an empty array were shown, and both of them at the end. -/
theorem json_only_iff (ts : List UInt16) (h : Allowed (.new .json) ts) :
    ((∃ rest, Element (decode ts++rest)) ∧ (eos ∈ ts → Element (decode ts))) ↔
      (shown ts = [] ∨ shown ts = [94] ∨ shown ts = [94, 96]) ∧
        (eos ∈ ts → shown ts = [94, 96]) := by
  have hobject : Element ['{', '}'] :=
    .mk (a := []) (b := []) (by simp [Blanks]) (.emptyObject (w := []) (by simp [Blanks]))
      (by simp [Blanks])
  rw [new_json] at h
  rw [decode_eq]
  constructor
  · rintro ⟨⟨rest, hrest⟩, hend⟩
    refine ⟨shown_of_json h hrest, fun he => ?_⟩
    have hj := hend he
    have hj' : Element ((shown ts).map charOf++[]) := by rwa [List.append_nil]
    rcases shown_of_json h hj' with hs | hs | hs
    · rw [hs] at hj
      generalize ht : List.map charOf [] = t at hj
      cases hj with
      | mk ha hv hb =>
        obtain ⟨c, r, rfl, -⟩ := value_head hv
        simp at ht
    · rw [hs] at hj
      obtain ⟨s, b, hb, -⟩ := element_brace (show Element ('{'::[]) from hj)
      simp at hb
    · exact hs
  · rintro ⟨hs, hend⟩
    constructor
    · rcases hs with hs | hs | hs
      · exact ⟨['{', '}'], by rw [hs]; exact hobject⟩
      · exact ⟨['}'], by rw [hs]; exact hobject⟩
      · exact ⟨[], by rw [hs]; exact hobject⟩
    · intro he
      rw [hend he]
      exact hobject

theorem empty_array_is_json : Allowed (.new .json) [94, 96, 1] ∧ Element (decode [94, 96, 1]) := by
  have hallowed : Allowed (.new .json) [94, 96, 1] := by decide +kernel
  exact ⟨hallowed, ((json_only_iff _ hallowed).mpr (by decide)).2 (by decide)⟩

/-- A quotation mark is shown as a letter, and the end may be chosen at once. -/
theorem quotation_mark_shown :
    Allowed (.new .json) [37] ∧ decode [37] = ['B'] ∧ (¬∃ rest, Element (decode [37]++rest)) ∧
      Allowed (.new .json) [1] ∧ ¬Element (decode [1]) := by
  refine ⟨by decide +kernel, by decide, ?_, by decide +kernel, ?_⟩
  · rintro ⟨rest, hrest⟩
    have hB : Element ('B'::rest) := hrest
    rcases element_head hB with hb | hb <;> revert hb <;> decide
  intro hj
  generalize ht : decode [1] = t at hj
  cases hj with
  | mk ha hv hb =>
    obtain ⟨c, r, rfl, -⟩ := value_head hv
    simp [decode, bos, pad, eos] at ht

end NeuralOs.Cortex.StructuredDecode
