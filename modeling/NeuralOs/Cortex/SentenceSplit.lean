import NeuralOs.Bpe.RoundTrip
import NeuralOs.Lib.TextScan

/-!
# Steady texts

In a steady text each terminator closes a sentence wherever a piece ends, and the
characters that the byte count takes too many are blanks of the next sentence. However
such a text is cut into pieces, it is split after every terminator.
-/

set_option autoImplicit false

namespace NeuralOs.Cortex.SentenceStream
open TextScan Bpe

/-! ### The source -/

def isStop (b : UInt8) : Bool := [0x2E, 0x21, 0x3F, 0x3B].contains b

/-- A sentence may close here: a blank, a new line or the end follows. -/
def closes : List UInt8 → Bool
  | [] => true
  | d::_ => d == 0x20 || d == 0x0A

def boundaryFrom : ℕ → List UInt8 → Option ℕ
  | _, [] => none
  | i, b::rest => if isStop b && closes rest then some (i+1) else boundaryFrom (i+1) rest

def sentenceBoundary (buf : Text) : Option ℕ := boundaryFrom 0 (utf8 buf)

structure ActiveState where
  accText : Text
  ttsBuf : Text
  /-- What was sent to the two topics, oldest first. -/
  deltas : List Text
  partials : List Text
  /-- Bookkeeping only: the sentences as they were cut. -/
  cuts : List Text

def ActiveState.init : ActiveState := ⟨[], [], [], [], []⟩

def spoken (sentence : Text) : Option Text :=
  if trim sentence = [] then none else some ("[JARBAS] ".toList++trim sentence)

def ActiveState.cutAt (st : ActiveState) (stop : ℕ) : ActiveState :=
  { st with
    ttsBuf := st.ttsBuf.drop stop
    partials := st.partials++(spoken (st.ttsBuf.take stop)).toList
    cuts := st.cuts++[st.ttsBuf.take stop] }

/-- At most one round for each character, since each cut takes one. -/
def cutSentences : ℕ → ActiveState → ActiveState
  | 0, st => st
  | n+1, st =>
    match sentenceBoundary st.ttsBuf with
    | none => st
    | some stop => cutSentences n (st.cutAt stop)

/-- `gib`: the tokens so far are taken for gibberish. -/
def pushDelta (gib : Bool) (st : ActiveState) (piece : Text) : ActiveState :=
  if piece = [] then st
  else if gib then
    { st with accText := st.accText++piece, ttsBuf := [], deltas := st.deltas++[piece] }
  else
    cutSentences (st.ttsBuf++piece).length
      { st with
        accText := st.accText++piece
        ttsBuf := st.ttsBuf++piece
        deltas := st.deltas++[piece] }

def feed (st : ActiveState) (pieces : List Text) : ActiveState := pieces.foldl (pushDelta false) st

/-! ### Boundaries in characters -/

def stops (c : Char) : Bool := ['.', '!', '?', ';'].contains c

def Free (text : Text) : Prop := ∀ c ∈ text, stops c = false

def clear : Text → Bool
  | [] => true
  | c::_ => c == ' ' || c == '\n'

def extra (text : Text) : ℕ := (utf8 text).length-text.length

variable {c : Char}

theorem stops_ascii (h : c.toNat < 128) : isStop (UInt8.ofNat c.toNat) = stops c := by
  have hall : ∀ m : Fin 128, isStop (UInt8.ofNat m) = stops (Char.ofNat m) := by decide
  simpa only [Char.ofNat_toNat] using hall ⟨c.toNat, h⟩

theorem high_bytes (h : ¬c.toNat < 128) : ∀ b ∈ String.utf8EncodeChar c, 128 ≤ b.toNat := by
  have hv : ¬c.val.toNat ≤ 127 := fun hle => h (Nat.lt_succ_of_le hle)
  intro b hb
  rw [String.utf8EncodeChar] at hb
  simp only [if_neg hv] at hb
  split at hb
  · simp only [List.mem_cons, List.not_mem_nil, or_false] at hb
    rcases hb with rfl | rfl <;> simp <;> omega
  · split at hb
    · simp only [List.mem_cons, List.not_mem_nil, or_false] at hb
      rcases hb with rfl | rfl | rfl <;> simp <;> omega
    · simp only [List.mem_cons, List.not_mem_nil, or_false] at hb
      rcases hb with rfl | rfl | rfl | rfl <;> simp <;> omega

theorem high_not_stop {b : UInt8} (h : 128 ≤ b.toNat) : isStop b = false ∧ b ≠ 0x20 ∧ b ≠ 0x0A := by
  have hne : ∀ d : UInt8, d.toNat < 128 → b ≠ d := by
    rintro d hd rfl
    omega
  have hstop : b ∉ [0x2E, 0x21, 0x3F, 0x3B] := by
    simp [hne 0x2E (by decide), hne 0x21 (by decide), hne 0x3F (by decide), hne 0x3B (by decide)]
  exact ⟨by simpa [isStop] using hstop, hne _ (by decide), hne _ (by decide)⟩

theorem stops_lt (h : stops c = true) : c.toNat < 128 := by
  have hall : (['.', '!', '?', ';'].all fun c => c.toNat < 128) = true := by decide
  exact of_decide_eq_true (List.all_eq_true.mp hall c (by simpa [stops] using h))

theorem free_bytes {text : Text} (h : Free text) : ∀ b ∈ utf8 text, isStop b = false := by
  intro b hb
  obtain ⟨c, hc, hbc⟩ := List.mem_flatMap.mp hb
  by_cases hlt : c.toNat < 128
  · rw [utf8EncodeChar_ascii hlt, List.mem_singleton] at hbc
    rw [hbc, stops_ascii hlt]
    exact h c hc
  · exact (high_not_stop (high_bytes hlt b hbc)).1

theorem clear_bytes (text : Text) : closes (utf8 text) = clear text := by
  cases text with
  | nil => rfl
  | cons c text =>
    rw [utf8_cons]
    by_cases hlt : c.toNat < 128
    · have hall : ∀ m : Fin 128, (UInt8.ofNat m == 0x20 || UInt8.ofNat m == 0x0A) =
          (Char.ofNat m == ' ' || Char.ofNat m == '\n') := by decide
      have hc := hall ⟨c.toNat, hlt⟩
      rw [Char.ofNat_toNat] at hc
      rw [utf8EncodeChar_ascii hlt]
      exact hc
    · have hno : clear (c::text) = false := by
        have hne : ∀ d : Char, d.toNat < 128 → c ≠ d := by
          rintro d hd rfl
          exact hlt hd
        simp [clear, hne ' ' (by decide), hne '\n' (by decide)]
      rcases hb : String.utf8EncodeChar c with _ | ⟨b, bs⟩
      · exact absurd hb String.utf8EncodeChar_ne_nil
      · obtain ⟨-, h₁, h₂⟩ := high_not_stop (high_bytes hlt b (by simp [hb]))
        rw [hno, List.cons_append, closes]
        simp [h₁, h₂]

theorem boundaryFrom_skip {a : List UInt8} (h : ∀ b ∈ a, isStop b = false) (i : ℕ)
    (rest : List UInt8) : boundaryFrom i (a++rest) = boundaryFrom (i+a.length) rest := by
  induction a generalizing i with
  | nil => rfl
  | cons b a ih =>
    rw [List.cons_append, boundaryFrom, h b (by simp), Bool.false_and, if_neg Bool.false_ne_true,
      ih (fun d hd => h d (by simp [hd])), List.length_cons, Nat.add_right_comm, Nat.add_assoc]

theorem boundaryFrom_shift (i k : ℕ) (bytes : List UInt8) :
    boundaryFrom (i+k) bytes = (boundaryFrom i bytes).map (·+k) := by
  induction bytes generalizing i with
  | nil => rfl
  | cons b bytes ih =>
    rw [boundaryFrom, boundaryFrom]
    split
    · simp only [Option.map_some, Option.some.injEq]
      omega
    · rw [Nat.add_right_comm]
      exact ih (i+1)

theorem utf8_append (a b : Text) : utf8 (a++b) = utf8 a++utf8 b := List.flatMap_append

theorem utf8_length (text : Text) : (utf8 text).length = text.length+extra text := by
  have := length_le_utf8 text
  rw [extra]
  omega

theorem extra_le (a b : Text) : extra b ≤ extra (a++b) := by
  have ha := utf8_length a
  have hb := utf8_length b
  have hab := utf8_length (a++b)
  rw [utf8_append, List.length_append, List.length_append] at hab
  omega

theorem boundary_free {text : Text} (h : Free text) : sentenceBoundary text = none := by
  have hskip := boundaryFrom_skip (free_bytes h) 0 []
  rw [List.append_nil] at hskip
  exact hskip

theorem boundary_cons {body : Text} (hbody : Free body) (hc : stops c = true)
    (u : Text) :
    sentenceBoundary (body++c::u) =
      if clear u then some (utf8 (body++[c])).length
      else (sentenceBoundary u).map (·+(utf8 (body++[c])).length) := by
  have hlen : (utf8 (body++[c])).length = (utf8 body).length+1 := by
    rw [utf8_append, List.length_append]
    simp [utf8, utf8EncodeChar_ascii (stops_lt hc)]
  have hstop : isStop (UInt8.ofNat c.toNat) = true := (stops_ascii (stops_lt hc)).trans hc
  rw [sentenceBoundary, utf8_append, boundaryFrom_skip (free_bytes hbody), utf8_cons,
    utf8EncodeChar_ascii (stops_lt hc), List.singleton_append, boundaryFrom, hstop, clear_bytes,
    Bool.true_and, hlen, Nat.zero_add]
  split
  · rfl
  · rw [sentenceBoundary, ← boundaryFrom_shift, Nat.zero_add]

theorem free_or_stop (text : Text) :
    Free text ∨ ∃ body c u, text = body++c::u ∧ Free body ∧ stops c = true := by
  induction text with
  | nil => exact .inl (by simp [Free])
  | cons d text ih =>
    by_cases hd : stops d = true
    · exact .inr ⟨[], d, text, rfl, by simp [Free], hd⟩
    · rcases ih with hfree | ⟨body, c, u, rfl, hbody, hc⟩
      · exact .inl (by simpa [Free, hd] using hfree)
      · exact .inr ⟨d::body, c, u, rfl, by simpa [Free, hd] using hbody, hc⟩

theorem boundary_stop {text : Text} {e : ℕ} (h : sentenceBoundary text = some e) :
    ∃ c ∈ text.take e, stops c = true := by
  rcases free_or_stop text with hfree | ⟨body, c, u, rfl, hbody, hc⟩
  · rw [boundary_free hfree] at h
    cases h
  have hpos : (body++[c]).length ≤ e := by
    have hlen := utf8_length (body++[c])
    rw [boundary_cons hbody hc] at h
    split at h
    · simp only [Option.some.injEq] at h
      omega
    · obtain ⟨e', -, rfl⟩ := Option.map_eq_some_iff.mp h
      omega
  have hsplit : body++c::u = (body++[c])++u := by simp
  refine ⟨c, ?_, hc⟩
  rw [hsplit, List.take_append, List.take_of_length_le hpos]
  simp

theorem boundary_pos {text : Text} {e : ℕ} (h : sentenceBoundary text = some e) :
    0 < e ∧ text ≠ [] := by
  obtain ⟨c, hc, -⟩ := boundary_stop h
  constructor
  · rcases Nat.eq_zero_or_pos e with rfl | hpos
    · simp at hc
    · exact hpos
  · rintro rfl
    simp at hc

/-! ## Steady texts -/

def spares (k : ℕ) (u : Text) : Bool :=
  (u.take k).all isWhitespace && (k == 0 || u.isEmpty || u.any stops)

def steadyFrom (body : Text) : Text → Bool
  | [] => true
  | c::u =>
    if stops c then clear u && spares (extra (body++[c])) u && steadyFrom [] u
    else steadyFrom (body++[c]) u

def Steady (text : Text) : Prop := steadyFrom [] text = true

instance (text : Text) : Decidable (Steady text) := instDecidableEqBool _ _

def partsFrom (body : Text) : Text → List Text × Text
  | [] => ([], body)
  | c::u =>
    if stops c then ((body++[c])::(partsFrom [] u).1, (partsFrom [] u).2)
    else partsFrom (body++[c]) u

def parts (text : Text) : List Text × Text := partsFrom [] text

def voiced (sentences : List Text) : List Text := sentences.filterMap spoken

/-! ### Texts with and without a terminator -/

theorem steadyFrom_append (body : Text) {rest : Text} (h : Free rest) (u : Text) :
    steadyFrom body (rest++u) = steadyFrom (body++rest) u := by
  induction rest generalizing body with
  | nil => simp
  | cons c rest ih =>
    have hrest : Free rest := fun d hd => h d (by simp [hd])
    rw [List.cons_append, steadyFrom, h c (by simp), if_neg Bool.false_ne_true, ih _ hrest,
      List.append_assoc, List.singleton_append]

theorem partsFrom_append (body : Text) {rest : Text} (h : Free rest) (u : Text) :
    partsFrom body (rest++u) = partsFrom (body++rest) u := by
  induction rest generalizing body with
  | nil => simp
  | cons c rest ih =>
    have hrest : Free rest := fun d hd => h d (by simp [hd])
    rw [List.cons_append, partsFrom, h c (by simp), if_neg Bool.false_ne_true, ih _ hrest,
      List.append_assoc, List.singleton_append]

theorem steady_free {text : Text} (h : Free text) : Steady text := by
  have happ := steadyFrom_append [] h []
  rw [List.append_nil] at happ
  rw [Steady, happ]
  rfl

theorem parts_free {text : Text} (h : Free text) : parts text = ([], text) := by
  have happ := partsFrom_append [] h []
  rw [List.append_nil] at happ
  rw [parts, happ]
  rfl

variable {e : ℕ} {s w : Text} {st : ActiveState}

theorem steady_cons {body : Text} (hbody : Free body) (hc : stops c = true)
    (u : Text) : Steady (body++c::u) ↔
      clear u = true ∧ spares (extra (body++[c])) u = true ∧ Steady u := by
  rw [Steady, steadyFrom_append [] hbody, List.nil_append, steadyFrom, if_pos hc, Bool.and_eq_true,
    Bool.and_eq_true, and_assoc]
  rfl

theorem parts_cons {body : Text} (hbody : Free body) (hc : stops c = true)
    (u : Text) : parts (body++c::u) = ((body++[c])::(parts u).1, (parts u).2) := by
  rw [parts, partsFrom_append [] hbody, List.nil_append, partsFrom, if_pos hc]
  rfl

theorem spares_iff (k : ℕ) (u : Text) : spares k u = true ↔
    (∀ d ∈ u.take k, isWhitespace d = true) ∧ (k = 0 ∨ u = [] ∨ ¬Free u) := by
  simp only [spares, Bool.and_eq_true, List.all_eq_true, Bool.or_eq_true, beq_iff_eq,
    List.isEmpty_iff, List.any_eq_true, Free, not_forall, Bool.not_eq_false, or_assoc, exists_prop]

/-! ### Trimming -/

theorem stops_not_blank (h : stops c = true) : isWhitespace c = false := by
  have hall : (['.', '!', '?', ';'].all fun c => !isWhitespace c) = true := by decide
  simpa using List.all_eq_true.mp hall c (by simpa [stops] using h)

theorem blank_free (h : ∀ d ∈ w, isWhitespace d = true) : Free w := by
  intro d hd
  by_contra hs
  have := stops_not_blank (by simpa using hs : stops d = true)
  rw [h d hd] at this
  cases this

theorem trimStart_blank (h : ∀ d ∈ w, isWhitespace d = true) (x : Text) :
    trimStart (w++x) = trimStart x := by
  rw [trimStart, List.dropWhile_append, if_pos (by simpa using h)]
  rfl

theorem rdropWhile_blank {v : Text} (h : ∀ d ∈ v, isWhitespace d = true) (x : Text) :
    (x++v).rdropWhile isWhitespace = x.rdropWhile isWhitespace := by
  induction v using List.reverseRecOn with
  | nil => simp
  | append_singleton v d ih =>
    rw [← List.append_assoc, List.rdropWhile_concat_pos _ _ _ (h d (by simp))]
    exact ih fun e he => h e (by simp [he])

theorem trimStart_stop (hc : stops c = true) (x : Text) : ∃ y, trimStart (x++[c]) = y++[c] := by
  induction x with
  | nil => exact ⟨[], by simp [trimStart, stops_not_blank hc]⟩
  | cons d x ih =>
    obtain ⟨y, hy⟩ := ih
    rw [List.cons_append, trimStart, List.dropWhile_cons]
    split
    · exact ⟨y, hy⟩
    · exact ⟨d::x, rfl⟩

theorem trim_stop (hc : stops c = true) (x : Text) : ∃ y, trim (x++[c]) = y++[c] := by
  obtain ⟨y, hy⟩ := trimStart_stop hc x
  exact ⟨y, by rw [trim, hy, List.rdropWhile_concat_neg _ _ _ (by simp [stops_not_blank hc])]⟩

theorem trim_after_iff (hc : stops c = true) (x v : Text) :
    trim ((x++[c])++v) = trim (x++[c]) ↔ ∀ d ∈ v, isWhitespace d = true := by
  obtain ⟨y, hy⟩ := trimStart_stop hc x
  have hstart : trimStart ((x++[c])++v) = (y++[c])++v := by
    rw [trimStart_append (by rw [hy]; simp), hy]
  have hend : (y++[c]).rdropWhile isWhitespace = y++[c] :=
    List.rdropWhile_concat_neg _ _ _ (by simp [stops_not_blank hc])
  rw [trim, trim, hstart, hy, hend]
  constructor
  · intro h
    have hsplit : _++((y++[c])++v).rtakeWhile isWhitespace = _ := List.rdropWhile_append_rtakeWhile
    rw [h, List.append_cancel_left_eq] at hsplit
    rw [← hsplit]
    exact fun d hd => List.mem_rtakeWhile_imp hd
  · intro h
    rw [rdropWhile_blank h, hend]

theorem trim_around (hc : stops c = true) {v : Text} (x : Text)
    (hw : ∀ d ∈ w, isWhitespace d = true) (hv : ∀ d ∈ v, isWhitespace d = true) :
    trim ((x++[c])++v) = trim ((w++x)++[c]) := by
  rw [(trim_after_iff hc x v).mpr hv, List.append_assoc, trim, trim, trimStart_blank hw]

theorem count_blank (h : ∀ d ∈ w, isWhitespace d = true) : w.countP stops = 0 :=
  List.countP_eq_zero.mpr fun d hd => by simp [blank_free h d hd]

theorem count_trim (text : Text) : (trim text).countP stops = text.countP stops := by
  have hstart : text.takeWhile isWhitespace++trimStart text = text :=
    List.takeWhile_append_dropWhile
  have hend : trim text++(trimStart text).rtakeWhile isWhitespace = trimStart text :=
    List.rdropWhile_append_rtakeWhile
  have hcount := congrArg (List.countP stops) hstart
  rw [← hend, List.countP_append, List.countP_append,
    count_blank fun d hd => List.mem_takeWhile_imp hd,
    count_blank fun d hd => List.mem_rtakeWhile_imp hd] at hcount
  omega

/-! ### What a cut does -/

theorem spoken_eq (h : trim s ≠ []) :
    spoken s = some ("[JARBAS] ".toList++trim s) := by rw [spoken, if_neg h]

theorem spoken_inj {t : Text} (hs : trim s ≠ []) (h : spoken s = spoken t) : trim s = trim t := by
  rw [spoken_eq hs, spoken] at h
  split at h
  · cases h
  · exact List.append_cancel_left (Option.some.inj h)

theorem spoken_stop (hc : stops c = true) (x : Text) : ∃ y, spoken (x++[c]) = some (y++[c]) := by
  obtain ⟨y, hy⟩ := trim_stop hc x
  refine ⟨"[JARBAS] ".toList++y, ?_⟩
  rw [spoken_eq (by simp [hy]), hy, List.append_assoc]

theorem voiced_cons (hc : stops c = true) (x : Text) (rest : List Text) :
    voiced ((x++[c])::rest) = (spoken (x++[c])).toList++voiced rest := by
  obtain ⟨y, hy⟩ := spoken_stop hc x
  rw [voiced, List.filterMap_cons, hy]
  rfl

theorem trim_ne_nil (h : ∃ c ∈ s, stops c = true) : trim s ≠ [] := by
  intro he
  have hcount := count_trim s
  rw [he, List.countP_nil] at hcount
  obtain ⟨c, hc, hst⟩ := h
  exact absurd hst (by simpa using List.countP_eq_zero.mp hcount.symm c hc)

theorem cutSentences_done {n : ℕ} (h : st.ttsBuf.length ≤ n) :
    sentenceBoundary (cutSentences n st).ttsBuf = none := by
  induction n generalizing st with
  | zero =>
    rw [cutSentences, List.length_eq_zero_iff.mp (Nat.le_zero.mp h)]
    rfl
  | succ n ih =>
    rw [cutSentences]
    split
    · next hb => exact hb
    · next e hb =>
      obtain ⟨hpos, -⟩ := boundary_pos hb
      refine ih ?_
      rw [ActiveState.cutAt, List.length_drop]
      omega

theorem cutSentences_keeps {P : ActiveState → Prop}
    (hcut : ∀ st e, sentenceBoundary st.ttsBuf = some e → P st → P (st.cutAt e)) (n : ℕ)
 (h : P st) : P (cutSentences n st) := by
  induction n generalizing st with
  | zero => exact h
  | succ n ih =>
    rw [cutSentences]
    split
    · exact h
    · next e hb => exact ih (hcut st e hb h)

theorem pushDelta_done (h : sentenceBoundary st.ttsBuf = none) (piece : Text) :
    sentenceBoundary (pushDelta false st piece).ttsBuf = none := by
  rw [pushDelta]
  split
  · exact h
  · rw [if_neg Bool.false_ne_true]
    exact cutSentences_done (Nat.le_refl _)

theorem feed_done (pieces : List Text) (st : ActiveState) (h : sentenceBoundary st.ttsBuf = none) :
    sentenceBoundary (feed st pieces).ttsBuf = none := by
  induction pieces generalizing st with
  | nil => exact h
  | cons piece pieces ih => exact ih _ (pushDelta_done h piece)

theorem cutSentences_none (h : sentenceBoundary st.ttsBuf = none) (n : ℕ) :
    cutSentences n st = st := by
  cases n with
  | zero => rfl
  | succ n => rw [cutSentences, h]

theorem cutSentences_some (h : sentenceBoundary st.ttsBuf = some e)
    {n : ℕ} (hn : st.ttsBuf.length = n) :
    cutSentences n st = cutSentences (n-1) (st.cutAt e) := by
  obtain ⟨-, hne⟩ := boundary_pos h
  cases n with
  | zero => exact absurd (List.length_eq_zero_iff.mp hn) hne
  | succ n => rw [cutSentences, h, Nat.add_sub_cancel]

theorem pushDelta_some {piece : Text} (hne : piece ≠ [])
    (h : sentenceBoundary (st.ttsBuf++piece) = some e) :
    pushDelta false st piece = cutSentences ((st.ttsBuf++piece).length-1)
      (ActiveState.cutAt ⟨st.accText++piece, st.ttsBuf++piece, st.deltas++[piece], st.partials,
        st.cuts⟩ e) := by
  rw [pushDelta, if_neg hne, if_neg Bool.false_ne_true]
  exact cutSentences_some h rfl

theorem feed_text (pieces : List Text) (st : ActiveState) :
    (feed st pieces).cuts.flatten++(feed st pieces).ttsBuf =
      st.cuts.flatten++st.ttsBuf++pieces.flatten := by
  induction pieces generalizing st with
  | nil => simp [feed]
  | cons piece pieces ih =>
    have hpush : (pushDelta false st piece).cuts.flatten++(pushDelta false st piece).ttsBuf =
        st.cuts.flatten++st.ttsBuf++piece := by
      rw [pushDelta]
      split
      · next hnil => rw [hnil, List.append_nil]
      · rw [if_neg Bool.false_ne_true]
        refine cutSentences_keeps (P := fun s => s.cuts.flatten++s.ttsBuf = _) ?_ _ (by simp)
        intro s e _ hs
        rw [← hs, ActiveState.cutAt, List.flatten_append, List.flatten_singleton,
          List.append_assoc, List.take_append_drop]
    have hrest := ih (pushDelta false st piece)
    rw [hpush] at hrest
    rw [List.flatten_cons, ← List.append_assoc]
    exact hrest

/-! ### A steady text, cut in any way -/

/-- The rest of the text, from the sentence in the buffer on; some blanks at its start may
already be gone. -/
def Reading (text : Text) (st : ActiveState) (future : Text) : Prop :=
  ∃ w t, t = w++(st.ttsBuf++future) ∧ Steady t ∧ (∀ d ∈ w, isWhitespace d = true) ∧
    (w = [] ∨ ¬Free t) ∧ st.partials++voiced (parts t).1 = voiced (parts text).1 ∧
    (parts t).2 = (parts text).2

theorem clear_of_append {v future : Text} (h : clear (v++future) = true) : clear v = true := by
  cases v with
  | nil => rfl
  | cons d v => exact h

theorem reading_cut {text future : Text}
    (hb : sentenceBoundary st.ttsBuf = some e) (h : Reading text st future) :
    Reading text (st.cutAt e) future := by
  obtain ⟨w, t, ht, hsteady, hw, -, hpub, hrest⟩ := h
  rcases free_or_stop st.ttsBuf with hfree | ⟨body, c, v, hbuf, hbody, hc⟩
  · rw [boundary_free hfree] at hb
    cases hb
  have hwbody : Free (w++body) := by
    intro d hd
    rcases List.mem_append.mp hd with hd | hd
    · exact blank_free hw d hd
    · exact hbody d hd
  have htext : t = (w++body)++c::(v++future) := by simp [ht, hbuf]
  rw [htext, steady_cons hwbody hc] at hsteady
  obtain ⟨hclear, hspares, hsteady'⟩ := hsteady
  rw [spares_iff] at hspares
  obtain ⟨hblank, hkeep⟩ := hspares
  rw [htext, parts_cons hwbody hc] at hpub hrest
  -- the bytes before the boundary are those of the sentence
  rw [hbuf, boundary_cons hbody hc, if_pos (clear_of_append hclear), Option.some.injEq] at hb
  have hlen := utf8_length (body++[c])
  have hle : extra (body++[c]) ≤ extra ((w++body)++[c]) := by
    rw [List.append_assoc]
    exact extra_le w (body++[c])
  have hbuf' : st.ttsBuf = (body++[c])++v := by simp [hbuf]
  have htake : st.ttsBuf.take e = (body++[c])++v.take (extra (body++[c])) := by
    rw [hbuf', List.take_append, List.take_of_length_le (by omega)]
    congr 2
    omega
  have hdrop : st.ttsBuf.drop e = v.drop (extra (body++[c])) := by
    rw [hbuf', List.drop_append, List.drop_of_length_le (by omega), List.nil_append]
    congr 1
    omega
  have hgone : ∀ d ∈ v.take (extra (body++[c])), isWhitespace d = true := by
    intro d hd
    have hinit : v.take (extra (body++[c])) <+: (v++future).take (extra ((w++body)++[c])) :=
      ((List.take_prefix_take_left hle).trans
        ((List.prefix_append v future).take _))
    exact hblank d (hinit.subset hd)
  refine ⟨v.take (extra (body++[c])), v++future, ?_, hsteady', hgone, ?_, ?_, hrest⟩
  · rw [ActiveState.cutAt, hdrop, ← List.append_assoc, List.take_append_drop]
  · rcases hkeep with hzero | hnil | hstop
    · left
      have hnone : extra (body++[c]) = 0 := by omega
      rw [hnone, List.take_zero]
    · left
      rw [(List.append_eq_nil_iff.mp hnil).1, List.take_nil]
    · exact .inr hstop
  · have hsame : spoken (st.ttsBuf.take e) = spoken ((w++body)++[c]) := by
      rw [spoken, spoken, htake, trim_around hc body hw hgone]
    rw [← hpub, voiced_cons hc]
    simp only [ActiveState.cutAt, hsame, List.append_assoc]

theorem reading_push {text future piece : Text}
    (h : Reading text st (piece++future)) : Reading text (pushDelta false st piece) future := by
  rw [pushDelta]
  split
  · next hnil =>
    rw [hnil] at h
    exact h
  · rw [if_neg Bool.false_ne_true]
    refine cutSentences_keeps (P := fun s => Reading text s future)
      (fun s e hb hs => reading_cut hb hs) _ ?_
    obtain ⟨w, t, ht, hrest⟩ := h
    exact ⟨w, t, by rw [ht, List.append_assoc], hrest⟩

theorem reading_feed {text : Text} (pieces : List Text)
    (h : Reading text st pieces.flatten) : Reading text (feed st pieces) [] := by
  induction pieces generalizing st with
  | nil => exact h
  | cons piece pieces ih => exact ih (reading_push h)

theorem steady_feed {text : Text} (h : Steady text) {pieces : List Text}
    (hp : pieces.flatten = text) :
    (feed .init pieces).partials = voiced (parts text).1 ∧
      (feed .init pieces).ttsBuf = (parts text).2 := by
  have hread : Reading text (feed .init pieces) [] :=
    reading_feed pieces ⟨[], text, by rw [hp]; rfl, h, by simp, .inl rfl, rfl, rfl⟩
  have hdone := feed_done pieces .init rfl
  obtain ⟨w, t, ht, hsteady, hw, hkeep, hpub, hrest⟩ := hread
  rw [List.append_nil] at ht
  -- a terminator in the buffer would be a boundary
  have hfree : Free t := by
    rcases free_or_stop (feed .init pieces).ttsBuf with hfree | ⟨body, c, v, hbuf, hbody, hc⟩
    · intro d hd
      rw [ht] at hd
      rcases List.mem_append.mp hd with hd | hd
      · exact blank_free hw d hd
      · exact hfree d hd
    · have hwbody : Free (w++body) := by
        intro d hd
        rcases List.mem_append.mp hd with hd | hd
        · exact blank_free hw d hd
        · exact hbody d hd
      rw [ht, hbuf, ← List.append_assoc, steady_cons hwbody hc] at hsteady
      rw [hbuf, boundary_cons hbody hc, if_pos hsteady.1] at hdone
      cases hdone
  have hnil : w = [] := hkeep.resolve_right (not_not.mpr hfree)
  rw [hnil, List.nil_append] at ht
  rw [parts_free hfree] at hpub hrest
  exact ⟨by simpa [voiced] using hpub, by rw [← ht]; exact hrest⟩

end NeuralOs.Cortex.SentenceStream
