import NeuralOs.Bpe.RoundTrip

/-!
# The two SentencePiece encoders

`encode_sp32` goes through the merge list once and applies each merge from left to
right; `encode_merge_order` applies the first merge of the list that fits anywhere and
starts again. One pass is enough for a text if none of the merges it makes leaves two
neighbours that an earlier merge of the list is waiting for.
-/

set_option autoImplicit false

namespace NeuralOs.Bpe
open ByteString BpeVocab

variable (cls : CharClass)

/-! ## Pretokens -/

theorem splitDigits_ne_nil (cur seg : List Char) : ∀ p ∈ splitDigits cls cur seg, p ≠ [] := by
  induction seg generalizing cur with
  | nil =>
    intro p hp
    rw [splitDigits] at hp
    split at hp
    · simp at hp
    · next h =>
      rw [List.mem_singleton.mp hp]
      exact h
  | cons c rest ih =>
    intro p hp
    rw [splitDigits] at hp
    split at hp
    · rcases List.mem_append.mp hp with hp | hp
      · split at hp
        · simp at hp
        · next h =>
          rw [List.mem_singleton.mp hp]
          exact h
      · rcases List.mem_cons.mp hp with rfl | hp
        · simp
        · exact ih [] p hp
    · exact ih (cur++[c]) p hp

theorem splitDigits_number {cur : List Char} (hcur : ∀ c ∈ cur, cls.number c = false)
    (seg : List Char) :
    ∀ p ∈ splitDigits cls cur seg, ∀ c ∈ p, cls.number c = true → p = [c] := by
  induction seg generalizing cur with
  | nil =>
    intro p hp c hc hn
    rw [splitDigits] at hp
    split at hp
    · simp at hp
    · rw [List.mem_singleton.mp hp] at hc
      exact absurd hn (by simp [hcur c hc])
  | cons x rest ih =>
    intro p hp c hc hn
    rw [splitDigits] at hp
    split at hp
    · rcases List.mem_append.mp hp with hp | hp
      · split at hp
        · simp at hp
        · rw [List.mem_singleton.mp hp] at hc
          exact absurd hn (by simp [hcur c hc])
      · rcases List.mem_cons.mp hp with rfl | hp
        · rw [List.mem_singleton.mp hc]
        · exact ih (by simp) p hp c hc hn
    · next hx =>
      refine ih (fun y hy => ?_) p hp c hc hn
      rcases List.mem_append.mp hy with hy | hy
      · exact hcur y hy
      · rw [List.mem_singleton.mp hy]
        simpa using hx

/-! ## Merges -/

def Apart (a b : Piece) (word : List Piece) : Prop := word.IsChain fun x y => ¬(x = a ∧ y = b)

variable {word : List Piece}

theorem mergeAt_eq_none_iff {a b : Piece} : mergeAt a b word = none ↔ Apart a b word := by
  induction word with
  | nil => simp [mergeAt, Apart]
  | cons x rest ih =>
    cases rest with
    | nil => simp [mergeAt, Apart]
    | cons y rest =>
      rw [mergeAt, Apart, List.isChain_cons_cons]
      split
      · next h => simp [h]
      · next h =>
        rw [Option.map_eq_none_iff, ih]
        exact ⟨fun hrest => ⟨h, hrest⟩, fun hrest => hrest.2⟩

theorem mergeOnce_eq_none_iff {merges : List (Piece × Piece)} :
    mergeOnce merges word = none ↔ ∀ m ∈ merges, Apart m.1 m.2 word := by
  rw [mergeOnce, List.findSome?_eq_none_iff]
  exact forall₂_congr fun m _ => mergeAt_eq_none_iff

theorem applyBpeMerges_none {merges : List (Piece × Piece)}
    (h : mergeOnce merges word = none) : applyBpeMerges merges word = word := by
  rw [applyBpeMerges, h]

theorem applyBpeMerges_some {merges : List (Piece × Piece)} {word' : List Piece}
    (h : mergeOnce merges word = some word') :
    applyBpeMerges merges word = applyBpeMerges merges word' := by
  rw [applyBpeMerges, h]

theorem applyBpeMerges_normal (merges : List (Piece × Piece)) (word : List Piece) :
    mergeOnce merges (applyBpeMerges merges word) = none := by
  induction word using applyBpeMerges.induct merges with
  | case1 word h =>
    rw [applyBpeMerges_none h]
    exact h
  | case2 word word' h ih =>
    rw [applyBpeMerges_some h]
    exact ih

theorem not_mem_of_apart {merges : List (Piece × Piece)}
    (h : ∀ m ∈ merges, Apart m.1 m.2 word) : word.IsChain fun x y => (x, y) ∉ merges := by
  induction word with
  | nil => exact .nil
  | cons x rest ih =>
    cases rest with
    | nil => exact .singleton x
    | cons y rest =>
      refine List.isChain_cons_cons.mpr ⟨fun hm => ?_, ih fun m hm => ?_⟩
      · exact (List.isChain_cons_cons.mp (h _ hm)).1 ⟨rfl, rfl⟩
      · exact (List.isChain_cons_cons.mp (h m hm)).2

def bytePieces (pretoken : List Char) : List Piece := (utf8 pretoken).map fun b => [byteToChar b]

theorem bytePieces_flatten (pretoken : List Char) :
    (bytePieces pretoken).flatten = (utf8 pretoken).map byteToChar := by
  rw [bytePieces]
  induction utf8 pretoken with
  | nil => rfl
  | cons b rest ih => simpa using ih

/-- A text is cut into nonempty pretokens with every number character alone, and the pieces of
each pretoken spell its bytes and have no neighbours that the list would merge. -/
theorem segmentation_normal (text : List Char) (merges : List (Piece × Piece)) :
    (∀ p ∈ pretokenizeBytelevel cls text, p ≠ []) ∧
      (pretokenizeBytelevel cls text).flatten = text ∧
      (∀ p ∈ pretokenizeBytelevel cls text, ∀ c ∈ p, cls.number c = true → p = [c]) ∧
      ∀ p ∈ pretokenizeBytelevel cls text,
        (applyBpeMerges merges (bytePieces p)).flatten = (utf8 p).map byteToChar ∧
          (applyBpeMerges merges (bytePieces p)).IsChain fun x y => (x, y) ∉ merges := by
  refine ⟨fun p hp => ?_, pretokenize_flatten cls text, fun p hp => ?_, fun p _ => ⟨?_, ?_⟩⟩
  · obtain ⟨seg, -, hseg⟩ := List.mem_flatMap.mp hp
    exact splitDigits_ne_nil cls [] seg p hseg
  · obtain ⟨seg, -, hseg⟩ := List.mem_flatMap.mp hp
    exact splitDigits_number cls (by simp) seg p hseg
  · rw [applyBpeMerges_flatten, bytePieces_flatten]
  · exact not_mem_of_apart (mergeOnce_eq_none_iff.mp (applyBpeMerges_normal merges _))

/-! ## The two SentencePiece encoders -/

/-! ## The encoders -/

def normalize (text : List Char) : List Char :=
  spSpace :: text.map fun ch => if ch = ' ' then spSpace else ch

/-- The pass of one merge from a piece on; a merged piece is looked at again. -/
def passFrom (a b : Piece) : Piece → List Piece → List Piece
  | x, [] => [x]
  | x, y::rest => if x = a ∧ y = b then passFrom a b (a++b) rest else x :: passFrom a b y rest

def mergePass (a b : Piece) : List Piece → List Piece
  | [] => []
  | x::rest => passFrom a b x rest

def onePass (merges : List (Piece × Piece)) (word : List Piece) : List Piece :=
  merges.foldl (fun word m => mergePass m.1 m.2 word) word

namespace BpeVocab
variable (v : BpeVocab)

def idOf (piece : Piece) : ℕ := (v.rev piece).getD 0

def revIsEmpty : Bool :=
  (List.range v.vocabN).all fun id =>
    match v.decodeId id with
    | none => true
    | some piece => decide (piece = [] ∨ Bracketed piece)

def maxPiece : ℕ := 24

/-- The longest start of a text, of at most 24 bytes, that is a piece of the vocabulary. -/
def longestPiece (s : List Char) : Option (ℕ × ℕ) :=
  (List.range s.length).reverse.findSome? fun k =>
    if (utf8 (s.take (k+1))).length ≤ maxPiece then (v.rev (s.take (k+1))).map fun id => (id, k)
    else none

/-- `encode_sp32_greedy_fallback` on the rest of the text; `n` bounds its length. -/
def greedy : ℕ → List Char → List ℕ
  | 0, _ => []
  | _, [] => []
  | n+1, c::s =>
    match v.longestPiece (c::s) with
    | some (id, k) => id :: greedy n (s.drop k)
    | none => 0 :: greedy n s

def encodeSp32GreedyFallback (text : List Char) : List ℕ :=
  if text = [] ∨ v.revIsEmpty = true then [v.bos]
  else v.bos :: v.greedy (text.length+1) (normalize text)

def encodeSp32 (text : List Char) : List ℕ :=
  if text = [] then [v.bos]
  else if v.merges = [] then v.encodeSp32GreedyFallback text
  else v.bos :: (onePass v.merges ((normalize text).map fun c => [c])).map v.idOf

def encodeMergeOrder (text : List Char) : List ℕ :=
  if text = [] then [v.bos]
  else if v.merges = [] then v.encodeSp32GreedyFallback text
  else v.bos :: (applyBpeMerges v.merges ((normalize text).map fun c => [c])).map v.idOf

end BpeVocab

/-! ## One merge -/

variable {a b : Piece} {word word' : List Piece} {merges early late : List (Piece × Piece)}

theorem mergeAt_split (h : mergeAt a b word = some word') :
    ∃ pre post, word = pre++a::b::post ∧ word' = pre++(a++b)::post := by
  induction word generalizing word' with
  | nil => simp [mergeAt] at h
  | cons x rest ih =>
    cases rest with
    | nil => simp [mergeAt] at h
    | cons y rest =>
      rw [mergeAt] at h
      split at h
      · next hxy =>
        cases h
        exact ⟨[], rest, by simp [hxy.1, hxy.2], rfl⟩
      · obtain ⟨tail, htail, rfl⟩ := Option.map_eq_some_iff.mp h
        obtain ⟨pre, post, hpre, rfl⟩ := ih htail
        exact ⟨x::pre, post, by rw [hpre, List.cons_append], rfl⟩

theorem mergeAt_nonempty (hne : [] ∉ word) (h : mergeAt a b word = some word') :
    a ≠ [] ∧ b ≠ [] ∧ [] ∉ word' := by
  obtain ⟨pre, post, rfl, rfl⟩ := mergeAt_split h
  simp_all [eq_comm]

theorem mergePass_mergeAt (ha : a ≠ []) (h : mergeAt a b word = some word') :
    mergePass a b word = mergePass a b word' := by
  induction word generalizing word' with
  | nil => simp [mergeAt] at h
  | cons x rest ih =>
    cases rest with
    | nil => simp [mergeAt] at h
    | cons y rest =>
      rw [mergeAt] at h
      split at h
      · next hxy =>
        cases h
        simp only [mergePass, passFrom, if_pos hxy]
      next hxy =>
      obtain ⟨tail, htail, rfl⟩ := Option.map_eq_some_iff.mp h
      have hpass := ih htail
      -- the piece after `x` is the old one or a merged one, and `x` merges with neither
      obtain ⟨pre, post, hword, rfl⟩ := mergeAt_split htail
      rw [mergePass, passFrom, if_neg hxy]
      change x :: mergePass a b (y::rest) = _
      rw [hpass]
      cases pre with
      | nil =>
        simp only [List.nil_append, mergePass, passFrom]
        rw [if_neg fun hb => ha (List.append_left_eq_self.mp hb.2)]
      | cons z pre =>
        obtain ⟨rfl, -⟩ := List.cons.inj hword
        simp only [List.cons_append, mergePass, passFrom, if_neg hxy]

theorem mergePass_of_apart (h : Apart a b word) : mergePass a b word = word := by
  induction word with
  | nil => rfl
  | cons x rest ih =>
    cases rest with
    | nil => rfl
    | cons y rest =>
      obtain ⟨hxy, hrest⟩ := List.isChain_cons_cons.mp h
      rw [mergePass, passFrom, if_neg hxy]
      exact congrArg (x :: ·) (ih hrest)

/-! ## One pass of the list -/

def Settled (merges : List (Piece × Piece)) (word : List Piece) : Prop :=
  ∀ m ∈ merges, Apart m.1 m.2 word

theorem mergeOnce_after (hearly : Settled early word) (h : mergeAt a b word = some word') :
    mergeOnce (early++(a, b)::late) word = some word' := by
  have hnone : mergeOnce early word = none := mergeOnce_eq_none_iff.mpr hearly
  rw [mergeOnce, List.findSome?_append]
  rw [mergeOnce] at hnone
  rw [hnone, Option.none_or, List.findSome?_cons, h]

def passWords (a b : Piece) : ℕ → List Piece → List (List Piece)
  | 0, _ => []
  | n+1, word =>
    match mergeAt a b word with
    | none => []
    | some word' => word' :: passWords a b n word'

/-- No merge that the pass makes leaves two neighbours that an earlier merge takes. -/
def Undisturbed (early : List (Piece × Piece)) : List (Piece × Piece) → List Piece → Prop
  | [], _ => True
  | m::late, word =>
    (∀ w ∈ passWords m.1 m.2 word.length word, Settled early w) ∧
      Undisturbed (early++[m]) late (mergePass m.1 m.2 word)

theorem applyBpeMerges_pass (late : List (Piece × Piece)) {n : ℕ} (hne : [] ∉ word)
    (hn : word.length ≤ n) (hearly : Settled early word)
    (hsteps : ∀ w ∈ passWords a b n word, Settled early w) :
    applyBpeMerges (early++(a, b)::late) word =
        applyBpeMerges (early++(a, b)::late) (mergePass a b word) ∧
      Settled (early++[(a, b)]) (mergePass a b word) ∧ [] ∉ mergePass a b word := by
  induction n generalizing word with
  | zero =>
    obtain rfl := List.length_eq_zero_iff.mp (Nat.le_zero.mp hn)
    exact ⟨rfl, fun m _ => .nil, hne⟩
  | succ n ih =>
    cases hm : mergeAt a b word with
    | none =>
      have hap := mergeAt_eq_none_iff.mp hm
      rw [mergePass_of_apart hap]
      refine ⟨rfl, fun m hmem => ?_, hne⟩
      rcases List.mem_append.mp hmem with hmem | hmem
      · exact hearly m hmem
      · rw [List.mem_singleton.mp hmem]
        exact hap
    | some word' =>
      obtain ⟨ha, -, hne'⟩ := mergeAt_nonempty hne hm
      have hlen := mergeAt_length hm
      rw [passWords, hm, List.forall_mem_cons] at hsteps
      rw [mergePass_mergeAt ha hm, applyBpeMerges_some (mergeOnce_after hearly hm)]
      exact ih hne' (by omega) hsteps.1 hsteps.2

theorem applyBpeMerges_onePass (early : List (Piece × Piece)) (hne : [] ∉ word)
    (hearly : Settled early word) (hpass : Undisturbed early late word) :
    applyBpeMerges (early++late) word = onePass late word := by
  induction late generalizing early word with
  | nil =>
    rw [List.append_nil, applyBpeMerges_none (mergeOnce_eq_none_iff.mpr hearly)]
    rfl
  | cons m late ih =>
    obtain ⟨a, b⟩ := m
    obtain ⟨hloop, hsettled, hne'⟩ := applyBpeMerges_pass late hne le_rfl hearly hpass.1
    rw [hloop, List.append_cons, ih _ hne' hsettled hpass.2]
    rfl

def letters (text : List Char) : List Piece := (normalize text).map fun c => [c]

/-- The two encoders give the same ids for a text on which no merge brings up an earlier one. -/
theorem encoders_agree (v : BpeVocab) (text : List Char)
    (hpass : Undisturbed [] v.merges (letters text)) :
    v.encodeSp32 text = v.encodeMergeOrder text := by
  have hne : [] ∉ letters text := by simp [letters]
  have hword : applyBpeMerges v.merges (letters text) = onePass v.merges (letters text) :=
    applyBpeMerges_onePass [] hne (by simp [Settled]) hpass
  rw [encodeSp32, encodeMergeOrder, ← letters, hword]

/-! ## One vocabulary, two texts -/

instance (a b : Piece) (word : List Piece) : Decidable (Apart a b word) :=
  decidable_of_iff (mergeAt a b word = none) mergeAt_eq_none_iff

instance (merges : List (Piece × Piece)) (word : List Piece) : Decidable (Settled merges word) :=
  inferInstanceAs (Decidable (∀ m ∈ merges, Apart m.1 m.2 word))

instance decidableUndisturbed (early : List (Piece × Piece)) :
    (late : List (Piece × Piece)) → (word : List Piece) → Decidable (Undisturbed early late word)
  | [], _ => .isTrue trivial
  | m::late, word =>
    have := decidableUndisturbed (early++[m]) late (mergePass m.1 m.2 word)
    inferInstanceAs (Decidable (_ ∧ _))

/-- `abc` needs `ab` before the list has made it. -/
def lateVocab : BpeVocab :=
  ofPieces [[spSpace], ['a'], ['b'], ['c'], ['a', 'b'], ['a', 'b', 'c']]
    [(['a', 'b'], ['c']), (['a'], ['b'])]

/-- Without a `c` behind it, `ab` disturbs nothing. -/
theorem lateVocab_agrees : lateVocab.encodeSp32 ['a', 'b', 'a', 'b'] = [6, 0, 4, 4] ∧
    lateVocab.encodeSp32 ['a', 'b', 'a', 'b'] = lateVocab.encodeMergeOrder ['a', 'b', 'a', 'b'] :=
  ⟨by decide, encoders_agree lateVocab ['a', 'b', 'a', 'b'] (by decide)⟩

/-- One pass leaves `ab` and `c`, the loop that starts again merges them too. -/
theorem lateVocab_disagrees : lateVocab.merges ≠ [] ∧
    lateVocab.encodeSp32 ['a', 'b', 'c'] = [6, 0, 4, 3] ∧
    lateVocab.encodeMergeOrder ['a', 'b', 'c'] = [6, 0, 5] := by
  refine ⟨by decide, by decide, ?_⟩
  have h1 : mergeOnce lateVocab.merges [[spSpace], ['a'], ['b'], ['c']] =
      some [[spSpace], ['a', 'b'], ['c']] := by decide
  have h2 : mergeOnce lateVocab.merges [[spSpace], ['a', 'b'], ['c']] =
      some [[spSpace], ['a', 'b', 'c']] := by decide
  have h3 : mergeOnce lateVocab.merges [[spSpace], ['a', 'b', 'c']] = none := by decide
  have hword : (normalize ['a', 'b', 'c']).map (fun c => [c]) =
      [[spSpace], ['a'], ['b'], ['c']] := by
    decide
  rw [encodeMergeOrder, if_neg (by decide), if_neg (by decide), hword,
    applyBpeMerges_some h1, applyBpeMerges_some h2, applyBpeMerges_none h3]
  decide

end NeuralOs.Bpe
