import NeuralOs.Cortex.SentenceSplit

/-!
# The texts whose sentences do not depend on the pieces

Fed character by character, every terminator closes a sentence and nothing else does.
A text that every cut into pieces splits in this way is steady.
-/

set_option autoImplicit false

namespace NeuralOs.Cortex.SentenceStream
open TextScan Bpe

/-! ### Character by character -/

/-- Two states with one buffer publish the same from then on. -/
def Alike (p : List Text) (st st' : ActiveState) : Prop :=
  st.ttsBuf = st'.ttsBuf ∧ st.partials = p++st'.partials

variable {c : Char} {st : ActiveState}

theorem alike_cutSentences {p : List Text} (n : ℕ) {st' : ActiveState} (h : Alike p st st') :
    Alike p (cutSentences n st) (cutSentences n st') := by
  induction n generalizing st st' with
  | zero => exact h
  | succ n ih =>
    rw [cutSentences, cutSentences, h.1]
    split
    · exact h
    · refine ih ⟨?_, ?_⟩
      · rw [ActiveState.cutAt, ActiveState.cutAt, h.1]
      · rw [ActiveState.cutAt, ActiveState.cutAt, h.1, h.2, List.append_assoc]

theorem alike_feed {p : List Text} (pieces : List Text) {st' : ActiveState}
    (h : Alike p st st') : Alike p (feed st pieces) (feed st' pieces) := by
  induction pieces generalizing st st' with
  | nil => exact h
  | cons piece pieces ih =>
    refine ih ?_
    rw [pushDelta, pushDelta]
    split
    · exact h
    · rw [if_neg Bool.false_ne_true, if_neg Bool.false_ne_true, h.1]
      exact alike_cutSentences _ ⟨rfl, h.2⟩

theorem feed_append (st : ActiveState) (a b : List Text) :
    feed st (a++b) = feed (feed st a) b := List.foldl_append

theorem push_free (hbuf : Free st.ttsBuf) (hc : stops c = false) :
    (pushDelta false st [c]).partials = st.partials ∧
      (pushDelta false st [c]).ttsBuf = st.ttsBuf++[c] := by
  have hfree : Free (st.ttsBuf++[c]) := by
    intro d hd
    rcases List.mem_append.mp hd with hd | hd
    · exact hbuf d hd
    · rw [List.mem_singleton.mp hd]
      exact hc
  rw [pushDelta, if_neg (by simp), if_neg Bool.false_ne_true, cutSentences_none]
  · exact ⟨rfl, rfl⟩
  · exact boundary_free hfree

theorem push_stop (hbuf : Free st.ttsBuf) (hc : stops c = true) :
    (pushDelta false st [c]).partials = st.partials++(spoken (st.ttsBuf++[c])).toList ∧
      (pushDelta false st [c]).ttsBuf = [] := by
  have hb : sentenceBoundary (st.ttsBuf++[c]) = some (utf8 (st.ttsBuf++[c])).length :=
    boundary_cons hbuf hc []
  have hlen := utf8_length (st.ttsBuf++[c])
  rw [pushDelta_some (by simp) hb, cutSentences_none]
  · simp only [ActiveState.cutAt]
    rw [List.take_of_length_le (by omega), List.drop_of_length_le (by omega)]
    exact ⟨rfl, rfl⟩
  · simp only [ActiveState.cutAt]
    rw [List.drop_of_length_le (by omega)]
    rfl

theorem chars_flatten (text : Text) : (text.map ([·])).flatten = text := by
  induction text with
  | nil => rfl
  | cons c text ih => rw [List.map_cons, List.flatten_cons, ih, List.singleton_append]

theorem feed_chars (text : Text) (st : ActiveState) (hbuf : Free st.ttsBuf) :
    (feed st (text.map ([·]))).partials =
        st.partials++voiced (partsFrom st.ttsBuf text).1 ∧
      (feed st (text.map ([·]))).ttsBuf = (partsFrom st.ttsBuf text).2 := by
  induction text generalizing st with
  | nil => simp [feed, partsFrom, voiced]
  | cons c text ih =>
    by_cases hc : stops c = true
    · obtain ⟨hpub, hrest⟩ := push_stop hbuf hc
      obtain ⟨hp, hr⟩ := ih (pushDelta false st [c]) (by rw [hrest]; simp [Free])
      rw [hpub, hrest] at hp
      rw [hrest] at hr
      rw [partsFrom, if_pos hc, voiced_cons hc, ← List.append_assoc]
      exact ⟨hp, hr⟩
    rw [Bool.not_eq_true] at hc
    obtain ⟨hpub, hrest⟩ := push_free hbuf hc
    have hfree : Free (pushDelta false st [c]).ttsBuf := by
      rw [hrest]
      intro d hd
      rcases List.mem_append.mp hd with hd | hd
      · exact hbuf d hd
      · rw [List.mem_singleton.mp hd]
        exact hc
    obtain ⟨hp, hr⟩ := ih _ hfree
    rw [hpub, hrest] at hp
    rw [hrest] at hr
    rw [partsFrom, hc, if_neg Bool.false_ne_true]
    exact ⟨hp, hr⟩

/-! ### A text that every cut splits alike -/

/-- However it is cut, the text is split after every terminator. -/
def Uniform (text : Text) : Prop :=
  ∀ pieces : List Text, pieces.flatten = text →
    (feed .init pieces).partials = voiced (parts text).1 ∧
      (feed .init pieces).ttsBuf = (parts text).2

theorem feed_whole {text : Text} {e : ℕ} (h : sentenceBoundary text = some e) :
    feed .init [text] = cutSentences (text.length-1)
      (ActiveState.cutAt ⟨text, text, [text], [], []⟩ e) := by
  obtain ⟨-, hne⟩ := boundary_pos h
  exact pushDelta_some hne h

theorem first_spoken {text : Text} {e : ℕ} (h : sentenceBoundary text = some e) :
    (spoken (text.take e)).toList <+: (feed .init [text]).partials := by
  rw [feed_whole h]
  refine cutSentences_keeps (P := fun s => _ <+: s.partials) ?_ _ (List.prefix_refl _)
  intro s k _ hs
  exact hs.trans (List.prefix_append _ _)

theorem uniform_first {body u : Text} (hbody : Free body) (hc : stops c = true)
    (h : Uniform (body++c::u)) :
    ∃ e, sentenceBoundary (body++c::u) = some e ∧
      trim ((body++c::u).take e) = trim (body++[c]) := by
  obtain ⟨hpub, -⟩ := h [body++c::u] (by simp)
  obtain ⟨y, hy⟩ := spoken_stop hc body
  rw [parts_cons hbody hc, voiced, List.filterMap_cons, hy] at hpub
  rcases hb : sentenceBoundary (body++c::u) with _ | e
  · have hne : body++c::u ≠ [] := by simp
    rw [feed, List.foldl_cons, List.foldl_nil, pushDelta, if_neg hne, if_neg Bool.false_ne_true,
      cutSentences_none hb] at hpub
    cases hpub
  · refine ⟨e, rfl, ?_⟩
    have hfirst := first_spoken hb
    have hne := trim_ne_nil (boundary_stop hb)
    rw [hpub, spoken_eq hne, Option.toList_some, List.cons_prefix_cons] at hfirst
    exact spoken_inj hne (by rw [spoken_eq hne, hy, hfirst.1])

theorem uniform_clear {body u : Text} (hbody : Free body) (hc : stops c = true)
    (h : Uniform (body++c::u)) : clear u = true := by
  obtain ⟨e, hb, htrim⟩ := uniform_first hbody hc h
  by_contra hclear
  rw [boundary_cons hbody hc, if_neg hclear] at hb
  obtain ⟨e', hb', rfl⟩ := Option.map_eq_some_iff.mp hb
  -- the first published sentence would have two terminators
  obtain ⟨d, hd, hstop⟩ := boundary_stop hb'
  have hlen := utf8_length (body++[c])
  have hsplit : body++c::u = (body++[c])++u := by simp
  have hinit : u.take e' <+: u.take (e'+(utf8 (body++[c])).length-(body++[c]).length) :=
    List.take_prefix_take_left (by omega)
  have hone : 0 < (u.take (e'+(utf8 (body++[c])).length-(body++[c]).length)).countP stops :=
    List.countP_pos_iff.mpr ⟨d, hinit.subset hd, hstop⟩
  have hcount := congrArg (List.countP stops) htrim
  rw [count_trim, count_trim, hsplit, List.take_append, List.take_of_length_le (by omega),
    List.countP_append] at hcount
  omega

theorem uniform_tail {body u : Text} (hbody : Free body) (hc : stops c = true)
    (h : Uniform (body++c::u)) : Uniform u := by
  intro pieces hp
  have hstart := feed_chars (body++[c]) .init (by simp [Free, ActiveState.init])
  have hparts : partsFrom [] (body++[c]) = ([body++[c]], []) := parts_cons hbody hc []
  rw [show ActiveState.init.ttsBuf = [] from rfl, hparts] at hstart
  obtain ⟨hpub, hrest⟩ := h ((body++[c]).map ([·])++pieces) (by
    rw [List.flatten_append, chars_flatten, hp]
    simp)
  obtain ⟨y, hy⟩ := spoken_stop hc body
  have halike : Alike (voiced [body++[c]]) (feed .init ((body++[c]).map ([·]))) .init :=
    ⟨hstart.2, by rw [hstart.1]; simp [ActiveState.init]⟩
  obtain ⟨hbuf, hsaid⟩ := alike_feed pieces halike
  rw [feed_append, hsaid, parts_cons hbody hc] at hpub
  rw [feed_append, hbuf, parts_cons hbody hc] at hrest
  refine ⟨?_, hrest⟩
  simpa [voiced, List.filterMap_cons, hy] using hpub

theorem uniform_spares {body u : Text} (hbody : Free body) (hc : stops c = true)
    (h : Uniform (body++c::u)) : spares (extra (body++[c])) u = true := by
  have hclear := uniform_clear hbody hc h
  obtain ⟨e, hb, htrim⟩ := uniform_first hbody hc h
  have hb' := hb
  rw [boundary_cons hbody hc, if_pos hclear, Option.some.injEq] at hb
  have hlen := utf8_length (body++[c])
  have hsplit : body++c::u = (body++[c])++u := by simp
  have hk : e-(body++[c]).length = extra (body++[c]) := by omega
  have htake : (body++c::u).take e = (body++[c])++u.take (extra (body++[c])) := by
    rw [hsplit, List.take_append, List.take_of_length_le (by omega), hk]
  have hdrop : (body++c::u).drop e = u.drop (extra (body++[c])) := by
    rw [hsplit, List.drop_append, List.drop_of_length_le (by omega), hk, List.nil_append]
  rw [spares_iff]
  constructor
  · rw [htake] at htrim
    exact (trim_after_iff hc body _).mp htrim
  by_cases hfree : Free u
  · -- the whole text in one piece leaves a shorter rest, unless nothing is taken too many
    obtain ⟨-, hrest⟩ := h [body++c::u] (by simp)
    have hfree' : Free (u.drop (extra (body++[c]))) :=
      fun d hd => hfree d (List.mem_of_mem_drop hd)
    rw [feed_whole hb', cutSentences_none, parts_cons hbody hc, parts_free hfree] at hrest
    · simp only [ActiveState.cutAt, hdrop] at hrest
      have hlen' := congrArg List.length hrest
      rw [List.length_drop] at hlen'
      rcases Nat.eq_zero_or_pos u.length with hz | hpos
      · exact .inr (.inl (List.length_eq_zero_iff.mp hz))
      · exact .inl (by omega)
    · simp only [ActiveState.cutAt, hdrop]
      exact boundary_free hfree'
  · exact .inr (.inr hfree)

theorem uniform_steady {text : Text} (h : Uniform text) : Steady text := by
  induction hn : text.length using Nat.strong_induction_on generalizing text with
  | _ n ih =>
    rcases free_or_stop text with hfree | ⟨body, c, u, rfl, hbody, hc⟩
    · exact steady_free hfree
    · have htail := ih u.length (by simp [← hn]; omega) (uniform_tail hbody hc h) rfl
      exact (steady_cons hbody hc u).mpr
        ⟨uniform_clear hbody hc h, uniform_spares hbody hc h, htail⟩

/-! ### The result -/

theorem parts_end (text : Text) :
    ∀ p ∈ voiced (parts text).1, ∃ y c, p = y++[c] ∧ stops c = true := by
  induction hn : text.length using Nat.strong_induction_on generalizing text with
  | _ n ih =>
    rcases free_or_stop text with hfree | ⟨body, c, u, rfl, hbody, hc⟩
    · simp [parts_free hfree, voiced]
    · obtain ⟨y, hy⟩ := spoken_stop hc body
      rw [parts_cons hbody hc, voiced, List.filterMap_cons, hy, List.forall_mem_cons]
      exact ⟨⟨y, c, rfl, hc⟩, ih u.length (by simp [← hn]; omega) u rfl⟩

theorem feed_rest {rest : Text} (h : sentenceBoundary rest = none) :
    (feed .init [rest]).partials = [] ∧ (feed .init [rest]).ttsBuf = rest := by
  rw [feed, List.foldl_cons, List.foldl_nil, pushDelta]
  split
  · next hnil => exact ⟨rfl, hnil.symm⟩
  · rw [if_neg Bool.false_ne_true, cutSentences_none h]
    exact ⟨rfl, rfl⟩

/-- Sentences and rest are the same for every way of cutting the text into pieces exactly when
the text is steady. -/
theorem splitting_independent_iff (text : Text) :
    (∀ pieces : List Text, pieces.flatten = text →
      (feed .init pieces).cuts.flatten++(feed .init pieces).ttsBuf = text ∧
      (∀ p ∈ (feed .init pieces).partials, ∃ y c, p = y++[c] ∧ stops c = true) ∧
      (feed .init pieces).partials++(feed .init [(feed .init pieces).ttsBuf]).partials =
        (feed .init [text]).partials ∧
      (feed .init [(feed .init pieces).ttsBuf]).ttsBuf = (feed .init [text]).ttsBuf) ↔
    Steady text := by
  constructor
  · intro h
    have hsame : ∀ pieces : List Text, pieces.flatten = text →
        (feed .init pieces).partials = (feed .init [text]).partials ∧
          (feed .init pieces).ttsBuf = (feed .init [text]).ttsBuf := by
      intro pieces hp
      obtain ⟨-, -, hpub, hrest⟩ := h pieces hp
      obtain ⟨hnone, hbuf⟩ := feed_rest (feed_done pieces .init rfl)
      rw [hnone, List.append_nil] at hpub
      rw [hbuf] at hrest
      exact ⟨hpub, hrest⟩
    obtain ⟨hpub, hrest⟩ := feed_chars text .init (by simp [Free, ActiveState.init])
    have hchars := hsame (text.map ([·])) (chars_flatten text)
    refine uniform_steady fun pieces hp => ?_
    rw [(hsame pieces hp).1, (hsame pieces hp).2, ← hchars.1, ← hchars.2]
    exact ⟨hpub, hrest⟩
  · intro h pieces hp
    obtain ⟨hpub, hrest⟩ := steady_feed h hp
    obtain ⟨hpub', hrest'⟩ := steady_feed h (List.flatten_singleton (l := text))
    obtain ⟨hnone, hbuf⟩ := feed_rest (feed_done pieces .init rfl)
    refine ⟨?_, ?_, ?_, ?_⟩
    · rw [feed_text, hp]
      rfl
    · rw [hpub]
      exact parts_end text
    · rw [hnone, List.append_nil, hpub, hpub']
    · rw [hbuf, hrest, hrest']

/-- A terminator at the end of a piece closes a sentence that goes on, and letters of two bytes
move the cut behind the terminator. -/
theorem pieces_matter :
    (feed .init ["3.".toList, "14".toList]).partials = ["[JARBAS] 3.".toList] ∧
      (feed .init ["3.14".toList]).partials = [] ∧
      (feed .init ["éé. abc".toList]).partials = ["[JARBAS] éé. a".toList] := by
  decide

end NeuralOs.Cortex.SentenceStream
