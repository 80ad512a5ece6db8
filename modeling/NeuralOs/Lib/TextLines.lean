import NeuralOs.Lib.TextScan

/-!
# Texts as lists of lines

A text is the concatenation of its pieces, each a line with its line feed.
Reading the lines drops the line feed and one carriage return before it. A
text that ends where a line ends can be cut off without changing the lines on
either side, so a property of all lines passes to the parts of a text.
-/

set_option autoImplicit false

namespace NeuralOs.TextLines
open TextScan

/-- `s.replace("\r\n", "\n")` -/
def normalizeLf : Text → Text
  | [] => []
  | c::s => if c = '\r' ∧ s.head? = some '\n' then normalizeLf s else c::normalizeLf s

/-- The lines with their line feeds, as `str::split_inclusive` gives them. -/
def pieces : Text → List Text
  | [] => []
  | c::s =>
    if c = '\n' then [c]::pieces s
    else match pieces s with
      | [] => [[c]]
      | p::ps => (c::p)::ps

def stripCr (l : Text) : Text := if l.getLast? = some '\r' then l.dropLast else l

def chomp (p : Text) : Text := if p.getLast? = some '\n' then stripCr p.dropLast else p

def lines (s : Text) : List Text := (pieces s).map chomp

def unlines (ls : List Text) : Text := ls.flatMap (· ++ ['\n'])

def Closed (s : Text) : Prop := s = [] ∨ ∃ t, s = t ++ ['\n']

def cut (p : Text) : Text → Option (Text × Text)
  | [] => if p = [] then some ([], []) else none
  | c::s =>
    if p <+: c::s then some ([], (c::s).drop p.length)
    else (cut p s).map fun q => (c::q.1, q.2)

def splitn (p : Text) : ℕ → Text → List Text
  | 0, _ => []
  | 1, s => [s]
  | n+2, s =>
    match cut p s with
    | none => [s]
    | some q => q.1::splitn p (n+1) q.2

variable {a b l p s : Text} {c : Char}

theorem cut_eq (h : cut p s = some (a, b)) : s = a ++ (p ++ b) := by
  induction s generalizing a with
  | nil =>
    rw [cut] at h
    split at h
    · next hp =>
      cases h
      simp [hp]
    · cases h
  | cons c s ih =>
    rw [cut] at h
    split at h
    · next hp =>
      cases h
      exact List.prefix_append_drop hp
    · obtain ⟨q, hq, he⟩ := Option.map_eq_some_iff.mp h
      cases he
      rw [ih hq]
      rfl

theorem splitn_three {c : Text} (h : splitn p 3 s = [a, b, c]) :
    s = a ++ (p ++ (b ++ (p ++ c))) := by
  rw [splitn] at h
  split at h
  · cases h
  next q hq =>
  rw [splitn] at h
  split at h
  · cases h
  · next r hr =>
    simp only [splitn, List.cons.injEq, and_true] at h
    obtain ⟨rfl, rfl, rfl⟩ := h
    rw [cut_eq hq, cut_eq hr]

theorem cut_free (h : c ∉ a) (s : Text) :
    cut (c::p) (a ++ s) = (cut (c::p) s).map fun q => (a ++ q.1, q.2) := by
  induction a with
  | nil => simp
  | cons d a ih =>
    have hd : c ≠ d := fun hcd => h (hcd ▸ List.mem_cons_self)
    have hno : ¬ c::p <+: d::(a ++ s) := fun hpre => hd (List.cons_prefix_cons.mp hpre).1
    rw [List.cons_append, cut, if_neg hno, ih fun hc => h (List.mem_cons_of_mem d hc),
      Option.map_map]
    rfl

theorem splitn_free {bs : List Text} {n : ℕ} (h : c ∉ a)
    (hs : splitn (c::p) (n+2) s = b::bs) : splitn (c::p) (n+2) (a ++ s) = (a ++ b)::bs := by
  rw [splitn] at hs ⊢
  rw [cut_free h]
  cases hc : cut (c::p) s with
  | none =>
    rw [hc] at hs
    cases hs
    rfl
  | some q =>
    rw [hc] at hs
    cases hs
    rfl

/-! ## Pieces -/

theorem closed_nil : Closed [] := .inl rfl

theorem closed_concat (s : Text) : Closed (s ++ ['\n']) := .inr ⟨s, rfl⟩

theorem Closed.append (ha : Closed a) (hb : Closed b) : Closed (a ++ b) := by
  rcases hb with rfl | ⟨t, rfl⟩
  · rwa [List.append_nil]
  · rw [← List.append_assoc]
    exact closed_concat _

theorem Closed.of_append (h : Closed (a ++ b)) : Closed b := by
  cases b using List.reverseRecOn with
  | nil => exact closed_nil
  | append_singleton b c =>
    rcases h with h | ⟨t, ht⟩
    · simp at h
    · rw [← List.append_assoc] at ht
      rw [(List.append_inj' ht rfl).2]
      exact closed_concat b

theorem closed_unlines (ls : List Text) : Closed (unlines ls) := by
  induction ls with
  | nil => exact closed_nil
  | cons l ls ih => exact (closed_concat l).append ih

theorem Closed.tail (h : Closed (c::s)) : Closed s ∧ (s = [] → c = '\n') := by
  rcases h with h | ⟨t, ht⟩
  · cases h
  cases t with
  | nil =>
    cases ht
    exact ⟨closed_nil, fun _ => rfl⟩
  | cons d t =>
    cases ht
    exact ⟨closed_concat t, fun h => by simp at h⟩

theorem pieces_eq_nil : pieces s = [] ↔ s = [] := by
  cases s with
  | nil => simp [pieces]
  | cons c s =>
    rw [pieces]
    split
    · simp
    · split <;> simp

theorem pieces_append (h : Closed a) (b : Text) : pieces (a ++ b) = pieces a ++ pieces b := by
  induction a with
  | nil => rfl
  | cons c a ih =>
    obtain ⟨ha, hc⟩ := h.tail
    rw [List.cons_append, pieces, pieces, ih ha]
    split
    · rfl
    · next hne =>
      cases hp : pieces a with
      | nil => exact absurd (hc (pieces_eq_nil.mp hp)) hne
      | cons p ps => rfl

theorem pieces_free (h : '\n' ∉ l) (hne : l ≠ []) : pieces l = [l] := by
  induction l with
  | nil => exact absurd rfl hne
  | cons c l ih =>
    have hc : c ≠ '\n' := fun he => h (he ▸ List.mem_cons_self)
    rw [pieces, if_neg hc]
    cases l with
    | nil => rfl
    | cons d l => rw [ih (fun hm => h (List.mem_cons_of_mem c hm)) (by simp)]

theorem pieces_line (h : '\n' ∉ l) : pieces (l ++ ['\n']) = [l ++ ['\n']] := by
  induction l with
  | nil => rfl
  | cons c l ih =>
    have hc : c ≠ '\n' := fun he => h (he ▸ List.mem_cons_self)
    rw [List.cons_append, pieces, if_neg hc, ih fun hm => h (List.mem_cons_of_mem c hm)]

theorem closed_split (s : Text) : ∃ q r, s = q ++ r ∧ Closed q ∧ '\n' ∉ r := by
  induction s with
  | nil => exact ⟨[], [], rfl, closed_nil, by simp⟩
  | cons c s ih =>
    obtain ⟨q, r, rfl, hq, hr⟩ := ih
    by_cases hc : c = '\n'
    · subst hc
      exact ⟨'\n'::q, r, rfl, (closed_concat []).append hq, hr⟩
    · rcases hq with rfl | ⟨t, rfl⟩
      · exact ⟨[], c::r, rfl, closed_nil, by simp [hr, Ne.symm hc]⟩
      · exact ⟨c::(t ++ ['\n']), r, rfl, closed_concat (c::t), hr⟩

theorem lines_induction {motive : Text → Prop} (s : Text)
    (last : ∀ l, '\n' ∉ l → motive l)
    (line : ∀ l s, '\n' ∉ l → motive s → motive ((l ++ ['\n']) ++ s)) : motive s := by
  suffices h : ∀ l, '\n' ∉ l → motive (l ++ s) from h [] (by simp)
  induction s with
  | nil =>
    intro l hl
    rw [List.append_nil]
    exact last l hl
  | cons c s ih =>
    intro l hl
    by_cases hc : c = '\n'
    · subst hc
      have := line l s hl (ih [] (by simp))
      rwa [List.append_assoc] at this
    · have := ih (l ++ [c]) (by simp [hl, Ne.symm hc])
      rwa [List.append_assoc] at this

theorem pieces_filter (h : Closed s) (f : Text → Bool) :
    pieces ((pieces s).filter f).flatten = (pieces s).filter f ∧
      Closed ((pieces s).filter f).flatten := by
  induction s using lines_induction with
  | last l hl =>
    rcases h with rfl | ⟨t, rfl⟩
    · exact ⟨rfl, closed_nil⟩
    · simp at hl
  | line l s hl ih =>
    obtain ⟨hp, hc⟩ := ih h.of_append
    rw [pieces_append (closed_concat l), pieces_line hl, List.filter_append]
    by_cases hf : f (l ++ ['\n']) = true
    · have he : [l ++ ['\n']].filter f = [l ++ ['\n']] := by simp [hf]
      rw [he, List.flatten_append, List.flatten_singleton, pieces_append (closed_concat l), hp,
        pieces_line hl]
      exact ⟨rfl, (closed_concat l).append hc⟩
    · have he : [l ++ ['\n']].filter f = [] := by simp [hf]
      rw [he, List.nil_append]
      exact ⟨hp, hc⟩

/-! ## Lines -/

theorem lines_append (h : Closed a) (b : Text) : lines (a ++ b) = lines a ++ lines b := by
  rw [lines, pieces_append h, List.map_append]
  rfl

theorem lines_line (h : '\n' ∉ l) : lines (l ++ ['\n']) = [stripCr l] := by
  simp [lines, pieces_line h, chomp]

theorem lines_free (h : '\n' ∉ l) : lines l = if l = [] then [] else [l] := by
  split
  · next he =>
    rw [he]
    rfl
  · next hne =>
    have hlast : l.getLast? ≠ some '\n' := fun he => h (List.mem_of_getLast? he)
    simp [lines, pieces_free h hne, chomp, hlast]

theorem stripCr_free (h : '\n' ∉ l) : '\n' ∉ stripCr l := by
  unfold stripCr
  split
  · exact fun hm => h (List.mem_of_mem_dropLast hm)
  · exact h

theorem line_free (h : l ∈ lines s) : '\n' ∉ l := by
  induction s using lines_induction with
  | last k hk =>
    rw [lines_free hk] at h
    split at h
    · cases h
    · rwa [List.mem_singleton.mp h]
  | line k s hk ih =>
    rw [lines_append (closed_concat k), lines_line hk] at h
    rcases List.mem_append.mp h with h | h
    · rw [List.mem_singleton.mp h]
      exact stripCr_free hk
    · exact ih h

theorem lines_unlines {ls : List Text} (h : ∀ l ∈ ls, '\n' ∉ l) :
    lines (unlines ls) = ls.map stripCr := by
  induction ls with
  | nil => rfl
  | cons l ls ih =>
    have hl := lines_line (h l (by simp))
    have hrest := ih fun k hk => h k (by simp [hk])
    change lines ((l ++ ['\n']) ++ unlines ls) = _
    rw [lines_append (closed_concat l), hl, hrest]
    rfl

theorem unlines_injective {xs ys : List Text} (hx : ∀ l ∈ xs, '\n' ∉ l) (hy : ∀ l ∈ ys, '\n' ∉ l)
    (h : unlines xs = unlines ys) : xs = ys := by
  have hp : ∀ ls : List Text, (∀ l ∈ ls, '\n' ∉ l) →
      pieces (unlines ls) = ls.map (· ++ ['\n']) := by
    intro ls hls
    induction ls with
    | nil => rfl
    | cons l ls ih =>
      change pieces ((l ++ ['\n']) ++ unlines ls) = _
      rw [pieces_append (closed_concat l), pieces_line (hls l (by simp)),
        ih fun k hk => hls k (by simp [hk])]
      rfl
  have he : xs.map (· ++ ['\n']) = ys.map (· ++ ['\n']) := by rw [← hp xs hx, ← hp ys hy, h]
  exact List.map_injective_iff.mpr (fun a b hab => List.append_cancel_right hab) he

/-! ## Carriage returns -/

theorem normalizeLf_free (h : '\n' ∉ l) : normalizeLf l = l := by
  induction l with
  | nil => rfl
  | cons c l ih =>
    have hl : '\n' ∉ l := fun hm => h (List.mem_cons_of_mem c hm)
    have hc : ¬ (c = '\r' ∧ l.head? = some '\n') := fun hh => hl (List.mem_of_head? hh.2)
    rw [normalizeLf, if_neg hc, ih hl]

theorem normalizeLf_line (h : '\n' ∉ l) (s : Text) :
    normalizeLf ((l ++ ['\n']) ++ s) = (stripCr l ++ ['\n']) ++ normalizeLf s := by
  induction l with
  | nil => rfl
  | cons c l ih =>
    have hl : '\n' ∉ l := fun hm => h (List.mem_cons_of_mem c hm)
    cases l with
    | nil =>
      by_cases hc : c = '\r'
      · subst hc
        rfl
      · simp [normalizeLf, stripCr, hc]
    | cons d l =>
      have hd : d ≠ '\n' := fun he => hl (he ▸ List.mem_cons_self)
      have hstrip : stripCr (c::d::l) = c::stripCr (d::l) := by
        unfold stripCr
        rw [List.getLast?_cons_cons]
        split <;> rfl
      rw [hstrip, List.cons_append, List.cons_append, normalizeLf, if_neg (by simp [hd]), ih hl]
      rfl

section Each
variable {Q : Text → Prop}

def Each (Q : Text → Prop) (s : Text) : Prop := ∀ l ∈ lines s, Q l

theorem each_append {a b : Text} (h : Closed a) : Each Q (a ++ b) ↔ Each Q a ∧ Each Q b := by
  rw [Each, lines_append h]
  exact List.forall_mem_append

theorem each_unlines (hQ : ∀ l, Q l → Q (stripCr l)) {ls : List Text} (hn : ∀ l ∈ ls, '\n' ∉ l)
    (h : ∀ l ∈ ls, Q l) : Each Q (unlines ls) := by
  intro k hk
  rw [lines_unlines hn] at hk
  obtain ⟨l, hl, rfl⟩ := List.mem_map.mp hk
  exact hQ l (h l hl)

theorem each_normalizeLf (hQ : ∀ l, Q l → Q (stripCr l)) {s : Text} (h : Each Q s) :
    Each Q (normalizeLf s) := by
  induction s using lines_induction with
  | last l hl => rwa [normalizeLf_free hl]
  | line l s hl ih =>
    have hs := (each_append (closed_concat l)).mp h
    rw [normalizeLf_line hl, each_append (closed_concat _)]
    refine ⟨?_, ih hs.2⟩
    intro k hk
    rw [lines_line (stripCr_free hl)] at hk
    rw [List.mem_singleton.mp hk]
    apply hQ
    exact hs.1 _ (by rw [lines_line hl]; simp)

theorem each_before {a p b : Text} (hp : '\n' ∉ p) (hcut : ∀ l, Q (l ++ p) → Q l)
    (hcr : p.getLast? ≠ some '\r') (hne : p ≠ [])
    (h : Each Q (a ++ ((p ++ ['\n']) ++ b))) : Each Q a := by
  obtain ⟨q, r, rfl, hq, hr⟩ := closed_split a
  rw [List.append_assoc, each_append hq] at h
  refine (each_append hq).mpr ⟨h.1, ?_⟩
  intro l hl
  rw [lines_free hr] at hl
  split at hl
  · cases hl
  rw [List.mem_singleton.mp hl]
  have hrp : '\n' ∉ r ++ p := by simp [hr, hp]
  have hline : r ++ ((p ++ ['\n']) ++ b) = ((r ++ p) ++ ['\n']) ++ b := by simp
  rw [hline, each_append (closed_concat _)] at h
  have hlast : (r ++ p).getLast? = p.getLast? := by
    rw [List.getLast?_append_of_ne_nil _ hne]
  have hs : stripCr (r ++ p) = r ++ p := by
    rw [stripCr, hlast, if_neg hcr]
  refine hcut r ?_
  rw [← hs]
  exact h.2.1 _ (by rw [lines_line hrp]; simp)

end Each

end NeuralOs.TextLines
