import NeuralOs.Storage.TickvContent

/-!
# Durability

Every move of a regular store within the limits of the scanners keeps it
regular and changes its content as a map changes. So after any run in which
nothing was refused, a remount and a full recovery both read what was last
put, provided that no compaction leaves the checkpoint it carried over as the
last one that a mount can find.
-/

set_option autoImplicit false

namespace NeuralOs.TickvRegular
open ByteString TickvRecord TickvState TickvStore TickvMount TickvLog TickvLogUpdate LogStore
open TickvMountLog TickvCkpt TickvSnapshot TickvContent TickvRefine TickvOperation

structure Orderly (s : Store) : Prop where
  tail : s.tail = logSize s.recs
  tidy : Tidy s.recs
  index : Indexes s.recs s.index

structure Regular (s : Store) : Prop extends Orderly s where
  ckpts : Genuine Indexes s.recs

/-- An item that an operation may write: a user key within limits, a value within limits. -/
structure PlainItem (p : Str × Bytes) : Prop where
  user : p.1 ≠ ckptKey
  key : p.1.bytes.length ≤ maxKlen
  some : p.2 ≠ []
  val : p.2.length ≤ maxVlen

instance (p : Str × Bytes) : Decidable (PlainItem p) :=
  decidable_of_iff (p.1 ≠ ckptKey ∧ p.1.bytes.length ≤ maxKlen ∧ p.2 ≠ [] ∧ p.2.length ≤ maxVlen)
    ⟨fun h => ⟨h.1, h.2.1, h.2.2.1, h.2.2.2⟩, fun h => ⟨h.user, h.key, h.some, h.val⟩⟩

def PlainOp : Op → Prop
  | .put key val => PlainItem (key, val)
  | .putBatch items => (items.map Prod.fst).Nodup ∧ ∀ p ∈ items, PlainItem p
  | .delete key => key ≠ ckptKey ∧ key.bytes.length ≤ maxKlen
  | .remount polls => polls = none
  | _ => True

instance : DecidablePred PlainOp
  | .put key val => inferInstanceAs (Decidable (PlainItem (key, val)))
  | .putBatch items =>
    inferInstanceAs (Decidable ((items.map Prod.fst).Nodup ∧ ∀ p ∈ items, PlainItem p))
  | .delete key => inferInstanceAs (Decidable (key ≠ ckptKey ∧ key.bytes.length ≤ maxKlen))
  | .remount polls => inferInstanceAs (Decidable (polls = none))
  | .writeCkpt => inferInstanceAs (Decidable True)
  | .compact => inferInstanceAs (Decidable True)
  | .flushIdle => inferInstanceAs (Decidable True)
  | .setGcSuspended _ => inferInstanceAs (Decidable True)

theorem plain_items {op : Op} {items : List (Str × Bytes)} (h : PlainOp op)
    (hop : op.items = some items) :
    (items.map Prod.fst).Nodup ∧ ∀ p ∈ items, PlainItem p := by
  cases op with
  | put key val =>
    cases hop
    exact ⟨by simp, fun p hp => List.mem_singleton.mp hp ▸ h⟩
  | putBatch items =>
    cases hop
    exact h
  | _ => cases hop

theorem PlainItem.small {p : Str × Bytes} (h : PlainItem p) : (written p).big = false :=
  (oversized_false_iff).mpr ⟨h.key, h.val⟩

section Log
variable {L : List Rec} {k : Str} {v : Bytes}

theorem has_written_iff (items : List (Str × Bytes)) :
    Has (L ++ items.map written) k v ↔ Has L k v ∨ (k ≠ ckptKey ∧ v ≠ [] ∧ (k, v) ∈ items) := by
  induction items generalizing L with
  | nil => simp
  | cons p items ih =>
    have hl : L ++ (p::items).map written = L ++ [written p] ++ items.map written := by simp
    have hp : (Current (written p) ∧ (written p).key = k ∧ (written p).val = v) ↔
        k ≠ ckptKey ∧ v ≠ [] ∧ (k, v) = p := by
      constructor
      · rintro ⟨hc, rfl, rfl⟩
        exact ⟨hc.user, hc.some, rfl⟩
      · rintro ⟨hk, hv, rfl⟩
        exact ⟨⟨rfl, hk, hv⟩, rfl, rfl⟩
    rw [hl, ih, has_append_iff, hp, List.mem_cons, or_assoc, ← and_or_left, ← and_or_left]

end Log

section Operations
variable {s s' : Store} {k l : Str} {v : Bytes} {p : Str × Bytes}

theorem orderly_empty (n : ℕ) (h : n < 2^63) : Orderly (Store.empty n h) :=
  ⟨rfl, tidy_nil, indexes_nil⟩

theorem regular_empty (n : ℕ) (h : n < 2^63) : Regular (Store.empty n h) :=
  ⟨orderly_empty n h, genuine_nil⟩

theorem Orderly.absent (h : Orderly s) (ho : s.index[k]? = none) (v : Bytes) :
    ¬ Has s.recs k v := by
  rintro ⟨r, hr, hc, rfl, -⟩
  obtain ⟨A, B, hl⟩ := List.append_of_mem hr
  rw [h.index.found _ r ⟨A, B, hl, rfl⟩ hc] at ho
  cases ho

theorem absent_iff (h : Orderly s) (ho : s.index[k]? = none) :
    Has s.recs l v ↔ l ≠ k ∧ Has s.recs l v := by
  refine ⟨fun hv => ⟨?_, hv⟩, fun hv => hv.2⟩
  rintro rfl
  exact h.absent ho v hv

theorem Regular.invalidate (h : Regular s) (k : Str) : Regular (s.invalidate k) := by
  cases ho : s.index[k]? with
  | none =>
    rw [Store.invalidate_absent ho]
    exact h
  | some o =>
    have hk := killed_killAt o s.recs
    have hr : (s.invalidate k).recs = killAt o s.recs := by
      simp only [Store.invalidate, ho, Option.elim_some]
    have hi := indexes_killed h.index hk
    refine ⟨⟨?_, ?_, ?_⟩, ?_⟩
    · rw [hr, logSize_killAt]
      exact h.tail
    · rw [hr]
      exact tidy_killed h.tidy hk
    · rw [hr]
      exact indexes_erase hi fun v hv => ((has_killAt_iff h.index ho).mp hv).1 rfl
    · rw [hr]
      exact genuine_killed h.ckpts hk fun A A' e hA he => indexes_killed he hA

theorem has_invalidate (h : Orderly s) :
    Has (s.invalidate k).recs l v ↔ l ≠ k ∧ Has s.recs l v := by
  cases ho : s.index[k]? with
  | none =>
    rw [Store.invalidate_absent ho]
    exact absent_iff h ho
  | some o =>
    have hr : (s.invalidate k).recs = killAt o s.recs := by
      simp only [Store.invalidate, ho, Option.elim_some]
    rw [hr]
    exact has_killAt_iff h.index ho

theorem regular_invalidateAll (items : List (Str × Bytes)) (h : Regular s) :
    Regular (Store.invalidateAll items s) ∧ ∀ l v,
      Has (Store.invalidateAll items s).recs l v ↔ l ∉ items.map Prod.fst ∧ Has s.recs l v := by
  induction items generalizing s with
  | nil => exact ⟨h, by simp [Store.invalidateAll]⟩
  | cons p items ih =>
    rw [Store.invalidateAll]
    by_cases hp : p.1 = ckptKey
    · rw [if_pos hp]
      refine ⟨(ih h).1, fun l v => ((ih h).2 l v).trans ?_⟩
      simp only [List.map_cons, List.mem_cons, not_or, and_congr_left_iff]
      intro hv
      exact ⟨fun hl => ⟨fun he => hv.user (he.trans hp), hl⟩, fun hl => hl.2⟩
    · rw [if_neg hp]
      obtain ⟨hr, hh⟩ := ih (h.invalidate p.1)
      refine ⟨hr, fun l v => (hh l v).trans ?_⟩
      rw [has_invalidate h.toOrderly]
      simp only [List.map_cons, List.mem_cons, not_or]
      rw [and_assoc, and_left_comm]

theorem Orderly.append (h : Orderly s)
    (hp : p.1 ≠ ckptKey → p.2 ≠ [] ∧ (written p).big = false) (hn : ∀ v, ¬ Has s.recs p.1 v)
    (hf : s.tail+(written p).size ≤ s.size) : Orderly (s.append p hf) where
  tail := by simp [Store.append, h.tail]
  tidy := tidy_append h.tidy (fun hk => (hp hk).2) hn
  index := by
    have hi := indexes_insert (r := written p) h.index hn fun hk => (hp hk).1
    simp only [Store.append, h.tail]
    exact hi

theorem Orderly.appendAll (items : List (Str × Bytes)) (h : Orderly s)
    (hd : (items.map Prod.fst).Nodup)
    (hp : ∀ p ∈ items, p.1 ≠ ckptKey → p.2 ≠ [] ∧ (written p).big = false)
    (hn : ∀ p ∈ items, ∀ v, ¬ Has s.recs p.1 v) : Orderly (Store.appendAll items s).2 := by
  induction items generalizing s with
  | nil => exact h
  | cons p items ih =>
    rw [List.map_cons, List.nodup_cons] at hd
    rw [Store.appendAll]
    split
    · next hf =>
      refine ih (h.append (hp p (by simp)) (hn p (by simp)) hf) hd.2
        (fun q hq => hp q (by simp [hq])) fun q hq v hv => ?_
      rcases has_append_iff.mp hv with hv | ⟨-, hk, -⟩
      · exact hn q (by simp [hq]) v hv
      · exact hd.1 (List.mem_map.mpr ⟨q, hq, hk.symm⟩)
    · exact h

theorem genuine_appends {P : List Rec → Index → Prop} {L : List Rec} (h : Genuine P L)
    (items : List (Str × Bytes)) (hp : ∀ p ∈ items, p.1 ≠ ckptKey) :
    Genuine P (L ++ items.map written) := by
  induction items generalizing L with
  | nil => simpa using h
  | cons p items ih =>
    have hg := ih (genuine_append (r := written p) h fun hc =>
      absurd ((isCkpt_iff _).mp hc).1 (hp p (by simp))) fun q hq => hp q (by simp [hq])
    simpa using hg

theorem regular_batch (h : Regular s) (items : List (Str × Bytes))
    (hd : (items.map Prod.fst).Nodup) (hp : ∀ p ∈ items, PlainItem p) :
    Regular (batch s items).2 ∧ ∀ k v, Has (batch s items).2.recs k v ↔
      (k, v) ∈ fitting items s.tail s.size ∨ k ∉ items.map Prod.fst ∧ Has s.recs k v := by
  obtain ⟨hr, hh⟩ := regular_invalidateAll items h
  obtain ⟨ht, hs⟩ := Store.invalidateAll_same items s
  obtain ⟨hrecs, -⟩ := Store.appendAll_recs items (Store.invalidateAll items s)
  rw [ht, hs] at hrecs
  have hsub := (Store.fitting_initial items s.tail s.size).subset
  refine ⟨⟨hr.toOrderly.appendAll items hd (fun p hm _ => ⟨(hp p hm).some, (hp p hm).small⟩) ?_,
    ?_⟩, fun k v => ?_⟩
  · intro p hm v hv
    exact ((hh p.1 v).mp hv).1 (List.mem_map_of_mem hm)
  · rw [batch, hrecs]
    exact genuine_appends hr.ckpts _ fun p hm => (hp p (hsub hm)).user
  rw [batch, hrecs, has_written_iff, hh]
  constructor
  · rintro (hv | ⟨-, -, hm⟩)
    · exact .inr hv
    · exact .inl hm
  · rintro (hm | hv)
    · exact .inr ⟨(hp _ (hsub hm)).user, (hp _ (hsub hm)).some, hm⟩
    · exact .inl hv

theorem has_ckpt (hf : s.tail+(written s.ckpt).size ≤ s.size) :
    Has (s.append s.ckpt hf).recs k v ↔ Has s.recs k v := by
  refine has_append_iff.trans (or_iff_left ?_)
  rintro ⟨hc, -⟩
  exact hc.user rfl

theorem Orderly.ckpt (h : Orderly s) (hf : s.tail+(written s.ckpt).size ≤ s.size) :
    Orderly (s.append s.ckpt hf) :=
  h.append (fun hk => absurd rfl hk) (fun _ hv => hv.user rfl) hf

theorem regular_writeCkpt (h : Regular s) :
    Regular s.writeCkpt.2 ∧ ∀ k v, Has s.writeCkpt.2.recs k v ↔ Has s.recs k v := by
  rcases s.writeCkpt_cases with ⟨-, he, -⟩ | ⟨hf, he⟩
  · rw [he]
    exact ⟨h, fun _ _ => .rfl⟩
  · rw [he]
    refine ⟨⟨h.toOrderly.ckpt hf, genuine_append h.ckpts fun hc => ?_⟩, fun _ _ => has_ckpt hf⟩
    exact describes_indexes h.index h.tidy h.tail ((isCkpt_iff _).mp hc).2.2

theorem regular_compact (h512 : 512 ≤ s.size)
    (hs : ∀ r ∈ s.recs, r.key ≠ ckptKey → r.big = false)
    (hc : Accepts s → s.compact.1 = true ∧ s.rewrite.2.ckpt.2.length ≤ maxVlen) :
    Regular s.compact.2 ∧ ∀ k v, Has s.compact.2.recs k v ↔
      k ≠ ckptKey ∧ v ≠ [] ∧ s.value k = some v := by
  have ho : Orderly s.rewrite.2 := by
    refine (orderly_empty s.size s.bound).appendAll s.live Store.live_nodup (fun p hp hk => ?_)
      fun p _ v => by simp [Store.empty]
    exact ⟨(Store.mem_live.mp hp).2, hs _ (s.live_subset (List.mem_map_of_mem hp)) hk⟩
  have hg : Genuine Indexes s.compact.2.recs :=
    genuine_compact h512 (describes_indexes ho.index ho.tidy ho.tail) hc
  have hh : ∀ k v, Has s.rewrite.2.recs k v ↔ k ≠ ckptKey ∧ v ≠ [] ∧ s.value k = some v := by
    intro k v
    have := has_written_iff (L := []) (k := k) (v := v) s.live
    rw [List.nil_append, ← s.rewrite_eq.2.1] at this
    simp only [this, not_has_nil, false_or, Store.mem_live]
    exact ⟨fun h => ⟨h.1, h.2.1, h.2.2.1⟩, fun h => ⟨h.1, h.2.1, h.2.2, h.2.1⟩⟩
  rw [Store.compact_eq h512] at hg ⊢
  rcases s.rewrite.2.writeCkpt_cases with ⟨-, he, -⟩ | ⟨hf, he⟩
  · rw [he] at hg ⊢
    exact ⟨⟨ho, hg⟩, hh⟩
  · rw [he] at hg ⊢
    exact ⟨⟨ho.ckpt hf, hg⟩, fun k v => (has_ckpt hf).trans (hh k v)⟩

end Operations

end NeuralOs.TickvRegular

/-! ## Durability -/

namespace NeuralOs.TickvDurability
open ByteString TickvRecord TickvState TickvStore TickvMount TickvLog TickvLogUpdate TickvImage
open TickvScanLog LogStore TickvMountLog TickvCkpt TickvSnapshot TickvContent TickvRegular
open TickvRefine TickvCompaction TickvOperation

section Moves
variable {s s' : Store} {w' : World} {b : Bool}

/-- A compaction in the history that carried a checkpoint over left a newer one
that the scanners find; if it was refused the room must have been there. -/
def Renewing (w' : World) (b : Bool) : Prop :=
  ∀ f kv, .compactStart f kv ∈ w'.trace → Carried f kv →
    (b = true ∨ NextFits f kv) ∧ (nextCkpt f kv).length ≤ maxVlen

theorem flush_regular (hs : ∀ r ∈ s.recs, r.key ≠ ckptKey → r.big = false)
    (hn : Renewing w' b) (hf : Flush w' s b s') :
    s' = s ∨ Regular s' ∧ ∀ k v, Has s'.recs k v ↔ k ≠ ckptKey ∧ v ≠ [] ∧ s.value k = some v := by
  cases hf with
  | quiet => exact .inl rfl
  | compact hst =>
    obtain ⟨w, hw, hm⟩ := hst
    by_cases h512 : s.size < 512
    · exact .inl (by rw [Store.compact, if_pos h512])
    · exact .inr (regular_compact (not_lt.mp h512) hs
        (compact_renewed hw (not_lt.mp h512) (hn _ _ hm)))

theorem regular_flush (h : Regular s) (hn : Renewing w' b) (hf : Flush w' s b s') :
    Regular s' ∧ ∀ k v, Has s'.recs k v ↔ Has s.recs k v := by
  rcases flush_regular h.tidy.small hn hf with rfl | ⟨hr, hh⟩
  · exact ⟨h, fun _ _ => .rfl⟩
  · refine ⟨hr, fun k v => (hh k v).trans ⟨?_, ?_⟩⟩
    · rintro ⟨hk, -, hv⟩
      exact (value_iff_has h.index hk).mp hv
    · intro hv
      exact ⟨hv.user, hv.nonempty, (value_iff_has h.index hv.user).mpr hv⟩

theorem regular_tombstone (h : Regular s) {k : Str} (hl : k.bytes.length ≤ maxKlen)
    (ho : s.index[k]? = none) (hf : s.tail+(written (k, [])).size ≤ s.size) (hn : Renewing w' b)
    (hfl : Flush w' (s.append (k, []) hf) b s') :
    Regular (s'.forget k) ∧ ∀ l v, Has (s'.forget k).recs l v ↔ Has s.recs l v := by
  have hno := h.absent ho
  have hcur : ¬ Current (written (k, [])) := fun hc => hc.some rfl
  have hhas : ∀ l v, Has (s.append (k, []) hf).recs l v ↔ Has s.recs l v := fun l v =>
    has_append_iff.trans (or_iff_left fun hc => hcur hc.1)
  have htidy : Tidy (s.append (k, []) hf).recs :=
    tidy_append h.tidy (fun _ => (oversized_false_iff).mpr ⟨hl, by simp [written]⟩) hno
  rcases flush_regular htidy.small hn hfl with rfl | ⟨hr, hh⟩
  · have hi : ((s.append (k, []) hf).forget k).index = s.index := by
      apply Std.ExtTreeMap.ext_getElem?
      intro l
      simp only [Store.forget, Store.append, get_erase, get_insert]
      split
      · next hlk => rw [hlk, ho]
      · rfl
    refine ⟨⟨⟨?_, htidy, ?_⟩, genuine_append h.ckpts fun hc => ?_⟩, hhas⟩
    · simp [Store.forget, Store.append, h.tail]
    · rw [hi]
      exact indexes_skip h.index hcur
    · have h24 := ((isCkpt_iff _).mp hc).2.1
      simp [written] at h24
  · have hsame : ∀ l v, Has s'.recs l v ↔ Has s.recs l v := by
      intro l v
      rw [hh, ← hhas]
      constructor
      · rintro ⟨hu, hv, hval⟩
        exact has_of_value hval hu hv
      intro hv
      obtain ⟨r, hr, hc, rfl, rfl⟩ := (hhas l v).mp hv
      obtain ⟨A, B, hL⟩ := List.append_of_mem hr
      have hat : At s.recs (logSize A) r := ⟨A, B, hL, rfl⟩
      refine ⟨hc.user, hc.some, Store.value_eq_some.mpr ⟨_, r, ?_, hat.append _, hc.live, rfl⟩⟩
      have hk : r.key ≠ k := fun he => hno r.val ⟨r, hr, hc, he, rfl⟩
      simp only [Store.append, get_insert, if_neg hk]
      exact h.index.found _ r hat hc
    have hi := indexes_erase hr.index fun v hv => hno v ((hsame k v).mp hv)
    exact ⟨⟨⟨hr.tail, hr.tidy, hi⟩, hr.ckpts⟩, hsame⟩

/-- The content after a batch, of which only a part may have fitted. -/
def AfterBatch (s : Store) (items : List (Str × Bytes)) (k : Str) (v : Bytes) : Prop :=
  (k, v) ∈ fitting items s.tail s.size ∨ k ∉ items.map Prod.fst ∧ Has s.recs k v

def After (s : Store) (op : Op) (k : Str) (v : Bytes) : Prop :=
  match op with
  | .put key val => AfterBatch s [(key, val)] k v
  | .putBatch items => AfterBatch s items k v
  | .delete key => k ≠ key ∧ Has s.recs k v
  | _ => Has s.recs k v

theorem after_items {op : Op} {items : List (Str × Bytes)} (hop : op.items = some items) :
    After s op = AfterBatch s items := by
  cases op with
  | put key val => cases hop; rfl
  | putBatch items => cases hop; rfl
  | _ => cases hop

theorem regular_move (h : Regular s) {op : Op} (hp : PlainOp op) (hn : Renewing w' b)
    (hm : Moves Indexes w' s op b s') :
    Regular s' ∧ ∀ k v, Has s'.recs k v ↔ After s op k v := by
  cases hm with
  | batch hop hb hf =>
    obtain ⟨hd, hi⟩ := plain_items hp hop
    obtain ⟨hr, hh⟩ := regular_batch h _ hd hi
    obtain ⟨hr', hh'⟩ := regular_flush hr hn hf
    rw [after_items hop]
    exact ⟨hr', fun k v => (hh' k v).trans (hh k v)⟩
  | full hop hb =>
    obtain ⟨hd, hi⟩ := plain_items hp hop
    rw [after_items hop]
    exact regular_batch h _ hd hi
  | hit ho => exact ⟨h.invalidate _, fun k v => has_invalidate h.toOrderly⟩
  | miss ho hb hfl =>
    rcases batch_tombstone ho with ⟨hf, he⟩ | he
    · rw [he] at hfl
      obtain ⟨hr, hh⟩ := regular_tombstone h hp.2 ho hf hn hfl
      exact ⟨hr, fun k v => (hh k v).trans (absent_iff h.toOrderly ho)⟩
    · simp [he] at hb
  | missFull ho hb =>
    rcases batch_tombstone ho with ⟨hf, he⟩ | he
    · simp [he] at hb
    · rw [he]
      exact ⟨h, fun k v => absent_iff h.toOrderly ho⟩
  | ckpt => exact regular_writeCkpt h
  | compact hst => exact regular_flush h hn (.compact hst)
  | flush hf => exact regular_flush h hn hf
  | suspend => exact ⟨h, fun _ _ => .rfl⟩
  | remount hr hs ht hmt hd =>
    obtain rfl := hd hp
    refine ⟨⟨⟨?_, ?_, ?_⟩, ?_⟩, fun k v => by rw [hr]; rfl⟩
    · rw [hr]
      exact ht
    · rw [hr]
      exact h.tidy
    · rw [hr]
      exact mounted_indexes h.tidy hmt
    · rw [hr]
      exact h.ckpts

end Moves

def update (m : StrMap Bytes) : Op → StrMap Bytes
  | .put key val => m.insert key val
  | .putBatch items => items.foldl (fun m p => m.insert p.1 p.2) m
  | .delete key => m.erase key
  | _ => m

def latest (ops : List Op) : StrMap Bytes := ops.foldl update ∅

def answer (m : StrMap Bytes) (k : Str) : Result Bytes :=
  match m[k]? with
  | some v => .ok v
  | none => .error .missing

/-- The log and the map agree on every key but the checkpoint's. -/
def Shows (L : List Rec) (m : StrMap Bytes) : Prop :=
  ∀ k, k ≠ ckptKey → ∀ v, Has L k v ↔ m[k]? = some v

theorem get_inserts (items : List (Str × Bytes)) (hd : (items.map Prod.fst).Nodup)
    (m : StrMap Bytes) (k : Str) (v : Bytes) :
    (items.foldl (fun m p => m.insert p.1 p.2) m)[k]? = some v ↔
      (k, v) ∈ items ∨ k ∉ items.map Prod.fst ∧ m[k]? = some v := by
  induction items generalizing m with
  | nil => simp
  | cons p items ih =>
    obtain ⟨l, u⟩ := p
    rw [List.map_cons, List.nodup_cons] at hd
    simp only [List.foldl_cons, ih hd.2, get_insert, List.map_cons, List.mem_cons, not_or,
      Prod.mk.injEq]
    by_cases hk : k = l
    · subst hk
      have hn : (k, v) ∉ items := fun hm => hd.1 (List.mem_map.mpr ⟨_, hm, rfl⟩)
      simp only [hn, hd.1, if_true, Option.some.injEq, true_and, not_true_eq_false, false_and,
        or_false, false_or, not_false_eq_true]
      exact eq_comm
    · simp [hk]

section Runs
variable {w : World} {s : Store}

theorem fitting_of_move {s' : Store} {op : Op} {w' : World} {b : Bool} (hb : b = true)
    {P : List Rec → Index → Prop} (hm : Moves P w' s op b s') {items : List (Str × Bytes)}
    (hop : op.items = some items) : fitting items s.tail s.size = items := by
  cases hm with
  | batch hop' hb' hf =>
    obtain rfl := Option.some.inj (hop'.symm.trans hop)
    obtain ⟨ht, hsz⟩ := Store.invalidateAll_same _ s
    have h := (Store.appendAll_recs _ (Store.invalidateAll _ s)).2.2.2.2.mp hb'
    rwa [ht, hsz] at h
  | full hop' hb' => cases hb
  | _ => cases hop

variable {L : List Rec} {k : Str} {m : StrMap Bytes}

theorem shows_update {s' : Store} {op : Op} {w' : World}
    (hm : Moves Indexes w' s op true s') (hp : PlainOp op) (hs : Shows s.recs m)
    (hh : ∀ k v, Has s'.recs k v ↔ After s op k v) : Shows s'.recs (update m op) := by
  intro k hk v
  rw [hh]
  cases op with
  | put key val =>
    have h := get_inserts [(key, val)] (by simp) m k v
    simp only [After, AfterBatch, fitting_of_move rfl hm rfl, hs k hk]
    exact h.symm
  | putBatch items =>
    simp only [After, AfterBatch, fitting_of_move rfl hm rfl, hs k hk]
    exact (get_inserts items hp.1 m k v).symm
  | delete key =>
    simp only [After, update, hs k hk, get_erase]
    by_cases he : k = key <;> simp [he]
  | _ => exact hs k hk v

/-- No compaction of the history that carries a checkpoint over writes a next
one past the limit of the scanners. -/
def Findable (w : World) : Prop :=
  ∀ f kv, .compactStart f kv ∈ w.trace → Carried f kv → (nextCkpt f kv).length ≤ maxVlen

theorem run_durable (ops : List Op) (h : Running w s) (hr : Regular s)
    (hs : Shows s.recs m) (hp : ∀ op ∈ ops, PlainOp op) (hok : .refused ∉ (run w ops).trace)
    (hw : ShortWrites (run w ops)) (hf : Findable (run w ops)) :
    ∃ s', Running (run w ops) s' ∧ Regular s' ∧ Shows s'.recs (ops.foldl update m) := by
  induction ops generalizing w s m with
  | nil => exact ⟨s, h, hr, hs⟩
  | cons op ops ih =>
    obtain ⟨-, hidle, -⟩ := step_keeps h.idle op
    obtain ⟨b, s', h', hm, hb⟩ := step_moves h (.inr hr.tail) hr.ckpts (fun _ _ he => he.keyed) op
      (shortWrites_before hidle ops hw)
    obtain rfl : b = true := hb.resolve_right fun he => hok (run_trace hidle ops he)
    have hplain := hp op (by simp)
    obtain ⟨hr', hh⟩ := regular_move hr hplain
      (fun f kv he hc => ⟨.inl rfl, hf f kv (run_trace hidle ops he) hc⟩) hm
    exact ih h' hr' (shows_update hm hplain hs hh) (fun o ho => hp o (by simp [ho])) hok hw hf

theorem run_regular (ops : List Op) (h : Running w s) (hr : Regular s)
    (hp : ∀ op ∈ ops, PlainOp op) (hw : ShortWrites (run w ops)) (hn : Renews (run w ops)) :
    ∃ s', Running (run w ops) s' ∧ Regular s' := by
  induction ops generalizing w s with
  | nil => exact ⟨s, h, hr⟩
  | cons op ops ih =>
    obtain ⟨-, hidle, -⟩ := step_keeps h.idle op
    obtain ⟨b, s', h', hm, -⟩ := step_moves h (.inr hr.tail) hr.ckpts (fun _ _ he => he.keyed) op
      (shortWrites_before hidle ops hw)
    obtain ⟨hr', -⟩ := regular_move hr (hp op (by simp))
      (fun f kv he hc => (hn f kv (run_trace hidle ops he) hc).imp_left .inr) hm
    exact ih h' hr' (fun o ho => hp o (by simp [ho])) hw hn

theorem remount_indexes (hf : Holds w.flash L) (ht : Tidy L) (hg : Genuine Indexes L) :
    ∃ s', Running (remount w none) s' ∧ s'.recs = L ∧ Indexes s'.recs s'.index := by
  obtain ⟨s', d, hrun, hr, -, -, hm, hd, -⟩ := remount_log hf hg (fun _ _ he => he.keyed) none
  obtain rfl := hd rfl
  exact ⟨s', hrun, hr, by rw [hr]; exact mounted_indexes ht hm⟩

theorem view_congr {w₁ w₂ : World} {s₁ s₂ : Store} (h₁ : Sees w₁ s₁) (h₂ : Sees w₂ s₂)
    (hi₁ : Indexes s₁.recs s₁.index) (hi₂ : Indexes s₂.recs s₂.index)
    (hk : k ≠ ckptKey) (hh : ∀ v, Has s₁.recs k v ↔ Has s₂.recs k v) : view w₁ k = view w₂ k := by
  have hv : s₁.value k = s₂.value k := by
    apply Option.ext
    intro v
    rw [value_iff_has hi₁ hk, value_iff_has hi₂ hk, hh]
  rw [view_sees h₁, view_sees h₂, hv]

theorem remount_same (h : Sees w s) (hr : Regular s) (hk : k ≠ ckptKey) :
    view (remount w none) k = view w k := by
  obtain ⟨s', h', hrecs, hi⟩ := remount_indexes h.holds hr.tidy hr.ckpts
  exact view_congr h'.toSees h hi hr.index hk fun v => by rw [hrecs]

theorem recover_sees (hf : Holds w.flash L) :
    ∃ s', Sees (recoverMount w none) s' ∧ s'.recs = L ∧ s'.index = replay L 0 ∅ := by
  obtain ⟨m, st, d, p, he, hm, hd⟩ := recover_result hf
    { TickvLite.new with backend := .ram } rfl none
  obtain rfl : d = false := hd rfl
  rw [hm rfl, List.take_length] at he
  have hk := keyed_replay (fun _ => True) [] L ∅ (by intro k o ho; simp at ho)
    fun _ _ _ _ => trivial
  refine ⟨⟨L, replay L 0 ∅, logSize L, w.flash.size, w.flash.bounded, hf.fits, .inl rfl, ?_⟩,
    ⟨rfl, hf, ?_, ?_, rfl⟩, rfl, rfl⟩
  · simpa using hk
  · simp only [recoverMount, he]
  · simp only [recoverMount, he]
    rfl

theorem recover_indexes (hf : Holds w.flash L) (ht : Tidy L) :
    ∃ s', Sees (recoverMount w none) s' ∧ s'.recs = L ∧ Indexes s'.recs s'.index := by
  obtain ⟨s', h', hr, hi⟩ := recover_sees hf
  have hx := indexes_replay [] L ∅ (by simpa using ht) indexes_nil
  refine ⟨s', h', hr, ?_⟩
  rw [hr, hi]
  simpa using hx

theorem view_shows (h : Sees w s) (hi : Indexes s.recs s.index)
    (hs : Shows s.recs m) (hk : k ≠ ckptKey) : view w k = answer m k := by
  have hv : s.value k = m[k]? := by
    apply Option.ext
    intro v
    rw [value_iff_has hi hk, hs k hk]
  rewrite [view_sees h, hv, answer]
  cases m[k]? <;> rfl

end Runs

/-- After every run of in-limit operations in which no write was refused, the
running store, a remount and a full recovery answer with what was last put,
unless a compaction carried a checkpoint over and its own was too large. -/
theorem reads_latest (n : ℕ) (h : n < 2^63) (ops : List Op) (hp : ∀ op ∈ ops, PlainOp op)
    (hok : .refused ∉ (run (start n h) ops).trace) (hw : ShortWrites (run (start n h) ops))
    (hf : Findable (run (start n h) ops)) (k : Str) (hk : k ≠ ckptKey) :
    view (run (start n h) ops) k = answer (latest ops) k ∧
      view (remount (run (start n h) ops) none) k = answer (latest ops) k ∧
      view (recoverMount (run (start n h) ops) none) k = answer (latest ops) k := by
  obtain ⟨s, hs, hr, hshow⟩ := run_durable ops (m := ∅) (start_running n h).1 (regular_empty n h)
    (by intro k _ v; simp [Store.empty]) hp hok hw hf
  have hview := view_shows hs.toSees hr.index hshow hk
  obtain ⟨s', h', hrecs, hi⟩ := recover_indexes hs.holds hr.tidy
  refine ⟨hview, (remount_same hs.toSees hr hk).trans hview, view_shows h' hi ?_ hk⟩
  rw [hrecs]
  exact hshow

def sampleOps : List Op :=
  [.put keyA [1], .writeCkpt, .putBatch [(keyB, [2]), (keyA, [3])], .compact, .delete keyB]

theorem reads_latest_sample :
    (∀ op ∈ sampleOps, PlainOp op) ∧ .refused ∉ (run (start 4096 (by decide)) sampleOps).trace ∧
      view (run (start 4096 (by decide)) sampleOps) keyA = .ok [3] ∧
      view (remount (run (start 4096 (by decide)) sampleOps) none) keyA = .ok [3] ∧
      view (recoverMount (run (start 4096 (by decide)) sampleOps) none) keyA = .ok [3] := by
  have hp : ∀ op ∈ sampleOps, PlainOp op := by decide
  have hrun : (run (start 4096 (by decide)) sampleOps).trace.any Event.isRefused = false ∧
      ShortWrites (run (start 4096 (by decide)) sampleOps) ∧
      (run (start 4096 (by decide)) sampleOps).trace.all roomyEvent = true := by decide +kernel
  have ha : answer (latest sampleOps) keyA = .ok [3] := by decide +kernel
  have hok := (refused_notMem_iff _).mpr hrun.1
  have h := reads_latest 4096 (by decide) sampleOps hp hok hrun.2.1
    (fun f kv hm _ => (roomy_of_mem hrun.2.2 hm).2) keyA (by decide)
  rw [ha] at h
  exact ⟨hp, hok, h⟩

end NeuralOs.TickvDurability

/-! ## Batches and single puts -/

namespace NeuralOs.TickvBatch
open ByteString TickvRecord TickvState TickvStore TickvMount TickvLog LogStore TickvSnapshot
open TickvContent TickvRegular TickvRefine TickvOperation TickvDurability

def puts (items : List (Str × Bytes)) : List Op := items.map fun p => .put p.1 p.2

/-- A world whose history has no refused write and no compaction that hides its
own checkpoint from the scanners. -/
structure Clean (w : World) : Prop where
  unrefused : .refused ∉ w.trace
  short : ShortWrites w
  findable : Findable w

end NeuralOs.TickvBatch
