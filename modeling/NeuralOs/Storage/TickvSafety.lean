import NeuralOs.Storage.TickvContent

/-!
# No key answers with another key's data

`get` reads whatever record stands at the indexed offset. The index is right
as long as every entry, in memory and in the last readable checkpoint, stands
at a record of its own key. A compaction that carries the old checkpoint over
can break this, if the new one is not found behind it.
-/

set_option autoImplicit false

namespace NeuralOs.TickvSafety
open ByteString TickvRecord TickvState TickvStore TickvLog TickvLogUpdate LogStore TickvRefine
open TickvCompaction TickvMount TickvMountLog TickvOperation TickvCkpt TickvSnapshot

def wrote (w : World) (op : Op) : List (Str × Bytes) :=
  fitting (op.items.getD []) w.kv.appendOff w.flash.size

def authored : World → List Op → List (Str × Bytes)
  | _, [] => []
  | w, op::ops => wrote w op ++ authored (step w op) ops

/-- The history `H` accounts for the records and for what the index points at. -/
structure Owned (H : Str → Bytes → Prop) (s : Store) : Prop where
  recs : ∀ r ∈ s.recs, r.val ≠ [] → H r.key r.val
  index : Keyed (fun r => H r.key r.val) s.recs s.index

structure Safe (H : Str → Bytes → Prop) (s : Store) : Prop extends Owned H s where
  ckpts : Genuine (Keyed fun r => H r.key r.val) s.recs

section Invariant
variable {H K : Str → Bytes → Prop} {s s' : Store} {w' : World}

theorem Safe.mono (h : Safe H s) (hHK : ∀ k v, H k v → K k v) : Safe K s where
  recs r hr hv := hHK _ _ (h.recs r hr hv)
  index := h.index.mono fun _ _ hr => hHK _ _ hr
  ckpts := genuine_mono h.ckpts fun _ _ he => he.mono fun _ _ hr => hHK _ _ hr

theorem Safe.forget (h : Safe H s) (k : Str) : Safe H (s.forget k) :=
  ⟨⟨h.recs, h.index.erase k⟩, h.ckpts⟩

theorem Safe.invalidate (h : Safe H s) (k : Str) : Safe H (s.invalidate k) := by
  cases ho : s.index[k]? with
  | none =>
    rw [Store.invalidate_absent ho]
    exact h
  | some o =>
    have hk := killed_killAt o s.recs
    have hr : (s.invalidate k).recs = killAt o s.recs := by
      simp only [Store.invalidate, ho, Option.elim_some]
    refine ⟨⟨?_, ?_⟩, ?_⟩
    · rw [hr]
      intro r hm hv
      obtain ⟨x, hx, rfl | rfl⟩ := mem_killAt hm
      · exact h.recs _ hx hv
      · exact h.recs x hx hv
    · rw [hr]
      exact (hk.keyed h.index fun _ hx => hx).erase k
    · rw [hr]
      exact genuine_killed h.ckpts hk fun A A' e hA he => hA.keyed he fun _ hx => hx

theorem Safe.invalidateAll (h : Safe H s) (items : List (Str × Bytes)) :
    Safe H (Store.invalidateAll items s) := by
  induction items generalizing s with
  | nil => exact h
  | cons p items ih =>
    rw [Store.invalidateAll]
    apply ih
    split
    · exact h
    · exact h.invalidate p.1

theorem Owned.append (h : Owned H s) {p : Str × Bytes} (hp : H p.1 p.2)
    (hf : s.tail+(written p).size ≤ s.size) : Owned H (s.append p hf) where
  recs := by
    intro r hr hv
    rcases List.mem_append.mp hr with hr | hr
    · exact h.recs r hr hv
    · rw [List.mem_singleton.mp hr]
      exact hp
  index := (h.index.append _).insert (r := written p) ⟨s.recs, [], rfl, s.room _ hf⟩ hp

/-- A record that no mount would take for a checkpoint. -/
def Rejected (p : Str × Bytes) : Prop := p.1 = ckptKey → ∀ a e, parseCkpt p.2 ≠ .ok (a, e)

theorem Safe.append (h : Safe H s) {p : Str × Bytes} (hp : H p.1 p.2) (hn : Rejected p)
    (hf : s.tail+(written p).size ≤ s.size) : Safe H (s.append p hf) :=
  ⟨h.toOwned.append hp hf, genuine_append h.ckpts fun hc a e he =>
    absurd he (hn ((isCkpt_iff _).mp hc).1 a e)⟩

theorem Safe.appendAll (h : Safe H s) (items : List (Str × Bytes))
    (hp : ∀ p ∈ fitting items s.tail s.size, H p.1 p.2 ∧ Rejected p) :
    Safe H (Store.appendAll items s).2 :=
  Store.appendAll_rule (Q := fun p => H p.1 p.2 ∧ Rejected p)
    (fun _ _ hf ht hq => Safe.append ht hq.1 hq.2 hf) items s h hp

theorem Safe.writeCkpt (h : Safe H s) (hH : ∀ i a, H ckptKey (ckptBody i a)) :
    Safe H s.writeCkpt.2 := by
  rcases s.writeCkpt_cases with ⟨-, he, -⟩ | ⟨hf, he⟩
  · rw [he]
    exact h
  · rw [he]
    exact ⟨h.toOwned.append (hH _ _) hf, genuine_append h.ckpts fun _ =>
      describes_ckpt h.index (s.room _ hf)⟩

theorem owned_rewrite (h : ∀ r ∈ s.recs, r.val ≠ [] → H r.key r.val) : Owned H s.rewrite.2 := by
  refine Store.appendAll_rule (Q := fun p => H p.1 p.2) (fun _ _ hf ht hq => ht.append hq hf)
    s.live _ ⟨by simp [Store.empty], by intro k o ho; simp [Store.empty] at ho⟩ fun p hp => ?_
  have hl := (Store.fitting_initial _ _ _).subset hp
  exact h (written p) (s.live_subset (List.mem_map_of_mem hl)) (Store.mem_live.mp hl).2

theorem safe_compact (h : ∀ r ∈ s.recs, r.val ≠ [] → H r.key r.val) (h512 : 512 ≤ s.size)
    (hH : ∀ i a, H ckptKey (ckptBody i a))
    (hc : Accepts s → s.compact.1 = true ∧ s.rewrite.2.ckpt.2.length ≤ maxVlen) :
    Safe H s.compact.2 := by
  have ho := owned_rewrite h
  obtain ⟨-, hr, -, ht, -⟩ := s.rewrite_eq
  refine ⟨?_, genuine_compact h512 (fun _ => describes_ckpt ho.index (by rw [ht, hr])) hc⟩
  rw [Store.compact_eq h512]
  rcases s.rewrite.2.writeCkpt_cases with ⟨-, he, -⟩ | ⟨hf, he⟩
  · rw [he]
    exact ho
  · rw [he]
    exact ho.append (hH _ _) hf

variable {b : Bool}

theorem safe_flush (h : ∀ r ∈ s.recs, r.val ≠ [] → H r.key r.val)
    (hH : ∀ i a, H ckptKey (ckptBody i a)) (hn : Renews w') (hf : Flush w' s b s') :
    s' = s ∨ Safe H s' := by
  cases hf with
  | quiet => exact .inl rfl
  | compact hst =>
    obtain ⟨w, hw, hm⟩ := hst
    by_cases h512 : s.size < 512
    · exact .inl (by rw [Store.compact, if_pos h512])
    · exact .inr (safe_compact h (not_lt.mp h512) hH
        (compact_renewed hw (not_lt.mp h512) fun hcar => (hn _ _ hm hcar).imp_left .inr))

theorem Safe.flush (h : Safe H s) (hH : ∀ i a, H ckptKey (ckptBody i a)) (hn : Renews w')
 (hf : Flush w' s b s') : Safe H s' := by
  rcases safe_flush h.recs hH hn hf with rfl | h'
  · exact h
  · exact h'

theorem Safe.batch (h : Safe H s) (items : List (Str × Bytes))
    (hp : ∀ p ∈ fitting items s.tail s.size, H p.1 p.2 ∧ Rejected p) :
    Safe H (batch s items).2 := by
  obtain ⟨ht, hs⟩ := Store.invalidateAll_same items s
  refine (h.invalidateAll items).appendAll items ?_
  rw [ht, hs]
  exact hp

theorem Safe.tombstone (h : Safe H s) {k : Str} (hf : s.tail+(written (k, [])).size ≤ s.size)
    (hH : ∀ i a, H ckptKey (ckptBody i a)) (hn : Renews w')
    (hfl : Flush w' (s.append (k, []) hf) b s') : Safe H (s'.forget k) := by
  have hrecs : ∀ r ∈ (s.append (k, []) hf).recs, r.val ≠ [] → H r.key r.val := by
    intro r hr hv
    rcases List.mem_append.mp hr with hr | hr
    · exact h.recs r hr hv
    · rw [List.mem_singleton.mp hr] at hv
      exact absurd rfl hv
  have hkeep : Safe H ((s.append (k, []) hf).forget k) := by
    refine ⟨⟨hrecs, fun l o hl => ?_⟩, genuine_append h.ckpts fun hc a e he => ?_⟩
    · simp only [Store.forget, Store.append, get_erase, get_insert] at hl
      split at hl
      · cases hl
      · exact h.index.append _ l o hl
    · have h24 := ((isCkpt_iff _).mp hc).2.1
      simp [written] at h24
  rcases safe_flush hrecs hH hn hfl with rfl | h'
  · exact hkeep
  · exact h'.forget k

theorem Safe.move (h : Safe H s) (hH : ∀ i a, H ckptKey (ckptBody i a)) {op : Op}
    (hw : ∀ p ∈ fitting (op.items.getD []) s.tail s.size, H p.1 p.2 ∧ Rejected p)
    (hn : Renews w') (hm : Moves (Keyed fun r => H r.key r.val) w' s op b s') : Safe H s' := by
  cases hm with
  | batch hop hb hf => exact (h.batch _ (by simpa [hop] using hw)).flush hH hn hf
  | full hop hb => exact h.batch _ (by simpa [hop] using hw)
  | hit ho => exact h.invalidate _
  | miss ho hb hfl =>
    rcases batch_tombstone ho with ⟨hf, he⟩ | he
    · rw [he] at hfl
      exact h.tombstone hf hH hn hfl
    · simp [he] at hb
  | missFull ho hb =>
    rcases batch_tombstone ho with ⟨hf, he⟩ | he
    · simp [he] at hb
    · rw [he]
      exact h
  | ckpt => exact h.writeCkpt hH
  | compact hst => exact h.flush hH hn (.compact hst)
  | flush hf => exact h.flush hH hn hf
  | suspend => exact h
  | remount hr hs ht hmt hd =>
    have hk := mounted_keyed hmt (fun _ _ he => he) fun r hr' _ hv => h.recs r hr' hv
    exact ⟨⟨by rw [hr]; exact h.recs, by rw [hr]; exact hk⟩, by rw [hr]; exact h.ckpts⟩

end Invariant

/-- What a run accounts for: its own writes, and checkpoints under their key. -/
def History (items : List (Str × Bytes)) (k : Str) (v : Bytes) : Prop :=
  (k, v) ∈ items ∨ k = ckptKey ∧ ∃ index append, v = ckptBody index append

/-- No put or batch of the run writes a checkpoint of its own making. -/
def NoForgery (ops : List Op) : Prop :=
  ∀ op ∈ ops, ∀ p ∈ op.items.getD [], Rejected p

theorem run_safe (ops : List Op) (items : List (Str × Bytes)) {w : World} {s : Store}
    (h : Running w s) (hd : 512 ∣ s.size) (hs : Safe (History items) s) (hf : NoForgery ops)
    (hw : ShortWrites (run w ops)) (hn : Renews (run w ops)) :
    ∃ s', Running (run w ops) s' ∧ Safe (History (items ++ authored w ops)) s' := by
  induction ops generalizing w s items with
  | nil => exact ⟨s, h, by simpa [authored] using hs⟩
  | cons op ops ih =>
    obtain ⟨hsize, hidle, -⟩ := step_keeps h.idle op
    have hs' := hs.mono (K := History (items ++ wrote w op)) fun k v =>
      Or.imp_left (by simp +contextual)
    obtain ⟨b, s', h', hm, -⟩ := step_moves h (.inl hd) hs'.ckpts (fun _ _ he => he) op
      (shortWrites_before hidle ops hw)
    have hnext : Safe (History (items ++ wrote w op)) s' := by
      refine hs'.move (fun i a => .inr ⟨rfl, i, a, rfl⟩) (fun p hp => ⟨.inl ?_, ?_⟩) ?_ hm
      · rw [← h.tail, ← h.size] at hp
        exact List.mem_append_right _ hp
      · exact hf op (by simp) p ((Store.fitting_initial _ _ _).subset hp)
      · exact fun f kv he => hn f kv (run_trace hidle ops he)
    have hd' : 512 ∣ s'.size := by
      rw [← h'.size, hsize, h.size]
      exact hd
    obtain ⟨t, ht, hsafe⟩ := ih (items ++ wrote w op) h' hd' hnext
      (fun o ho => hf o (by simp [ho])) hw hn
    exact ⟨t, ht, by simpa [authored] using hsafe⟩

theorem start_safe (n : ℕ) (h : n < 2^63) : Safe (History []) (Store.empty n h) :=
  ⟨⟨by simp [Store.empty], by intro k o ho; simp [Store.empty] at ho⟩, genuine_nil⟩

/-- In every run whose compactions renew the checkpoint they carry over, what
`get` returns was written under the same key, or is a checkpoint under its own. -/
theorem get_authored (n : ℕ) (h : n < 2^63) (hd : 512 ∣ n) (ops : List Op) (hf : NoForgery ops)
    (hw : ShortWrites (run (start n h) ops)) (hn : Renews (run (start n h) ops)) (k : Str)
    (v : Bytes) (hv : view (run (start n h) ops) k = .ok v) :
    (k, v) ∈ authored (start n h) ops ∨
      k = ckptKey ∧ ∃ index append, v = ckptBody index append := by
  obtain ⟨s, hs, hsafe⟩ := run_safe ops [] (start_running n h).1 hd (start_safe n h) hf hw hn
  rw [view_sees hs.toSees] at hv
  cases hval : s.value k with
  | none =>
    rw [hval] at hv
    cases hv
  | some u =>
    rw [hval] at hv
    cases hv
    obtain ⟨o, r, ho, hr, -, rfl⟩ := Store.value_eq_some.mp hval
    obtain ⟨r', hr', hk, hH⟩ := hsafe.index k o ho
    obtain rfl := hr.unique hr'
    rw [hk] at hH
    simpa [History] using hH

/-- A volume with room for three records, whose last compaction has none left
for the new checkpoint. -/
def fullVolume : List Op :=
  [.put keyB [1], .writeCkpt, .put keyA [2], .compact, .remount none]

theorem fullVolume_mixes :
    view (run (start 1536 (by decide)) fullVolume) keyB = .ok [2] ∧
      authored (start 1536 (by decide)) fullVolume = [(keyB, [1]), (keyA, [2])] := by
  decide +kernel

theorem get_authored_sample :
    ShortWrites (run (start 2048 (by decide)) fullVolume) ∧
      Renews (run (start 2048 (by decide)) fullVolume) ∧
      view (run (start 2048 (by decide)) fullVolume) keyB = .ok [1] ∧
      ((keyB, [1]) ∈ authored (start 2048 (by decide)) fullVolume ∨
        keyB = ckptKey ∧ ∃ index append, [1] = ckptBody index append) := by
  -- the run is evaluated once for all that is asked of it
  obtain ⟨hw, hroomy, hv⟩ : ShortWrites (run (start 2048 (by decide)) fullVolume) ∧
      (run (start 2048 (by decide)) fullVolume).trace.all roomyEvent = true ∧
      view (run (start 2048 (by decide)) fullVolume) keyB = .ok [1] := by
    decide +kernel
  have hn : Renews (run (start 2048 (by decide)) fullVolume) :=
    fun f kv hm _ => roomy_of_mem hroomy hm
  have hf : NoForgery fullVolume := by
    have hb : keyB ≠ ckptKey := by decide
    have ha : keyA ≠ ckptKey := by decide
    simp [NoForgery, fullVolume, Op.items, Rejected, ha, hb]
  exact ⟨hw, hn, hv, get_authored 2048 (by decide) (by decide) fullVolume hf hw hn keyB [1] hv⟩

end NeuralOs.TickvSafety
