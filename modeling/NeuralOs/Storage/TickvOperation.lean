import NeuralOs.Storage.TickvCompaction
import NeuralOs.Storage.TickvMountLog

/-!
# Operations and runs

The public operations of the store on a log, and runs of them. What a write
does to the log is fixed; whether a flush follows it depends on counters and
flags that the log does not show, so a flush is nothing or a compaction.
-/

set_option autoImplicit false

namespace NeuralOs.TickvOperation
open ByteString TickvRecord TickvState TickvStore TickvTrace TickvLog TickvLogUpdate TickvImage
open LogStore TickvRefine TickvCompaction TickvMount TickvMountLog

def Started (w' : World) (s : Store) : Prop :=
  ∃ w, Sees w s ∧ .compactStart w.flash w.kv ∈ w'.trace

/-- What a flush does to the log; the flag says that no write was refused. -/
inductive Flush (w' : World) (s : Store) : Bool → Store → Prop
  | quiet : Flush w' s true s
  | compact (h : Started w' s) : Flush w' s s.compact.1 s.compact.2

section Refinement
variable {w : World} {s : Store}

theorem maybeGc_cases (hc : w.compacting = false) :
    maybeGcWith compact w = (.ok (), w) ∨ maybeGcWith compact w = compact w := by
  unfold maybeGcWith
  rw [hc]
  simp only [Bool.false_eq_true, if_false]
  repeat' split
  all_goals simp

theorem bool_of_result {res : Result Unit} {b : Bool} (h : res = .ok () ↔ b = true)
    {p : Prop} (hr : res = .ok () ∨ p) : b = true ∨ p := hr.imp_left h.mp

theorem flush_sees (h : Sees w s) (hc : w.compacting = false)
    (hb : w.kv.backend.slow = false) (ha : Aligned s)
    (hs : ShortWrites (flushOpportunistic w).2) :
    ∃ b s', Sees (flushOpportunistic w).2 s' ∧
      Flush (flushOpportunistic w).2 s b s' ∧
      (b = true ∨ .refused ∈ (flushOpportunistic w).2.trace) := by
  unfold flushOpportunistic flushOpportunisticWith at *
  split
  · exact ⟨true, s, h, .quiet, .inl rfl⟩
  next hr =>
  rw [if_neg hr] at hs
  rw [if_neg (by simp [hb])] at hs ⊢
  split
  · exact ⟨true, s, h, .quiet, .inl rfl⟩
  next hg =>
  rw [if_neg hg] at hs
  simp only at hs ⊢
  have hs' : ShortWrites (maybeGcWith compact w).2 := by
    split at hs <;> exact hs
  rcases maybeGc_cases hc with he | he
  · rw [he]
    exact ⟨true, s, by split <;> exact h.same rfl rfl rfl rfl, .quiet, .inl rfl⟩
  rw [he] at hs' ⊢
  obtain ⟨res, w', hcm, h', hb, hrf, hst⟩ := compact_sees h hc ha hs'
  rw [hcm]
  refine ⟨s.compact.1, s.compact.2, ?_, ?_, ?_⟩
  · split <;> exact h'.same rfl rfl rfl rfl
  · refine .compact ⟨w, h, ?_⟩
    split <;> exact hst
  · split <;> exact bool_of_result hb hrf

theorem highWater_sees (h : Sees w s) (hc : w.compacting = false)
    (hb : w.kv.backend.slow = false) (ha : Aligned s)
    (hs : ShortWrites (maybeHighWaterFlush w)) :
    ∃ b s', Sees (maybeHighWaterFlush w) s' ∧
      Flush (maybeHighWaterFlush w) s b s' ∧
      (b = true ∨ .refused ∈ (maybeHighWaterFlush w).trace) := by
  unfold maybeHighWaterFlush maybeHighWaterFlushWith at hs ⊢
  rw [hc] at hs ⊢
  simp only [Bool.false_eq_true, if_false] at hs ⊢
  split
  · exact ⟨true, s, h, .quiet, .inl rfl⟩
  next hw =>
  rw [if_neg hw] at hs
  split
  · exact ⟨true, s, h.same rfl rfl rfl rfl, .quiet, .inl rfl⟩
  · next hg =>
    rw [if_neg hg] at hs
    exact flush_sees h hc hb ha hs

theorem flush_cases (hc : w.compacting = false) (hb : w.kv.backend.slow = false) :
    (flushOpportunistic w).2 = w ∨ (flushOpportunistic w).2.flash = (compact w).2.flash ∧
      (flushOpportunistic w).2.trace = (compact w).2.trace := by
  unfold flushOpportunistic flushOpportunisticWith
  split
  · exact .inl rfl
  rw [if_neg (by simp [hb])]
  split
  · exact .inl rfl
  rcases maybeGc_cases hc with he | he
  · left
    simp only [he, if_true]
  · right
    simp only [he]
    split <;> exact ⟨rfl, rfl⟩

/-- The log after the two loops of a batch, with the flag of the second. -/
def batch (s : Store) (items : List (Str × Bytes)) : Bool × Store :=
  Store.appendAll items (Store.invalidateAll items s)

theorem aligned_invalidate (ha : Aligned s) (k : Str) : Aligned (s.invalidate k) := by
  refine ha.imp_right fun ht => ?_
  simp only [Store.invalidate]
  cases s.index[k]? with
  | none => exact ht
  | some o => simpa [logSize_killAt] using ht

theorem aligned_invalidateAll (ha : Aligned s) (items : List (Str × Bytes)) :
    Aligned (Store.invalidateAll items s) := by
  induction items generalizing s with
  | nil => exact ha
  | cons p items ih =>
    rw [Store.invalidateAll]
    apply ih
    split
    · exact ha
    · exact aligned_invalidate ha p.1

theorem aligned_appendAll (ha : Aligned s) (items : List (Str × Bytes)) :
    Aligned (Store.appendAll items s).2 := by
  induction items generalizing s with
  | nil => exact ha
  | cons p items ih =>
    rw [Store.appendAll]
    split
    · next hf => exact ih (.inr (by simp [Store.append, s.room _ hf]))
    · exact ha

variable {k : Str}

theorem batch_tombstone (ho : s.index[k]? = none) :
    (∃ hf, batch s [(k, [])] = (true, s.append (k, []) hf)) ∨ batch s [(k, [])] = (false, s) := by
  have hi : Store.invalidateAll [(k, [])] s = s := by
    rw [Store.invalidateAll, Store.invalidate_absent ho, ite_self]
    rfl
  rw [batch, hi, Store.appendAll]
  split
  · next hf => exact .inl ⟨hf, rfl⟩
  · exact .inr rfl

theorem putBatch_unfold (hr : w.kv.ready = true) (items : List (Str × Bytes)) :
    putBatch w items = match appendAll items (invalidateAll items w) with
      | (.error e, w₁) => (.error e, w₁)
      | (.ok _, w₁) => (.ok (), if items.any (fun i => i.1 ≠ gcLockKey) then
          maybeHighWaterFlush w₁ else w₁) := by
  unfold putBatch putBatchWith
  rw [hr]
  rfl

theorem loops_sees (h : Sees w s) (items : List (Str × Bytes))
    (hs : ShortWrites (putBatch w items).2) :
    ∃ res w₁, appendAll items (invalidateAll items w) = (res, w₁) ∧ Frame w w₁ ∧
      Sees w₁ (batch s items).2 ∧ (res = .ok () ↔ (batch s items).1 = true) ∧
      (res = .ok () ∨ .refused ∈ w₁.trace) := by
  have hf := (frame_invalidateAll items w).trans (frame_appendAll items (invalidateAll items w))
  have hs' : ShortWrites (appendAll items (invalidateAll items w)).2 := by
    rw [putBatch_unfold h.ready] at hs
    generalize appendAll items (invalidateAll items w) = out at hs
    obtain ⟨_ | _, w₁⟩ := out
    · exact hs
    · simp only at hs
      split at hs
      · exact hs.before (frame_highWater frame_compact w₁)
      · exact hs
  obtain ⟨res, w₁, he, h₁, hb, hr⟩ := appendAll_sees (invalidateAll_sees h items) items hs'
  rw [he] at hf
  exact ⟨res, w₁, he, hf, h₁, hb, hr⟩

theorem putBatch_full (h : Sees w s) (items : List (Str × Bytes))
    (hs : ShortWrites (putBatch w items).2) (hb : (batch s items).1 = false) :
    ∃ e w', putBatch w items = (.error e, w') ∧ Sees w' (batch s items).2 ∧
      .refused ∈ w'.trace := by
  obtain ⟨res, w₁, he, -, h₁, hres, hr⟩ := loops_sees h items hs
  rw [putBatch_unfold h.ready, he]
  cases res with
  | ok _ => simp [hb] at hres
  | error e => exact ⟨e, w₁, rfl, h₁, by simpa using hr⟩

theorem putBatch_room (h : Sees w s) (hc : w.compacting = false)
    (hbk : w.kv.backend.slow = false) (ha : Aligned s)
    (items : List (Str × Bytes)) (hs : ShortWrites (putBatch w items).2)
    (hb : (batch s items).1 = true) :
    ∃ w' b s', putBatch w items = (.ok (), w') ∧ Sees w' s' ∧ Flush w' (batch s items).2 b s' ∧
      (b = true ∨ .refused ∈ w'.trace) := by
  obtain ⟨res, w₁, he, hf, h₁, hres, hr⟩ := loops_sees h items hs
  rw [putBatch_unfold h.ready, he] at hs ⊢
  cases res with
  | error e => simp [hb] at hres
  | ok _ =>
    simp only at hs ⊢
    split
    · next hk =>
      rw [if_pos hk] at hs
      obtain ⟨b, s', h', hfl, hrf⟩ := highWater_sees h₁ (hf.compacting.trans hc)
        (by rw [hf.backend]; exact hbk) (aligned_appendAll (aligned_invalidateAll ha items) items) hs
      exact ⟨_, b, s', rfl, h', hfl, hrf⟩
    · exact ⟨w₁, true, _, rfl, h₁, .quiet, .inl rfl⟩

theorem delete_hit (h : Sees w s) {o : ℕ} (ho : s.index[k]? = some o) :
    ∃ w', delete w k = (.ok (), w') ∧ Sees w' (s.invalidate k) := by
  obtain ⟨w', he, h'⟩ := invalidateKey_sees h ho
  exact ⟨w', by rw [delete, he], h'⟩

theorem delete_miss (h : Sees w s) (ho : s.index[k]? = none) :
    delete w k = match putBatch w [(k, [])] with
      | (.error e, w) => (.error e, w)
      | (.ok _, w) => (.ok (), w.setKv { w.kv with index := w.kv.index.erase k }) := by
  have hi : invalidateKey w k = (.error .missing, w) := by
    simp only [invalidateKey, h.ready, h.index, ho, Bool.not_true, Bool.false_eq_true, if_false]
  rewrite [delete, hi, ← put_eq_putBatch]
  rfl

theorem forget_sees (h : Sees w s) (k : Str) :
    Sees (w.setKv { w.kv with index := w.kv.index.erase k }) (s.forget k) :=
  ⟨h.ready, h.holds, by simp only [World.setKv, Store.forget, h.index], h.tail, h.size⟩

end Refinement

inductive Op where
  | put (key : Str) (val : Bytes)
  | putBatch (items : List (Str × Bytes))
  | delete (key : Str)
  | writeCkpt
  | compact
  | flushIdle
  | setGcSuspended (on : Bool)
  | remount (polls : Option ℕ)

def Op.items : Op → Option (List (Str × Bytes))
  | .put key val => some [(key, val)]
  | .putBatch items => some items
  | _ => none

/-- One operation of a run; its result is dropped and the run goes on. -/
def step (w : World) : Op → World
  | .put key val => (put w key val).2
  | .putBatch items => (putBatch w items).2
  | .delete key => (delete w key).2
  | .writeCkpt => (writeCkpt w).2
  | .compact => (compact w).2
  | .flushIdle => (flushOpportunistic w).2
  | .setGcSuspended on => { w with gcSuspended := on }
  | .remount polls => remount w polls

def run (w : World) (ops : List Op) : World := ops.foldl step w

def start (n : ℕ) (h : n < 2^63) : World := (mount (World.boot (RamFlash.new n h)) none).2

structure Running (w : World) (s : Store) : Prop extends Sees w s where
  idle : w.compacting = false
  fast : w.kv.backend.slow = false

/-- Everything an operation can do to the log; the flag says that no write was
refused, and `w'` is the world after it. -/
inductive Moves (P : List Rec → Index → Prop) (w' : World) (s : Store) :
    Op → Bool → Store → Prop
  | batch {op : Op} {items : List (Str × Bytes)} (hop : op.items = some items)
      (hb : (batch s items).1 = true) {b : Bool} {s' : Store}
      (hf : Flush w' (batch s items).2 b s') : Moves P w' s op b s'
  | full {op : Op} {items : List (Str × Bytes)} (hop : op.items = some items)
      (hb : (batch s items).1 = false) : Moves P w' s op false (batch s items).2
  | hit {k : Str} {o : ℕ} (ho : s.index[k]? = some o) :
      Moves P w' s (.delete k) true (s.invalidate k)
  | miss {k : Str} (ho : s.index[k]? = none) (hb : (batch s [(k, [])]).1 = true) {b : Bool}
      {s' : Store} (hf : Flush w' (batch s [(k, [])]).2 b s') :
      Moves P w' s (.delete k) b (s'.forget k)
  | missFull {k : Str} (ho : s.index[k]? = none) (hb : (batch s [(k, [])]).1 = false) :
      Moves P w' s (.delete k) false (batch s [(k, [])]).2
  | ckpt : Moves P w' s .writeCkpt s.writeCkpt.1 s.writeCkpt.2
  | compact (h : Started w' s) : Moves P w' s .compact s.compact.1 s.compact.2
  | flush {b : Bool} {s' : Store} (hf : Flush w' s b s') : Moves P w' s .flushIdle b s'
  | suspend {on : Bool} : Moves P w' s (.setGcSuspended on) true s
  | remount {polls : Option ℕ} {d : Bool} {s' : Store} (hr : s'.recs = s.recs)
      (hs : s'.size = s.size) (ht : s'.tail = if d then s.size else logSize s.recs)
      (hm : Mounted P s.recs s'.index d) (hd : polls = none → d = false) :
      Moves P w' s (.remount polls) true s'

section Steps
variable {w : World} {s : Store}

theorem frame_step (w : World) (h : w.compacting = false) (op : Op)
    (hop : ∀ polls, op ≠ .remount polls) : Frame w (step w op) := by
  cases op with
  | put key val => exact frame_put w key val
  | putBatch items => exact frame_putBatch frame_compact items w
  | delete key => exact frame_delete w key
  | writeCkpt => exact frame_writeCkpt w
  | compact => exact frame_compact w h
  | flushIdle => exact frame_flush frame_compact w
  | setGcSuspended on =>
    exact ⟨⟨[], by simp [step], rfl⟩, rfl, rfl, rfl, fun _ _ h => .inl h⟩
  | remount polls => exact absurd rfl (hop polls)

variable {P : List Rec → Index → Prop} {R : Rec → Prop}

theorem putItems_moves (h : Running w s) (ha : Aligned s) {op : Op}
    {items : List (Str × Bytes)} (hop : op.items = some items)
    (hs : ShortWrites (putBatch w items).2) :
    ∃ b s', Sees (putBatch w items).2 s' ∧ Moves P (putBatch w items).2 s op b s' ∧
      (b = true ∨ .refused ∈ (putBatch w items).2.trace) := by
  cases hb : (batch s items).1 with
  | true =>
    obtain ⟨w', b, s', he, h', hf, hr⟩ := putBatch_room h.toSees h.idle h.fast ha items hs hb
    rw [he]
    exact ⟨b, s', h', .batch hop hb hf, hr⟩
  | false =>
    obtain ⟨e, w', he, h', hr⟩ := putBatch_full h.toSees items hs hb
    rw [he]
    exact ⟨false, _, h', .full hop hb, .inr hr⟩

theorem delete_moves (h : Running w s) (ha : Aligned s) (k : Str)
    (hs : ShortWrites (delete w k).2) :
    ∃ b s', Sees (delete w k).2 s' ∧ Moves P (delete w k).2 s (.delete k) b s' ∧
      (b = true ∨ .refused ∈ (delete w k).2.trace) := by
  cases ho : s.index[k]? with
  | some o =>
    obtain ⟨w', he, h'⟩ := delete_hit h.toSees ho
    rw [he]
    exact ⟨true, _, h', .hit ho, .inl rfl⟩
  | none =>
    rw [delete_miss h.toSees ho] at hs ⊢
    have hs' : ShortWrites (putBatch w [(k, [])]).2 := by
      generalize putBatch w [(k, [])] = out at hs
      obtain ⟨_ | _, w'⟩ := out <;> exact hs
    cases hb : (batch s [(k, [])]).1 with
    | true =>
      obtain ⟨w', b, s', he, h', hf, hr⟩ := putBatch_room h.toSees h.idle h.fast ha _ hs' hb
      rw [he]
      refine ⟨b, s'.forget k, forget_sees h' k, .miss ho hb ?_, hr⟩
      cases hf with
      | quiet => exact .quiet
      | compact hst => exact .compact hst
    | false =>
      obtain ⟨e, w', he, h', hr⟩ := putBatch_full h.toSees _ hs' hb
      rw [he]
      exact ⟨false, _, h', .missFull ho hb, .inr hr⟩

theorem remount_log {L : List Rec}
    (hf : Holds w.flash L) (hg : Genuine P L) (hP : ∀ A e, P A e → Keyed R A e)
    (polls : Option ℕ) :
    ∃ s' d, Running (remount w polls) s' ∧ s'.recs = L ∧ s'.size = w.flash.size ∧
      s'.tail = (if d then w.flash.size else logSize L) ∧ Mounted P L s'.index d ∧
      (polls = none → d = false) ∧ (remount w polls).kv.degraded = d := by
  obtain ⟨w', d, he, hfl, hr, ha, hdeg, hm, hd, hc, -, hb, -⟩ := mount_log
    (w := { w with kv := .new, compacting := false }) hf hg hP polls
  have hk : Keyed (fun _ => True) L w'.kv.index :=
    mounted_keyed hm (fun A e hPe => (hP A e hPe).mono fun _ _ _ => trivial) fun _ _ _ _ => trivial
  unfold remount
  rw [he]
  refine ⟨⟨L, w'.kv.index, w'.kv.appendOff, w.flash.size, w.flash.bounded, hf.fits, ?_, hk⟩, d,
    ⟨⟨hr, ?_, rfl, rfl, ?_⟩, hc, ?_⟩, rfl, rfl, ha, hm, hd, hdeg⟩
  · rw [ha]
    cases d
    · exact .inl rfl
    · exact .inr rfl
  · rw [hfl]
    exact hf
  · rw [hfl]
  · rw [hb]
    rfl

theorem remount_moves (h : Sees w s)
    (hg : Genuine P s.recs) (hP : ∀ A e, P A e → Keyed R A e) (polls : Option ℕ) :
    ∃ s', Running (remount w polls) s' ∧ Moves P (remount w polls) s (.remount polls) true s' := by
  obtain ⟨s', d, hrun, hr, hs, ht, hm, hd, -⟩ := remount_log h.holds hg hP polls
  rw [h.size] at hs ht
  exact ⟨s', hrun, .remount hr hs ht hm hd⟩

theorem step_moves (h : Running w s)
    (ha : Aligned s) (hg : Genuine P s.recs) (hP : ∀ A e, P A e → Keyed R A e) (op : Op)
    (hs : ShortWrites (step w op)) :
    ∃ b s', Running (step w op) s' ∧ Moves P (step w op) s op b s' ∧
      (b = true ∨ .refused ∈ (step w op).trace) := by
  by_cases hop : ∃ polls, op = .remount polls
  · obtain ⟨polls, rfl⟩ := hop
    obtain ⟨s', h', hm⟩ := remount_moves h.toSees hg hP polls
    exact ⟨true, s', h', hm, .inl rfl⟩
  have hf := frame_step w h.idle op fun polls hp => hop ⟨polls, hp⟩
  have hrun : ∀ s', Sees (step w op) s' → Running (step w op) s' := fun s' h' =>
    ⟨h', hf.compacting.trans h.idle, by rw [hf.backend]; exact h.fast⟩
  suffices hm : ∃ b s', Sees (step w op) s' ∧ Moves P (step w op) s op b s' ∧
      (b = true ∨ .refused ∈ (step w op).trace) by
    obtain ⟨b, s', h', hm, hr⟩ := hm
    exact ⟨b, s', hrun s' h', hm, hr⟩
  cases op with
  | put key val =>
    simp only [step, put_eq_putBatch] at hs ⊢
    exact putItems_moves h ha rfl hs
  | putBatch items => exact putItems_moves h ha rfl hs
  | delete key => exact delete_moves h ha key hs
  | writeCkpt =>
    obtain ⟨res, w', he, h', hb, hr⟩ := writeCkpt_sees h.toSees hs
    simp only [step, he]
    exact ⟨_, _, h', .ckpt, bool_of_result hb hr⟩
  | compact =>
    obtain ⟨res, w', he, h', hb, hr, hst⟩ := compact_sees h.toSees h.idle ha hs
    simp only [step, he]
    exact ⟨_, _, h', .compact ⟨w, h.toSees, hst⟩, bool_of_result hb hr⟩
  | flushIdle =>
    obtain ⟨b, s', h', hf, hr⟩ := flush_sees h.toSees h.idle h.fast ha hs
    exact ⟨b, s', h', .flush hf, hr⟩
  | setGcSuspended on =>
    exact ⟨true, s, h.toSees.same rfl rfl rfl rfl, .suspend, .inl rfl⟩
  | remount polls => exact absurd ⟨polls, rfl⟩ hop

theorem remount_keeps (w : World) (polls : Option ℕ) :
    (remount w polls).flash = w.flash ∧ (remount w polls).trace = w.trace ∧
      (remount w polls).compacting = false := by
  unfold remount mount mountFrom
  repeat' split
  all_goals exact ⟨rfl, rfl, rfl⟩

theorem step_keeps (h : w.compacting = false) (op : Op) :
    (step w op).flash.size = w.flash.size ∧ (step w op).compacting = false ∧
      ∀ e ∈ w.trace, e ∈ (step w op).trace := by
  by_cases hop : ∃ polls, op = .remount polls
  · obtain ⟨polls, rfl⟩ := hop
    obtain ⟨hf, ht, hc⟩ := remount_keeps w polls
    exact ⟨congrArg RamFlash.size hf, hc, fun e he => ht.symm ▸ he⟩
  · have hf := frame_step w h op fun polls hp => hop ⟨polls, hp⟩
    exact ⟨hf.size, hf.compacting.trans h, fun _ he => hf.mem he⟩

theorem run_trace (h : w.compacting = false) (ops : List Op) {e : Event} (he : e ∈ w.trace) :
    e ∈ (run w ops).trace := by
  induction ops generalizing w with
  | nil => exact he
  | cons op ops ih => exact ih (step_keeps h op).2.1 ((step_keeps h op).2.2 e he)

theorem shortWrites_before (h : w.compacting = false) (ops : List Op)
    (hs : ShortWrites (run w ops)) : ShortWrites w := fun off d hm => hs off d (run_trace h ops hm)

theorem run_short (h : w.compacting = false) (hsize : w.flash.size < 2^32) (hw : ShortWrites w)
    (ops : List Op) : ShortWrites (run w ops) := by
  induction ops generalizing w with
  | nil => exact hw
  | cons op ops ih =>
    obtain ⟨hs, hc, -⟩ := step_keeps h op
    refine ih hc (hs.trans_lt hsize) fun off d hm => ?_
    by_cases hop : ∃ polls, op = .remount polls
    · obtain ⟨polls, rfl⟩ := hop
      rw [step, (remount_keeps w polls).2.1] at hm
      exact hw off d hm
    · rcases (frame_step w h op fun polls hp => hop ⟨polls, hp⟩).inside off d hm with hm | hle
      · exact hw off d hm
      · omega

theorem start_running (n : ℕ) (h : n < 2^63) :
    Running (start n h) (Store.empty n h) ∧ (start n h).trace = [] ∧
      (start n h).kv.hwLatched = false ∧ (start n h).gcSuspended = false := by
  obtain ⟨w', d, he, hf, hr, ha, -, hm, hd, hc, ht, hb, hl, hg⟩ := mount_log
    (w := World.boot (RamFlash.new n h)) (L := []) (P := fun _ _ => False) (R := fun _ => True)
    (holds_new n h) (by intro A c B hL; simp at hL) (fun _ _ hP => hP.elim) none
  obtain rfl : d = false := hd rfl
  unfold start
  rw [he]
  refine ⟨⟨⟨hr, by rw [hf]; exact holds_new n h, ?_, ha, ?_⟩, hc, by rw [hb]; rfl⟩, ht, hl, hg⟩
  · cases hm with
    | ckpt hk =>
      obtain ⟨A, c, B, e, m, hL, -⟩ := hk.run
      simp at hL
    | scan m hi _ => simpa [replay, Store.empty] using hi
  · rw [hf]
    simp [World.boot, RamFlash.new, RamFlash.size, Store.empty]

end Steps

end NeuralOs.TickvOperation
