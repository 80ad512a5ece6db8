import NeuralOs.Storage.TickvCompactContent
import NeuralOs.Storage.TickvFailure

/-!
# A degraded mount

A scan that times out leaves the append offset at the end of the flash, so
every append is refused. Clearing a flag is not an append, and a compaction
starts from the partial index: these two still destroy records. Without them
nothing is lost: the log changes at the deleted keys only.
-/

set_option autoImplicit false

namespace NeuralOs.TickvDegraded
open ByteString TickvRecord TickvState TickvStore TickvMount TickvTrace TickvLog TickvLogUpdate
open TickvImage LogStore TickvMountLog TickvCkpt TickvSnapshot TickvContent TickvRefine
open TickvOperation TickvCompactContent TickvCompactCrash TickvDurability TickvFailure

/-- The same log, except that some records of other keys are killed. -/
def KilledBut (k : Str) (L L' : List Rec) : Prop :=
  List.Forall₂ (fun r r' => r' = r ∨ r.key ≠ k ∧ r' = r.kill) L L'

section Logs
variable {k : Str} {L L' M : List Rec}

theorem KilledBut.refl (k : Str) (L : List Rec) : KilledBut k L L :=
  List.forall₂_same.mpr fun _ _ => .inl rfl

theorem KilledBut.trans (h : KilledBut k L L') (h' : KilledBut k L' M) : KilledBut k L M := by
  induction h generalizing M with
  | nil => exact h'
  | cons hr _ ih =>
    cases h' with
    | cons hr' h' =>
      refine .cons ?_ (ih h')
      rcases hr with rfl | ⟨hk, rfl⟩
      · exact hr'
      · rcases hr' with rfl | ⟨-, rfl⟩ <;> exact .inr ⟨hk, rfl⟩

theorem KilledBut.killed (h : KilledBut k L L') : Killed L L' :=
  h.imp fun _ _ hr => hr.imp_right And.right

variable {r : Rec}

theorem killedBut_killAt {o : ℕ} (hr : At L o r) (hk : r.key ≠ k) : KilledBut k L (killAt o L) := by
  obtain ⟨A, B, rfl, rfl⟩ := hr
  rw [killAt_middle]
  exact List.rel_append (KilledBut.refl k A) (.cons (.inr ⟨hk, rfl⟩) (KilledBut.refl k B))

theorem KilledBut.at_iff (h : KilledBut k L L') {o : ℕ} (hk : r.key = k) :
    At L' o r ↔ At L o r := by
  induction h generalizing o with
  | nil => rfl
  | cons hx _ ih =>
    simp only [at_cons_iff, ih]
    rcases hx with rfl | ⟨hne, rfl⟩
    · rfl
    · refine or_congr (iff_of_false ?_ ?_) Iff.rfl
      · rintro ⟨-, rfl⟩
        exact hne hk
      · rintro ⟨-, rfl⟩
        exact hne hk

theorem KilledBut.has_iff (h : KilledBut k L L') (v : Bytes) : Has L' k v ↔ Has L k v := by
  constructor
  · rintro ⟨r, hr, hc, hk, hv⟩
    obtain ⟨A, B, hL⟩ := List.append_of_mem hr
    exact ⟨r, ((h.at_iff hk).mp ⟨A, B, hL, rfl⟩).mem, hc, hk, hv⟩
  · rintro ⟨r, hr, hc, hk, hv⟩
    obtain ⟨A, B, hL⟩ := List.append_of_mem hr
    exact ⟨r, ((h.at_iff hk).mpr ⟨A, B, hL, rfl⟩).mem, hc, hk, hv⟩

theorem apply_other (hk : r.key ≠ k) (e : Index) (o : ℕ) : (r.apply e o)[k]? = e[k]? := by
  unfold Rec.apply
  split
  · rfl
  · split
    · rw [get_erase, if_neg hk.symm]
    · rw [get_insert, if_neg hk.symm]

theorem apply_congr (r : Rec) {e e' : Index} (he : e'[k]? = e[k]?) (o : ℕ) :
    (r.apply e' o)[k]? = (r.apply e o)[k]? := by
  unfold Rec.apply
  split
  · exact he
  · split
    · rw [get_erase, get_erase, he]
    · rw [get_insert, get_insert, he]

theorem KilledBut.replay_eq (h : KilledBut k L L') (o : ℕ) {e e' : Index}
    (he : e'[k]? = e[k]?) : (replay L' o e')[k]? = (replay L o e)[k]? := by
  induction h generalizing o e e' with
  | nil => exact he
  | @cons r r' _ _ hr _ ih =>
    rw [replay, replay]
    have hs : r'.size = r.size := by
      rcases hr with rfl | ⟨-, rfl⟩ <;> rfl
    rw [hs]
    apply ih
    rcases hr with rfl | ⟨hne, rfl⟩
    · exact apply_congr r' he o
    · rw [apply_other hne, apply_other (by exact hne), he]

end Logs

section Steps
variable {w w' : World} {s s' : Store} {k : Str} {L L' : List Rec}

theorem recover_same (hf : Holds w.flash L) (hf' : Holds w'.flash L') (h : KilledBut k L L') :
    view (recoverMount w' none) k = view (recoverMount w none) k := by
  obtain ⟨s, hs, hr, hi⟩ := recover_sees hf
  obtain ⟨s', hs', hr', hi'⟩ := recover_sees hf'
  have hkeyed := keyed_replay (fun _ => True) [] L ∅ (by intro k o ho; simp at ho)
    fun _ _ _ _ => trivial
  have hindex : s'.index[k]? = s.index[k]? := by
    rw [hi, hi']
    exact h.replay_eq 0 rfl
  have hval : s'.value k = s.value k := by
    simp only [Store.value, hindex]
    cases ho : s.index[k]? with
    | none => rfl
    | some o =>
      rw [hi] at ho
      obtain ⟨r, hat, hk, -⟩ := hkeyed k o ho
      rw [List.nil_append] at hat
      rw [Option.bind_some, Option.bind_some, hr, hr', recAt_iff.mpr hat,
        recAt_iff.mpr ((h.at_iff hk).mpr hat)]
  rw [view_sees hs, view_sees hs', hval]

def Named (w : World) (k : Str) : Op → Prop
  | .put key val => key = k ∧ (put w key val).1 = .ok ()
  | .putBatch items => k ∈ items.map Prod.fst ∧ (putBatch w items).1 = .ok ()
  | .delete key => key = k ∧ (delete w key).1 = .ok ()
  | _ => False

/-- A step that does not name the key in a success, is no remount, starts no
compaction, and puts only keys that have no value. -/
structure Harmless (k : Str) (w : World) (op : Op) : Prop where
  stay : ∀ polls, op ≠ .remount polls
  other : ¬ Named w k op
  whole : ∀ f kv, .compactStart f kv ∉ added w (step w op)
  valueless : ∀ items, op.items = some items →
    ∀ p ∈ items, p.1 = ckptKey ∨ view w p.1 = .error .missing

/-- Every step of the run has the property in the world it starts from. -/
def Along (P : World → Op → Prop) : World → List Op → Prop
  | _, [] => True
  | w, op::ops => P w op ∧ Along P (step w op) ops

theorem invalidateAll_valueless (items : List (Str × Bytes))
    (h : ∀ p ∈ items, p.1 = ckptKey ∨ s.value p.1 = none) :
    (Store.invalidateAll items s).recs = s.recs := by
  induction items generalizing s with
  | nil => rfl
  | cons p items ih =>
    rw [Store.invalidateAll]
    by_cases hk : p.1 = ckptKey
    · rw [if_pos hk]
      exact ih fun q hq => h q (by simp [hq])
    · obtain ⟨hrecs, hval⟩ := invalidate_valueless ((h p (by simp)).resolve_left hk)
      rw [if_neg hk, ih fun q hq => by rw [hval]; exact h q (by simp [hq]), hrecs]

theorem value_none (h : Sees w s) (hv : view w k = .error .missing) : s.value k = none := by
  rw [view_sees h] at hv
  cases hval : s.value k with
  | none => rfl
  | some u => simp [hval] at hv

theorem full_append (ht : s.tail = s.size) (p : Str × Bytes) :
    s.size < s.tail+(written p).size := by
  have h := (written p).size_sector
  omega

theorem stuck_batch (h : Sees w s) (ht : s.tail = s.size) (items : List (Str × Bytes))
    (hv : ∀ p ∈ items, p.1 = ckptKey ∨ view w p.1 = .error .missing) :
    ∃ s', Sees (putBatch w items).2 s' ∧ s'.tail = s'.size ∧ s'.recs = s.recs := by
  cases items with
  | nil =>
    rw [putBatch_unfold h.ready]
    exact ⟨s, h, ht, rfl⟩
  | cons p items =>
    obtain ⟨w', he, h'⟩ := putBatch_stuck h p items (full_append ht p)
    obtain ⟨ht', hs'⟩ := Store.invalidateAll_same (p::items) s
    rw [he]
    exact ⟨_, h', by rw [ht', hs', ht],
      invalidateAll_valueless _ fun q hq => (hv q hq).imp_right (value_none h)⟩

theorem stuck_delete (h : Sees w s) (ht : s.tail = s.size) {l : Str}
    (hn : ¬ Named w k (.delete l)) :
    ∃ s', Sees (delete w l).2 s' ∧ s'.tail = s'.size ∧ KilledBut k s.recs s'.recs := by
  cases ho : s.index[l]? with
  | some o =>
    obtain ⟨w', he, h'⟩ := delete_hit h ho
    obtain ⟨r, hr, rfl, -⟩ := s.entries l o ho
    have hk : r.key ≠ k := fun hk => hn ⟨hk, by rw [he]⟩
    rw [he]
    refine ⟨_, h', ht, ?_⟩
    simp only [Store.invalidate, ho, Option.elim_some]
    exact killedBut_killAt hr hk
  | none =>
    obtain ⟨w', he, h'⟩ := putBatch_stuck h (l, []) [] (full_append ht _)
    have hsame : Store.invalidateAll [(l, [])] s = s := by
      rw [Store.invalidateAll, Store.invalidate_absent ho, ite_self]
      rfl
    rw [hsame] at h'
    rw [delete_miss h ho, he]
    exact ⟨s, h', ht, .refl k s.recs⟩

theorem stuck_step (h : Running w s) (ht : s.tail = s.size) {op : Op} (ho : Harmless k w op) :
    ∃ s', Running (step w op) s' ∧ s'.tail = s'.size ∧ KilledBut k s.recs s'.recs := by
  have hfr := frame_step w h.idle op ho.stay
  suffices hm : ∃ s', Sees (step w op) s' ∧ s'.tail = s'.size ∧ KilledBut k s.recs s'.recs by
    obtain ⟨s', h', hrest⟩ := hm
    exact ⟨s', ⟨h', hfr.compacting.trans h.idle, by rw [hfr.backend]; exact h.fast⟩, hrest⟩
  have hbatch : ∀ items, op.items = some items →
      ∃ s', Sees (putBatch w items).2 s' ∧ s'.tail = s'.size ∧ KilledBut k s.recs s'.recs := by
    intro items hi
    obtain ⟨s', h', ht', hr⟩ := stuck_batch h.toSees ht items (ho.valueless items hi)
    exact ⟨s', h', ht', hr ▸ .refl k s.recs⟩
  have hstart : (step w op).trace ≠ (compact w).2.trace := by
    intro he
    obtain ⟨es, hes⟩ := compact_starts w h.ready h.idle
    apply ho.whole w.flash w.kv
    rw [added, he, ← added, hes]
    exact List.mem_cons_self
  cases op with
  | put key val =>
    simp only [step, put_eq_putBatch]
    exact hbatch _ rfl
  | putBatch items => exact hbatch _ rfl
  | delete key => exact stuck_delete h.toSees ht ho.other
  | writeCkpt =>
    have hfull := putRaw_full w ckptKey (ckptBody w.kv.index w.kv.appendOff)
      (by rw [h.size, h.tail]; exact full_append ht _)
    simp only [step, writeCkpt_unfold w h.ready, hfull]
    exact ⟨s, h.toSees.same rfl rfl rfl rfl, ht, .refl k s.recs⟩
  | compact => exact absurd rfl hstart
  | flushIdle =>
    rcases flush_cases h.idle h.fast with he | ⟨-, he⟩
    · simp only [step, he]
      exact ⟨s, h.toSees, ht, .refl k s.recs⟩
    · exact absurd he hstart
  | setGcSuspended on =>
    exact ⟨s, h.toSees.same rfl rfl rfl rfl, ht, .refl k s.recs⟩
  | remount polls => exact absurd rfl (ho.stay polls)

theorem stuck_run (ops : List Op) (h : Running w s) (ht : s.tail = s.size)
    (ho : Along (Harmless k) w ops) :
    ∃ s', Running (run w ops) s' ∧ KilledBut k s.recs s'.recs := by
  induction ops generalizing w s with
  | nil => exact ⟨s, h, .refl k s.recs⟩
  | cons op ops ih =>
    obtain ⟨s₁, h₁, ht₁, hk₁⟩ := stuck_step h ht ho.1
    obtain ⟨s', h', hk'⟩ := ih h₁ ht₁ ho.2
    exact ⟨s', h', hk₁.trans hk'⟩

end Steps

/-- After a mount that timed out, no sequence of harmless steps changes what a
later full scan returns for the key; for a tidy log with genuine checkpoints
the same holds of a later mount. -/
theorem degraded_keeps {w : World} {L : List Rec} (hf : Holds w.flash L)
    (hg : Genuine (Keyed fun _ => True) L) (polls : Option ℕ)
    (hd : (remount w polls).kv.degraded = true) (ops : List Op) (k : Str)
    (ho : Along (Harmless k) (remount w polls) ops) :
    view (recoverMount (run (remount w polls) ops) none) k = view (recoverMount w none) k ∧
      (Tidy L → Genuine Indexes L → k ≠ ckptKey →
        view (remount (run (remount w polls) ops) none) k = view (recoverMount w none) k) := by
  obtain ⟨s, d, hs, hr, hsz, ht, -, -, hdeg⟩ := remount_log hf hg (fun _ _ he => he) polls
  obtain rfl : d = true := hdeg.symm.trans hd
  obtain ⟨s', hs', hk⟩ := stuck_run ops hs (ht.trans hsz.symm) ho
  rw [hr] at hk
  refine ⟨recover_same hf hs'.holds hk, fun htidy hgi hck => ?_⟩
  obtain ⟨s₁, h₁, hr₁, hi₁⟩ := remount_indexes hs'.holds (tidy_killed htidy hk.killed)
    (genuine_killed hgi hk.killed fun _ _ _ hA he => indexes_killed he hA)
  obtain ⟨s₂, h₂, hr₂, hi₂⟩ := recover_indexes hf htidy
  exact view_congr h₁.toSees h₂ hi₁ hi₂ hck fun v => by rw [hr₁, hr₂]; exact hk.has_iff v

/-- A mount that timed out at once knows no key; a compaction then rewrites the
flash from the empty index, and the records are gone. -/
theorem degraded_compact_destroys :
    (remount (run (start 4096 (by decide)) [.put keyA [1], .put keyB [2]]) (some 0)).kv.degraded =
        true ∧
      view (recoverMount (run (start 4096 (by decide)) [.put keyA [1], .put keyB [2]]) none) keyA =
        .ok [1] ∧
      view (recoverMount (run (start 4096 (by decide))
        [.put keyA [1], .put keyB [2], .remount (some 0), .compact]) none) keyA =
          .error .missing := by
  decide +kernel

theorem noStart {es : List Event} (h : es.any Event.isCompactStart = false) (f : RamFlash)
    (kv : TickvLite) : .compactStart f kv ∉ es := fun hm =>
  List.any_eq_false.mp h _ hm rfl

def twoRecords : List Rec := [written (keyA, [1]), written (keyB, [2])]

def twoWorld : World := .boot ⟨logBytes twoRecords ++ zeros 512, by decide +kernel⟩

theorem degraded_keeps_sample :
    (remount twoWorld (some 4)).kv.degraded = true ∧
      view (run (remount twoWorld (some 4)) [.delete keyA, .put keyB [3]]) keyB = .error .missing ∧
      view (recoverMount (run (remount twoWorld (some 4)) [.delete keyA, .put keyB [3]]) none)
        keyB = .ok [2] := by
  have hf : Holds twoWorld.flash twoRecords :=
    image_of_shape (by decide +kernel) (by simp [twoRecords, Rec.Small, written])
  have hn : ∀ r ∈ twoRecords, r.isCkpt = false := by decide +kernel
  have hg : Genuine (Keyed fun _ => True) twoRecords := by
    intro A c B hL hc
    rw [hn c (by rw [hL]; simp)] at hc
    cases hc
  have hrun : (remount twoWorld (some 4)).kv.degraded = true ∧
      view (run (remount twoWorld (some 4)) [.delete keyA, .put keyB [3]]) keyB =
        .error .missing ∧
      view (recoverMount twoWorld none) keyB = .ok [2] := by decide +kernel
  have hdel : (added (remount twoWorld (some 4))
      (step (remount twoWorld (some 4)) (.delete keyA))).any Event.isCompactStart = false := by
    decide +kernel
  have hput : (added (step (remount twoWorld (some 4)) (.delete keyA))
        (step (step (remount twoWorld (some 4)) (.delete keyA)) (.put keyB [3]))).any
        Event.isCompactStart = false ∧
      (put (step (remount twoWorld (some 4)) (.delete keyA)) keyB [3]).1 ≠ .ok () ∧
      view (step (remount twoWorld (some 4)) (.delete keyA)) keyB = .error .missing := by
    decide +kernel
  refine ⟨hrun.1, hrun.2.1, ?_⟩
  rw [← hrun.2.2]
  refine (degraded_keeps hf hg (some 4) hrun.1 [.delete keyA, .put keyB [3]] keyB
    ⟨⟨by simp, ?_, noStart hdel, by simp [Op.items]⟩,
      ⟨by simp, fun hc => hput.2.1 hc.2, noStart hput.1, ?_⟩, trivial⟩).1
  · rintro ⟨hk, -⟩
    exact absurd hk (by decide)
  · intro items hitems p hp
    rw [← Option.some.inj hitems] at hp
    rw [List.mem_singleton.mp hp]
    exact .inr hput.2.2

end NeuralOs.TickvDegraded
