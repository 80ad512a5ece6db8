import NeuralOs.Mesh.Engine

/-!
# Hearing heartbeats

What a node's table holds after a sequence of heartbeats, and how the entries
score against each other and against the node itself.
-/

set_option autoImplicit false

namespace NeuralOs.Mesh.Hearing
open ByteString SlotTable Engine Election

structure Spec where
  nid : UInt8
  tier : NodeTier
  ramMb : ℕ

def Spec.own (s : Spec) : NodeCapabilities := ownCapabilities s.tier s.nid s.ramMb

/-! ### Scores -/

variable {a b x : UInt8}

theorem idOf_lt : idOf a < idOf b ↔ a < b := by
  simp [idOf, List.cons_lt_cons_iff]

theorem idOf_inj : idOf a = idOf b ↔ a = b := by
  simp [idOf]

theorem peer_score (sid : UInt8) (ram : ℕ) : (peerCapabilities sid ram).capacityScore = 1200 := by
  norm_num [NodeCapabilities.capacityScore, peerCapabilities, SimdWeight.asF32,
    NodeTier.scoreBonus]

theorem own_score (s : Spec) : s.own.capacityScore = 1000*s.tier.scoreBonus := by
  simp [NodeCapabilities.capacityScore, Spec.own, ownCapabilities, SimdWeight.asF32]

theorem peer_beats_peer {ra rb : ℕ} :
    beats (peerCapabilities a ra) (peerCapabilities b rb) ↔ a < b := by
  have hid : (peerCapabilities a ra).nodeId < (peerCapabilities b rb).nodeId ↔ a < b := idOf_lt
  simp [beats, peer_score, hid]

/-- A node of tier L0 loses to any peer, one of tier L1 to a smaller id, one of tier L2 or
more to none. -/
def Defeats (s : Spec) (a : UInt8) : Prop := s.tier = .l0 ∨ (s.tier = .l1 ∧ a < s.nid)

instance (s : Spec) (a : UInt8) : Decidable (Defeats s a) := inferInstanceAs (Decidable (_ ∨ _))

theorem peer_beats_own {s : Spec} {ra : ℕ} : beats (peerCapabilities a ra) s.own ↔ Defeats s a := by
  have hid : (peerCapabilities a ra).nodeId < s.own.nodeId ↔ a < s.nid := idOf_lt
  rw [beats, peer_score, own_score, hid, Defeats]
  cases s.tier <;> norm_num [NodeTier.scoreBonus] <;> simp

theorem Defeats.mono {s : Spec} (h : Defeats s b) (hab : a ≤ b) : Defeats s a := by
  rcases h with h | ⟨h, hb⟩
  · exact .inl h
  · exact .inr ⟨h, UInt8.lt_of_le_of_lt hab hb⟩

theorem Defeats.lt {s : Spec} (h : Defeats s a) (hb : ¬Defeats s b) : a < b := by
  by_contra hle
  exact hb (h.mono (UInt8.not_lt.mp hle))

/-! ### Hearing -/

def learn (ids : List UInt8) (sid : UInt8) : List UInt8 :=
  if sid ∈ ids ∨ 16 ≤ ids.length then ids else ids ++ [sid]

def known (senders : List UInt8) : List UInt8 := senders.foldl learn []

theorem fold_learn_sub (l ids : List UInt8) (h : x ∈ l.foldl learn ids) : x ∈ ids ∨ x ∈ l := by
  induction l generalizing ids with
  | nil => exact .inl h
  | cons y l ih =>
    rcases ih (learn ids y) h with h | h
    · rw [learn] at h
      split at h
      · exact .inl h
      · rcases List.mem_append.mp h with h | h
        · exact .inl h
        · exact .inr (by simp [List.mem_singleton.mp h])
    · exact .inr (by simp [h])

theorem learn_sublist (ids : List UInt8) (y : UInt8) : ids.Sublist (learn ids y) := by
  rw [learn]
  split
  · exact .refl _
  · exact List.sublist_append_left _ _

theorem fold_learn_sublist (l ids : List UInt8) : ids.Sublist (l.foldl learn ids) := by
  induction l generalizing ids with
  | nil => exact .refl _
  | cons y l ih => exact (learn_sublist ids y).trans (ih _)

theorem fold_learn_nodup (l ids : List UInt8) (h : ids.Nodup) : (l.foldl learn ids).Nodup := by
  induction l generalizing ids with
  | nil => exact h
  | cons y l ih =>
    refine ih _ ?_
    rw [learn]
    split
    · exact h
    next hy => exact h.append (by simp) (by simp; tauto)

theorem fold_learn_full (l : List UInt8) {ids : List UInt8} (h : 16 ≤ ids.length) :
    l.foldl learn ids = ids := by
  induction l with
  | nil => rfl
  | cons y l ih => rw [List.foldl_cons, learn, if_pos (.inr h), ih]

theorem find_fold_learn (p : UInt8 → Bool) (l ids : List UInt8)
    (hall : ∀ x ∈ l, x ∈ l.foldl learn ids) :
    (l.foldl learn ids).find? p = (ids ++ l).find? p := by
  induction l generalizing ids with
  | nil => simp
  | cons y l ih =>
    have htail : ∀ x ∈ l, x ∈ l.foldl learn (learn ids y) := fun x hx =>
      hall x (List.mem_cons_of_mem _ hx)
    rw [List.foldl_cons, ih _ htail, learn]
    split
    next hold =>
      have hy : y ∈ ids := hold.elim id fun hfull => by
        have := hall y List.mem_cons_self
        rwa [fold_learn_full (y :: l) hfull] at this
      simp only [List.find?_append, List.find?_cons]
      cases hp : p y with
      | false => rfl
      | true =>
        obtain ⟨z, hz⟩ := Option.isSome_iff_exists.mp (List.find?_isSome.mpr ⟨y, hy, hp⟩)
        simp [hz]
    · simp

theorem fold_learn_complete (l ids : List UInt8) (h : x ∈ l) :
    x ∈ l.foldl learn ids ∨ 16 ≤ (l.foldl learn ids).length := by
  induction l generalizing ids with
  | nil => simp at h
  | cons y l ih =>
    rcases List.mem_cons.mp h with rfl | h
    · have hsub := fold_learn_sublist l (learn ids x)
      by_cases hx : x ∈ learn ids x
      · exact .inl (hsub.subset hx)
      · refine .inr (le_trans ?_ hsub.length_le)
        rw [learn] at hx ⊢
        split
        next hc => exact hc.resolve_left fun hin => hx (by simp [hin])
        next hc => simp [hc] at hx
    · exact ih _ h

/-- The peers in the table are those with the given ids, as their heartbeats describe them. -/
structure Knows (s : Spec) (ids : List UInt8) (e : BrainMeshEngine) : Prop where
  own : e.localCapabilities = s.own
  slots : e.nodes.length = 16
  count : e.nodeCount = ids.length
  size : (entries e.nodes).length = ids.length
  heard : ∀ n ∈ entries e.nodes, n.online = true ∧
    ∃ sid ∈ ids, ∃ ram, n.capabilities = peerCapabilities sid ram
  present : ∀ sid ∈ ids, ∃ n ∈ entries e.nodes, n.capabilities.nodeId = idOf sid

theorem knows_new (s : Spec) : Knows s [] (BrainMeshEngine.new s.own) :=
  ⟨rfl, rfl, rfl, rfl, by simp [BrainMeshEngine.new], by simp⟩

variable {s : Spec} {ids : List UInt8} {e : BrainMeshEngine}

theorem Knows.same {e' : BrainMeshEngine} (h : Knows s ids e) (hs : SameMesh e e') :
    Knows s ids e' := by
  have hentries : (entries e'.nodes).map profile = (entries e.nodes).map profile := by
    rw [← entries_map, ← entries_map]
    exact congrArg entries hs.profiles
  have hmem : ∀ n ∈ entries e'.nodes, ∃ n' ∈ entries e.nodes, profile n' = profile n := by
    intro n hn
    have := List.mem_map_of_mem (f := profile) hn
    rw [hentries] at this
    exact List.mem_map.mp this
  have hmem' : ∀ n ∈ entries e.nodes, ∃ n' ∈ entries e'.nodes, profile n' = profile n := by
    intro n hn
    have := List.mem_map_of_mem (f := profile) hn
    rw [← hentries] at this
    exact List.mem_map.mp this
  refine ⟨hs.own.trans h.own, ?_, hs.count.trans h.count, ?_, ?_, ?_⟩
  · simpa [profiles] using (congrArg List.length hs.profiles).trans (by simp [profiles, h.slots])
  · simpa using (congrArg List.length hentries).trans (by simpa using h.size)
  · intro n hn
    obtain ⟨n', hn', hp⟩ := hmem n hn
    obtain ⟨hon, sid, hsid, ram, hcap⟩ := h.heard n' hn'
    exact ⟨(congrArg Prod.snd hp).symm.trans hon, sid, hsid, ram,
      (congrArg Prod.fst hp).symm.trans hcap⟩
  · intro sid hsid
    obtain ⟨n, hn, hid⟩ := h.present sid hsid
    obtain ⟨n', hn', hp⟩ := hmem' n hn
    exact ⟨n', hn', by rw [show n'.capabilities = n.capabilities from congrArg Prod.fst hp, hid]⟩

theorem Knows.lookup_isSome (h : Knows s ids e) (sid : UInt8) :
    (lookup nodeKey (idOf sid) e.nodes).isSome ↔ sid ∈ ids := by
  rw [← not_iff_not, Bool.not_eq_true, Option.isSome_eq_false_iff, Option.isNone_iff_eq_none,
    lookup_eq_none]
  constructor
  · intro hnone hsid
    obtain ⟨n, hn, hid⟩ := h.present sid hsid
    exact hnone n hn hid
  · intro hsid n hn hid
    obtain ⟨-, sid', hsid', ram, hcap⟩ := h.heard n hn
    have : idOf sid' = idOf sid := by rw [← hid, nodeKey, hcap]; rfl
    exact hsid (idOf_inj.mp this ▸ hsid')

theorem Knows.add (h : Knows s ids e) (sid : UInt8) (ram : ℕ) (now : UInt64) :
    Knows s (learn ids sid) (e.addOrUpdateNode (peerCapabilities sid ram) now) := by
  have hlook := h.lookup_isSome sid
  have hid : (peerCapabilities sid ram).nodeId = idOf sid := rfl
  rw [BrainMeshEngine.addOrUpdateNode, hid]
  split
  next hin =>
    have hmem := hlook.mp hin
    rw [learn, if_pos (.inl hmem)]
    refine ⟨h.own, by simpa using h.slots, h.count, by
      rw [entries_modify_length, h.size], ?_, ?_⟩
    · intro n hn
      rcases mem_entries_modify hn with hn | ⟨n', -, -, rfl⟩
      · exact h.heard n hn
      · exact ⟨rfl, sid, hmem, ram, rfl⟩
    · intro sid' hsid'
      obtain ⟨n, hn, hn'⟩ := h.present sid' hsid'
      rcases modify_mem_entries nodeKey (idOf sid) _ hn with hm | ⟨hk, hm⟩
      · exact ⟨n, hm, hn'⟩
      · exact ⟨_, hm, hk.symm.trans hn'⟩
  next hout =>
    have hnot : sid ∉ ids := fun hmem => hout (hlook.mpr hmem)
    have hfree : none ∈ e.nodes ↔ ids.length < 16 := by rw [free_iff, h.size, h.slots]
    split
    next hroom =>
      rw [learn, if_neg (by
        rintro (hc | hc)
        · exact hnot hc
        · exact absurd (hfree.mp hroom.2) (by omega))]
      refine ⟨h.own, by simpa using h.slots, by simp [h.count], by
        rw [entries_fill_length hroom.2, h.size]; simp, ?_, ?_⟩
      · intro n hn
        rcases (mem_entries_fill hroom.2).mp hn with rfl | hn
        · exact ⟨rfl, sid, by simp, ram, rfl⟩
        · obtain ⟨hon, sid', hsid', hcap⟩ := h.heard n hn
          exact ⟨hon, sid', by simp [hsid'], hcap⟩
      · intro sid' hsid'
        rcases List.mem_append.mp hsid' with hsid' | hsid'
        · obtain ⟨n, hn, hn'⟩ := h.present sid' hsid'
          exact ⟨n, (mem_entries_fill hroom.2).mpr (.inr hn), hn'⟩
        · obtain rfl := List.mem_singleton.mp hsid'
          exact ⟨_, (mem_entries_fill hroom.2).mpr (.inl rfl), rfl⟩
    next hroom =>
      have hfull : 16 ≤ ids.length := by
        by_contra hc
        exact hroom ⟨by rw [h.count]; omega, hfree.mpr (by omega)⟩
      rwa [learn, if_pos (.inr hfull)]

theorem Knows.nodup (h : Knows s ids e) (hids : ids.Nodup) :
    ((entries e.nodes).map nodeKey).Nodup := by
  have hsub : ids.map idOf ⊆ (entries e.nodes).map nodeKey := by
    intro k hk
    obtain ⟨x, hx, rfl⟩ := List.mem_map.mp hk
    obtain ⟨n, hn, hid⟩ := h.present x hx
    exact List.mem_map.mpr ⟨n, hn, hid⟩
  have hmap : (ids.map idOf).Nodup := hids.map fun a b hab => idOf_inj.mp hab
  have hperm := (hmap.subperm hsub).perm_of_length_le (by simp [h.size])
  exact hperm.nodup_iff.mp hmap

/-! ### Who is marked as the master -/

/-- The ids that were the least known one when they were learnt, among those that defeat the
node. -/
def Marked (s : Spec) (ids : List UInt8) (x : UInt8) : Prop :=
  Defeats s x ∧ ∃ pre post, ids = pre ++ x :: post ∧ ∀ y ∈ pre, x < y

def Foremost (s : Spec) (ids : List UInt8) (x : UInt8) : Prop :=
  x ∈ ids ∧ Defeats s x ∧ ∀ y ∈ ids, x ≤ y

theorem Marked.mem (h : Marked s ids x) : x ∈ ids := by
  obtain ⟨-, pre, post, rfl, -⟩ := h
  simp

theorem Foremost.marked (h : Foremost s ids x) : Marked s ids x := by
  obtain ⟨hx, hd, hle⟩ := h
  obtain ⟨pre, post, rfl, hnot⟩ := List.eq_append_cons_of_mem hx
  refine ⟨hd, pre, post, rfl, fun y hy => ?_⟩
  exact UInt8.lt_of_le_of_ne (hle y (by simp [hy])) fun he => hnot (he ▸ hy)

theorem marked_learn (x y : UInt8) :
    Marked s (learn ids y) x ↔ Marked s ids x ∨ Foremost s (learn ids y) x := by
  constructor
  · rintro ⟨hd, pre, post, hids, hlt⟩
    by_cases hold : y ∈ ids ∨ 16 ≤ ids.length
    · rw [learn, if_pos hold] at hids
      exact .inl ⟨hd, pre, post, hids, hlt⟩
    rw [learn, if_neg hold] at hids ⊢
    rcases List.eq_nil_or_concat post with rfl | ⟨post, z, rfl⟩
    · -- the id that was learnt last
      obtain ⟨rfl, hyx⟩ := List.append_inj' hids rfl
      obtain rfl : y = x := by simpa using hyx
      refine .inr ⟨by simp, hd, fun z hz => ?_⟩
      rcases List.mem_append.mp hz with hz | hz
      · exact UInt8.le_of_lt (hlt z hz)
      · exact List.mem_singleton.mp hz ▸ UInt8.le_refl _
    · have hids' : ids ++ [y] = (pre ++ x :: post) ++ [z] := by simpa using hids
      exact .inl ⟨hd, pre, post, (List.append_inj' hids' rfl).1, hlt⟩
  · rintro (⟨hd, pre, post, rfl, hlt⟩ | h)
    · obtain ⟨more, hmore⟩ : ∃ more, learn (pre ++ x :: post) y = pre ++ x :: post ++ more := by
        rw [learn]
        split
        · exact ⟨[], by simp⟩
        · exact ⟨[y], rfl⟩
      exact ⟨hd, pre, post ++ more, by simpa using hmore, hlt⟩
    · exact h.marked

theorem marked_only_iff {m : UInt8} :
    (∀ x, Marked s ids x ↔ x = m) ↔ ids.find? (Defeats s ·) = some m ∧ ∀ x ∈ ids, m ≤ x := by
  -- the first id that defeats the node is smaller than those learnt before it
  have hfirst : ∀ {x}, ids.find? (Defeats s ·) = some x → Marked s ids x := by
    intro x hx
    obtain ⟨hd, pre, post, hids, hpre⟩ := List.find?_eq_some_iff_append.mp hx
    have hd' : Defeats s x := by simpa using hd
    exact ⟨hd', pre, post, hids, fun y hy => hd'.lt (by simpa using hpre y hy)⟩
  constructor
  · intro h
    have hm := (h m).mpr rfl
    have hsome : (ids.find? (Defeats s ·)).isSome :=
      List.find?_isSome.mpr ⟨m, hm.mem, by simpa using hm.1⟩
    obtain ⟨x, hx⟩ := Option.isSome_iff_exists.mp hsome
    refine ⟨(h x).mp (hfirst hx) ▸ hx, ?_⟩
    obtain ⟨l, hl, hmin⟩ := ids.toFinset.exists_min_image UInt8.toNat
      ⟨m, List.mem_toFinset.mpr hm.mem⟩
    have hle : ∀ x ∈ ids, l ≤ x := fun x hx => hmin x (List.mem_toFinset.mpr hx)
    have hfore : Foremost s ids l := ⟨List.mem_toFinset.mp hl, hm.1.mono (hle m hm.mem), hle⟩
    exact (h l).mp hfore.marked ▸ hle
  · rintro ⟨hfind, hle⟩ x
    refine ⟨?_, fun hx => hx ▸ hfirst hfind⟩
    rintro ⟨hd, pre, post, rfl, hlt⟩
    by_contra hne
    -- otherwise `m` was learnt before `x`
    have hpre : m ∈ pre := by
      rw [List.find?_append] at hfind
      cases hp : pre.find? (Defeats s ·) with
      | some z =>
        rw [hp] at hfind
        obtain rfl : z = m := by simpa using hfind
        exact List.mem_of_find?_eq_some hp
      | none =>
        rw [hp, List.find?_cons_of_pos (by simpa using hd)] at hfind
        exact absurd (by simpa using hfind) hne
    exact absurd (hlt m hpre) (UInt8.not_lt.mpr (hle x (by simp)))

/-! ### Electing -/

def Leads (s : Spec) (ids : List UInt8) : Prop := ∀ x ∈ ids, ¬Defeats s x

theorem Knows.foremost (h : Knows s ids e) {n : MeshNode} {i : ℕ} (hbest : e.bestNode = some (n, i)) :
    ∃ sid, n.capabilities.nodeId = idOf sid ∧ Foremost s ids sid := by
  obtain ⟨hslot, -, hbeats, hmax⟩ := bestNode_some hbest
  obtain ⟨-, sid, hsid, ram, hcap⟩ := h.heard n (mem_entries.mpr (List.mem_of_getElem? hslot))
  rw [hcap, h.own, peer_beats_own] at hbeats
  refine ⟨sid, by rw [hcap]; rfl, hsid, hbeats, fun x hx => ?_⟩
  obtain ⟨n', hn', hid⟩ := h.present x hx
  obtain ⟨hon, sid', -, ram', hcap'⟩ := h.heard n' hn'
  have hsid' : sid' = x := idOf_inj.mp (by rw [← hid, hcap']; rfl)
  have := hmax n' hn' hon
  rw [hcap, hcap', peer_beats_peer, hsid'] at this
  exact UInt8.not_lt.mp this

theorem Knows.leads_iff (h : Knows s ids e) : e.bestNode = none ↔ Leads s ids := by
  constructor
  · intro hbest x hx hd
    obtain ⟨n, hn, hid⟩ := h.present x hx
    obtain ⟨hon, sid, -, ram, hcap⟩ := h.heard n hn
    have hsid : sid = x := idOf_inj.mp (by rw [← hid, hcap]; rfl)
    have := bestNode_none hbest hn hon
    rw [hcap, h.own, peer_beats_own, hsid] at this
    exact this hd
  · intro hleads
    cases hbest : e.bestNode with
    | none => rfl
    | some b =>
      obtain ⟨sid, -, hsid, hd, -⟩ := h.foremost (n := b.1) (i := b.2) hbest
      exact absurd hd (hleads sid hsid)

theorem Knows.master_iff (h : Knows s ids e) (env : Surroundings) :
    (e.checkElection env).1.isMaster = true ↔ Leads s ids := by
  have hanchor : e.localCapabilities.isAnchored = false := by rw [h.own]; rfl
  rw [← h.leads_iff]
  cases hbest : e.bestNode with
  | none => simp [checkElection_none hbest]
  | some b => simp [checkElection_some (n := b.1) (i := b.2) hanchor hbest]

def Marks (mark : UInt8 → Prop) (e : BrainMeshEngine) : Prop :=
  ∀ n ∈ entries e.nodes, n.role = .master ↔ ∃ x, n.capabilities.nodeId = idOf x ∧ mark x

theorem marks_id {mark : UInt8 → Prop} {k : Bytes} (hk : k = idOf x) :
    (∃ y, k = idOf y ∧ mark y) ↔ mark x := by
  constructor
  · rintro ⟨y, hy, hmark⟩
    exact idOf_inj.mp (hy.symm.trans hk) ▸ hmark
  · exact fun hmark => ⟨x, hk, hmark⟩

theorem Knows.add_marks (h : Knows s ids e) (hmarks : Marks (Marked s ids) e) (sid : UInt8)
    (ram : ℕ) (now : UInt64) :
    Marks (Marked s ids) (e.addOrUpdateNode (peerCapabilities sid ram) now) := by
  have hid : (peerCapabilities sid ram).nodeId = idOf sid := rfl
  rw [BrainMeshEngine.addOrUpdateNode, hid]
  split
  · intro n hn
    rcases mem_entries_modify hn with hn | ⟨n', hn', hk, rfl⟩
    · exact hmarks n hn
    · exact (hmarks n' hn').trans (by rw [show n'.capabilities.nodeId = idOf sid from hk]; rfl)
  next hout =>
    have hnot : sid ∉ ids := fun hmem => hout ((h.lookup_isSome sid).mpr hmem)
    split
    next hroom =>
      intro n hn
      rcases (mem_entries_fill hroom.2).mp hn with rfl | hn
      · refine Iff.intro (fun hrole => by cases hrole) fun hmark => ?_
        exact absurd ((marks_id hid).mp hmark).mem hnot
      · exact hmarks n hn
    · exact hmarks

theorem Knows.elect_marks {mark : UInt8 → Prop} (h : Knows s ids e) (hids : ids.Nodup)
    (hmark : ∀ x, mark x → x ∈ ids ∧ Defeats s x) (hmarks : Marks mark e) (env : Surroundings) :
    Marks (fun x => mark x ∨ Foremost s ids x) (e.checkElection env).1 := by
  have hanchor : e.localCapabilities.isAnchored = false := by rw [h.own]; rfl
  cases hbest : e.bestNode with
  | none =>
    have hnone := h.leads_iff.mp hbest
    intro n hn
    constructor
    · intro hrole
      rw [checkElection_none hbest] at hn
      obtain ⟨x, hx, hm⟩ := (hmarks n (becomeMaster_role hn hrole)).mp hrole
      exact ⟨x, hx, .inl hm⟩
    · rintro ⟨x, -, hm | hm⟩
      · exact absurd (hmark x hm).2 (hnone x (hmark x hm).1)
      · exact absurd hm.2.1 (hnone x hm.1)
  | some b =>
    obtain ⟨m, i⟩ := b
    obtain ⟨sid, hcap, hfore⟩ := h.foremost hbest
    have hslot := (bestNode_some hbest).1
    rw [checkElection_some hanchor hbest]
    intro n hn
    rw [becomeWorker_nodes] at hn
    rcases mem_entries_set_key (h.nodup hids) hslot hn with rfl | ⟨hn, hkey⟩
    · simp only [true_iff]
      exact ⟨sid, hcap, .inr hfore⟩
    · refine (hmarks n hn).trans (exists_congr fun x => and_congr_right fun hx => ?_)
      refine ⟨.inl, fun hm => hm.resolve_right fun hf => hkey ?_⟩
      rw [nodeKey, nodeKey, hx, hcap, UInt8.le_antisymm (hf.2.2 sid hfore.1) (hfore.2.2 x hf.1)]

def hear {n : ℕ} (mesh : Fin n → Spec) (e : BrainMeshEngine) (h : List (Surroundings × Fin n)) :
    BrainMeshEngine :=
  h.foldl (fun e a => (e.heartbeat a.1 (mesh a.2).nid (announcedRam (mesh a.2).ramMb)).1) e

/-- A node that has heard the given ids, with the marks its elections left. -/
structure Settled (s : Spec) (ids : List UInt8) (e : BrainMeshEngine) : Prop where
  knows : Knows s ids e
  nodup : ids.Nodup
  marks : Marks (Marked s ids) e

theorem settled_new (s : Spec) : Settled s [] (BrainMeshEngine.new s.own) :=
  ⟨knows_new s, List.nodup_nil, by simp [Marks, BrainMeshEngine.new]⟩

theorem Settled.elect (h : Settled s ids e) (env : Surroundings) :
    Settled s ids (e.checkElection env).1 := by
  have hmarks := h.knows.elect_marks h.nodup (fun x hx => ⟨hx.mem, hx.1⟩) h.marks env
  refine ⟨h.knows.same (checkElection_same e env), h.nodup, fun n hn => ?_⟩
  refine (hmarks n hn).trans (exists_congr fun x => and_congr_right fun _ => ?_)
  exact ⟨fun hm => hm.elim id Foremost.marked, .inl⟩

theorem Settled.heartbeat (h : Settled s ids e) (env : Surroundings) (sid : UInt8) (ram : ℕ) :
    Settled s (learn ids sid) (e.heartbeat env sid ram).1 := by
  have hknows := h.knows.add sid ram env.now
  have hnodup : (learn ids sid).Nodup := fold_learn_nodup [sid] ids h.nodup
  have hmark : ∀ x, Marked s ids x → x ∈ learn ids sid ∧ Defeats s x := fun x hx =>
    ⟨(learn_sublist ids sid).subset hx.mem, hx.1⟩
  have hmarks := hknows.elect_marks hnodup hmark (h.knows.add_marks h.marks sid ram env.now) env
  refine ⟨hknows.same (checkElection_same _ env), hnodup, fun n hn => ?_⟩
  exact (hmarks n hn).trans (exists_congr fun x => and_congr_right fun _ => (marked_learn x sid).symm)

theorem Settled.hear {n : ℕ} {mesh : Fin n → Spec} (h : Settled s ids e)
    (l : List (Surroundings × Fin n)) :
    Settled s ((l.map fun a => (mesh a.2).nid).foldl learn ids) (hear mesh e l) := by
  induction l generalizing ids e with
  | nil => exact h
  | cons a l ih => exact ih (h.heartbeat a.1 _ _)

end NeuralOs.Mesh.Hearing

/-! ## Agreement on the master -/

namespace NeuralOs.Mesh.Agreement
open ByteString SlotTable Engine Election Hearing

section Mesh

variable {n : ℕ} (mesh : Fin n → Spec) (heard : Fin n → List (Surroundings × Fin n))

def engineOf (i : Fin n) : BrainMeshEngine :=
  hear mesh (BrainMeshEngine.new (mesh i).own) (heard i)

def senders (i : Fin n) : List UInt8 := (heard i).map fun a => (mesh a.2).nid

def knownTo (i : Fin n) : List UInt8 := known (senders mesh heard i)

def elected (envs : Fin n → Surroundings) (i : Fin n) : BrainMeshEngine :=
  ((engineOf mesh heard i).checkElection (envs i)).1

/-- Node `m` alone takes itself for the master, all others know it, and no node marks any
other entry of its table as the master. -/
structure Agrees (envs : Fin n → Surroundings) (m : Fin n) : Prop where
  master : ∀ i, (elected mesh heard envs i).isMaster = true ↔ i = m
  known : ∀ i, i ≠ m → ∃ a ∈ entries (elected mesh heard envs i).nodes,
    a.capabilities.nodeId = idOf (mesh m).nid
  names : ∀ i, ∀ a ∈ entries (elected mesh heard envs i).nodes,
    a.role = .master ↔ a.capabilities.nodeId = idOf (mesh m).nid

/-- One node leads, and any other node knows no smaller id and, of those it knows, heard no
other id first that defeats it. -/
def Elects : Prop :=
  ∃ m, Leads (mesh m) (knownTo mesh heard m) ∧
    ∀ i, i ≠ m → (knownTo mesh heard i).find? (Defeats (mesh i) ·) = some (mesh m).nid ∧
      ∀ x ∈ knownTo mesh heard i, (mesh m).nid ≤ x

/-- The same for a mesh that fits the tables: the node with the least id is of tier L1 or
more, no other node is above L1, and each of them hears it before any other node that
defeats it. Two nodes also agree if the least id is of tier L0 and the other above L1. -/
def Fair : Prop :=
  ∃ a, (∀ i, (mesh a).nid ≤ (mesh i).nid) ∧
    (n = 1 ∨
      ((mesh a).tier ≠ .l0 ∧ ∀ i, i ≠ a → ((mesh i).tier = .l0 ∨ (mesh i).tier = .l1) ∧
        (senders mesh heard i).find? (Defeats (mesh i) ·) = some (mesh a).nid) ∨
      (n = 2 ∧ (mesh a).tier = .l0 ∧
        ∀ i, i ≠ a → (mesh i).tier ≠ .l0 ∧ (mesh i).tier ≠ .l1))

theorem engineOf_settled (i : Fin n) :
    Settled (mesh i) (knownTo mesh heard i) (engineOf mesh heard i) :=
  (settled_new (mesh i)).hear (heard i)

variable {mesh heard} (hids : Function.Injective fun i => (mesh i).nid)
  (hheard : ∀ i j, j ∈ (heard i).map Prod.snd ↔ j ≠ i)

include hheard

theorem mem_knownTo {i : Fin n} {x : UInt8} (h : x ∈ knownTo mesh heard i) :
    ∃ j, j ≠ i ∧ (mesh j).nid = x := by
  rcases fold_learn_sub _ _ h with h | h
  · simp at h
  · obtain ⟨a, ha, rfl⟩ := List.mem_map.mp h
    exact ⟨a.2, (hheard i a.2).mp (List.mem_map_of_mem ha), rfl⟩

theorem others_known (hn : n ≤ 17) {i j : Fin n} (hij : j ≠ i) :
    (mesh j).nid ∈ knownTo mesh heard i := by
  have hsent : (mesh j).nid ∈ (heard i).map fun a => (mesh a.2).nid := by
    obtain ⟨a, ha, rfl⟩ := List.mem_map.mp ((hheard i j).mpr hij)
    exact List.mem_map.mpr ⟨a, ha, rfl⟩
  rcases fold_learn_complete _ [] hsent with h | h
  · exact h
  by_contra hout
  -- the ids known are those of nodes other than `i` and `j`
  have hsub : (knownTo mesh heard i).toFinset ⊆
      ((Finset.univ.erase i).erase j).image fun k => (mesh k).nid := by
    intro x hx
    obtain ⟨k, hk, rfl⟩ := mem_knownTo hheard (List.mem_toFinset.mp hx)
    have hkj : k ≠ j := fun hkj => hout (hkj ▸ List.mem_toFinset.mp hx)
    exact Finset.mem_image_of_mem _ (by simp [hk, hkj])
  have hnodup : (knownTo mesh heard i).Nodup := fold_learn_nodup _ [] List.nodup_nil
  have hcard := (Finset.card_le_card hsub).trans Finset.card_image_le
  rw [List.toFinset_card_of_nodup hnodup, Finset.card_erase_of_mem (by simp [hij]), Finset.card_erase_of_mem (by simp),
    Finset.card_univ, Fintype.card_fin] at hcard
  exact absurd (h.trans hcard) (by omega)

theorem known_first (hn : n ≤ 17) (i : Fin n) (p : UInt8 → Bool) :
    (knownTo mesh heard i).find? p = (senders mesh heard i).find? p := by
  refine find_fold_learn p (senders mesh heard i) [] fun x hx => ?_
  obtain ⟨a, ha, rfl⟩ := List.mem_map.mp hx
  exact others_known hheard hn ((hheard i a.2).mp (List.mem_map_of_mem ha))

include hids

theorem self_not_known (i : Fin n) : (mesh i).nid ∉ knownTo mesh heard i := by
  intro h
  obtain ⟨j, hj, hid⟩ := mem_knownTo hheard h
  exact hj (hids hid)

theorem agrees_iff_elects (envs : Fin n → Surroundings) :
    (∃ m, Agrees mesh heard envs m) ↔ Elects mesh heard := by
  have hset : ∀ i, Settled (mesh i) (knownTo mesh heard i) (elected mesh heard envs i) := fun i =>
    (engineOf_settled mesh heard i).elect (envs i)
  have hmaster : ∀ i, (elected mesh heard envs i).isMaster = true ↔
      Leads (mesh i) (knownTo mesh heard i) := fun i =>
    (engineOf_settled mesh heard i).knows.master_iff (envs i)
  refine exists_congr fun m => ⟨fun h => ⟨(hmaster m).mp ((h.master m).mpr rfl), ?_⟩, ?_⟩
  · intro i hi
    rw [← marked_only_iff]
    intro x
    constructor
    · -- the entry of a marked id is that of `m`
      intro hx
      obtain ⟨a, ha, hid⟩ := (hset i).knows.present x hx.mem
      have := (h.names i a ha).mp (((hset i).marks a ha).mpr ⟨x, hid, hx⟩)
      exact idOf_inj.mp (hid.symm.trans this)
    · rintro rfl
      obtain ⟨a, ha, hid⟩ := h.known i hi
      exact (marks_id hid).mp (((hset i).marks a ha).mp ((h.names i a ha).mpr hid))
  rintro ⟨hm, hothers⟩
  have honly : ∀ i, i ≠ m → ∀ x, Marked (mesh i) (knownTo mesh heard i) x ↔ x = (mesh m).nid :=
    fun i hi => marked_only_iff.mpr (hothers i hi)
  have hmark : ∀ i, i ≠ m → Marked (mesh i) (knownTo mesh heard i) (mesh m).nid := fun i hi =>
    (honly i hi _).mpr rfl
  refine ⟨fun i => ?_, fun i hi => (hset i).knows.present _ (hmark i hi).mem, fun i a ha => ?_⟩
  · rw [hmaster]
    refine ⟨fun hl => ?_, fun hi => hi ▸ hm⟩
    by_contra hi
    exact hl _ (hmark i hi).mem (hmark i hi).1
  rw [(hset i).marks a ha]
  by_cases hi : i = m
  · subst hi
    constructor
    · rintro ⟨x, -, hx⟩
      exact absurd hx.1 (hm x hx.mem)
    · -- a node is not in its own table
      intro hid
      obtain ⟨-, sid, hsid, ram, hcap⟩ := (hset i).knows.heard a ha
      have hself : sid = (mesh i).nid := idOf_inj.mp (by rw [← hid, hcap]; rfl)
      exact absurd (hself ▸ hsid) (self_not_known hids hheard i)
  · constructor
    · rintro ⟨x, hx, hm⟩
      rw [hx, (honly i hi x).mp hm]
    · exact fun hid => ⟨_, hid, hmark i hi⟩

theorem fair_of_elects (hn : n ≤ 17) (h : Elects mesh heard) : Fair mesh heard := by
  obtain ⟨m, hm, hothers⟩ := h
  obtain ⟨a, -, ha⟩ := Finset.exists_min_image Finset.univ (fun i => (mesh i).nid.toNat)
    ⟨m, Finset.mem_univ m⟩
  have hleast : ∀ i, (mesh a).nid ≤ (mesh i).nid := fun i => ha i (Finset.mem_univ i)
  have hknow : ∀ {i j : Fin n}, j ≠ i → (mesh j).nid ∈ knownTo mesh heard i := fun hij =>
    others_known hheard hn hij
  have hdef : ∀ i, i ≠ m → Defeats (mesh i) (mesh m).nid := fun i hi => by
    simpa using List.find?_some (hothers i hi).1
  refine ⟨a, hleast, ?_⟩
  by_cases ham : a = m
  · subst ham
    by_cases hta : (mesh a).tier = .l0
    · -- a leader of tier L0 knows nobody
      have hall : ∀ i, i = a := by
        intro i
        by_contra hi
        exact hm _ (hknow hi) (.inl hta)
      exact .inl (by simpa using Fintype.card_eq_one_iff.mpr ⟨a, hall⟩)
    · refine .inr (.inl ⟨hta, fun i hi => ⟨(hdef i hi).imp_right And.left, ?_⟩⟩)
      rw [← known_first hheard hn]
      exact (hothers i hi).1
  · have htwo : ∀ i, i ≠ a → i = m := by
      intro i hi
      by_contra him
      have := (hothers i him).2 _ (hknow (Ne.symm hi))
      exact ham (hids (UInt8.le_antisymm (hleast m) this))
    have hcard : n = 2 := by
      have huniv : (Finset.univ : Finset (Fin n)) = {a, m} := by
        ext i
        have := htwo i
        simp only [Finset.mem_univ, Finset.mem_insert, Finset.mem_singleton, true_iff]
        tauto
      have := congrArg Finset.card huniv
      rwa [Finset.card_univ, Fintype.card_fin, Finset.card_pair ham] at this
    refine .inr (.inr ⟨hcard, ?_, fun i hi => ?_⟩)
    · exact (hdef a ham).resolve_right fun hlt => UInt8.not_lt.mpr (hleast m) hlt.2
    · obtain rfl := htwo i hi
      have hnot := hm _ (hknow (Ne.symm hi))
      have hlt : (mesh a).nid < (mesh i).nid :=
        UInt8.lt_of_le_of_ne (hleast i) fun h => ham (hids h)
      exact ⟨fun h0 => hnot (.inl h0), fun h1 => hnot (.inr ⟨h1, hlt⟩)⟩

theorem elects_of_fair (hn : n ≤ 17) (h : Fair mesh heard) : Elects mesh heard := by
  obtain ⟨a, hleast, hcase⟩ := h
  rcases hcase with hone | ⟨hta, hothers⟩ | ⟨htwo, hta, hothers⟩
  · have hall : ∀ i j : Fin n, i = j := by
      subst hone
      exact fun i j => Subsingleton.elim i j
    refine ⟨a, fun x hx => ?_, fun i hi => absurd (hall i a) hi⟩
    obtain ⟨j, hj, -⟩ := mem_knownTo hheard hx
    exact absurd (hall j a) hj
  · refine ⟨a, fun x hx => ?_, fun i hi => ⟨?_, fun x hx => ?_⟩⟩
    · obtain ⟨j, -, rfl⟩ := mem_knownTo hheard hx
      rintro (h0 | ⟨-, h1⟩)
      · exact hta h0
      · exact UInt8.not_lt.mpr (hleast j) h1
    · rw [known_first hheard hn]
      exact (hothers i hi).2
    · obtain ⟨j, -, rfl⟩ := mem_knownTo hheard hx
      exact hleast j
  obtain ⟨m, hm⟩ : ∃ m, m ≠ a := by
    subst htwo
    exact exists_ne a
  have honly : ∀ i, i ≠ a → i = m := by
    subst htwo
    intro i hi
    omega
  refine ⟨m, fun x _ => ?_, fun i hi => ?_⟩
  · rintro (h0 | ⟨h1, -⟩)
    · exact (hothers m hm).1 h0
    · exact (hothers m hm).2 h1
  obtain rfl : i = a := by
    by_contra hia
    exact hi (honly i hia)
  have hone : ∀ x ∈ knownTo mesh heard i, x = (mesh m).nid := by
    intro x hx
    obtain ⟨j, hj, rfl⟩ := mem_knownTo hheard hx
    rw [honly j hj]
  have hsome : ((knownTo mesh heard i).find? (Defeats (mesh i) ·)).isSome :=
    List.find?_isSome.mpr ⟨_, others_known hheard hn hm, by simp [Defeats, hta]⟩
  obtain ⟨x, hx⟩ := Option.isSome_iff_exists.mp hsome
  exact ⟨hone x (List.mem_of_find?_eq_some hx) ▸ hx, fun x hx => hone x hx ▸ UInt8.le_refl _⟩

end Mesh

theorem election_agrees_iff {n : ℕ} (mesh : Fin n → Spec)
    (heard : Fin n → List (Surroundings × Fin n)) (envs : Fin n → Surroundings)
    (hids : Function.Injective fun i => (mesh i).nid)
    (hheard : ∀ i j, j ∈ (heard i).map Prod.snd ↔ j ≠ i) :
    ((∃ m, Agrees mesh heard envs m) ↔ Elects mesh heard) ∧
      (n ≤ 17 → ((∃ m, Agrees mesh heard envs m) ↔ Fair mesh heard)) := by
  have h := agrees_iff_elects hids hheard envs
  exact ⟨h, fun hn => h.trans ⟨fair_of_elects hids hheard hn, elects_of_fair hids hheard hn⟩⟩

def quiet : Surroundings := ⟨0, false, 0, fun _ => none⟩

def trio (i : Fin 3) : Spec := ⟨[1, 2, 3].getD i.val 0, .l1, 4096⟩

def trioHeard (back : Bool) (i : Fin 3) : List (Surroundings × Fin 3) :=
  let others := (List.finRange 3).filter (· ≠ i)
  let order := if back then others.reverse else others
  (order ++ order.reverse).map (quiet, ·)

theorem trio_agrees : ∃ m, Agrees trio (trioHeard false) (fun _ => quiet) m :=
  ((election_agrees_iff trio (trioHeard false) (fun _ => quiet) (by decide) (by decide)).2
    (by decide)).mpr ⟨0, by decide, .inr (.inl ⟨by decide, by decide⟩)⟩

-- node 3 hears node 2 first, and keeps calling it a master
example : ¬∃ m, Agrees trio (trioHeard true) (fun _ => quiet) m := by
  rw [agrees_iff_elects (by decide) (by decide)]
  unfold Elects Leads
  decide +kernel

def pair (tier : NodeTier) (i : Fin 2) : Spec := ⟨if i = 0 then 1 else 2, tier, 4096⟩

def pairHeard (i : Fin 2) : List (Surroundings × Fin 2) := [(quiet, 1-i)]

/-- Two datacenter nodes: each takes itself for the master. -/
theorem two_masters :
    (∀ i, (elected (pair .l4) pairHeard (fun _ => quiet) i).isMaster = true) ∧
      ¬∃ m, Agrees (pair .l4) pairHeard (fun _ => quiet) m := by
  have hboth : ∀ i, (elected (pair .l4) pairHeard (fun _ => quiet) i).isMaster = true := by
    decide +kernel
  refine ⟨hboth, ?_⟩
  rintro ⟨m, h⟩
  have h0 := (h.master 0).mp (hboth 0)
  have h1 := (h.master 1).mp (hboth 1)
  exact absurd (h0.trans h1.symm) (by decide)

end NeuralOs.Mesh.Agreement
